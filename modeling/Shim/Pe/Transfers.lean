import Shim.Pe.Excluded

/-! # What loading an image copies

The copies and zero fills of `handle_image` (pe.c), as a list of what each reads of the file and
where it writes. The image in memory is the list applied in order. `alloc_size` is kept in 32 bits,
which is where an image can come out larger than its pages.
-/

namespace Shim

open Bytes (sub64)

/-- A `CopyMem` from the file, or a `ZeroMem`: what it reads, and what it writes by offset from
`buffer`. -/
structure Transfer where
  source : Option Chunk
  target : Chunk
  deriving DecidableEq

/-- The bytes a transfer leaves behind. -/
def Transfer.apply (r : Region) (m : ℕ → UInt8) (t : Transfer) : ℕ → UInt8 :=
  match t.source with
  | none => ByteMap.zero m t.target.1 t.target.2
  | some chunk => ByteMap.fill m t.target.1 t.target.2 fun i => r.byte (chunk.1 + i)

/-- The copy of the headers. -/
def headerTransfer (context : Context) : Transfer :=
  ⟨some (0, context.sizeOfHeaders), (0, context.sizeOfHeaders)⟩

/-- The copy of a section and the zero fill behind it. -/
def sectionTransfers (s : SectionHeader) : List Transfer :=
  if s.has scnCntUninitializedData then [⟨none, (s.virtualAddress, s.virtualSize)⟩]
  else
    let size := min s.virtualSize s.sizeOfRawData
    (if 0 < size then [⟨some (s.pointerToRawData, size), (s.virtualAddress, size)⟩] else []) ++
      if size < s.virtualSize then [⟨none, (s.virtualAddress + size, s.virtualSize - size)⟩] else []

/-- The loop over the sections gets to a section's copy, if it does not refuse it before. -/
def SectionHeader.copied (s : SectionHeader) : Bool :=
  s.has scnMemRead && !s.has scnMemDiscardable

/-- The transfers of the loop over the sections, up to where it stops. -/
def loopTransfers (p : Platform) (r : Region) (context : Context) (buffer : ℕ)
    (relocDir : Option ℕ × Option ℕ) : LoadState → List SectionHeader → List Transfer
  | _, [] => []
  | st, s :: rest =>
    match loadSection p r context buffer relocDir st s with
    | .error _ => []
    | .ok st' => (if s.copied then sectionTransfers s else []) ++
        loopTransfers p r context buffer relocDir st' rest

/-- `alloc_size`, an `unsigned int`. -/
def allocSize (context : Context) : ℕ :=
  alignValue (context.imageSize + context.sectionAlignment) 4096 % 2 ^ 32

/-- `*alloc_pages`. -/
def allocPages (context : Context) : ℕ := allocSize context / 4096

/-- The image's `buffer` in the pages at `address`. -/
def imageBuffer (context : Context) (address : ℕ) : ℕ := alignValue address context.sectionAlignment

/-- The copies and zero fills of `handle_image` once the pages at `address` are allocated. -/
def loadTransfers (p : Platform) (r : Region) (context : Context) (address : ℕ)
    (m : ℕ → UInt8) : List Transfer :=
  let buffer := imageBuffer context address
  headerTransfer context ::
    if imageAddress buffer context.imageSize context.entryPoint = none then []
    else loopTransfers p r context buffer (relocDirVma r context buffer)
      ⟨(headerTransfer context).apply r m, none, 0⟩ (sectionHeaders r context)

/-! ## The image is the transfers applied -/

section Apply

variable {p : Platform} {r : Region} {context : Context} {buffer : ℕ}
  {relocDir : Option ℕ × Option ℕ} {st st' : LoadState} {s : SectionHeader}

/-- Filling nothing changes nothing. -/
theorem fill_nothing (m : ℕ → UInt8) (o : ℕ) (source : ℕ → UInt8) :
    ByteMap.fill m o 0 source = m := by
  funext i
  unfold ByteMap.fill
  rw [if_neg (by omega)]

/-- Copying a section is its transfers in order. -/
theorem copySection_eq (m : ℕ → UInt8) :
    copySection r s m = (sectionTransfers s).foldl (Transfer.apply r) m := by
  unfold copySection sectionTransfers
  split
  · rfl
  · dsimp only
    rw [List.foldl_append]
    by_cases hcopy : 0 < min s.virtualSize s.sizeOfRawData
    · rw [if_pos hcopy]
      by_cases hzero : min s.virtualSize s.sizeOfRawData < s.virtualSize
      · rw [if_pos hzero]
        rfl
      · rw [if_neg hzero, show s.virtualSize - min s.virtualSize s.sizeOfRawData = 0 by omega]
        exact fill_nothing _ _ _
    · rw [if_neg hcopy, show min s.virtualSize s.sizeOfRawData = 0 by omega, fill_nothing]
      by_cases hzero : 0 < s.virtualSize
      · rw [if_pos hzero]
        rfl
      · rw [if_neg hzero, show s.virtualSize - 0 = 0 by omega]
        exact fill_nothing _ _ _

/-- An address in the image is itself. -/
theorem imageAddress_of_ne_none {base size address : ℕ} (h : imageAddress base size address ≠ none) :
    address < size ∧ imageAddress base size address = some address := by
  unfold imageAddress at *
  split at h
  · exact absurd rfl h
  · rename_i hlt
    split at h
    · exact absurd rfl h
    · rename_i hwrap
      exact ⟨by omega, by rw [if_neg hlt, if_neg hwrap]⟩

/-- What a turn of the loop does to the image: nothing, or it copies a section whose first and last
byte are in the image, in this order. -/
theorem loadSection_ok (h : loadSection p r context buffer relocDir st s = .ok st') :
    (s.copied = false ∧ st'.memory = st.memory) ∨
      (s.copied = true ∧ st'.memory = copySection r s st.memory ∧
        s.virtualAddress ≤ s.last ∧ s.last < context.imageSize) := by
  unfold loadSection at h
  split at h
  · rename_i hsize
    obtain rfl := Except.ok.inj h
    exact .inl ⟨by simp [SectionHeader.copied, hsize.1], rfl⟩
  split at h
  · rename_i hread
    obtain rfl := Except.ok.inj h
    exact .inl ⟨by simp [SectionHeader.copied, hread], rfl⟩
  rename_i hread
  simp only [failIf_bind_ok] at h
  -- the checks on the addresses come before the one for discardable sections
  obtain ⟨-, horder, h⟩ := h
  obtain ⟨reloc, -, h⟩ := exists_of_bind_ok h
  split at h
  · rename_i hdisc
    obtain rfl := Except.ok.inj h
    exact .inl ⟨by simp [SectionHeader.copied, hdisc], rfl⟩
  · rename_i hdisc
    simp only [failIf_bind_ok] at h
    obtain ⟨hbase, hlast, -, h⟩ := h
    obtain rfl := Except.ok.inj h
    refine .inr ⟨?_, rfl, ?_⟩
    · rw [not_not] at hread
      simp [SectionHeader.copied, hread, hdisc]
    · rw [(imageAddress_of_ne_none hbase).2, (imageAddress_of_ne_none hlast).2] at horder
      exact ⟨by simpa [pointerLt] using horder, (imageAddress_of_ne_none hlast).1⟩

/-- The loop over the sections applies its transfers. -/
theorem memory_of_loop {sections : List SectionHeader}
    (h : sections.foldlM (loadSection p r context buffer relocDir) st = .ok st') :
    st'.memory = (loopTransfers p r context buffer relocDir st sections).foldl (Transfer.apply r)
      st.memory := by
  induction sections generalizing st with
  | nil =>
    obtain rfl := Except.ok.inj h
    rfl
  | cons s rest ih =>
    rw [List.foldlM_cons] at h
    obtain ⟨st₁, hs, h⟩ := exists_of_bind_ok h
    unfold loopTransfers
    rw [hs]
    dsimp only
    rw [List.foldl_append, ih h]
    rcases loadSection_ok hs with ⟨hcopied, hmem⟩ | ⟨hcopied, hmem, -⟩
    · rw [hmem, hcopied]
      rfl
    · rw [hmem, hcopied, copySection_eq]
      rfl

/-- A loaded image is the transfers applied in order, and the fixups behind them. -/
theorem memory_of_loadImage {address : ℕ} {m : ℕ → UInt8} {image : LoadedImage}
    (h : loadImage p r context (some address) m = .ok image) :
    ∃ fixups : List Fixup, image.memory = fixups.foldl Fixup.apply
      ((loadTransfers p r context address m).foldl (Transfer.apply r) m) := by
  unfold loadImage at h
  simp only [failIf_bind_ok] at h
  obtain ⟨hentry, h⟩ := h
  obtain ⟨st, hloop, h⟩ := exists_of_bind_ok h
  simp only [failIf_bind_ok] at h
  obtain ⟨-, h⟩ := h
  obtain ⟨fixups, -, h⟩ := exists_of_bind_ok h
  simp only [failIf_bind_ok] at h
  obtain ⟨-, -, h⟩ := h
  obtain rfl := Except.ok.inj h
  refine ⟨fixups, ?_⟩
  have htransfers : loadTransfers p r context address m = headerTransfer context ::
      loopTransfers p r context (imageBuffer context address)
        (relocDirVma r context (imageBuffer context address))
        ⟨(headerTransfer context).apply r m, none, 0⟩ (sectionHeaders r context) :=
    congrArg (headerTransfer context :: ·) (if_neg hentry)
  have hheader : (headerTransfer context).apply r m =
      ByteMap.fill m 0 context.sizeOfHeaders r.byte := by
    unfold Transfer.apply headerTransfer
    simp only [Nat.zero_add]
  rw [memory_of_loop hloop, htransfers, List.foldl_cons, hheader]
  rfl

end Apply

/-! ## Bounds -/

/-- The reads of a transfer lie in the file, its writes between two addresses. -/
structure Transfer.InBounds (t : Transfer) (fileSize buffer first last : ℕ) : Prop where
  source : ∀ chunk ∈ t.source, chunk.1 + chunk.2 ≤ fileSize
  target : first ≤ buffer + t.target.1 ∧ buffer + t.target.1 + t.target.2 ≤ last

/-- Every transfer reads in the file, and writes in the pages allocated. -/
def LoadsInBounds (p : Platform) (r : Region) (context : Context) (address : ℕ)
    (m : ℕ → UInt8) : Prop :=
  ∀ t ∈ loadTransfers p r context address m, t.InBounds r.size (imageBuffer context address) address
    (address + 4096 * allocPages context)

/-- Aligning moves up by less than the alignment, a power of two or not. -/
theorem alignValue_bounds {value alignment : ℕ} (halign : 0 < alignment)
    (hroom : value + alignment ≤ 2 ^ 64) :
    value ≤ alignValue value alignment ∧ alignValue value alignment < value + alignment := by
  have hand : sub64 alignment value &&& (alignment - 1) ≤ alignment - 1 := Nat.and_le_right
  unfold alignValue
  rw [Nat.mod_eq_of_lt (by omega)]
  omega

/-- Rounding up to a page. -/
theorem alignValue_page {value : ℕ} (hroom : value + 4096 ≤ 2 ^ 64) :
    alignValue value 4096 = (value + 4095) / 4096 * 4096 := by
  have hmask : sub64 4096 value &&& (4096 - 1) = sub64 4096 value % 4096 :=
    Nat.and_two_pow_sub_one_eq_mod (sub64 4096 value) 12
  unfold alignValue
  rw [hmask]
  unfold sub64
  omega

section Bounds

variable {p : Platform} {A : PeFile} {context : Context} {chunks : List Chunk}
  {relocDir : Option ℕ × Option ℕ} {buffer address first last : ℕ} {m : ℕ → UInt8}

/-- Section headers hold 32-bit fields. -/
theorem mem_sectionHeaders_lt {s : SectionHeader} (hs : s ∈ sectionHeaders A.toRegion context) :
    s.virtualAddress < 2 ^ 32 ∧ s.virtualSize < 2 ^ 32 := by
  obtain ⟨i, -, rfl⟩ := List.mem_map.mp hs
  exact ⟨A.u32_lt _, A.u32_lt _⟩

/-- A section whose last byte does not come before its first lies in front of its end. -/
theorem SectionHeader.last_eq {s : SectionHeader} (hva : s.virtualAddress < 2 ^ 32)
    (hvs : s.virtualSize < 2 ^ 32) (horder : s.virtualAddress ≤ s.last)  :
    s.virtualAddress + s.virtualSize ≤ s.last + 1 := by
  unfold SectionHeader.last sub32 add32 at *
  omega

/-- The transfers of a section stay in the file and in the image. -/
theorem Accepted.sectionTransfers_inBounds (h : Accepted p A context chunks) {s : SectionHeader}
    (hs : s ∈ sectionHeaders A.toRegion context) (horder : s.virtualAddress ≤ s.last)
    (hlast : s.last < context.imageSize) (hfirst : first ≤ buffer)
    (hend : buffer + context.imageSize ≤ last) :
    ∀ t ∈ sectionTransfers s, t.InBounds A.size buffer first last := by
  obtain ⟨hva, hvs⟩ := mem_sectionHeaders_lt hs
  have hstop := SectionHeader.last_eq hva hvs horder
  intro t ht
  unfold sectionTransfers at ht
  split at ht
  · rw [List.mem_singleton.mp ht]
    exact ⟨by simp, by simp only; omega⟩
  · rcases List.mem_append.mp ht with ht | ht
    · split at ht
      · rw [List.mem_singleton.mp ht]
        obtain ⟨-, hraw⟩ := h.hashFacts.sections s hs (by omega)
        refine ⟨?_, by simp only; omega⟩
        rintro chunk ⟨⟩
        simp only
        omega
      · simp at ht
    · split at ht
      · rw [List.mem_singleton.mp ht]
        exact ⟨by simp, by simp only; omega⟩
      · simp at ht

/-- So do those of the loop. -/
theorem Accepted.loopTransfers_inBounds (h : Accepted p A context chunks)
    {sections : List SectionHeader} (hsections : sections ⊆ sectionHeaders A.toRegion context)
    (hfirst : first ≤ buffer) (hend : buffer + context.imageSize ≤ last) (st : LoadState) :
    ∀ t ∈ loopTransfers p A.toRegion context buffer relocDir st sections,
      t.InBounds A.size buffer first last := by
  induction sections generalizing st with
  | nil => simp [loopTransfers]
  | cons s rest ih =>
    intro t ht
    unfold loopTransfers at ht
    split at ht
    · simp at ht
    · rename_i st' hload
      have hs := hsections List.mem_cons_self
      rcases List.mem_append.mp ht with ht | ht
      · rcases loadSection_ok hload with ⟨hcopied, -⟩ | ⟨hcopied, -, horder, hlast⟩
        · simp [hcopied] at ht
        · rw [if_pos hcopied] at ht
          exact h.sectionTransfers_inBounds hs horder hlast hfirst hend t ht
      · exact ih (fun u hu => hsections (List.mem_cons_of_mem _ hu)) st' t ht

/-- The image has room in the pages, unless their number is cut to 32 bits. -/
theorem Accepted.room (h : Accepted p A context chunks)
    (hfits : context.imageSize + context.sectionAlignment ≤ 2 ^ 32 - 4096)
    (hpages : address + 4096 * allocPages context ≤ 2 ^ 64) :
    address ≤ imageBuffer context address ∧
      imageBuffer context address + context.imageSize ≤ address + 4096 * allocPages context := by
  have halign : 0 < context.sectionAlignment := by
    rw [h.headerFacts.context_eq]
    change 0 < sectionAlignment _ _
    unfold sectionAlignment fileAlignment
    split <;> split <;> omega
  have hsize : allocSize context =
      (context.imageSize + context.sectionAlignment + 4095) / 4096 * 4096 := by
    unfold allocSize
    rw [alignValue_page (by omega)]
    omega
  have hpage : 4096 * allocPages context = allocSize context := by
    unfold allocPages
    omega
  obtain ⟨hle, hlt⟩ := @alignValue_bounds address _ halign (by omega)
  unfold imageBuffer
  omega

/-- An image whose size, with the alignment and rounded to pages, fits in 32 bits is loaded inside
the file and its pages. -/
theorem loadsInBounds_of_fits (h : Accepted p A context chunks)
    (hfits : context.imageSize + context.sectionAlignment ≤ 2 ^ 32 - 4096)
    (hpages : address + 4096 * allocPages context ≤ 2 ^ 64) :
    LoadsInBounds p A.toRegion context address m := by
  obtain ⟨hfirst, hend⟩ := h.room hfits hpages
  have hheaders := h.headerFacts.headers_le
  intro t ht
  rcases List.mem_cons.mp ht with rfl | ht
  · refine ⟨?_, by simp only [headerTransfer]; omega⟩
    rintro chunk ⟨⟩
    have hsize := h.layout.2.2.2
    simpa using hsize
  · split at ht
    · simp at ht
    · exact h.loopTransfers_inBounds (fun _ hs => hs) hfirst hend _ t ht

end Bounds

/-- The code of the image is copied, and its relocation section is not. -/
theorem loadsInBounds_relocatedFile :
    LoadsInBounds platformX64 relocatedFile.toRegion relocatedContext 0x200000 fun _ => 0 :=
  loadsInBounds_of_fits accepted_relocatedFile (by decide +kernel) (by decide +kernel)

/-- An image that declares one byte more than `2^32` less a page: with the page added for its
alignment, one page is allocated. Its headers are two pages long. -/
def wideImage : PeFile where
  toRegion := .ofFields 0x10000 8192
    [(0, [0x4d, 0x5a]), (60, [64]), (64, [0x50, 0x45]), (68, [0x64, 0x86]), (84, [152]),
     (88, [0x0b, 0x02]), (144, [0x01, 0xf0, 0xff, 0xff]), (148, [0x00, 0x20]), (196, [5])]
  size_lt := by decide
  room := by decide

/-- The copy of its headers writes behind the page. -/
theorem not_loadsInBounds_wideImage :
    Accepted platformX64 wideImage (contextAt wideImage.toRegion 64)
        [(0, 152), (156, 76), (240, 7952)] ∧
      ¬ LoadsInBounds platformX64 wideImage.toRegion (contextAt wideImage.toRegion 64) 0x200000
        fun _ => 0 := by
  refine ⟨⟨by decide +kernel, by decide +kernel⟩, fun h => ?_⟩
  have htarget := (h _ List.mem_cons_self).target.2
  exact absurd htarget (by decide +kernel)

end Shim
