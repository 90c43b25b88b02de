import Shim.Pe.Transfers

/-! # Page permissions of a loaded image

`update_mem_attrs` (pe.c) and the two places of `handle_image` that call it. The memory attribute
protocol is a map from page numbers to protection bits whose calls succeed. An update either is
dropped or overwrites the bits of its pages, so a page ends up as the last update that covers it
says.
-/

namespace Shim

open Bytes (sub64)

/-! ## Attributes -/

/-- `MEM_ATTR_R`, `MEM_ATTR_W` and `MEM_ATTR_X`. -/
structure MemAttrs where
  r : Bool
  w : Bool
  x : Bool
  deriving DecidableEq

/-- `EFI_MEMORY_RP`, `EFI_MEMORY_RO` and `EFI_MEMORY_XP`, of a page or in a mask. -/
structure PageBits where
  rp : Bool
  ro : Bool
  xp : Bool
  deriving DecidableEq

/-- A page that can be written and executed. -/
def PageBits.WritableExecutable (b : PageBits) : Prop := b.ro = false ∧ b.xp = false

instance (b : PageBits) : Decidable b.WritableExecutable := inferInstanceAs (Decidable (_ ∧ _))

/-- `shim_mem_attrs_to_uefi_mem_attrs`. -/
def shimMemAttrsToUefiMemAttrs (attrs : MemAttrs) : PageBits := ⟨!attrs.r, !attrs.w, !attrs.x⟩

/-- `SetMemoryAttributes` on one page. -/
def PageBits.set (b mask : PageBits) : PageBits := ⟨b.rp || mask.rp, b.ro || mask.ro, b.xp || mask.xp⟩

/-- `ClearMemoryAttributes` on one page. -/
def PageBits.clear (b mask : PageBits) : PageBits :=
  ⟨b.rp && !mask.rp, b.ro && !mask.ro, b.xp && !mask.xp⟩

/-- The protection bits of memory, by page number. -/
abbrev PageMap := ℕ → PageBits

/-- A call of `update_mem_attrs`. -/
structure AttrUpdate where
  addr : ℕ
  size : ℕ
  setAttrs : MemAttrs
  clearAttrs : MemAttrs

/-- The call gets to the protocol: the range is made of whole pages, and not empty. -/
def AttrUpdate.pageAligned (u : AttrUpdate) : Bool := u.addr % 4096 = 0 ∧ u.size % 4096 = 0 ∧ u.size ≠ 0

/-- The page is in the range of a call that gets to the protocol. -/
def AttrUpdate.covers (u : AttrUpdate) (page : ℕ) : Bool :=
  u.pageAligned && decide (u.addr ≤ 4096 * page ∧ 4096 * page < u.addr + u.size)

/-- `update_mem_attrs`. A mask of no bits is not passed on, which changes nothing. -/
def updateMemAttrs (pages : PageMap) (u : AttrUpdate) : PageMap := fun page =>
  if u.covers page then
    ((pages page).set (shimMemAttrsToUefiMemAttrs u.setAttrs)).clear
      (shimMemAttrsToUefiMemAttrs u.clearAttrs)
  else pages page

/-! ## The updates of handle_image -/

/-- The update of the whole allocation: readable and writable, not executable. -/
def allocUpdate (context : Context) (buffer : ℕ) : AttrUpdate :=
  ⟨buffer, allocSize context, ⟨true, true, false⟩, ⟨false, false, true⟩⟩

/-- The update of a section by its flags. -/
def sectionUpdate (context : Context) (buffer : ℕ) (s : SectionHeader) : AttrUpdate :=
  let base := imageAddress buffer context.imageSize s.virtualAddress
  let last := imageAddress buffer context.imageSize s.last
  let addr := base.elim 0 (buffer + ·)
  { addr := addr
    size := alignValue ((sub64 (last.elim 0 (buffer + ·)) addr + 1) % 2 ^ 64) 4096
    setAttrs := ⟨true, s.has scnMemWrite, s.has scnMemExecute⟩
    clearAttrs := ⟨false, !s.has scnMemWrite, !s.has scnMemExecute⟩ }

/-- The loop over the sections leaves out empty discardable and unreadable ones. -/
def SectionHeader.updated (s : SectionHeader) : Bool :=
  !(s.has scnMemDiscardable && s.virtualSize == 0) && s.has scnMemRead

/-- The updates `handle_image` makes for an image it loads, in order. -/
def attrUpdates (r : Region) (context : Context) (address : ℕ) : List AttrUpdate :=
  let buffer := imageBuffer context address
  allocUpdate context buffer ::
    ((sectionHeaders r context).filter SectionHeader.updated).map (sectionUpdate context buffer)

/-- The page permissions when `handle_image` returns. -/
def pagesAfter (r : Region) (context : Context) (address : ℕ) (pages : PageMap) : PageMap :=
  (attrUpdates r context address).foldl updateMemAttrs pages

/-! ## The last update counts -/

/-- An update says which of the two bits are set on its pages: what it does not set, it clears. -/
structure AttrUpdate.Total (u : AttrUpdate) : Prop where
  write : u.clearAttrs.w = !u.setAttrs.w
  execute : u.clearAttrs.x = !u.setAttrs.x

/-- A page is left writable and executable only by an update that says so. -/
theorem AttrUpdate.Total.writableExecutable {u : AttrUpdate} (h : u.Total) {pages : PageMap}
    {page : ℕ} (hcovers : u.covers page) : (updateMemAttrs pages u page).WritableExecutable ↔
      u.setAttrs.w ∧ u.setAttrs.x := by
  unfold updateMemAttrs
  rw [if_pos hcovers]
  simp only [PageBits.WritableExecutable, PageBits.set, PageBits.clear, shimMemAttrsToUefiMemAttrs,
    h.write, h.execute]
  cases u.setAttrs.w <;> cases u.setAttrs.x <;> simp

/-- The last update in a list that covers a page. -/
def lastUpdate (updates : List AttrUpdate) (page : ℕ) : Option AttrUpdate :=
  updates.reverse.find? fun u => u.covers page

/-- A page that no update covers stays as it was; one that is covered is as the last one says. -/
theorem writableExecutable_foldl {updates : List AttrUpdate} (h : ∀ u ∈ updates, u.Total)
    (pages : PageMap) (page : ℕ) :
    (updates.foldl updateMemAttrs pages page).WritableExecutable ↔
      match lastUpdate updates page with
      | none => (pages page).WritableExecutable
      | some u => u.setAttrs.w ∧ u.setAttrs.x := by
  induction updates using List.reverseRecOn with
  | nil => rfl
  | append_singleton updates u ih =>
    rw [List.foldl_append]
    unfold lastUpdate at ih ⊢
    rw [List.reverse_append, List.reverse_singleton, List.singleton_append]
    by_cases hcovers : u.covers page
    · rw [List.find?_cons_of_pos (p := fun v : AttrUpdate => v.covers page) hcovers]
      exact (h u (by simp)).writableExecutable hcovers
    · rw [List.find?_cons_of_neg (p := fun v : AttrUpdate => v.covers page) hcovers,
        ← ih fun v hv => h v (by simp [hv])]
      change (updateMemAttrs _ u page).WritableExecutable ↔ _
      unfold updateMemAttrs
      rw [if_neg hcovers]

/-- Every update sets or clears each attribute. -/
theorem total_of_mem_attrUpdates {r : Region} {context : Context} {address : ℕ} :
    ∀ u ∈ attrUpdates r context address, u.Total := by
  intro u hu
  rcases List.mem_cons.mp hu with rfl | hu
  · exact ⟨rfl, rfl⟩
  · obtain ⟨s, -, rfl⟩ := List.mem_map.mp hu
    exact ⟨rfl, rfl⟩

/-! ## Writable and executable pages -/

section Nx

variable {p : Platform} {r : Region} {context : Context} {buffer address : ℕ}
  {relocDir : Option ℕ × Option ℕ} {m : ℕ → UInt8} {image : LoadedImage}

/-- A page that has a byte of the image at `buffer`. -/
def InImage (context : Context) (buffer page : ℕ) : Prop :=
  buffer < 4096 * (page + 1) ∧ 4096 * page < buffer + context.imageSize

/-- No page of the image can be written and executed. -/
def NxHolds (r : Region) (context : Context) (address : ℕ) (pages : PageMap) : Prop :=
  ∀ page, InImage context (imageBuffer context address) page →
    ¬ (pagesAfter r context address pages page).WritableExecutable

/-- The last section of the table whose update covers a page. -/
def lastSection (r : Region) (context : Context) (buffer page : ℕ) : Option SectionHeader :=
  ((sectionHeaders r context).filter SectionHeader.updated).reverse.find? fun s =>
    (sectionUpdate context buffer s).covers page

/-- The last update of a page is that of its last section, or else that of the allocation. -/
theorem lastUpdate_attrUpdates (page : ℕ) :
    lastUpdate (attrUpdates r context address) page =
      ((lastSection r context (imageBuffer context address) page).map
          (sectionUpdate context (imageBuffer context address))).or
        (if (allocUpdate context (imageBuffer context address)).covers page then
          some (allocUpdate context (imageBuffer context address)) else none) := by
  unfold lastUpdate attrUpdates lastSection
  rw [List.reverse_cons, List.find?_append, ← List.map_reverse, List.find?_map]
  congr 1
  rw [List.find?_singleton]

/-- The loop over the sections gets to each of them. -/
theorem exists_of_foldlM_ok {α β : Type} {f : α → β → Except EfiStatus α} {l : List β} {a b : α}
    (h : l.foldlM f a = .ok b) : ∀ c ∈ l, ∃ a' b', f a' c = .ok b' := by
  induction l generalizing a with
  | nil => simp
  | cons c l ih =>
    rw [List.foldlM_cons] at h
    obtain ⟨a₁, hc, h⟩ := exists_of_bind_ok h
    intro d hd
    rcases List.mem_cons.mp hd with rfl | hd
    · exact ⟨a, a₁, hc⟩
    · exact ih h d hd

/-- With the policy, the loop lets no section through that is writable and executable, unless it is
discardable. -/
theorem loadSection_nx {st st' : LoadState} {s : SectionHeader} (hnx : p.requireNx = true)
    (h : loadSection p r context buffer relocDir st s = .ok st') (hs : s.updated = true)
    (hdisc : ¬ s.has scnMemDiscardable) : ¬ (s.has scnMemWrite ∧ s.has scnMemExecute) := by
  unfold loadSection at h
  simp only [SectionHeader.updated, Bool.and_eq_true, Bool.not_eq_true'] at hs
  rw [if_neg (fun hskip => hdisc hskip.1), if_neg (not_not.mpr hs.2)] at h
  simp only [failIf_bind_ok] at h
  exact fun hboth => h.1 ⟨hdisc, hboth.1, hboth.2, hnx⟩

/-- Every page of the image is covered by an update, and the last section that covers it is not a
discardable one that is writable and executable. -/
def NxCovered (r : Region) (context : Context) (address : ℕ) : Prop :=
  ∀ page, InImage context (imageBuffer context address) page →
    match lastSection r context (imageBuffer context address) page with
    | none => (allocUpdate context (imageBuffer context address)).covers page
    | some s => s.has scnMemDiscardable → ¬ (s.has scnMemWrite ∧ s.has scnMemExecute)

/-- Whatever permissions the allocated pages had, those of an image that is loaded under the policy
are never writable and executable exactly if the image is covered. -/
theorem nxHolds_iff (hnx : p.requireNx = true)
    (h : loadImage p r context (some address) m = .ok image) :
    (∀ pages, NxHolds r context address pages) ↔ NxCovered r context address := by
  have hloaded : ∀ s ∈ sectionHeaders r context, s.updated = true → ¬ s.has scnMemDiscardable →
      ¬ (s.has scnMemWrite ∧ s.has scnMemExecute) := by
    intro s hs hupdated hdisc
    unfold loadImage at h
    obtain ⟨-, -, h⟩ := exists_of_bind_ok h
    obtain ⟨st, hloop, -⟩ := exists_of_bind_ok h
    obtain ⟨st₁, st₂, hturn⟩ := exists_of_foldlM_ok hloop s hs
    exact loadSection_nx hnx hturn hupdated hdisc
  have hpage : ∀ pages page, (pagesAfter r context address pages page).WritableExecutable ↔
      match lastSection r context (imageBuffer context address) page with
      | none => ¬ (allocUpdate context (imageBuffer context address)).covers page ∧
          (pages page).WritableExecutable
      | some s => s.has scnMemWrite ∧ s.has scnMemExecute := by
    intro pages page
    unfold pagesAfter
    rw [writableExecutable_foldl total_of_mem_attrUpdates, lastUpdate_attrUpdates]
    cases lastSection r context (imageBuffer context address) page with
    | none =>
      have hx : (allocUpdate context (imageBuffer context address)).setAttrs.x = false := rfl
      by_cases hcovers : (allocUpdate context (imageBuffer context address)).covers page
      · simp [hcovers, hx]
      · simp [hcovers]
    | some s => rfl
  constructor
  · intro hholds page hin
    have hmem : ∀ s, lastSection r context (imageBuffer context address) page = some s →
        ¬ (s.has scnMemWrite ∧ s.has scnMemExecute) := by
      intro s hs hboth
      exact hholds (fun _ => ⟨true, true, true⟩) page hin ((hpage _ _).mpr (by rw [hs]; exact hboth))
    cases hlast : lastSection r context (imageBuffer context address) page with
    | none =>
      -- a page no update covers may have been both before
      by_contra hcovers
      refine hholds (fun _ => ⟨false, false, false⟩) page hin ((hpage _ _).mpr ?_)
      rw [hlast]
      exact ⟨hcovers, rfl, rfl⟩
    | some s => exact fun _ => hmem s hlast
  · intro hcovered pages page hin hboth
    rw [hpage] at hboth
    have hcov := hcovered page hin
    cases hlast : lastSection r context (imageBuffer context address) page with
    | none =>
      rw [hlast] at hboth hcov
      exact hboth.1 hcov
    | some s =>
      rw [hlast] at hboth hcov
      by_cases hdisc : s.has scnMemDiscardable
      · exact hcov hdisc hboth
      · have hs : s ∈ (sectionHeaders r context).filter SectionHeader.updated :=
          List.mem_reverse.mp (List.mem_of_find?_eq_some hlast)
        obtain ⟨hmem, hupdated⟩ := List.mem_filter.mp hs
        exact hloaded s hmem hupdated hdisc hboth

end Nx

/-- A build for 64-bit images, with the policy. -/
def platformNx : Platform := { platformX64 with requireNx := true }

/-- An image with a section for its code, and one section more of the given characteristics. -/
def nxImage (characteristics : UInt8) : PeFile where
  toRegion := .ofFields 0x10000 328
    [(0, [0x4d, 0x5a]), (60, [64]), (64, [0x50, 0x45]), (68, [0x64, 0x86]), (70, [2]), (84, [160]),
     (88, [0x0b, 0x02]), (104, [0x00, 0x10]), (144, [0x00, 0x30]), (148, [0x48, 0x01]), (159, [1]),
     (196, [6]),
     (256, [0x00, 0x01]), (260, [0x00, 0x10]), (268, [0x48, 0x01]), (284, [0x20, 0x00, 0x00, 0x60]),
     (296, [0x00, 0x10]), (300, [0x00, 0x20]), (308, [0x48, 0x01]), (327, [characteristics])]
  size_lt := PeFile.small_size
  room := PeFile.low_room

/-- Its context. -/
def nxContext (characteristics : UInt8) : Context :=
  contextAt (nxImage characteristics).toRegion 64

/-- A second section that is readable, writable and discardable. -/
theorem nxHolds_nxImage : NxHolds (nxImage 0xc2).toRegion (nxContext 0xc2) 0x200000
    fun _ => ⟨false, false, false⟩ := by
  have hok : (loadImage platformNx (nxImage 0xc2).toRegion (nxContext 0xc2) (some 0x200000)
      fun _ => 0).isOk = true := by decide +kernel
  obtain ⟨image, h⟩ := exists_of_isOk hok
  refine (nxHolds_iff rfl h).mpr (fun page hin => ?_) _
  have hbuffer : imageBuffer (nxContext 0xc2) 0x200000 = 0x200000 := by decide +kernel
  have hsize : (nxContext 0xc2).imageSize = 0x3000 := by decide +kernel
  rw [InImage, hbuffer, hsize] at hin
  have hpages : page = 0x200 ∨ page = 0x201 ∨ page = 0x202 := by omega
  rw [hbuffer]
  rcases hpages with rfl | rfl | rfl
  · have hlast : lastSection (nxImage 0xc2).toRegion (nxContext 0xc2) 0x200000 0x200 = none := by
      decide +kernel
    rw [hlast]
    decide +kernel
  · have hlast : lastSection (nxImage 0xc2).toRegion (nxContext 0xc2) 0x200000 0x201 =
        some (sectionHeaderAt (nxImage 0xc2).toRegion 248) := by decide +kernel
    rw [hlast]
    decide +kernel
  · have hlast : lastSection (nxImage 0xc2).toRegion (nxContext 0xc2) 0x200000 0x202 =
        some (sectionHeaderAt (nxImage 0xc2).toRegion 288) := by decide +kernel
    rw [hlast]
    decide +kernel

/-- A second section that is readable, writable, executable and discardable: the image is loaded,
and its last page can be written and executed. -/
theorem not_nxHolds_discardable :
    Accepted platformNx (nxImage 0xe2) (nxContext 0xe2) [(0, 152), (156, 76), (240, 88)] ∧
      (loadImage platformNx (nxImage 0xe2).toRegion (nxContext 0xe2) (some 0x200000)
        fun _ => 0).isOk ∧
      ¬ NxHolds (nxImage 0xe2).toRegion (nxContext 0xe2) 0x200000 fun _ => ⟨false, false, true⟩ := by
  refine ⟨⟨by decide +kernel, by decide +kernel⟩, by decide +kernel, fun h => ?_⟩
  have hbuffer : imageBuffer (nxContext 0xe2) 0x200000 = 0x200000 := by decide +kernel
  have hsize : (nxContext 0xe2).imageSize = 0x3000 := by decide +kernel
  refine h 0x202 ?_ (by decide +kernel)
  rw [InImage, hbuffer, hsize]
  decide

end Shim
