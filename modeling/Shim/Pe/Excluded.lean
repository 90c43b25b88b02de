import Shim.Pe.Outcome

/-! # The header bytes left out of the digest

Every chunk of the digest is one of the three header chunks, the raw data of a section, or lies
behind the headers. So the bytes of the headers that escape are those of `CheckSum` and of the
certificate table entry, and the entry escapes whether or not the image declares it.
-/

namespace Shim

/-! ## Where the chunks come from -/

/-- `SizeOfRawData` summed up over a table. -/
def rawBytes (sections : List SectionHeader) : ℕ := (sections.map SectionHeader.sizeOfRawData).sum

section Chunks

variable {r : Region} {base datasize sum sum' : ℕ} {context : Context}
  {sections table table' : List SectionHeader} {chunks : List Chunk}

/-- The raw data of a first section. -/
theorem rawBytes_cons (s : SectionHeader) (table : List SectionHeader) :
    rawBytes (s :: table) = s.sizeOfRawData + rawBytes table := by
  simp [rawBytes]

/-- The raw data do not depend on the order. -/
theorem rawBytes_insertSection (s : SectionHeader) (table : List SectionHeader) :
    rawBytes (insertSection s table) = s.sizeOfRawData + rawBytes table := by
  induction table with
  | nil => rfl
  | cons t table ih =>
    unfold insertSection
    split
    · rw [rawBytes_cons, ih, rawBytes_cons]
      omega
    · rw [rawBytes_cons]

/-- The validation keeps the raw data, and adds up no more of it than the file has. -/
theorem rawBytes_of_sortSections
    (h : sortSections base datasize context sections sum table = .ok table')
    (hheaders : context.sizeOfHeaders ≤ datasize) (hlt : datasize < 2 ^ 32)
    (hsum : context.sizeOfHeaders + sum ≤ datasize) :
    rawBytes table' = rawBytes sections + rawBytes table ∧
      context.sizeOfHeaders + sum + rawBytes sections ≤ datasize := by
  induction sections generalizing sum table with
  | nil =>
    obtain rfl := Except.ok.inj h
    simpa [rawBytes] using hsum
  | cons s sections ih =>
    unfold sortSections at h
    obtain ⟨_, -, h⟩ := exists_of_bind_ok h
    obtain ⟨_, hfits, h⟩ := exists_of_bind_ok h
    have hraw := not_of_failIf_ok hfits
    rw [sub32_of_le hheaders hlt, sub32_of_le (by omega) (by omega)] at hraw
    have hadd : add32 sum s.sizeOfRawData = sum + s.sizeOfRawData := Nat.mod_eq_of_lt (by omega)
    rw [hadd] at h
    obtain ⟨htable, hle⟩ := ih h (by omega)
    rw [htable, rawBytes_insertSection, rawBytes_cons]
    omega

/-- The loop that hashes the sections adds their raw data up, and its chunks are sections. -/
theorem sections_of_hashSections (h : hashSections base datasize table sum = .ok (chunks, sum'))
    (hsum : sum + rawBytes table < 2 ^ 32) :
    sum' = sum + rawBytes table ∧
      ∀ c ∈ chunks, ∃ s ∈ table, c = (s.pointerToRawData, s.sizeOfRawData) := by
  induction table generalizing sum sum' chunks with
  | nil =>
    obtain ⟨rfl, rfl⟩ := Prod.mk.inj (Except.ok.inj h)
    simp [rawBytes]
  | cons t table ih =>
    rw [rawBytes_cons] at hsum
    unfold hashSections at h
    by_cases hraw : t.sizeOfRawData = 0
    · rw [if_pos hraw] at h
      obtain ⟨hsum', hmem⟩ := ih h (by omega)
      refine ⟨by rw [rawBytes_cons]; omega, fun c hc => ?_⟩
      obtain ⟨s, hs, hcs⟩ := hmem c hc
      exact ⟨s, List.mem_cons_of_mem _ hs, hcs⟩
    · rw [if_neg hraw] at h
      obtain ⟨_, -, h⟩ := exists_of_bind_ok h
      obtain ⟨_, -, h⟩ := exists_of_bind_ok h
      obtain ⟨chunk, hchunk, h⟩ := exists_of_bind_ok h
      obtain ⟨⟨chunks', sum''⟩, hrest, h⟩ := exists_of_bind_ok h
      obtain ⟨rfl, -⟩ := checkSize_ok hchunk
      obtain ⟨rfl, rfl⟩ : _ :: chunks' = chunks ∧ sum'' = sum' := Prod.mk.inj (Except.ok.inj h)
      -- the sum does not wrap
      have hadd : add32 sum t.sizeOfRawData = sum + t.sizeOfRawData := Nat.mod_eq_of_lt (by omega)
      rw [hadd] at hrest
      obtain ⟨hsum', hmem⟩ := ih hrest (by omega)
      refine ⟨by rw [rawBytes_cons]; omega, fun c hc => ?_⟩
      rcases List.mem_cons.mp hc with rfl | hc
      · exact ⟨t, List.mem_cons_self, rfl⟩
      · obtain ⟨s, hs, hcs⟩ := hmem c hc
        exact ⟨s, List.mem_cons_of_mem _ hs, hcs⟩

/-- What is hashed at the end starts where the sections have ended. -/
theorem mem_hashRest (h : hashRest r datasize context sum = .ok chunks) {c : Chunk}
    (hc : c ∈ chunks) : c.1 = sum := by
  unfold hashRest at h
  dsimp only at h
  split at h
  · obtain ⟨_, -, h⟩ := exists_of_bind_ok h
    obtain ⟨chunk, hchunk, h⟩ := exists_of_bind_ok h
    obtain ⟨rfl, -⟩ := checkSize_ok hchunk
    obtain rfl := Except.ok.inj h
    rw [List.mem_singleton.mp hc]
  · obtain rfl := Except.ok.inj h
    simp at hc

/-- What `generate_hash` feeds to the digests. -/
theorem mem_of_generateHash (h : generateHash r datasize context = .ok chunks)
    (hheaders : context.sizeOfHeaders ≤ datasize) (hlt : datasize < 2 ^ 32) {c : Chunk}
    (hc : c ∈ chunks) :
    c = (0, context.peHdr + 88) ∨
      c = (context.peHdr + 92, sub32 context.secDir (context.peHdr + 92)) ∨
      c = (context.secDir + 8, sub32 context.sizeOfHeaders (context.secDir + 8)) ∨
      (∃ s ∈ sectionHeaders r context, c = (s.pointerToRawData, s.sizeOfRawData)) ∨
      context.sizeOfHeaders ≤ c.1 := by
  unfold generateHash at h
  obtain ⟨_, -, h⟩ := exists_of_bind_ok h
  obtain ⟨headers, hhead, h⟩ := exists_of_bind_ok h
  obtain ⟨_, -, h⟩ := exists_of_bind_ok h
  obtain ⟨table, htable, h⟩ := exists_of_bind_ok h
  obtain ⟨⟨sections, sum⟩, hsections, h⟩ := exists_of_bind_ok h
  obtain ⟨rest, hrest, h⟩ := exists_of_bind_ok h
  obtain rfl := Except.ok.inj h
  obtain ⟨hraw, hle⟩ := rawBytes_of_sortSections htable hheaders hlt (by omega)
  have hnil : rawBytes [] = 0 := rfl
  obtain ⟨hsum, hmem⟩ := sections_of_hashSections hsections (by omega)
  rcases List.mem_append.mp hc with hc | hc
  · rcases List.mem_append.mp hc with hc | hc
    -- the three chunks of the header
    · unfold hashHeaders at hhead
      obtain ⟨start, hstart, hhead⟩ := exists_of_bind_ok hhead
      obtain ⟨middle, hmiddle, hhead⟩ := exists_of_bind_ok hhead
      obtain ⟨_, -, hhead⟩ := exists_of_bind_ok hhead
      obtain ⟨last, hlast, hhead⟩ := exists_of_bind_ok hhead
      obtain rfl := Except.ok.inj hhead
      obtain ⟨rfl, -⟩ := checkSize_ok hstart
      obtain ⟨rfl, -⟩ := checkSize_ok hmiddle
      obtain ⟨rfl, -⟩ := checkSize_ok hlast
      simp only [List.mem_cons, List.not_mem_nil, or_false] at hc
      rcases hc with rfl | rfl | rfl <;> simp
    · -- the raw data of a section
      obtain ⟨s, hs, rfl⟩ := hmem c hc
      have hs' : s ∈ sectionHeaders r context := by
        simpa using (mem_of_sortSections htable).mp hs
      exact .inr (.inr (.inr (.inl ⟨s, hs', rfl⟩)))
  · -- the rest of the file
    have hstart := mem_hashRest hrest hc
    exact .inr (.inr (.inr (.inr (by omega))))

end Chunks

/-! ## What escapes -/

section Escape

variable {p : Platform} {A : PeFile} {context : Context} {chunks : List Chunk}

/-- A byte of the headers that is hashed is not one of the fields left out, unless it is raw data of
a section too. -/
theorem Accepted.of_mem_hashed (h : Accepted p A context chunks) {i : ℕ} (hi : i ∈ hashed chunks)
    (hheader : i < context.sizeOfHeaders) : i ∉ unhashedFields context ∨
      ∃ s ∈ sectionHeaders A.toRegion context,
        s.pointerToRawData ≤ i ∧ i < s.pointerToRawData + s.sizeOfRawData := by
  obtain ⟨hpe, hsec, hheaders, hsize⟩ := h.layout
  have hlt := A.size_lt
  obtain ⟨c, hc, hci, hci'⟩ := hi
  have hcases := mem_of_generateHash h.hash hsize hlt hc
  rw [sub32_of_le (by omega) (by omega), sub32_of_le (by omega) (by omega)] at hcases
  simp only [unhashedFields, Set.mem_union, Set.mem_ofPred_eq]
  rcases hcases with rfl | rfl | rfl | ⟨s, hs, rfl⟩ | hbehind
  · left
    simp only at hci'
    omega
  · left
    simp only at hci hci'
    omega
  · left
    simp only at hci hci'
    omega
  · exact .inr ⟨s, hs, hci, hci'⟩
  · omega

/-- Only `CheckSum` and, where the image declares it, the certificate table entry are left out of
the digest, and no byte of a section header. -/
structure OnlyIntendedEscape (context : Context) (chunks : List Chunk) : Prop where
  headers : ∀ i < context.sizeOfHeaders, i ∉ hashed chunks →
    (context.peHdr + 88 ≤ i ∧ i < context.peHdr + 92) ∨
      4 < context.numberOfRvaAndSizes ∧ context.secDir ≤ i ∧ i < context.secDir + 8
  sectionTable : ∀ n < context.numberOfSections, ∀ j < 40,
    context.firstSection + 40 * n + j ∈ hashed chunks

/-- The section table begins behind `CheckSum`. -/
theorem Accepted.checkSum_lt_firstSection (h : Accepted p A context chunks) :
    context.peHdr + 120 ≤ context.firstSection := by
  obtain ⟨hle, -⟩ := h.headerFacts.fits
  have hctx := h.headerFacts.context_eq
  have hfirst : context.firstSection = A.u32 60 + A.u16 (A.u32 60 + 20) + 4 + 20 := by
    rw [hctx]
    rfl
  have hpe : context.peHdr = A.u32 60 := by
    rw [hctx]
    rfl
  split at hle <;> omega

/-- The header bytes that escape are the intended ones exactly if the image declares a certificate
table entry, or the place of the entry is raw data of sections. -/
theorem onlyIntendedEscape_iff (h : Accepted p A context chunks) :
    OnlyIntendedEscape context chunks ↔
      4 < context.numberOfRvaAndSizes ∨
        ∀ i, context.secDir ≤ i → i < context.secDir + 8 →
          ∃ s ∈ sectionHeaders A.toRegion context,
            s.pointerToRawData ≤ i ∧ i < s.pointerToRawData + s.sizeOfRawData := by
  obtain ⟨hpe, hsec, hheaders, hsize⟩ := h.layout
  have hmem : ∀ {i}, context.secDir ≤ i → i < context.secDir + 8 → i ∈ unhashedFields context :=
    fun hi hi' => .inr ⟨hi, hi'⟩
  constructor
  · intro hescape
    -- the header leaves the entry out whether the image declares it or not
    by_cases hrva : 4 < context.numberOfRvaAndSizes
    · exact .inl hrva
    refine .inr fun i hi hi' => ?_
    by_cases hin : i ∈ hashed chunks
    · exact (h.of_mem_hashed hin (by omega)).resolve_left (not_not.mpr (hmem hi hi'))
    · rcases hescape.headers i (by omega) hin with hsum | ⟨hdeclared, -⟩
      · omega
      · exact absurd hdeclared hrva
  · intro hcond
    -- and a section that covers the entry brings it back
    have hheader : ∀ i < context.sizeOfHeaders, i ∉ hashed chunks →
        (context.peHdr + 88 ≤ i ∧ i < context.peHdr + 92) ∨
          4 < context.numberOfRvaAndSizes ∧ context.secDir ≤ i ∧ i < context.secDir + 8 := by
      intro i hi hout
      have hfield : i ∈ unhashedFields context := by
        by_contra hno
        exact hout (h.header_hashed hi hno)
      rcases hfield with hsum | ⟨hdir, hdir'⟩
      · exact .inl hsum
      · rcases hcond with hrva | hcovered
        · exact .inr ⟨hrva, hdir, hdir'⟩
        · obtain ⟨s, hs, hsi, hsi'⟩ := hcovered i hdir hdir'
          have hin := h.section_hashed hs (show i - s.pointerToRawData < s.sizeOfRawData by omega)
          rw [Nat.add_sub_cancel' hsi] at hin
          exact absurd hin hout
    refine ⟨hheader, fun n hn j hj => ?_⟩
    by_contra hout
    have htable := h.headerFacts.table
    have hfirst := h.checkSum_lt_firstSection
    rcases hheader _ (by omega) hout with hsum | ⟨hrva, hdir, hdir'⟩
    · omega
    · -- a declared entry lies in front of the section table
      have hbehind := h.firstSection_eq
      omega

end Escape

/-- A file with a section that is copied and relocated. -/
theorem onlyIntendedEscape_relocatedFile :
    OnlyIntendedEscape relocatedContext relocatedChunks :=
  (onlyIntendedEscape_iff accepted_relocatedFile).mpr (.inl (by decide +kernel))

/-- With three directory entries, eight bytes of the first section header escape. -/
theorem not_onlyIntendedEscape_sbatSection :
    Accepted platformX64 (sbatSectionImage 14) sbatSectionContext sbatSectionChunks ∧
      ¬ OnlyIntendedEscape sbatSectionContext sbatSectionChunks := by
  refine ⟨⟨by decide +kernel, by decide +kernel⟩, fun h => ?_⟩
  have hin := h.sectionTable 0 (by decide +kernel) 8 (by decide)
  obtain ⟨c, hc, hle, hlt⟩ := hin
  have hfirst : sbatSectionContext.firstSection = 224 := by decide +kernel
  rw [hfirst] at hle hlt
  simp only [sbatSectionChunks, List.mem_cons, List.not_mem_nil, or_false] at hc
  rcases hc with rfl | rfl | rfl | rfl <;> omega

end Shim
