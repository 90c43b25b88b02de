import Shim.Pe.Coverage

/-! # Loading two files with one digest

The loader and the SBAT check are run on two files that agree on the bytes hashed. `Lift` carries
the relation through the loop over the sections: the two images agree except on the fields left out
of the digest. The condition under which the runs stay together is `Covered`.
-/

namespace Shim

open Region (AgreeOn)
open ByteMap (AgreeOff)
open ExceptRel (Lift)

/-! ## Relocation -/

/-- Two files in one place that agree on `S`, and on the size of the relocation directory. -/
structure SameTable (S : Set ℕ) (context : Context) (A B : Region) : Prop where
  base : B.base = A.base
  bytes : AgreeOn S B A
  dirSize : relocDirSize B context = relocDirSize A context

section Relocation

variable {A B : Region} {context : Context} {S : Set ℕ} {buffer adjust relocEnd fixupBase off : ℕ}
  {s : SectionHeader}

/-- What a first chunk covers is hashed. -/
theorem hashed_cons (o n : ℕ) (chunks : List Chunk) :
    hashed ((o, n) :: chunks) = {i | o ≤ i ∧ i < o + n} ∪ hashed chunks := by
  ext i
  simp [hashed]

/-- The checks on a block, and how many entries it has, depend on its header only. -/
theorem SameTable.relocBlock_eq (h : SameTable S context A B)
    (hhead : ∀ i, off ≤ i → i < off + 8 → i ∈ S) :
    relocBlock B context buffer off = relocBlock A context buffer off ∧
      B.u32 (off + 4) = A.u32 (off + 4) := by
  have hva : B.u32 off = A.u32 off := h.bytes.u32 fun i hi hi' => hhead i hi (by omega)
  have hsize : B.u32 (off + 4) = A.u32 (off + 4) :=
    h.bytes.u32 fun i hi hi' => hhead i (by omega) (by omega)
  refine ⟨?_, hsize⟩
  unfold relocBlock
  rw [h.base, h.dirSize, hva, hsize]

/-- A block's fixups depend on its entries only. -/
theorem SameTable.relocEntries_eq (h : SameTable S context A B)
    (hcount : relocCount B off = relocCount A off)
    (hentries : ∀ i, off + 8 ≤ i → i < off + 8 + 2 * relocCount A off → i ∈ S) :
    relocEntries B adjust fixupBase off = relocEntries A adjust fixupBase off := by
  unfold relocEntries
  rw [hcount]
  refine ExceptRel.mapM_congr fun i hi => ?_
  have hlt := List.mem_range.mp hi
  rw [h.bytes.u16 fun j hj hj' => hentries j (by omega) (by omega)]

/-- The walk over the blocks depends on what it reads only. -/
theorem SameTable.relocBlocks_eq (h : SameTable S context A B) (fuel : ℕ)
    (hreads : hashed (relocReads A context buffer adjust relocEnd fuel off) ⊆ S) :
    relocBlocks B context buffer adjust relocEnd fuel off =
      relocBlocks A context buffer adjust relocEnd fuel off := by
  induction fuel generalizing off with
  | zero => rfl
  | succ fuel ih =>
    unfold relocBlocks
    unfold relocReads at hreads
    by_cases hend : off < relocEnd
    · rw [if_pos hend] at hreads ⊢
      rw [if_pos hend]
      rw [hashed_cons, Set.union_subset_iff] at hreads
      obtain ⟨hhead, hreads⟩ := hreads
      obtain ⟨hblock, hsize⟩ : relocBlock B context buffer off = relocBlock A context buffer off ∧
          B.u32 (off + 4) = A.u32 (off + 4) :=
        h.relocBlock_eq fun i hi hi' => hhead ⟨hi, hi'⟩
      rw [hblock, hsize]
      refine ExceptRel.bind_congr_ok fun fixupBase hbase => ?_
      rw [hbase, hashed_cons, Set.union_subset_iff] at hreads
      obtain ⟨hentries, hreads⟩ := hreads
      rw [h.relocEntries_eq (by rw [relocCount, hsize, relocCount]) fun i hi hi' =>
        hentries ⟨hi, hi'⟩]
      refine ExceptRel.bind_congr_ok fun fixups hres => ?_
      rw [hres] at hreads
      rw [ih hreads]
    · rw [if_neg hend, if_neg hend]

/-- So does `relocate_coff`. -/
theorem SameTable.relocateCoff_eq (h : SameTable S context A B)
    (hreads : hashed (relocateReads A context buffer s) ⊆ S) :
    relocateCoff B context buffer s = relocateCoff A context buffer s := by
  have htable : relocTable B context s = relocTable A context s := by
    unfold relocTable
    rw [h.base, h.dirSize]
  unfold relocateCoff
  unfold relocateReads at hreads
  rw [htable, h.dirSize]
  match ht : relocTable A context s with
  | (none, none) => rfl
  | (none, some _) => rfl
  | (some _, none) => rfl
  | (some relocBase, some relocEnd) =>
    simp only [ht] at hreads ⊢
    by_cases hadjust : relocAdjust context buffer = 0
    · rw [if_pos hadjust, if_pos hadjust]
    · rw [if_neg hadjust] at hreads ⊢
      rw [if_neg hadjust]
      exact h.relocBlocks_eq _ hreads

end Relocation

/-- A fixup leaves the fields in `E` alone, or changes them only. -/
def Fixup.ApartFrom (E : Set ℕ) (f : Fixup) : Prop :=
  (∀ i < f.width, f.offset + i ∉ E) ∨ ∀ i < f.width, f.offset + i ∈ E

/-- Fixups that do not carry a difference out of `E`. -/
theorem agreeOff_foldl_apply {E : Set ℕ} {fixups : List Fixup} {m m' : ℕ → UInt8}
    (h : AgreeOff E m m') (hfixups : ∀ f ∈ fixups, f.ApartFrom E) :
    AgreeOff E (fixups.foldl Fixup.apply m) (fixups.foldl Fixup.apply m') := by
  induction fixups generalizing m m' with
  | nil => exact h
  | cons f fixups ih =>
    rw [List.foldl_cons, List.foldl_cons]
    exact ih (h.patch (hfixups f List.mem_cons_self)) fun g hg =>
      hfixups g (List.mem_cons_of_mem _ hg)

/-! ## The loop over the sections -/

/-- A section that `handle_image` takes for the relocation section, or refuses. -/
def SectionHeader.IsReloc (s : SectionHeader) : Prop :=
  s.name = relocName ∧ s.has scnMemRead ∧ ¬ (s.has scnMemDiscardable ∧ s.virtualSize = 0)

/-- Two runs side by side: the images agree off `E`, the rest of the state is the same, and the
relocation section is one of `sections`. -/
structure Beside (E : Set ℕ) (sections : List SectionHeader) (st st' : LoadState) : Prop where
  memory : AgreeOff E st.memory st'.memory
  relocSection : st'.relocSection = st.relocSection
  foundEntryPoint : st'.foundEntryPoint = st.foundEntryPoint
  isReloc : ∀ s ∈ st.relocSection, s ∈ sections ∧ s.IsReloc

section Sections

variable {p : Platform} {A B : Region} {context : Context} {E : Set ℕ} {buffer : ℕ}
  {relocDir : Option ℕ × Option ℕ} {sections : List SectionHeader} {s t : SectionHeader}
  {st st' : LoadState} {m m' : ℕ → UInt8}

/-- Copying a section reads its raw data only. -/
theorem agreeOff_copySection (h : AgreeOff E m m')
    (hraw : ∀ i < s.sizeOfRawData, A.byte (s.pointerToRawData + i) = B.byte (s.pointerToRawData + i)) :
    AgreeOff E (copySection A s m) (copySection B s m') := by
  unfold copySection
  split
  · exact h.zero
  · exact (h.fill fun i hi _ => hraw i (by omega)).zero

/-- The relocation section is the one found before, or this one. -/
theorem mem_of_checkRelocSection {base last : Option ℕ} {found found' : Option SectionHeader}
    (h : checkRelocSection relocDir base last s found = .ok found') (ht : t ∈ found') :
    t ∈ found ∨ t = s ∧ s.name = relocName := by
  unfold checkRelocSection at h
  by_cases hname : s.name = relocName
  · rw [if_neg (not_not.mpr hname)] at h
    simp only [failIf_bind_ok] at h
    obtain ⟨-, -, h⟩ := h
    obtain rfl := Except.ok.inj h
    exact .inr ⟨(Option.mem_some.mp ht).symm, hname⟩
  · rw [if_pos hname] at h
    obtain rfl := Except.ok.inj h
    exact .inl ht

/-- One turn of the loop keeps two runs side by side. -/
theorem Beside.loadSection (h : Beside E sections st st') (hs : s ∈ sections)
    (hraw : ∀ i < s.sizeOfRawData, A.byte (s.pointerToRawData + i) = B.byte (s.pointerToRawData + i)) :
    Lift (Beside E sections) (loadSection p A context buffer relocDir st s)
      (loadSection p B context buffer relocDir st' s) := by
  unfold Shim.loadSection
  refine Lift.ite (fun _ => h) fun hsize => ?_
  refine Lift.ite (fun _ => h) fun hread => ?_
  refine Lift.bind_left fun _ _ => ?_
  refine Lift.bind_left fun _ _ => ?_
  rw [h.relocSection, h.foundEntryPoint]
  refine Lift.bind_left fun reloc hreloc => ?_
  have hisReloc : ∀ t ∈ reloc, t ∈ sections ∧ t.IsReloc := by
    intro t ht
    rcases mem_of_checkRelocSection hreloc ht with hold | ⟨rfl, hname⟩
    · exact h.isReloc t hold
    · exact ⟨hs, hname, not_not.mp hread, hsize⟩
  refine Lift.ite (fun _ => ⟨h.memory, rfl, rfl, hisReloc⟩) fun _ => ?_
  refine Lift.bind_left fun _ _ => Lift.bind_left fun _ _ => Lift.bind_left fun _ _ => ?_
  exact ⟨agreeOff_copySection h.memory hraw, rfl, rfl, hisReloc⟩

end Sections

section Reach

variable {p : Platform} {r : Region} {context : Context} {address : ℕ} {m : ℕ → UInt8}
  {s : SectionHeader}

/-- `handle_image` gets to `relocate_coff` with the section `s`. -/
structure ReachesReloc (p : Platform) (r : Region) (context : Context) (address : ℕ)
    (m : ℕ → UInt8) (s : SectionHeader) : Prop where
  loop : ∃ st, (sectionHeaders r context).foldlM
    (loadSection p r context (alignValue address context.sectionAlignment)
      (relocDirVma r context (alignValue address context.sectionAlignment)))
    ⟨ByteMap.fill m 0 context.sizeOfHeaders r.byte, none, 0⟩ = .ok st ∧ st.relocSection = some s
  declared : 5 < context.numberOfRvaAndSizes
  dirSize : relocDirSize r context ≠ 0

/-- The relocation section is one of the table, and `handle_image` takes it for one. -/
theorem ReachesReloc.mem (h : ReachesReloc p r context address m s) :
    s ∈ sectionHeaders r context ∧ s.IsReloc := by
  obtain ⟨st, hloop, hst⟩ := h.loop
  have hbeside : Lift (Beside ∅ (sectionHeaders r context)) (Except.ok st : Except EfiStatus _)
      (.ok st) := by
    rw [← hloop]
    exact Lift.foldlM (fun t ht st st' h => h.loadSection ht fun _ _ => rfl)
      ⟨fun _ _ => rfl, rfl, rfl, by simp⟩
  exact Beside.isReloc hbeside s hst

end Reach

/-! ## What the digest has to cover -/

section Covered

variable {p : Platform} {A B : PeFile} {context context' : Context} {chunks chunks' : List Chunk}
  {allocAddress : Option ℕ} {m : ℕ → UInt8}

/-- The relocation of an image at `buffer` reads hashed bytes, and carries nothing out of the fields
left out of the digest. -/
structure RelocCovered (r : Region) (context : Context) (chunks : List Chunk) (buffer : ℕ)
    (s : SectionHeader) : Prop where
  reads : hashed (relocateReads r context buffer s) ⊆ hashed chunks
  fixups : ∀ fixups, relocateCoff r context buffer s = .ok fixups →
    ∀ f ∈ fixups, f.ApartFrom (unhashedFields context)

/-- The certificate table entry is none of what the SBAT check reads of the section table; and where
`handle_image` gets to `relocate_coff` at the address allocated, that relocation is covered. -/
structure Covered (p : Platform) (r : Region) (context : Context) (chunks : List Chunk)
    (allocAddress : Option ℕ) : Prop where
  sectionTable : 5 ≤ context.numberOfRvaAndSizes ∨ context.numberOfSections = 0 ∨
    context.numberOfRvaAndSizes < 4 ∧ (sectionHeaderAt r context.firstSection).name ≠ sbatName
  reloc : ∀ address ∈ allocAddress, ∀ m s,
    imageAddress (alignValue address context.sectionAlignment) context.imageSize
      context.entryPoint ≠ none →
    ReachesReloc p r context address m s →
      RelocCovered r context chunks (alignValue address context.sectionAlignment) s

/-- Loading gives the same error, or the same entry point and the same image up to the fields left
out of the digest. -/
def SameLoad (p : Platform) (A B : Region) (context context' : Context)
    (allocAddress : Option ℕ) (m : ℕ → UInt8) : Prop :=
  Lift (fun a b => a.entryPoint = b.entryPoint ∧
      AgreeOff (unhashedFields context) a.memory b.memory)
    (loadImage p A context allocAddress m) (loadImage p B context' allocAddress m)

/-- The SBAT check gives the same answer, whatever revocations are in force. -/
def SameSbat (A B : Region) (context context' : Context) : Prop :=
  ∀ inProtocol sbatVar, verifyBufferSbat inProtocol sbatVar B context' =
    verifyBufferSbat inProtocol sbatVar A context

/-- The loop over the sections fails with `EFI_UNSUPPORTED` only. -/
theorem failsUnsupported_loadSection {r : Region} {buffer : ℕ} {relocDir : Option ℕ × Option ℕ}
    (st : LoadState) (s : SectionHeader) :
    FailsUnsupported (loadSection p r context buffer relocDir st s) := by
  have hreloc : ∀ base last found, FailsUnsupported (checkRelocSection relocDir base last s found) := by
    intro base last found
    unfold checkRelocSection
    split
    · exact failsWith_ok _
    · exact (failsUnsupported_failIf _).bind fun _ => (failsUnsupported_failIf _).bind fun _ =>
        failsWith_ok _
  unfold loadSection
  split
  · exact failsWith_ok _
  split
  · exact failsWith_ok _
  refine (failsUnsupported_failIf _).bind fun _ => (failsUnsupported_failIf _).bind fun _ =>
    (hreloc _ _ _).bind fun _ => ?_
  split
  · exact failsWith_ok _
  · exact (failsUnsupported_failIf _).bind fun _ => (failsUnsupported_failIf _).bind fun _ =>
      (failsUnsupported_failIf _).bind fun _ => failsWith_ok _

/-- Without a relocation entry, an image is not loaded. -/
theorem loadImage_no_relocation {r : Region} {address : ℕ}
    (hrva : context.numberOfRvaAndSizes ≤ 5) :
    loadImage p r context (some address) m = .error .unsupported := by
  refine (failsUnsupported_failIf _).bind_eq_error fun _ => ?_
  refine (FailsWith.foldlM (fun st s _ => failsUnsupported_loadSection st s) _).bind_eq_error
    fun _ => ?_
  rw [failIf, if_pos hrva]
  rfl

/-- The headers of two files, copied. -/
theorem Accepted.agreeOff_headers (hA : Accepted p A context chunks)
    (hagree : AgreeOn (hashed chunks) A.toRegion B.toRegion) :
    AgreeOff (unhashedFields context) (ByteMap.fill m 0 context.sizeOfHeaders A.byte)
      (ByteMap.fill m 0 context.sizeOfHeaders B.byte) := by
  refine ByteMap.AgreeOff.fill (fun _ _ => rfl) fun i hi hout => ?_
  rw [Nat.zero_add] at hout
  exact hagree i (hA.header_hashed hi hout)

/-- Two accepted files that agree on the bytes hashed are loaded alike. -/
theorem Accepted.sameLoad (hA : Accepted p A context chunks) (hB : Accepted p B context' chunks')
    (hbase : B.base = A.base) (hagree : AgreeOn (hashed chunks) A.toRegion B.toRegion)
    (hcov : Covered p A.toRegion context chunks allocAddress) :
    SameLoad p A.toRegion B.toRegion context context' allocAddress m := by
  rw [hA.context_eq hB hagree]
  unfold SameLoad
  cases allocAddress with
  | none => rfl
  | some address =>
  by_cases hrva : context.numberOfRvaAndSizes ≤ 5
  · rw [loadImage_no_relocation hrva, loadImage_no_relocation hrva]
    rfl
  have hdirVma : relocDirVma B.toRegion context = relocDirVma A.toRegion context := by
    funext buffer
    unfold relocDirVma relocDirSize
    rw [hA.relocDir_eq hagree (by omega) (show 4 + 4 ≤ 8 by decide)]
    have := hA.relocDir_eq hagree (by omega) (show 0 + 4 ≤ 8 by decide)
    rw [Nat.add_zero] at this
    rw [this]
  have htable : SameTable (hashed chunks) context A.toRegion B.toRegion :=
    ⟨hbase, hagree.symm, hA.relocDir_eq hagree (by omega) (show 4 + 4 ≤ 8 by decide)⟩
  unfold loadImage
  dsimp only
  rw [hdirVma, hA.sectionHeaders_eq hagree (by omega)]
  refine Lift.bind_left fun _ hentry => ?_
  have hentry : imageAddress (alignValue address context.sectionAlignment) context.imageSize
      context.entryPoint ≠ none := by
    intro hnone
    rw [failIf, if_pos hnone] at hentry
    cases hentry
  -- the loop over the sections
  refine Lift.bind (R := Beside (unhashedFields context) (sectionHeaders A.toRegion context))
    (Lift.foldlM (fun s hs st st' h => h.loadSection hs fun i hi =>
      hagree _ (hA.section_hashed hs hi)) ⟨hA.agreeOff_headers hagree, rfl, rfl, by simp⟩)
    fun st st' hloop h => ?_
  refine Lift.bind_left fun _ _ => ?_
  -- the relocation
  have hcovered : ∀ s, st.relocSection = some s → relocDirSize A.toRegion context ≠ 0 →
      RelocCovered A.toRegion context chunks (alignValue address context.sectionAlignment) s :=
    fun s hs hdir => hcov.reloc address rfl m s hentry ⟨⟨st, hloop, hs⟩, by omega, hdir⟩
  have hrelocation : relocation B.toRegion context (alignValue address context.sectionAlignment) st' =
      relocation A.toRegion context (alignValue address context.sectionAlignment) st := by
    unfold relocation
    rw [h.relocSection, htable.dirSize]
    split
    · rfl
    · rename_i s hs
      split
      · rfl
      · exact htable.relocateCoff_eq (hcovered s hs ‹_›).reads
  rw [hrelocation, h.foundEntryPoint]
  refine Lift.bind_left fun fixups hfixups => ?_
  have hapart : ∀ f ∈ fixups, f.ApartFrom (unhashedFields context) := by
    unfold relocation at hfixups
    split at hfixups
    · obtain rfl := Except.ok.inj hfixups
      simp
    · rename_i s hs
      split at hfixups
      · obtain rfl := Except.ok.inj hfixups
        simp
      · exact (hcovered s hs ‹_›).fixups fixups hfixups
  refine Lift.bind_left fun _ _ => Lift.bind_left fun _ _ => ?_
  exact ⟨rfl, agreeOff_foldl_apply h.memory hapart⟩

/-! ## The SBAT check -/

/-- The loop over the sections reads the section table only, and of a section that is not `.sbat` the
name. -/
theorem findSbat_congr {A B : Region} (hbase : B.base = A.base) (hsize : B.size = A.size)
    {l : List ℕ} (h : ∀ i ∈ l, sectionHeaderAt B (context.firstSection + 40 * i) =
        sectionHeaderAt A (context.firstSection + 40 * i) ∨
      (sectionHeaderAt A (context.firstSection + 40 * i)).name ≠ sbatName ∧
        (sectionHeaderAt B (context.firstSection + 40 * i)).name =
          (sectionHeaderAt A (context.firstSection + 40 * i)).name) (sbat : Option ℕ × ℕ) :
    findSbat B context l sbat = findSbat A context l sbat := by
  induction l generalizing sbat with
  | nil => rfl
  | cons i l ih =>
    have hrest := ih fun j hj => h j (List.mem_cons_of_mem _ hj)
    unfold findSbat
    rw [hbase, hsize]
    rcases h i List.mem_cons_self with hsame | ⟨hother, hname⟩
    · rw [hsame]
      simp only [hrest]
    · simp only [hname, if_pos hother, hrest]

/-- What the loop finds is the raw data of a section of the table. -/
theorem mem_of_findSbat {r : Region} {l : List ℕ} {sbat : Option ℕ × ℕ} {o n : ℕ}
    (h : findSbat r context l sbat = .ok (some o, n)) : sbat = (some o, n) ∨
      ∃ i ∈ l, (sectionHeaderAt r (context.firstSection + 40 * i)).pointerToRawData = o ∧
        (sectionHeaderAt r (context.firstSection + 40 * i)).sizeOfRawData = n := by
  induction l generalizing sbat with
  | nil => exact .inl (Except.ok.inj h)
  | cons i l ih =>
    have hlift : ∀ {sbat'}, findSbat r context l sbat' = .ok (some o, n) → sbat' = (some o, n) ∨
        ∃ i' ∈ i :: l, (sectionHeaderAt r (context.firstSection + 40 * i')).pointerToRawData = o ∧
          (sectionHeaderAt r (context.firstSection + 40 * i')).sizeOfRawData = n := fun h' =>
      (ih h').imp_right fun ⟨i', hi', hsec⟩ => ⟨i', List.mem_cons_of_mem _ hi', hsec⟩
    unfold findSbat at h
    simp only [failIf_bind_ok] at h
    obtain ⟨-, h⟩ := h
    split at h
    · exact hlift h
    · simp only [failIf_bind_ok] at h
      obtain ⟨-, -, h⟩ := h
      split at h
      · simp only [failIf_bind_ok] at h
        obtain ⟨-, h⟩ := h
        rcases hlift h with hnew | hold
        · -- the section itself
          obtain ⟨hbase, hsize⟩ := Prod.mk.inj hnew
          refine .inr ⟨i, List.mem_cons_self, ?_, hsize⟩
          unfold imageAddress at hbase
          split at hbase
          · cases hbase
          · split at hbase <;> cases hbase
            rfl
        · exact .inr hold
      · exact hlift h

/-- Two accepted files that agree on the bytes hashed get the same answer. -/
theorem Accepted.sameSbat (hA : Accepted p A context chunks) (hB : Accepted p B context' chunks')
    (hbase : B.base = A.base) (hsize : B.size = A.size)
    (hagree : AgreeOn (hashed chunks) A.toRegion B.toRegion)
    (hcov : Covered p A.toRegion context chunks allocAddress) :
    SameSbat A.toRegion B.toRegion context context' := by
  rw [hA.context_eq hB hagree]
  intro inProtocol sbatVar
  -- the section table is covered, except perhaps for the first name
  have hfind : findSbat B.toRegion context (List.range context.numberOfSections) (none, 0) =
      findSbat A.toRegion context (List.range context.numberOfSections) (none, 0) := by
    refine findSbat_congr hbase hsize (fun i hi => ?_) _
    have hlt := List.mem_range.mp hi
    rcases hcov.sectionTable with hrva | hnone | ⟨hrva, hname⟩
    · exact .inl (hA.sectionHeaderAt_eq hagree (.inl hrva) hlt)
    · omega
    · rcases Nat.eq_zero_or_pos i with rfl | hpos
      · exact .inr ⟨hname, hA.sectionName_eq hagree hrva hlt⟩
      · exact .inl (hA.sectionHeaderAt_eq hagree (.inr hpos) hlt)
  unfold verifyBufferSbat
  rw [hfind]
  split
  · rfl
  · rename_i sbatBase sbatSize hok
    cases sbatBase with
    | none => rfl
    | some o =>
      rcases mem_of_findSbat hok with hnone | ⟨i, hi, rfl, rfl⟩
      · cases hnone
      -- and the section taken is one of the table, whose bytes are covered
      · have hmem : sectionHeaderAt A.toRegion (context.firstSection + 40 * i) ∈
            sectionHeaders A.toRegion context := List.mem_map.mpr ⟨i, hi, rfl⟩
        rw [Option.map_some, Option.map_some, hA.section_bytes hagree hmem]

/-! ## The digest covers the load -/

/-- Every accepted file of the same length and in the same place that agrees on the bytes hashed is
loaded alike, and gets the same answer from the SBAT check. -/
def DigestCovers (p : Platform) (A : PeFile) (context : Context) (chunks : List Chunk)
    (allocAddress : Option ℕ) : Prop :=
  ∀ (B : PeFile) (context' : Context) (chunks' : List Chunk), Accepted p B context' chunks' →
    B.base = A.base → B.size = A.size → AgreeOn (hashed chunks) A.toRegion B.toRegion →
      (∀ m, SameLoad p A.toRegion B.toRegion context context' allocAddress m) ∧
        SameSbat A.toRegion B.toRegion context context'

end Covered

/-- The image without sections, at an address. -/
def signedFile : PeFile := ⟨signedImage, by decide, by decide⟩

theorem relocatedFile_size_lt : 356 < 2 ^ 32 := by decide

/-- An image with a section of sixteen bytes for its code and a relocation section of twelve: one
block, of a 64-bit fixup in the code and an entry of no effect. -/
def relocatedFile : PeFile where
  toRegion := .ofFields 0x10000 356
    [(0, [0x4d, 0x5a]), (60, [64]), (64, [0x50, 0x45]), (68, [0x64, 0x86]), (70, [2]), (84, [160]),
     (88, [0x0b, 0x02]), (104, [0x00, 0x10]), (144, [0x00, 0x30]), (148, [0x48, 0x01]), (196, [6]),
     (240, [0x00, 0x20]), (244, [12]),
     (256, [0x00, 0x01]), (260, [0x00, 0x10]), (264, [16]), (268, [0x48, 0x01]),
     (284, [0x20, 0x00, 0x00, 0x60]),
     (288, relocName), (296, [0x00, 0x10]), (300, [0x00, 0x20]), (304, [12]), (308, [0x58, 0x01]),
     (327, [0x42]),
     (328, [0xc3, 1, 2, 3, 4, 5, 6, 7, 8, 9, 10, 11, 12, 13, 14, 15]),
     (344, [0x00, 0x10, 0x00, 0x00, 0x0c, 0x00, 0x00, 0x00, 0x08, 0xa0])]
  size_lt := relocatedFile_size_lt
  room := PeFile.low_room

/-- Its context, and the digest's chunks. -/
def relocatedContext : Context := contextAt relocatedFile.toRegion 64

def relocatedChunks : List Chunk := [(0, 152), (156, 76), (240, 88), (328, 16), (344, 12)]

/-- The file is accepted, and its relocations are reached. -/
theorem accepted_relocatedFile :
    Accepted platformX64 relocatedFile relocatedContext relocatedChunks :=
  ⟨by decide +kernel, by decide +kernel⟩

/-- Its relocation section is the second one. -/
theorem relocHeader_of_isReloc {s : SectionHeader}
    (hs : s ∈ sectionHeaders relocatedFile.toRegion relocatedContext) (hreloc : s.IsReloc) :
    s = sectionHeaderAt relocatedFile.toRegion 288 := by
  have hsections : sectionHeaders relocatedFile.toRegion relocatedContext =
      [sectionHeaderAt relocatedFile.toRegion 248, sectionHeaderAt relocatedFile.toRegion 288] :=
    by decide +kernel
  rw [hsections] at hs
  rcases List.mem_pair.mp hs with rfl | rfl
  · exact absurd hreloc.1 (by decide +kernel)
  · rfl

/-- All that relocation reads is the section's raw data. -/
theorem covered_relocatedFile : Covered platformX64 relocatedFile.toRegion relocatedContext
    relocatedChunks (some 0x200000) := by
  refine ⟨.inl (by decide +kernel), fun address haddress m s _ hreach => ?_⟩
  obtain rfl := Option.some.inj haddress
  obtain rfl := relocHeader_of_isReloc hreach.mem.1 hreach.mem.2
  have hreads : relocateReads relocatedFile.toRegion relocatedContext
      (alignValue 0x200000 relocatedContext.sectionAlignment)
      (sectionHeaderAt relocatedFile.toRegion 288) = [(344, 8), (352, 4)] := by decide +kernel
  have hfixups : relocateCoff relocatedFile.toRegion relocatedContext
      (alignValue 0x200000 relocatedContext.sectionAlignment)
      (sectionHeaderAt relocatedFile.toRegion 288) =
        .ok [⟨0x1008, 8, 0x200000⟩, ⟨0x1000, 0, 0⟩] := by decide +kernel
  refine ⟨?_, fun fixups hok f hf => .inl fun i hi => ?_⟩
  · rw [hreads]
    rintro i ⟨c, hc, hi, hi'⟩
    refine ⟨(344, 12), by decide, ?_⟩
    rcases List.mem_pair.mp hc with rfl | rfl <;> simp only at hi hi' ⊢ <;> omega
  · rw [hfixups] at hok
    obtain rfl := Except.ok.inj hok
    have hfields : unhashedFields relocatedContext =
        {i | 152 ≤ i ∧ i < 156} ∪ {i | 232 ≤ i ∧ i < 240} := rfl
    rw [hfields]
    simp only [Set.mem_union, Set.mem_ofPred_eq]
    rcases List.mem_pair.mp hf with rfl | rfl <;> simp only at hi ⊢ <;> omega

/-- An image of three directory entries and one section `.sbat`: the place of the certificate table
entry is the section's `VirtualSize` and `VirtualAddress`. -/
def sbatSectionImage (virtualSize : UInt8) : PeFile where
  base := 0x10000
  size := 328
  byte := fun i => if i = 232 then virtualSize else (Region.ofFields 0x10000 328
    [(0, [0x4d, 0x5a]), (60, [64]), (64, [0x50, 0x45]), (68, [0x64, 0x86]), (70, [1]), (84, [136]),
     (88, [0x0b, 0x02]), (144, [0x00, 0x10]), (148, [0x08, 0x01]), (196, [3]),
     (224, sbatName), (240, [14]), (244, [0x08, 0x01]), (260, [0x80, 0, 0, 0x40]),
     (264, CText.ascii "shim,4,a,b,c,d")]).byte i
  size_lt := PeFile.small_size
  room := PeFile.low_room

/-- Its context, and the digest's chunks. -/
def sbatSectionContext : Context := contextAt (sbatSectionImage 14).toRegion 64

def sbatSectionChunks : List Chunk := [(0, 152), (156, 76), (240, 24), (264, 14)]

end Shim
