import Shim.Pe.Load

/-! # The `.sbat` section of an image

Which section `verify_buffer_sbat` (shim.c) settles on, and what its success says about the image.
A section of padding is no error to the parser, and has no entry that could be revoked. A `.sbat`
section that is ignored for its sizes leaves no trace, so that a second one is not noticed behind it.
-/

namespace Shim

section Sections

variable (r : Region) (context : Context)

/-- `data + datasize` as the bounds checks compute it: `datasize` is an `int`. -/
def dataEnd : ℕ := (r.base + intSize r.size) % 2 ^ 64

/-- `FirstSection[i]`. -/
def sectionAt (i : ℕ) : SectionHeader := sectionHeaderAt r (context.firstSection + 40 * i)

/-- The section is named `.sbat`. -/
def IsSbat (i : ℕ) : Prop := (sectionAt r context i).name = sbatName

/-- There is raw data, and at least as much as the virtual size. -/
def SectionHeader.Usable (s : SectionHeader) : Prop :=
  s.sizeOfRawData ≠ 0 ∧ s.virtualSize ≤ s.sizeOfRawData

/-- No relocations. -/
def SectionHeader.Unrelocated (s : SectionHeader) : Prop :=
  s.numberOfRelocations = 0 ∧ s.pointerToRelocations = 0

/-- The section header passes its bounds check. -/
def HeaderInBounds (i : ℕ) : Prop := r.base + context.firstSection + 40 * (i + 1) ≤ dataEnd r

/-- The raw data passes its bounds check. -/
def RawInBounds (s : SectionHeader) : Prop :=
  imageAddress r.base (intSize r.size) s.pointerToRawData = some s.pointerToRawData ∧
    r.base + s.pointerToRawData + s.sizeOfRawData ≤ dataEnd r

/-- The loop over the sections from `first` up to `last` settles on the section `i`: the only one
named `.sbat` that is usable, and the last one of the name. -/
structure Selects (first last i : ℕ) : Prop where
  first_le : first ≤ i
  lt_last : i < last
  headers : ∀ j, first ≤ j → j < last → HeaderInBounds r context j
  unrelocated : ∀ j, first ≤ j → j < last → IsSbat r context j → (sectionAt r context j).Unrelocated
  sbat : IsSbat r context i
  usable : (sectionAt r context i).Usable
  raw : RawInBounds r (sectionAt r context i)
  others : ∀ j, first ≤ j → j < last → IsSbat r context j → j ≠ i →
    j < i ∧ ¬ (sectionAt r context j).Usable

/-- The raw data of the section `i`. -/
def sbatData (i : ℕ) : List UInt8 :=
  r.bytes (sectionAt r context i).pointerToRawData (sectionAt r context i).sizeOfRawData

/-- What the data of the section `i` parses to. -/
def sbatEntries (i : ℕ) : Except EfiStatus (List SbatSectionEntry) :=
  parseSbatSection (sbatData r context i ++ [0]) ((sbatData r context i).length + 1)

instance (i : ℕ) : Decidable (IsSbat r context i) := inferInstanceAs (Decidable (_ = _))

instance (s : SectionHeader) : Decidable s.Usable := inferInstanceAs (Decidable (_ ∧ _))

end Sections

/-! ## The loop -/

section Loop

variable {r : Region} {context : Context} {i k last m n o : ℕ} {rest : List ℕ}
  {sbat res : Option ℕ × ℕ}

/-- A section of another name is passed over. -/
theorem findSbat_of_other (h : ¬ IsSbat r context i) :
    findSbat r context (i :: rest) sbat = .ok res ↔
      HeaderInBounds r context i ∧ findSbat r context rest sbat = .ok res := by
  unfold IsSbat sectionAt at h
  rw [findSbat]
  dsimp only
  rw [failIf_bind_ok, if_pos h, not_lt]
  rfl

/-- A `.sbat` section that is not usable is passed over too, if it is the first. -/
theorem findSbat_of_ignored (h : IsSbat r context i) (hu : ¬ (sectionAt r context i).Usable) :
    findSbat r context (i :: rest) sbat = .ok res ↔
      HeaderInBounds r context i ∧ sbat = (none, 0) ∧ (sectionAt r context i).Unrelocated ∧
        findSbat r context rest sbat = .ok res := by
  unfold IsSbat at h
  unfold sectionAt at h hu ⊢
  unfold SectionHeader.Usable at hu
  rw [findSbat]
  dsimp only
  rw [failIf_bind_ok, if_neg (not_not.mpr h), failIf_bind_ok, failIf_bind_ok, if_neg hu, not_lt]
  refine and_congr Iff.rfl (and_congr ?_ (and_congr ?_ Iff.rfl))
  · obtain ⟨base, size⟩ := sbat
    cases base <;> simp
  · rw [not_or, not_not, not_not]
    rfl

/-- A usable one, if it is the first, is what the loop goes on with. -/
theorem findSbat_of_usable (h : IsSbat r context i) (hu : (sectionAt r context i).Usable) :
    findSbat r context (i :: rest) sbat = .ok res ↔
      HeaderInBounds r context i ∧ sbat = (none, 0) ∧ (sectionAt r context i).Unrelocated ∧
        (imageAddress r.base (intSize r.size) (sectionAt r context i).pointerToRawData).elim 0
            (r.base + ·) + (sectionAt r context i).sizeOfRawData ≤ dataEnd r ∧
        findSbat r context rest (imageAddress r.base (intSize r.size)
          (sectionAt r context i).pointerToRawData, (sectionAt r context i).sizeOfRawData) =
            .ok res := by
  unfold IsSbat at h
  unfold sectionAt at h hu ⊢
  unfold SectionHeader.Usable at hu
  rw [findSbat]
  dsimp only
  rw [failIf_bind_ok, if_neg (not_not.mpr h), failIf_bind_ok, failIf_bind_ok, if_pos hu, not_lt,
    failIf_bind_ok]
  refine and_congr Iff.rfl (and_congr ?_ (and_congr ?_ (and_congr ?_ Iff.rfl)))
  · obtain ⟨base, size⟩ := sbat
    cases base <;> simp
  · rw [not_or, not_not, not_not]
    rfl
  · -- the end of the data is an address already
    have hend : dataEnd r < 2 ^ 64 := Nat.mod_lt _ (by norm_num)
    rw [not_or, not_le, not_lt]
    exact ⟨fun hb => hb.2, fun hb => ⟨lt_of_le_of_lt hb hend, hb⟩⟩

/-- A found section stands if no further one of the name comes behind it. -/
theorem findSbat_found (hsbat : sbat ≠ (none, 0)) :
    findSbat r context (List.range' k m) sbat = .ok res ↔
      res = sbat ∧ ∀ j, k ≤ j → j < k + m →
        HeaderInBounds r context j ∧ ¬ IsSbat r context j := by
  induction m generalizing k with
  | zero =>
    rw [List.range'_zero, findSbat, Except.ok.injEq, eq_comm, iff_self_and]
    intro _ j hk hlast
    omega
  | succ m ih =>
    rw [List.range'_succ]
    -- the first section of the rest, and those behind it
    have hsplit : (∀ j, k ≤ j → j < k + (m + 1) → HeaderInBounds r context j ∧
        ¬ IsSbat r context j) ↔ (HeaderInBounds r context k ∧ ¬ IsSbat r context k) ∧
          ∀ j, k + 1 ≤ j → j < k + 1 + m → HeaderInBounds r context j ∧ ¬ IsSbat r context j := by
      constructor
      · intro h
        exact ⟨h k le_rfl (by omega), fun j hj hlast => h j (by omega) (by omega)⟩
      · rintro ⟨hfirst, h⟩ j hj hlast
        rcases eq_or_lt_of_le hj with rfl | hlt
        · exact hfirst
        · exact h j hlt (by omega)
    rw [hsplit]
    by_cases hname : IsSbat r context k
    · by_cases hu : (sectionAt r context k).Usable
      · rw [findSbat_of_usable hname hu]
        tauto
      · rw [findSbat_of_ignored hname hu]
        tauto
    · rw [findSbat_of_other hname, ih]
      tauto

/-- What is found at the end is at the place the loop found it. -/
theorem imageAddress_eq_some {base size address : ℕ}
    (h : imageAddress base size address = some o) : o = address := by
  unfold imageAddress at h
  split_ifs at h
  exact (Option.some.inj h).symm

/-- A section selected further on is selected without those in front of it. -/
theorem Selects.tail (hs : Selects r context k last i) (hlt : k < i) :
    Selects r context (k + 1) last i where
  first_le := hlt
  lt_last := hs.lt_last
  headers j hj := hs.headers j (by omega)
  unrelocated j hj := hs.unrelocated j (by omega)
  sbat := hs.sbat
  usable := hs.usable
  raw := hs.raw
  others j hj := hs.others j (by omega)

/-- A section in front of it does not change what is selected, if it is in order and cannot be
used. -/
theorem Selects.cons (hs : Selects r context (k + 1) last i) (hk : HeaderInBounds r context k)
    (hrel : IsSbat r context k → (sectionAt r context k).Unrelocated)
    (hu : IsSbat r context k → ¬ (sectionAt r context k).Usable) : Selects r context k last i where
  first_le := Nat.le_of_succ_le hs.first_le
  lt_last := hs.lt_last
  headers j hj hlast := by
    rcases eq_or_lt_of_le hj with rfl | hlt
    · exact hk
    · exact hs.headers j hlt hlast
  unrelocated j hj hlast hname := by
    rcases eq_or_lt_of_le hj with rfl | hlt
    · exact hrel hname
    · exact hs.unrelocated j hlt hlast hname
  sbat := hs.sbat
  usable := hs.usable
  raw := hs.raw
  others j hj hlast hname hne := by
    rcases eq_or_lt_of_le hj with rfl | hlt
    · exact ⟨hs.first_le, hu hname⟩
    · exact hs.others j hlt hlast hname hne

/-- A section of another name is passed over. -/
theorem selects_of_other (h : ¬ IsSbat r context k) :
    Selects r context k last i ↔ HeaderInBounds r context k ∧ Selects r context (k + 1) last i := by
  constructor
  · intro hs
    have hlt : k < i := lt_of_le_of_ne hs.first_le (by rintro rfl; exact h hs.sbat)
    exact ⟨hs.headers k le_rfl (hlt.trans hs.lt_last), hs.tail hlt⟩
  · rintro ⟨hk, hs⟩
    exact hs.cons hk (fun hname => absurd hname h) fun hname => absurd hname h

/-- So is an SBAT section that cannot be used. -/
theorem selects_of_ignored (h : IsSbat r context k) (hu : ¬ (sectionAt r context k).Usable) :
    Selects r context k last i ↔ HeaderInBounds r context k ∧
      (sectionAt r context k).Unrelocated ∧ Selects r context (k + 1) last i := by
  constructor
  · intro hs
    -- the section selected is a later one, since this one cannot be used
    have hlt : k < i := lt_of_le_of_ne hs.first_le (by rintro rfl; exact hu hs.usable)
    have hlast : k < last := hlt.trans hs.lt_last
    exact ⟨hs.headers k le_rfl hlast, hs.unrelocated k le_rfl hlast h, hs.tail hlt⟩
  · rintro ⟨hk, hrel, hs⟩
    exact hs.cons hk (fun _ => hrel) fun _ => hu

/-- A usable section is the one the loop settles on, or the image is refused. -/
theorem selects_of_usable (h : IsSbat r context k) (hu : (sectionAt r context k).Usable) :
    Selects r context k last i ↔ i = k ∧ k < last ∧ HeaderInBounds r context k ∧
      (sectionAt r context k).Unrelocated ∧ RawInBounds r (sectionAt r context k) ∧
        ∀ j, k + 1 ≤ j → j < last → HeaderInBounds r context j ∧ ¬ IsSbat r context j := by
  constructor
  · intro hs
    have hik : i = k := by
      by_contra hne
      exact (hs.others k le_rfl (lt_of_le_of_lt hs.first_le hs.lt_last) h (Ne.symm hne)).2 hu
    subst hik
    refine ⟨rfl, hs.lt_last, hs.headers i le_rfl hs.lt_last, hs.unrelocated i le_rfl hs.lt_last h,
      hs.raw, fun j hj hlast => ⟨hs.headers j (by omega) hlast, fun hname => ?_⟩⟩
    have := (hs.others j (by omega) hlast hname (by omega)).1
    omega
  · rintro ⟨rfl, hlast, hk, hrel, hraw, hs⟩
    exact {
      first_le := le_rfl
      lt_last := hlast
      headers := fun j hj hlast => by
        rcases eq_or_lt_of_le hj with rfl | hlt
        · exact hk
        · exact (hs j hlt hlast).1
      unrelocated := fun j hj hlast hname => by
        rcases eq_or_lt_of_le hj with rfl | hlt
        · exact hrel
        · exact absurd hname (hs j hlt hlast).2
      sbat := h
      usable := hu
      raw := hraw
      others := fun j hj hlast hname hne =>
        absurd hname (hs j (lt_of_le_of_ne hj (Ne.symm hne)) hlast).2 }

/-- The loop finds data where it settles on a section, and then the data of that section. -/
theorem findSbat_eq_some_iff :
    findSbat r context (List.range' k m) (none, 0) = .ok (some o, n) ↔
      ∃ i, Selects r context k (k + m) i ∧ o = (sectionAt r context i).pointerToRawData ∧
        n = (sectionAt r context i).sizeOfRawData := by
  -- on the sections that are left, from section `k` on
  induction m generalizing k with
  | zero =>
    rw [List.range'_zero, findSbat, Except.ok.injEq]
    constructor
    · intro h
      cases (Prod.mk.inj h).1
    · rintro ⟨i, hs, -⟩
      have := hs.first_le
      have := hs.lt_last
      omega
  | succ m ih =>
    rw [List.range'_succ, show k + (m + 1) = k + 1 + m by omega]
    by_cases hname : IsSbat r context k
    · by_cases hu : (sectionAt r context k).Usable
      -- a second section of the name ends the search with an error
      · rw [findSbat_of_usable hname hu, findSbat_found fun h => hu.1 (Prod.mk.inj h).2]
        constructor
        · rintro ⟨hk, -, hrel, hend, hres, hrest⟩
          obtain ⟨hbase, rfl⟩ := Prod.mk.inj hres
          obtain rfl := imageAddress_eq_some hbase.symm
          rw [← hbase] at hend
          refine ⟨k, (selects_of_usable hname hu).mpr ⟨rfl, by omega, hk, hrel, ⟨hbase.symm, hend⟩,
            hrest⟩, rfl, rfl⟩
        · rintro ⟨i, hs, rfl, rfl⟩
          obtain ⟨rfl, -, hk, hrel, ⟨hbase, hend⟩, hrest⟩ := (selects_of_usable hname hu).mp hs
          rw [hbase]
          exact ⟨hk, rfl, hrel, hend, rfl, hrest⟩
      · rw [findSbat_of_ignored hname hu, ih]
        simp only [selects_of_ignored hname hu]
        constructor
        · rintro ⟨hk, -, hrel, i, hs, hres⟩
          exact ⟨i, ⟨hk, hrel, hs⟩, hres⟩
        · rintro ⟨i, ⟨hk, hrel, hs⟩, hres⟩
          exact ⟨hk, trivial, hrel, i, hs, hres⟩
    · rw [findSbat_of_other hname, ih]
      simp only [selects_of_other hname]
      constructor
      · rintro ⟨hk, i, hs, hres⟩
        exact ⟨i, ⟨hk, hs⟩, hres⟩
      · rintro ⟨i, ⟨hk, hs⟩, hres⟩
        exact ⟨hk, i, hs, hres⟩

/-- The loop fails with one status. -/
theorem failsUnsupported_findSbat (l : List ℕ) : FailsUnsupported (findSbat r context l sbat) := by
  induction l generalizing sbat with
  | nil => exact failsWith_ok sbat
  | cons i l ih =>
    rw [findSbat]
    dsimp only
    refine (failsUnsupported_failIf _).bind fun _ => ?_
    split_ifs
    · exact ih
    · exact (failsUnsupported_failIf _).bind fun _ => (failsUnsupported_failIf _).bind fun _ =>
        (failsUnsupported_failIf _).bind fun _ => ih
    · exact (failsUnsupported_failIf _).bind fun _ => (failsUnsupported_failIf _).bind fun _ => ih

end Loop

/-! ## The decision -/

section Decision

variable {r : Region} {context : Context} {v : SbatVarEntry} {vs : List SbatVarEntry}

/-- The section `i` is settled on, it parses to `es`, and none of `es` is behind its first match. -/
structure SbatPasses (r : Region) (context : Context) (sbatVar : List SbatVarEntry) (i : ℕ)
    (es : List SbatSectionEntry) : Prop where
  selects : Selects r context 0 context.numberOfSections i
  parses : sbatEntries r context i = .ok es
  current : ∀ e ∈ es, ¬ NarrowRevoked sbatVar e

/-- Outside the protocol the check wants data that parses and is not revoked. -/
theorem verifySbatSection_eq_success_iff {base : Option (List UInt8)} :
    verifySbatSection false (v :: vs) base = .success ↔ ∃ data, base = some data ∧ data ≠ [] ∧
      ∃ es, parseSbatSection (data ++ [0]) (data.length + 1) = .ok es ∧
        ∀ e ∈ es, ¬ NarrowRevoked (v :: vs) e := by
  unfold verifySbatSection
  rw [if_neg (by simp)]
  cases base with
  | none => simp
  | some data =>
    by_cases hdata : data = []
    · simp [hdata]
    · dsimp only
      rw [if_neg (by simpa using hdata)]
      cases hparse : parseSbatSection (data ++ [0]) (data.length + 1) with
      | error e =>
        have he : e = .invalidParameter := parseSbatRows_error hparse
        simp [he, hparse]
      | ok es => simp [hparse, hdata, verifySbatHelper_eq_success_iff]

/-- `verify_buffer_sbat` succeeds on the sections that pass. -/
theorem verifyBufferSbat_eq_success_iff :
    verifyBufferSbat false (v :: vs) r context = .success ↔
      ∃ i es, SbatPasses r context (v :: vs) i es := by
  unfold verifyBufferSbat
  rw [List.range_eq_range']
  constructor
  · intro h
    cases hfind : findSbat r context (List.range' 0 context.numberOfSections) (none, 0) with
    | error e =>
      rw [hfind, failsUnsupported_findSbat _ _ hfind] at h
      cases h
    | ok found =>
      obtain ⟨base, size⟩ := found
      rw [hfind] at h
      obtain ⟨data, hbase, -, es, hparse, hes⟩ := verifySbatSection_eq_success_iff.mp h
      obtain ⟨o, rfl, rfl⟩ := Option.map_eq_some_iff.mp hbase
      obtain ⟨i, hs, rfl, rfl⟩ := findSbat_eq_some_iff.mp hfind
      rw [zero_add] at hs
      exact ⟨i, es, hs, hparse, hes⟩
  · rintro ⟨i, es, hs, hparse, hes⟩
    rw [findSbat_eq_some_iff.mpr ⟨i, by rwa [zero_add], rfl, rfl⟩]
    refine verifySbatSection_eq_success_iff.mpr ⟨_, rfl, ?_, es, hparse, hes⟩
    have hsize := hs.usable.1
    intro hnil
    have := congrArg List.length hnil
    rw [Region.length_bytes, List.length_nil] at this
    exact hsize this

/-- The check fails with an error. -/
theorem verifyBufferSbat_isError {inProtocol : Bool} {sbatVar : List SbatVarEntry}
    (h : verifyBufferSbat inProtocol sbatVar r context ≠ .success) :
    (verifyBufferSbat inProtocol sbatVar r context).isError = true := by
  unfold verifyBufferSbat at h ⊢
  cases hfind : findSbat r context (List.range context.numberOfSections) (none, 0) with
  | error e =>
    rw [failsUnsupported_findSbat _ _ hfind]
    rfl
  | ok found =>
    rw [hfind] at h
    by_contra hnot
    exact h (verifySbatSection_of_not_isError hnot)

/-- An entry of SbatLevel for the component of `e` asks for a greater generation. -/
def EntryRevoked (sbatVar : List SbatVarEntry) (e : SbatSectionEntry) : Prop :=
  ∃ v ∈ sbatVar, e.componentName = v.componentName ∧
    atoi e.componentGeneration < atoi v.componentGeneration

/-- The section `i` is the only one named `.sbat`, its data is usable and in the file, and it parses
to one entry at least, none of which is revoked. -/
structure SbatAccepts (r : Region) (context : Context) (sbatVar : List SbatVarEntry) (i : ℕ) :
    Prop where
  lt : i < context.numberOfSections
  sbat : IsSbat r context i
  unique : ∀ j < context.numberOfSections, IsSbat r context j → j = i
  usable : (sectionAt r context i).Usable
  inFile : (sectionAt r context i).pointerToRawData + (sectionAt r context i).sizeOfRawData ≤ r.size
  entries : ∃ es, sbatEntries r context i = .ok es ∧ es ≠ [] ∧ ∀ e ∈ es, ¬ EntryRevoked sbatVar e

/-- Outside the protocol only an image with one good `.sbat` section passes, and one that has two
sections of the name is an error. -/
def SbatDecision (r : Region) (context : Context) (sbatVar : List SbatVarEntry) : Prop :=
  (verifyBufferSbat false sbatVar r context = .success →
    ∃ i, SbatAccepts r context sbatVar i) ∧
  ∀ i j, i < context.numberOfSections → j < context.numberOfSections → i ≠ j →
    IsSbat r context i → IsSbat r context j →
      (verifyBufferSbat false sbatVar r context).isError = true

/-- What an image that passes shows: one section named `.sbat` is usable, none of the name stands
behind it, and its data, in a file whose size is an `int`, lies in the file; it parses, if only to no
entry, and where the generations are 16-bit numbers no entry is behind its first match. -/
structure SbatAdmits (r : Region) (context : Context) (sbatVar : List SbatVarEntry) (i : ℕ) :
    Prop where
  lt : i < context.numberOfSections
  sbat : IsSbat r context i
  usable : (sectionAt r context i).Usable
  others : ∀ j < context.numberOfSections, IsSbat r context j → j ≠ i →
    j < i ∧ ¬ (sectionAt r context j).Usable
  inFile : r.size < 2 ^ 31 →
    (sectionAt r context i).pointerToRawData + (sectionAt r context i).sizeOfRawData ≤ r.size
  entries : ∃ es, sbatEntries r context i = .ok es ∧ ∀ e ∈ es, ∀ w, FirstMatch sbatVar e w →
    atoi e.componentGeneration < 2 ^ 16 → atoi w.componentGeneration < 2 ^ 16 →
      atoi w.componentGeneration ≤ atoi e.componentGeneration

/-- Outside the protocol only an image with such a section passes, one that has a `.sbat` section
behind a usable one is an error, and a section of padding is one without entries. -/
def SbatDecisionByDesign (r : Region) (context : Context) (sbatVar : List SbatVarEntry) : Prop :=
  (verifyBufferSbat false sbatVar r context = .success →
    ∃ i, SbatAdmits r context sbatVar i) ∧
  (∀ i j, i < j → j < context.numberOfSections → IsSbat r context i →
    (sectionAt r context i).Usable → IsSbat r context j →
      (verifyBufferSbat false sbatVar r context).isError = true) ∧
  ∀ i, Selects r context 0 context.numberOfSections i → sbatEntries r context i = .ok [] →
    verifyBufferSbat false sbatVar r context = .success

/-- Data that passes its bounds check in a file whose size is an `int` lies in the file. -/
theorem RawInBounds.le_size {s : SectionHeader} (h : RawInBounds r s) (hsize : r.size < 2 ^ 31) :
    s.pointerToRawData + s.sizeOfRawData ≤ r.size := by
  have hend := h.2
  have hint : intSize r.size = r.size := if_pos hsize
  have hle : dataEnd r ≤ r.base + r.size := by
    unfold dataEnd
    rw [hint]
    exact Nat.mod_le _ _
  omega

/-- A section that passes is one that an image may pass with. -/
theorem SbatPasses.admits {sbatVar : List SbatVarEntry} {i : ℕ} {es : List SbatSectionEntry}
    (h : SbatPasses r context sbatVar i es) : SbatAdmits r context sbatVar i where
  lt := h.selects.lt_last
  sbat := h.selects.sbat
  usable := h.selects.usable
  others := fun j hj => h.selects.others j (Nat.zero_le j) hj
  inFile := h.selects.raw.le_size
  entries := by
    refine ⟨es, h.parses, fun e he w hw he16 hw16 => ?_⟩
    by_contra hlt
    refine h.current e he ⟨w, hw, ?_⟩
    unfold uint16
    rw [Nat.mod_eq_of_lt he16, Nat.mod_eq_of_lt hw16]
    exact not_le.mp hlt

/-- What the check decides, for every file and every SbatLevel. -/
theorem sbatDecisionByDesign (r : Region) (context : Context) (v : SbatVarEntry)
    (vs : List SbatVarEntry) : SbatDecisionByDesign r context (v :: vs) := by
  refine ⟨fun hok => ?_, fun i j hij hj hi hu hname => verifyBufferSbat_isError fun hok => ?_,
    fun i hs hparse => ?_⟩
  · obtain ⟨i, es, hpass⟩ := verifyBufferSbat_eq_success_iff.mp hok
    exact ⟨i, hpass.admits⟩
  · obtain ⟨l, es, hpass⟩ := verifyBufferSbat_eq_success_iff.mp hok
    -- the usable section is the one settled on, and nothing of the name is behind that
    have hil : i = l := by
      by_contra hne
      exact (hpass.admits.others i (hij.trans hj) hi hne).2 hu
    subst hil
    have := (hpass.admits.others j hj hname hij.ne').1
    omega
  · exact verifyBufferSbat_eq_success_iff.mpr
      ⟨i, [], hs, hparse, fun e he => absurd he List.not_mem_nil⟩

/-- What is wrong with a section that passes: an unusable `.sbat` section stands before it, its data
leaves the file, it has no entry, or an entry is behind a later match or in the high bits only. -/
def SbatFlaw (r : Region) (context : Context) (sbatVar : List SbatVarEntry) (i : ℕ)
    (es : List SbatSectionEntry) : Prop :=
  (∃ j < i, IsSbat r context j ∧ ¬ (sectionAt r context j).Usable) ∨
    r.size < (sectionAt r context i).pointerToRawData + (sectionAt r context i).sizeOfRawData ∨
    es = [] ∨ ∃ e ∈ es, EntryRevoked sbatVar e

/-- The stricter decision is met where no section passes with a flaw, and only there. -/
theorem sbatDecision_iff (r : Region) (context : Context) (v : SbatVarEntry)
    (vs : List SbatVarEntry) :
    SbatDecision r context (v :: vs) ↔
      ∀ i es, SbatPasses r context (v :: vs) i es → ¬ SbatFlaw r context (v :: vs) i es := by
  constructor
  · rintro ⟨hsuccess, -⟩ i es hpass hflaw
    obtain ⟨i', hacc⟩ := hsuccess (verifyBufferSbat_eq_success_iff.mpr ⟨i, es, hpass⟩)
    -- the one accepted is the one that was taken
    obtain rfl := hacc.unique i hpass.selects.lt_last hpass.selects.sbat
    obtain ⟨es', hparse, hne, hcurrent⟩ := hacc.entries
    obtain rfl := Except.ok.inj (hpass.parses.symm.trans hparse)
    rcases hflaw with ⟨j, hj, hname, -⟩ | hend | hnil | ⟨e, he, hrev⟩
    · exact hj.ne (hacc.unique j (hj.trans hacc.lt) hname)
    · exact absurd hacc.inFile (not_le.mpr hend)
    · exact hne hnil
    · exact hcurrent e he hrev
  · intro h
    have hsuccess : verifyBufferSbat false (v :: vs) r context = .success →
        ∃ i, SbatAccepts r context (v :: vs) i := by
      intro hok
      obtain ⟨i, es, hpass⟩ := verifyBufferSbat_eq_success_iff.mp hok
      -- without a flaw the section taken is the right one
      have hclean := h i es hpass
      simp only [SbatFlaw, not_or, not_lt] at hclean
      obtain ⟨hdecoy, hend, hne, hcurrent⟩ := hclean
      refine ⟨i, hpass.selects.lt_last, hpass.selects.sbat, fun j hj hname => ?_,
        hpass.selects.usable, hend, es, hpass.parses, hne, fun e he hrev => hcurrent ⟨e, he, hrev⟩⟩
      by_contra hji
      obtain ⟨hlt, hu⟩ := hpass.selects.others j (Nat.zero_le j) hj hname hji
      exact hdecoy ⟨j, hlt, hname, hu⟩
    refine ⟨hsuccess, fun i j hi hj hij hsi hsj => verifyBufferSbat_isError fun hok => ?_⟩
    obtain ⟨l, hacc⟩ := hsuccess hok
    exact hij ((hacc.unique i hi hsi).trans (hacc.unique j hj hsj).symm)

/-- An image whose one section, named `.sbat`, holds eight NULs. -/
def paddedSbatImage : PeFile where
  toRegion := Region.ofFields 0x10000 328
    [(0, [0x4d, 0x5a]), (60, [64]), (64, [0x50, 0x45]), (68, [0x64, 0x86]), (70, [1]), (84, [152]),
     (88, [0x0b, 0x02]), (144, [0x00, 0x10]), (148, [0x40, 0x01]), (196, [5]),
     (240, sbatName), (248, [8]), (256, [8]), (260, [0x40, 0x01])]
  size_lt := by decide
  room := by decide

/-- Its context. -/
def paddedSbatContext : Context := contextAt paddedSbatImage.toRegion 64

/-- The header of the image is accepted, and it passes without an entry. -/
theorem not_sbatDecision_paddedSbatImage :
    readHeader platformX64 paddedSbatImage.toRegion = .ok paddedSbatContext ∧
      ¬ SbatDecision paddedSbatImage.toRegion paddedSbatContext
        [⟨CText.ascii "grub", CText.ascii "2", none⟩] := by
  refine ⟨by decide +kernel, fun h => ?_⟩
  obtain ⟨i, hacc⟩ := h.1 (by decide +kernel)
  have hi : i = 0 := by
    have hlt := hacc.lt
    have hone : paddedSbatContext.numberOfSections = 1 := by decide +kernel
    omega
  subst hi
  obtain ⟨es, hparse, hne, -⟩ := hacc.entries
  have hnil : sbatEntries paddedSbatImage.toRegion paddedSbatContext 0 = .ok [] := by
    decide +kernel
  exact hne (Except.ok.inj (hparse.symm.trans hnil))

end Decision

end Shim
