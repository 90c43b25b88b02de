import Shim.Auth.SignatureDb
import Shim.Common.Event
import Shim.Trust.Unbundled

/-! # What a certificate file adds

`load_cert_file` (shim.c:1590-1634) on a file that was verified: the walk over its `.db` sections
with the growing `user_cert`. `ReallocatePool` is the firmware library's; it is a parameter that may
refuse any call. How much of a section is copied is what its first list says of itself.
-/

namespace Shim.Trust

/-! ## The code -/

/-- `user_cert` and `user_cert_size`. -/
structure UserCert where
  bytes : Option (List UInt8)
  size : ℕ
  deriving DecidableEq

/-- The content; there is none behind NULL. -/
def UserCert.content (c : UserCert) : List UInt8 := c.bytes.getD []

/-- `ReallocatePool` of the `i`-th call: from the old buffer with the old size to the new size. -/
abbrev ReallocatePool := ℕ → Option (List UInt8) → ℕ → ℕ → Option (List UInt8)

/-- What is relied on: a new buffer has the new size and starts with the old content. -/
structure ReallocatePool.Documented (realloc : ReallocatePool) : Prop where
  length : ∀ {i old n n' new}, realloc i old n n' = some new → new.length = n'
  keeps : ∀ {i old n n' new}, realloc i (some old) n n' = some new → old.length = n → n ≤ n' →
    new.take n = old

/-- A section that is considered: where its data starts, and `SizeOfRawData`. -/
structure DbSection where
  pointer : ℕ
  raw : ℕ
  room : 28 ≤ raw

/-- The checks on a section: its name, room for a list header, and a start in the file. -/
def dbSection (image : Image) (s : SectionHeader) : Option DbSection :=
  if s.name = CText.ascii ".db" ++ [0, 0, 0, 0, 0] then
    if h : s.sizeOfRawData < 28 then none
    else
      (imageAddress image.data.base (intSize image.data.size) s.pointerToRawData).map fun pointer =>
        ⟨pointer, s.sizeOfRawData, Nat.not_lt.mp h⟩
  else none

/-- The sections that are considered, in order. -/
def dbSections (image : Image) : List DbSection :=
  (sectionHeaders image.data image.context).filterMap (dbSection image)

/-- What happens to `user_cert` for a section: it grows by what the first list says its size is. -/
def loadSection (d : Region) (realloc : ReallocatePool) (i : ℕ) (s : DbSection)
    (before : UserCert) : UserCert :=
  let original := before.size
  let userCertSize := (original + signatureListSize d s.pointer) % 2 ^ 32
  let userCert := realloc i before.bytes original userCertSize
  ⟨userCert.map fun buffer => buffer.take original ++
      d.bytes s.pointer (signatureListSize d s.pointer) ++
        buffer.drop (original + signatureListSize d s.pointer), userCertSize⟩

/-- One turn of the loop for a section that is considered. -/
structure CertTurn where
  dbSection : DbSection
  before : UserCert
  after : UserCert

/-- The loop, with its turns. -/
def loadSections (d : Region) (realloc : ReallocatePool) :
    (i : ℕ) → List DbSection → UserCert → List CertTurn × UserCert
  | _, [], c => ([], c)
  | i, s :: rest, c =>
    let after := loadSection d realloc i s c
    let later := loadSections d realloc (i + 1) rest after
    (⟨s, c, after⟩ :: later.1, later.2)

/-- The allocation of the turn failed: NULL for some bytes. -/
def CertTurn.failed (t : CertTurn) : Bool := t.after.bytes.isNone && t.after.size ≠ 0

/-! ## What is expected -/

/-- A whole signature list at `o`, with `left` bytes to go. -/
def WholeList (d : Region) (o left : ℕ) : Prop :=
  28 ≤ signatureListSize d o ∧ signatureListSize d o ≤ left

instance (d : Region) (o left : ℕ) : Decidable (WholeList d o left) :=
  inferInstanceAs (Decidable (_ ∧ _))

/-- The lists that `left` bytes from `o` on contain. -/
def wholeLists (d : Region) : (fuel o left : ℕ) → List (List UInt8)
  | 0, _, _ => []
  | fuel + 1, o, left =>
    if WholeList d o left then
      d.bytes o (signatureListSize d o) ::
        wholeLists d fuel (o + signatureListSize d o) (left - signatureListSize d o)
    else []

/-- The raw data of a section, as far as the file goes. -/
def DbSection.avail (d : Region) (s : DbSection) : ℕ := min s.raw (d.size - s.pointer)

/-- The lists of a section. -/
def DbSection.lists (d : Region) (s : DbSection) : List (List UInt8) :=
  wholeLists d (s.avail d) s.pointer (s.avail d)

/-- The sizes that the sections say their first lists have. -/
def sumOfSizes (d : Region) (sections : List DbSection) : ℕ :=
  (sections.map fun s => signatureListSize d s.pointer).sum

/-- The lists of the sections, in order. -/
def listsOf (d : Region) (sections : List DbSection) : List UInt8 :=
  sections.flatMap fun s => (s.lists d).flatten

/-- `n` bytes at `o` lie in the raw data of the section, and in the file. -/
def DbSection.Holds (d : Region) (s : DbSection) (o n : ℕ) : Prop :=
  n = 0 ∨ s.pointer ≤ o ∧ o + n ≤ s.pointer + s.avail d

/-- Whole lists are imported, and nothing else: each turn reads its own section, copies a whole list
or nothing, and leaves `user_cert` alone if the allocation fails; without a failure, the lists of
the sections are behind the previous content in the end. -/
structure ImportsWholeLists (d : Region) (sections : List DbSection) (previous : List UInt8)
    (run : List CertTurn × UserCert) : Prop where
  header : ∀ t ∈ run.1, t.dbSection.Holds d (t.dbSection.pointer + 16) 4
  copied : ∀ t ∈ run.1, t.dbSection.Holds d t.dbSection.pointer
    (signatureListSize d t.dbSection.pointer)
  whole : ∀ t ∈ run.1, signatureListSize d t.dbSection.pointer = 0 ∨
    WholeList d t.dbSection.pointer (t.dbSection.avail d)
  failed : ∀ t ∈ run.1, t.failed = true → t.after = t.before
  content : (∀ t ∈ run.1, t.failed = false) →
    run.2.content = previous ++ listsOf d sections
  size : (∀ t ∈ run.1, t.failed = false) →
    run.2.size = previous.length + (listsOf d sections).length

/-- A section that starts with its only list, or with a list size of nought. -/
structure OneList (d : Region) (s : DbSection) : Prop where
  header : s.pointer + 20 ≤ d.size
  only : signatureListSize d s.pointer = 0 ∨ WholeList d s.pointer (s.avail d) ∧
    ¬ WholeList d (s.pointer + signatureListSize d s.pointer)
      (s.avail d - signatureListSize d s.pointer)

instance (d : Region) (s : DbSection) : Decidable (OneList d s) :=
  decidable_of_iff (s.pointer + 20 ≤ d.size ∧ (signatureListSize d s.pointer = 0 ∨
    WholeList d s.pointer (s.avail d) ∧ ¬ WholeList d (s.pointer + signatureListSize d s.pointer)
      (s.avail d - signatureListSize d s.pointer)))
    ⟨fun h => ⟨h.1, h.2⟩, fun h => ⟨h.header, h.only⟩⟩

/-- No allocation fails, every section that is considered has one list, and all of it has a size. -/
structure CertCondition (d : Region) (sections : List DbSection) (previous : List UInt8)
    (run : List CertTurn × UserCert) : Prop where
  allocated : ∀ t ∈ run.1, t.failed = false
  oneList : ∀ s ∈ sections, OneList d s
  fits : previous.length + sumOfSizes d sections < 2 ^ 32

/-! ## The lists of a section -/

section Lists

variable {d : Region} {o left fuel : ℕ} {s : DbSection}

/-- Lists that follow one another take up consecutive bytes. -/
theorem flatten_wholeLists (d : Region) (fuel o left : ℕ) :
    (wholeLists d fuel o left).flatten = d.bytes o (wholeLists d fuel o left).flatten.length := by
  induction fuel generalizing o left with
  | zero => rfl
  | succ fuel ih =>
    unfold wholeLists
    by_cases hwhole : WholeList d o left
    · rw [if_pos hwhole, List.flatten_cons, List.length_append, Region.length_bytes,
        Region.bytes_add, ← ih]
    · rw [if_neg hwhole]
      rfl

/-- Where no whole list starts there is none. -/
theorem wholeLists_of_not (h : ¬ WholeList d o left) : wholeLists d fuel o left = [] := by
  cases fuel with
  | zero => rfl
  | succ fuel => exact if_neg h

/-- The first list of a section is among its lists. -/
theorem DbSection.length_lists_of_whole (h : WholeList d s.pointer (s.avail d)) :
    (s.lists d).flatten.length = signatureListSize d s.pointer +
      (wholeLists d (s.avail d - 1) (s.pointer + signatureListSize d s.pointer)
        (s.avail d - signatureListSize d s.pointer)).flatten.length := by
  obtain ⟨fuel, hfuel⟩ : ∃ fuel, s.avail d = fuel + 1 := ⟨s.avail d - 1, by have := h.1; have := h.2; omega⟩
  have hlists : s.lists d = d.bytes s.pointer (signatureListSize d s.pointer) ::
      wholeLists d (s.avail d - 1) (s.pointer + signatureListSize d s.pointer)
        (s.avail d - signatureListSize d s.pointer) := by
    rw [DbSection.lists]
    conv_lhs => rw [hfuel, wholeLists, ← hfuel, if_pos h]
    rw [hfuel, Nat.add_sub_cancel]
  rw [hlists, List.flatten_cons, List.length_append, Region.length_bytes]

/-- A section starts with its only list exactly if this is as long as all lists of the section. -/
theorem oneList_iff : OneList d s ↔ s.pointer + 20 ≤ d.size ∧
    (signatureListSize d s.pointer = 0 ∨ WholeList d s.pointer (s.avail d)) ∧
      signatureListSize d s.pointer = (s.lists d).flatten.length := by
  have hnone : signatureListSize d s.pointer = 0 → s.lists d = [] := by
    intro hzero
    exact wholeLists_of_not fun h => absurd h.1 (by omega)
  constructor
  · rintro ⟨hheader, hzero | ⟨hwhole, hnext⟩⟩
    · exact ⟨hheader, .inl hzero, by rw [hnone hzero, hzero]; rfl⟩
    · refine ⟨hheader, .inr hwhole, ?_⟩
      rw [DbSection.length_lists_of_whole hwhole, wholeLists_of_not hnext]
      rfl
  · rintro ⟨hheader, hzero | hwhole, hlen⟩
    · exact ⟨hheader, .inl hzero⟩
    · refine ⟨hheader, .inr ⟨hwhole, fun hnext => ?_⟩⟩
      rw [DbSection.length_lists_of_whole hwhole] at hlen
      have hpos : 0 < s.avail d - 1 := by
        have := hwhole.1
        have := hwhole.2
        omega
      obtain ⟨fuel, hfuel⟩ : ∃ fuel, s.avail d - 1 = fuel + 1 := ⟨s.avail d - 2, by omega⟩
      rw [hfuel, wholeLists, if_pos hnext, List.flatten_cons, List.length_append,
        Region.length_bytes] at hlen
      have := hnext.1
      omega

end Lists

/-! ## The loop -/

section Loop

variable {d : Region} {realloc : ReallocatePool} {i : ℕ} {sections : List DbSection} {c : UserCert}

/-- The size of a first section. -/
theorem sumOfSizes_cons (s : DbSection) (rest : List DbSection) :
    sumOfSizes d (s :: rest) = signatureListSize d s.pointer + sumOfSizes d rest := List.sum_cons

/-- The lists of a first section. -/
theorem listsOf_cons (s : DbSection) (rest : List DbSection) :
    listsOf d (s :: rest) = (s.lists d).flatten ++ listsOf d rest := List.flatMap_cons

/-- There is a turn for every section. -/
theorem map_dbSection_loadSections (d : Region) (realloc : ReallocatePool) (i : ℕ)
    (sections : List DbSection) (c : UserCert) :
    (loadSections d realloc i sections c).1.map CertTurn.dbSection = sections := by
  induction sections generalizing i c with
  | nil => rfl
  | cons s rest ih => exact congrArg (s :: ·) (ih _ _)

/-- The loop comes to every section. -/
theorem forall_turn_iff {p : DbSection → Prop} :
    (∀ t ∈ (loadSections d realloc i sections c).1, p t.dbSection) ↔ ∀ s ∈ sections, p s := by
  conv_rhs => rw [← map_dbSection_loadSections d realloc i sections c]
  exact List.forall_mem_map.symm

/-- `user_cert_size` is the sum of the sizes, in 32 bits. -/
theorem size_loadSections (d : Region) (realloc : ReallocatePool) (i : ℕ)
    (sections : List DbSection) {c : UserCert} (hc : c.size < 2 ^ 32) :
    (loadSections d realloc i sections c).2.size =
      (c.size + sumOfSizes d sections) % 2 ^ 32 := by
  induction sections generalizing i c with
  | nil => exact (Nat.mod_eq_of_lt hc).symm
  | cons s rest ih =>
    have hlater := ih (i + 1) (c := loadSection d realloc i s c) (Nat.mod_lt _ (by decide))
    rw [loadSections]
    dsimp only
    rw [hlater, sumOfSizes_cons, ← Nat.add_assoc]
    exact Nat.mod_add_mod _ _ _

/-- Where a failed allocation leaves `user_cert` alone, none fails. -/
theorem not_failed_of_unchanged (hnull : c.bytes = none → c.size = 0)
    (h : ∀ t ∈ (loadSections d realloc i sections c).1, t.failed = true → t.after = t.before) :
    ∀ t ∈ (loadSections d realloc i sections c).1, t.failed = false := by
  induction sections generalizing i c with
  | nil => exact fun t ht => absurd ht List.not_mem_nil
  | cons s rest ih =>
    obtain ⟨hfirst, hrest⟩ := List.forall_mem_cons.mp h
    have hok : (⟨s, c, loadSection d realloc i s c⟩ : CertTurn).failed = false := by
      by_contra hfailed
      rw [Bool.not_eq_false] at hfailed
      have hsame : loadSection d realloc i s c = c := hfirst hfailed
      rw [CertTurn.failed, Bool.and_eq_true, decide_eq_true_eq] at hfailed
      dsimp only at hfailed
      rw [hsame, Option.isNone_iff_eq_none] at hfailed
      exact hfailed.2 (hnull hfailed.1)
    refine List.forall_mem_cons.mpr ⟨hok, ih (fun hnone => ?_) hrest⟩
    rw [CertTurn.failed, Bool.and_eq_false_iff] at hok
    rcases hok with hok | hok
    · rw [hnone] at hok
      cases hok
    · simpa using hok

/-- A section is added behind the content. -/
theorem loadSection_content (hrealloc : realloc.Documented) {s : DbSection}
    (hlen : c.content.length = c.size) (hfits : c.size + signatureListSize d s.pointer < 2 ^ 32)
    (hok : (⟨s, c, loadSection d realloc i s c⟩ : CertTurn).failed = false) :
    (loadSection d realloc i s c).content =
        c.content ++ d.bytes s.pointer (signatureListSize d s.pointer) ∧
      (loadSection d realloc i s c).size = c.size + signatureListSize d s.pointer := by
  have hmod := Nat.mod_eq_of_lt hfits
  refine ⟨?_, hmod⟩
  simp only [CertTurn.failed, loadSection, hmod, Option.isNone_map, Bool.and_eq_false_iff] at hok
  simp only [loadSection, UserCert.content, hmod]
  cases hbuffer : realloc i c.bytes c.size (c.size + signatureListSize d s.pointer) with
  | none =>
    -- no new buffer and no failure: there was nothing to store
    have hzero : c.size + signatureListSize d s.pointer = 0 := by simpa [hbuffer] using hok
    have hcontent : c.content = [] := List.length_eq_zero_iff.mp (by omega)
    have hsize : signatureListSize d s.pointer = 0 := by omega
    rw [UserCert.content] at hcontent
    rw [hcontent, hsize]
    rfl
  | some buffer =>
    have hlength := hrealloc.length hbuffer
    have hdrop : buffer.drop (c.size + signatureListSize d s.pointer) = [] :=
      List.drop_eq_nil_of_le hlength.le
    -- the new buffer starts with the old one
    have htake : buffer.take c.size = c.bytes.getD [] := by
      cases hold : c.bytes with
      | none =>
        rw [UserCert.content, hold, Option.getD_none, List.length_nil] at hlen
        rw [← hlen]
        rfl
      | some old =>
        rw [hold] at hbuffer
        rw [UserCert.content, hold, Option.getD_some] at hlen
        exact hrealloc.keeps hbuffer hlen (Nat.le_add_right _ _)
    rw [Option.map_some, Option.getD_some, hdrop, htake, List.append_nil]

/-- The sections are added behind the content, one after the other. -/
theorem loadSections_content (hrealloc : realloc.Documented) (hlen : c.content.length = c.size)
    (hfits : c.size + sumOfSizes d sections < 2 ^ 32)
    (hone : ∀ s ∈ sections, signatureListSize d s.pointer = (s.lists d).flatten.length)
    (hok : ∀ t ∈ (loadSections d realloc i sections c).1, t.failed = false) :
    (loadSections d realloc i sections c).2.content = c.content ++ listsOf d sections ∧
      (loadSections d realloc i sections c).2.size = c.size + (listsOf d sections).length := by
  induction sections generalizing i c with
  | nil => exact ⟨(List.append_nil _).symm, rfl⟩
  | cons s rest ih =>
    obtain ⟨hfirst, hrest⟩ := List.forall_mem_cons.mp hok
    obtain ⟨hones, honerest⟩ := List.forall_mem_cons.mp hone
    rw [sumOfSizes_cons, ← Nat.add_assoc] at hfits
    have hlists : (s.lists d).flatten = d.bytes s.pointer (signatureListSize d s.pointer) := by
      rw [hones]
      exact flatten_wholeLists d _ _ _
    obtain ⟨hcontent, hsize⟩ := loadSection_content hrealloc hlen (by omega) hfirst
    have hlength : (loadSection d realloc i s c).content.length =
        (loadSection d realloc i s c).size := by
      rw [hcontent, hsize, List.length_append, hlen, Region.length_bytes]
    obtain ⟨hlater, hlaterSize⟩ := ih hlength (by rw [hsize]; exact hfits) honerest hrest
    rw [loadSections]
    dsimp only
    rw [hlater, hlaterSize, hcontent, hsize, listsOf_cons, ← hlists, List.append_assoc,
      List.length_append, ← hones, Nat.add_assoc]
    exact ⟨rfl, rfl⟩

end Loop

/-! ## When whole lists are imported -/

/-- `load_cert_file` on a file that was verified, with what `user_cert` holds before. -/
def loadVerified (image : Image) (realloc : ReallocatePool)
    (previous : {bytes : Option (List UInt8) // (bytes.getD []).length < 2 ^ 32}) :
    List CertTurn × UserCert :=
  loadSections image.data realloc 0 (dbSections image)
    ⟨previous.1, (previous.1.getD []).length⟩

/-- No list is longer than what the sections say their first lists are, if they are whole. -/
theorem sumOfSizes_le {d : Region} {sections : List DbSection}
    (h : ∀ s ∈ sections, signatureListSize d s.pointer ≤ (s.lists d).flatten.length) :
    sumOfSizes d sections ≤ (listsOf d sections).length ∧
      (sumOfSizes d sections = (listsOf d sections).length →
        ∀ s ∈ sections, signatureListSize d s.pointer = (s.lists d).flatten.length) := by
  induction sections with
  | nil => exact ⟨le_rfl, fun _ s hs => absurd hs List.not_mem_nil⟩
  | cons s rest ih =>
    obtain ⟨hs, hrest⟩ := List.forall_mem_cons.mp h
    obtain ⟨hle, hequal⟩ := ih hrest
    rw [sumOfSizes_cons, listsOf_cons, List.length_append]
    refine ⟨by omega, fun hsum => List.forall_mem_cons.mpr ⟨by omega, hequal (by omega)⟩⟩

/-- Whole lists are imported, all of them, exactly if every section has one and nothing fails. -/
theorem importsWholeLists_iff (image : Image) (realloc : ReallocatePool)
    (hrealloc : realloc.Documented)
    (previous : {bytes : Option (List UInt8) // (bytes.getD []).length < 2 ^ 32}) :
    ImportsWholeLists image.data (dbSections image) (previous.1.getD [])
        (loadVerified image realloc previous) ↔
      CertCondition image.data (dbSections image) (previous.1.getD [])
        (loadVerified image realloc previous) := by
  obtain ⟨previous, hlt⟩ := previous
  unfold loadVerified
  constructor
  · intro h
    have hnull : previous = none → (previous.getD []).length = 0 := by
      rintro rfl
      rfl
    -- no allocation failed: what was there would have been kept
    have hok := not_failed_of_unchanged hnull h.failed
    have hwhole := (forall_turn_iff (p := fun s => signatureListSize image.data s.pointer = 0 ∨
      WholeList image.data s.pointer (s.avail image.data))).mp h.whole
    have hheader := (forall_turn_iff
      (p := fun s => s.Holds image.data (s.pointer + 16) 4)).mp h.header
    have hle : ∀ s ∈ dbSections image,
        signatureListSize image.data s.pointer ≤ (s.lists image.data).flatten.length := by
      intro s hs
      rcases hwhole s hs with hzero | hlist
      · rw [hzero]
        exact Nat.zero_le _
      · rw [DbSection.length_lists_of_whole hlist]
        exact Nat.le_add_right _ _
    -- the sizes add up to no more than the lists, so each section has the one list
    obtain ⟨hsum, hequal⟩ := sumOfSizes_le hle
    have hsize := h.size hok
    rw [size_loadSections _ _ _ _ hlt] at hsize
    have hmod := Nat.mod_le ((previous.getD []).length + sumOfSizes image.data (dbSections image))
      (2 ^ 32)
    have hbound := Nat.mod_lt ((previous.getD []).length +
      sumOfSizes image.data (dbSections image)) (by decide : 0 < 2 ^ 32)
    dsimp only at hsize
    refine ⟨hok, fun s hs => ?_, by dsimp only; omega⟩
    refine oneList_iff.mpr ⟨?_, hwhole s hs, hequal (by omega) s hs⟩
    rcases hheader s hs with hzero | ⟨-, hin⟩
    · cases hzero
    · have := Nat.min_le_right s.raw (image.data.size - s.pointer)
      rw [DbSection.avail] at hin
      omega
  -- each section brings its one list, and the sum does not wrap
  · intro h
    have hone := fun s hs => oneList_iff.mp (h.oneList s hs)
    obtain ⟨hcontent, hsize⟩ := loadSections_content (c := ⟨previous, (previous.getD []).length⟩)
      hrealloc rfl h.fits (fun s hs => (hone s hs).2.2) h.allocated
    have havail : ∀ s ∈ dbSections image, 20 ≤ s.avail image.data := by
      intro s hs
      have := (hone s hs).1
      have := s.room
      rw [DbSection.avail, le_min_iff]
      omega
    refine ⟨?_, ?_, ?_, fun t ht hfailed => ?_, fun _ => hcontent, fun _ => hsize⟩
    · refine (forall_turn_iff (p := fun s => s.Holds image.data (s.pointer + 16) 4)).mpr ?_
      intro s hs
      have := havail s hs
      exact .inr ⟨by omega, by omega⟩
    · refine (forall_turn_iff (p := fun s => s.Holds image.data s.pointer
        (signatureListSize image.data s.pointer))).mpr fun s hs => ?_
      rcases (hone s hs).2.1 with hzero | hlist
      · exact .inl hzero
      · exact .inr ⟨le_rfl, Nat.add_le_add_left hlist.2 _⟩
    · exact (forall_turn_iff (p := fun s => signatureListSize image.data s.pointer = 0 ∨
        WholeList image.data s.pointer (s.avail image.data))).mpr fun s hs => (hone s hs).2.1
    · rw [h.allocated t ht] at hfailed
      cases hfailed

/-! ## What the other steps of the boot see -/

/-- What the file brings, section by section. -/
theorem dbLists_eq (image : Image) : dbLists image = (dbSections image).flatMap fun s =>
    image.data.bytes s.pointer (signatureListSize image.data s.pointer) := by
  unfold dbLists dbSections
  induction sectionHeaders image.data image.context with
  | nil => rfl
  | cons s rest ih =>
    rw [List.flatMap_cons, ih, List.filterMap_cons]
    unfold dbSection
    by_cases hname : s.name = CText.ascii ".db" ++ [0, 0, 0, 0, 0]
    · by_cases hroom : s.sizeOfRawData < 28
      · rw [if_neg (fun h => Nat.not_le.mpr hroom h.2), if_pos hname, dif_pos hroom]
        rfl
      · rw [if_pos ⟨hname, Nat.not_lt.mp hroom⟩, if_pos hname, dif_neg hroom]
        cases imageAddress image.data.base (intSize image.data.size) s.pointerToRawData with
        | none => rfl
        | some pointer => rfl
    · rw [if_neg (fun h => hname h.1), if_neg hname]
      rfl

/-- Under the condition, the lists that the file brings are all its lists. -/
theorem CertCondition.dbLists_eq_listsOf {image : Image} {previous : List UInt8}
    {run : List CertTurn × UserCert}
    (h : CertCondition image.data (dbSections image) previous run) :
    dbLists image = listsOf image.data (dbSections image) := by
  rw [dbLists_eq, listsOf]
  refine List.flatMap_congr fun s hs => ?_
  rw [(oneList_iff.mp (h.oneList s hs)).2.2]
  exact (flatten_wholeLists _ _ _ _).symm

/-! ## Files with one section -/

/-- A file whose one section is a `.db` section with this data. -/
def certImage (data : List UInt8) : Image :=
  let file := Region.ofFields 0x10000 (288 + data.length)
    [(0, [0x4d, 0x5a]), (60, [64]), (64, [0x50, 0x45]), (68, [0x64, 0x86]), (70, [1]), (84, [160]),
     (88, [0x0b, 0x02]), (144, [0x00, 0x20]), (148, [0x20, 0x01]), (196, [6]),
     (248, CText.ascii ".db"), (256, Region.le32 data.length), (260, [0x00, 0x10]),
     (264, Region.le32 data.length), (268, [0x20, 0x01]), (284, [0x40, 0x00, 0x00, 0x42]),
     (288, data)]
  ⟨file, contextAt file 64⟩

/-- A list without signatures. -/
def bareList : List UInt8 :=
  certTypeX509Guid ++ Region.le32 28 ++ Region.le32 0 ++ Region.le32 17

/-- Allocations of cleared memory that all succeed. -/
def clearedPool : ReallocatePool := fun _ old n n' =>
  some (((old.getD []).take n ++ List.replicate n' 0).take n')

/-- Such a pool keeps what was there. -/
theorem clearedPool_documented : clearedPool.Documented where
  length := by
    intro i old n n' new h
    obtain rfl := Option.some.inj h
    rw [List.length_take, List.length_append, List.length_replicate]
    omega
  keeps := by
    intro i old n n' new h hlen hle
    obtain rfl := Option.some.inj h
    rw [Option.getD_some, List.take_take, min_eq_left hle, List.take_of_length_le hlen.le,
      ← hlen, List.take_left]

/-- A list with one signature: an owner and a certificate of three bytes. -/
def oneCertList : List UInt8 :=
  certTypeX509Guid ++ Region.le32 47 ++ Region.le32 0 ++ Region.le32 19 ++
    shimLockGuid ++ [0x30, 0x01, 0x00]

/-- A section with one list and one certificate. -/
theorem importsWholeLists_oneCert :
    ImportsWholeLists (certImage oneCertList).data (dbSections (certImage oneCertList)) []
      (loadVerified (certImage oneCertList) clearedPool ⟨none, by decide⟩) := by
  refine (importsWholeLists_iff _ clearedPool clearedPool_documented ⟨none, by decide⟩).mpr ?_
  exact ⟨by decide +kernel, by decide +kernel, by decide +kernel⟩

/-- Of two lists, only the first is imported. -/
theorem not_importsWholeLists_two :
    readHeader platformX64 (certImage (bareList ++ bareList)).data =
        .ok (certImage (bareList ++ bareList)).context ∧
      ¬ ImportsWholeLists (certImage (bareList ++ bareList)).data
        (dbSections (certImage (bareList ++ bareList))) []
        (loadVerified (certImage (bareList ++ bareList)) clearedPool ⟨none, by decide⟩) := by
  refine ⟨by decide +kernel, fun h => ?_⟩
  exact absurd (h.size (by decide +kernel)) (by decide +kernel)

end Shim.Trust
