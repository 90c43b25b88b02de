import Shim.Common.Run
import Shim.Sbat.Level

/-! # SbatLevel never goes backward

`preserve_sbat_uefi_variable` compares the version fields by length and then by `strncmp`, and the
datestamps by `strncmp`. On levels whose first line is `sbat,<version>,<datestamp>` this is the
numeric comparison, so a level that replaces another one has at least its version and a later
date. Under Secure Boot the reset payload is never a candidate.
-/

namespace Shim

open Bytes CText Runs

/-! ## The first line -/

/-- The first line is `sbat,<version>,<datestamp>`: a decimal version without leading zeros and a
datestamp of ten digits. -/
structure FirstLine (data version date : List UInt8) : Prop where
  shape : ∃ rest, data = sbatVarSig ++ (version ++ comma :: (date ++ 10 :: rest))
  version_numeral : IsNumeral version
  date_digits : ∀ b ∈ date, IsDigit b
  date_length : date.length = 10

/-- A text with such a first line. -/
def HasFirstLine (data : List UInt8) : Prop := ∃ version date, FirstLine data version date

/-- The first field starts at the start. -/
@[simp] theorem nthSbatField_zero (str : List UInt8) (limit : ℕ) : nthSbatField str limit 0 = 0 := by
  cases limit <;> simp [nthSbatField]

/-- The next field starts behind the comma. -/
theorem nthSbatField_append {field rest : List UInt8} {limit : ℕ} (n : ℕ)
    (hfield : ∀ b ∈ field, b ≠ 0 ∧ b ≠ comma) (hlimit : field.length < limit) :
    nthSbatField (field ++ comma :: rest) limit (n + 1) =
      field.length + 1 + nthSbatField rest (limit - (field.length + 1)) n := by
  induction field generalizing limit with
  | nil =>
    obtain ⟨limit, rfl⟩ : ∃ l, limit = l + 1 := ⟨limit - 1, by simp at hlimit; omega⟩
    simp [nthSbatField, show comma ≠ 0 by decide, Nat.add_comm]
  | cons b field ih =>
    obtain ⟨limit, rfl⟩ : ∃ l, limit = l + 1 := ⟨limit - 1, by omega⟩
    have hb := hfield b (by simp)
    rw [List.length_cons] at hlimit
    simp only [List.cons_append, nthSbatField, List.headD_cons, List.tail_cons, hb.1, hb.2,
      if_false, Nat.succ_ne_zero]
    rw [ih (fun x hx => hfield x (by simp [hx])) (by omega), List.length_cons,
      Nat.add_sub_add_right]
    omega

/-- A digit is no comma. -/
theorem ne_comma_of_isDigit {b : UInt8} (h : IsDigit b) : b ≠ comma := by
  rintro rfl
  exact absurd h (by decide)

/-- The signature of a level and what follows it. -/
theorem sbatVarSig_append (l : List UInt8) : sbatVarSig ++ l = ascii "sbat" ++ comma :: l := rfl

section FirstLine

variable {data version date : List UInt8}

/-- The version field starts after `sbat,`. -/
theorem FirstLine.nth_one (h : FirstLine data version date) {limit : ℕ}
    (hlimit : data.length ≤ limit) : nthSbatField data limit 1 = 5 := by
  obtain ⟨rest, rfl⟩ := h.shape
  rw [sbatVarSig_append] at hlimit ⊢
  rw [nthSbatField_append 0 (by decide +kernel) (by
    rw [List.length_append, List.length_cons] at hlimit
    omega), nthSbatField_zero]
  rfl

/-- The datestamp starts after the version and its comma. -/
theorem FirstLine.nth_two (h : FirstLine data version date) {limit : ℕ}
    (hlimit : data.length ≤ limit) : nthSbatField data limit 2 = 6 + version.length := by
  obtain ⟨rest, rfl⟩ := h.shape
  rw [sbatVarSig_append, List.length_append, List.length_cons, List.length_append,
    List.length_cons] at hlimit
  have hsig : (ascii "sbat").length = 4 := rfl
  have hver : ∀ b ∈ version, b ≠ 0 ∧ b ≠ comma := fun b hb =>
    ⟨(h.version_numeral.2.1 b hb).ne_zero, ne_comma_of_isDigit (h.version_numeral.2.1 b hb)⟩
  rw [sbatVarSig_append, nthSbatField_append 1 (by decide +kernel) (by omega),
    nthSbatField_append 0 hver (by omega), nthSbatField_zero, hsig]
  omega

/-- The version behind the signature. -/
theorem FirstLine.drop_version (h : FirstLine data version date) :
    ∃ rest, data.drop 5 = version ++ comma :: (date ++ rest) := by
  obtain ⟨rest, rfl⟩ := h.shape
  exact ⟨10 :: rest, rfl⟩

/-- The date behind the version. -/
theorem FirstLine.drop_date (h : FirstLine data version date) :
    ∃ rest, data.drop (6 + version.length) = date ++ rest := by
  obtain ⟨rest, rfl⟩ := h.shape
  refine ⟨10 :: rest, ?_⟩
  have hdrop : (sbatVarSig ++ (version ++ comma :: (date ++ 10 :: rest))).drop
      (6 + version.length) =
      ((version ++ [comma]) ++ (date ++ 10 :: rest)).drop (version ++ [comma]).length := by
    rw [List.length_append, List.length_singleton, show 6 + version.length
      = 5 + (version.length + 1) by omega, ← List.drop_drop, List.append_assoc]
    rfl
  rw [hdrop, List.drop_left]

/-- A first line has its date. -/
theorem FirstLine.length_le (h : FirstLine data version date) :
    version.length + 17 ≤ data.length := by
  have hlen := h.date_length
  obtain ⟨rest, rfl⟩ := h.shape
  rw [sbatVarSig_append]
  simp only [List.length_append, List.length_cons, hlen, show (ascii "sbat").length = 4 from rfl]
  omega

/-- It starts with the signature. -/
theorem FirstLine.sig (h : FirstLine data version date) :
    strncmp sbatVarSig.length data sbatVarSig = .eq := by
  obtain ⟨rest, rfl⟩ := h.shape
  rfl

end FirstLine

/-! ## The comparison -/

/-- A difference of two offsets into a buffer is kept by `int` and, if not negative, by `size_t`. -/
theorem toInt_natCast {n : ℕ} (h : n < 2 ^ 31) : toInt n = n := by
  unfold toInt
  rw [Int.bmod_def]
  omega

/-- A number of 31 bits is not changed. -/
theorem toSizeT_natCast {n : ℕ} (h : n < 2 ^ 31) : toSizeT n = n := by
  unfold toSizeT
  omega

/-- A level that is not preserved is older than the candidate, by its version and its date. -/
theorem decimal_le_of_not_preserve {devel : Bool} {sbat : Variable} {candidate : CString}
    {v d v' d' : List UInt8} (hsbat : FirstLine sbat.data v d)
    (hcandidate : FirstLine candidate.bytes v' d')
    (hattrs : checkSbatVarAttributes devel sbat.attrs = true)
    (h : preserveSbatUefiVariable devel sbat candidate = false) :
    decimal v ≤ decimal v' ∧ decimal d < decimal d' := by
  have hlen := hsbat.length_le
  have hlen' := hcandidate.length_le
  have hpos : 0 < v.length := List.length_pos_iff.mpr hsbat.version_numeral.1
  have hsize := sbat.size_lt
  have hsize' := candidate.size_lt
  have horiginal : sbatVarOriginal.bytes.length = 18 := rfl
  unfold preserveSbatUefiVariable at h
  rw [if_neg (by
    rintro (h | h | h)
    · exact h hattrs
    · omega
    · exact h hsbat.sig)] at h
  -- the lengths of both versions, as the code subtracts the columns
  have hdiff : ∀ n : ℕ, ((6 + n : ℕ) : ℤ) - (5 : ℕ) - 1 = n := fun n => by omega
  obtain ⟨r₁, hv⟩ := hsbat.drop_version
  obtain ⟨r₁', hv'⟩ := hcandidate.drop_version
  obtain ⟨r₂, hd⟩ := hsbat.drop_date
  obtain ⟨r₂', hd'⟩ := hcandidate.drop_date
  simp only [hsbat.nth_one le_rfl, hsbat.nth_two le_rfl,
    hcandidate.nth_one (Nat.le_succ _), hcandidate.nth_two (Nat.le_succ _), hdiff,
    toInt_natCast (n := v.length) (by omega), toInt_natCast (n := v'.length) (by omega),
    toSizeT_natCast (n := v'.length) (by omega), hv, hv', hd, hd'] at h
  split_ifs at h with hversion
  rw [not_or, not_lt, not_and, Int.ofNat_le, Int.ofNat_inj] at hversion
  -- the dates have ten digits, so the comparison of texts is one of numbers
  have hdate : decimal d < decimal d' := by
    have hcmp := strncmp_digits r₂ r₂' (hsbat.date_length.trans hcandidate.date_length.symm)
      hsbat.date_digits hcandidate.date_digits
    rw [hcandidate.date_length] at hcmp
    rw [show sbatVarOriginalDate.length = 10 from rfl, hcmp] at h
    exact Nat.compare_eq_lt.mp (by simpa using h)
  -- a shorter version is smaller, and those of one length compare as texts
  refine ⟨?_, hdate⟩
  rcases Nat.lt_or_eq_of_le hversion.1 with hlt | heq
  · exact (decimal_lt_of_length_lt hsbat.version_numeral.2.1 hcandidate.version_numeral
      hsbat.version_numeral.1 hlt).le
  · have hcmp := strncmp_digits (comma :: (d ++ r₁)) (comma :: (d' ++ r₁')) heq
      hsbat.version_numeral.2.1 hcandidate.version_numeral.2.1
    rw [hcmp] at hversion
    have := hversion.2 heq
    rw [Nat.compare_eq_gt] at this
    omega

/-! ## Runs -/

/-- What happens to the state: a call, a new `SbatPolicy` from the running system, or a restart,
which loses the static policy and the list. -/
inductive SbatEvent
  | call (c : SbatCall)
  | writePolicy (v : Option Variable)
  | restart

/-- The state after an event. -/
def sbatStep (build : SbatBuild) (s : SbatState) : SbatEvent → SbatState
  | .call c => (setSbatUefiVariable build s c).state
  | .writePolicy v => { s with vars := Function.update s.vars .sbatPolicy v }
  | .restart => { s with sbatPolicy := policyNotread, sbatVar := [] }

/-- The payloads of a call have a first line, and the firmware carries out its calls. -/
def SbatEvent.Regular : SbatEvent → Prop
  | .call c => HasFirstLine c.sbatVarAutomatic.bytes ∧ HasFirstLine c.sbatVarLatest.bytes ∧
      c.faults = .quiet
  | _ => True

/-- SbatLevel is there, with the attributes required of it and a first line. -/
def LevelStored (build : SbatBuild) (s : SbatState) : Prop :=
  ∃ sbat, s.vars .sbatLevel = some sbat ∧
    checkSbatVarAttributes build.devel sbat.attrs = true ∧ HasFirstLine sbat.data

/-- Version and datestamp of the stored level are at least what they were; if the level is
another one, it is a payload of the call. -/
def NotBackward (s : SbatState) (c : SbatCall) (s' : SbatState) : Prop :=
  ∃ old new v d v' d', s.vars .sbatLevel = some old ∧ FirstLine old.data v d ∧
    s'.vars .sbatLevel = some new ∧ FirstLine new.data v' d' ∧
    decimal v ≤ decimal v' ∧ decimal d ≤ decimal d' ∧
    (new = old ∨ new.data = c.sbatVarAutomatic.bytes ∨ new.data = c.sbatVarLatest.bytes)

/-- Under Secure Boot no call goes backward. -/
def MonotoneStep (build : SbatBuild) (s : SbatState) : SbatEvent → Prop
  | .call c => c.secureMode = true → NotBackward s c (sbatStep build s (.call c))
  | _ => True

/-- The original level has a first line. -/
theorem hasFirstLine_original : HasFirstLine sbatVarOriginal.bytes :=
  ⟨ascii "1", sbatVarOriginalDate, ⟨[], rfl⟩, by decide +kernel, by decide +kernel, rfl⟩

/-- The attributes that shim writes pass its own check. -/
theorem checkSbatVarAttributes_own (devel : Bool) :
    checkSbatVarAttributes devel (sbatVarAttrs devel) = true := by
  cases devel <;> rfl

/-- The candidates there are: the two payloads, and outside Secure Boot the reset one. -/
theorem candidateOf_cases (s : SbatState) (c : SbatCall) :
    candidateOf s c = (c.sbatVarAutomatic, false) ∨ candidateOf s c = (c.sbatVarLatest, false) ∨
      c.secureMode = false ∧ candidateOf s c = (sbatVarOriginal, true) := by
  unfold candidateOf chooseCandidate defaultCandidate
  cases c.secureMode <;> split_ifs <;> simp_all

/-- So has the candidate of a call. -/
theorem hasFirstLine_candidateOf {s : SbatState} {c : SbatCall}
    (hc : (SbatEvent.call c).Regular) : HasFirstLine (candidateOf s c).1.bytes := by
  rcases candidateOf_cases s c with h | h | ⟨-, h⟩ <;> rw [h]
  · exact hc.1
  · exact hc.2.1
  · exact hasFirstLine_original

/-- With the firmware carrying out its calls, a call keeps the stored level, or replaces one it
does not preserve by the candidate. -/
theorem setSbatUefiVariable_quiet (build : SbatBuild) {s : SbatState} {c : SbatCall}
    {sbat : Variable} (hquiet : c.faults = .quiet) (hlevel : s.vars .sbatLevel = some sbat)
    (hdata : sbat.data ≠ []) :
    (setSbatUefiVariable build s c).state.vars .sbatLevel = some sbat ∨
      (setSbatUefiVariable build s c).state.vars .sbatLevel =
          some (sbatLevelOf build (candidateOf s c).1) ∧
        ¬ (preserveSbatUefiVariable build.devel sbat (candidateOf s c).1 = true ∧
          (candidateOf s c).2 = false) := by
  -- no fault, so the level is read as it is stored
  have hnotRefused : ¬ queryRefused (none : Fault) := by
    rintro ⟨e, h, -⟩
    cases h
  have hread : readSbatLevel s c = .ok sbat := by
    rw [readSbatLevel, hquiet]
    exact getVariableAttr_of_some hlevel hdata hnotRefused rfl
  have hsome : (readSbatPolicy s c.faults).2.vars .sbatLevel = some sbat := by
    rw [readSbatPolicy_sbatLevel, hlevel]
  rw [setSbatUefiVariable_eq_match, hread]
  dsimp only
  by_cases hkeep : preserveSbatUefiVariable build.devel sbat (candidateOf s c).1 = true ∧
      (candidateOf s c).2 = false
  · rw [if_pos (by simpa using hkeep)]
    exact .inl hsome
  rw [if_neg (by simpa using hkeep)]
  rcases replaceSbatLevel_cases build c (candidateOf s c).1 hsome with
    ⟨e, -, -, h⟩ | ⟨entries, -, ⟨-, e, -, h⟩ | ⟨-, ⟨hwrite, -⟩ | ⟨-, e, -, h⟩⟩⟩
  · rw [h]
    exact .inl hsome
  · rw [h]
    exact .inl hsome
  · rw [hquiet] at hwrite
    exact absurd rfl hwrite
  · rw [h]
    exact .inr ⟨by simp, hkeep⟩

/-- A level with a first line is not empty. -/
theorem FirstLine.ne_nil {data v d : List UInt8} (h : FirstLine data v d) : data ≠ [] := by
  have := h.length_le
  rintro rfl
  simp at this

/-- A stored level stays one. -/
theorem LevelStored.step {build : SbatBuild} {s : SbatState} {e : SbatEvent}
    (hs : LevelStored build s) (he : e.Regular) : LevelStored build (sbatStep build s e) := by
  obtain ⟨sbat, hlevel, hattrs, v, d, hline⟩ := hs
  cases e with
  | call c =>
    rcases setSbatUefiVariable_quiet build he.2.2 hlevel hline.ne_nil with h | ⟨h, -⟩
    · exact ⟨sbat, h, hattrs, v, d, hline⟩
    · exact ⟨_, h, checkSbatVarAttributes_own build.devel, hasFirstLine_candidateOf he⟩
  | writePolicy w =>
    refine ⟨sbat, ?_, hattrs, v, d, hline⟩
    simpa [sbatStep] using hlevel
  | restart => exact ⟨sbat, hlevel, hattrs, v, d, hline⟩

/-- One call under Secure Boot does not go backward. -/
theorem LevelStored.monotoneStep {build : SbatBuild} {s : SbatState} {e : SbatEvent}
    (hs : LevelStored build s) (he : e.Regular) : MonotoneStep build s e := by
  cases e with
  | writePolicy w => trivial
  | restart => trivial
  | call c =>
    intro hsecure
    obtain ⟨sbat, hlevel, hattrs, v, d, hline⟩ := hs
    rcases setSbatUefiVariable_quiet build he.2.2 hlevel hline.ne_nil with
      h | ⟨h, hnot⟩
    · exact ⟨sbat, sbat, v, d, v, d, hlevel, hline, h, hline, le_rfl, le_rfl, .inl rfl⟩
    · obtain ⟨v', d', hline'⟩ := hasFirstLine_candidateOf (s := s) he
      have hcandidate : (candidateOf s c).2 = false ∧
          ((candidateOf s c).1 = c.sbatVarAutomatic ∨ (candidateOf s c).1 = c.sbatVarLatest) := by
        rcases candidateOf_cases s c with h | h | ⟨hopen, -⟩
        · rw [h]
          exact ⟨rfl, .inl rfl⟩
        · rw [h]
          exact ⟨rfl, .inr rfl⟩
        · rw [hsecure] at hopen
          cases hopen
      have hpreserve : preserveSbatUefiVariable build.devel sbat (candidateOf s c).1 = false := by
        by_contra hkeep
        exact hnot ⟨by simpa using hkeep, hcandidate.1⟩
      obtain ⟨hversion, hdate⟩ := decimal_le_of_not_preserve hline hline' hattrs hpreserve
      refine ⟨sbat, _, v, d, v', d', hlevel, hline, h, hline', hversion, hdate.le, .inr ?_⟩
      exact hcandidate.2.imp (congrArg CString.bytes) (congrArg CString.bytes)

/-- Along every run that starts from a stored level, with whatever policies, under Secure Boot
SbatLevel never goes backward. -/
theorem sbatLevel_monotone {build : SbatBuild} {s : SbatState} {events : List SbatEvent}
    (hs : LevelStored build s) (hevents : ∀ e ∈ events, e.Regular) :
    Along (sbatStep build) (MonotoneStep build) s events := by
  induction events generalizing s with
  | nil => trivial
  | cons e events ih =>
    have he := hevents e (by simp)
    exact ⟨hs.monotoneStep he, ih (hs.step he) fun e' h => hevents e' (by simp [h])⟩

/-- A newer payload. -/
def level2023 : CString where
  bytes := ascii "sbat,1,2023012900\nshim,2\n"
  nonzero := by decide +kernel
  size_lt := by decide

/-- Two calls under Secure Boot, with a reset policy written between them. -/
theorem sbatLevel_monotone_reset :
    Along (sbatStep ⟨false, []⟩) (MonotoneStep ⟨false, []⟩) originalStored
      [.call ⟨level2023, level2023, true, false, [], .quiet⟩,
        .writePolicy (some ⟨[policyReset], uefiVarNvBs, by decide⟩), .restart,
        .call ⟨level2023, level2023, true, false, [], .quiet⟩] := by
  have hline : HasFirstLine level2023.bytes :=
    ⟨ascii "1", ascii "2023012900", ⟨ascii "shim,2\n", rfl⟩, by decide +kernel, by decide +kernel, rfl⟩
  refine sbatLevel_monotone ⟨_, rfl, rfl, hasFirstLine_original⟩ ?_
  simp [SbatEvent.Regular, hline]

end Shim
