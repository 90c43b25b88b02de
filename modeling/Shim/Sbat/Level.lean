import Shim.Efi.Variables
import Shim.Sbat.CsvTail

/-! # The SbatLevel variable

`set_sbat_uefi_variable` (sbat.c:468-615) with what it calls: the choice of the candidate by
policy, `preserve_sbat_uefi_variable`, `parse_sbat_var` and the self-check. The state is what the
function keeps between calls and what it changes: the two firmware variables, the static policy
and the global list `sbat_var`.
-/

namespace Shim

open Bytes CText

/-- A C string as the callers pass it: no byte of it is NUL, and its length fits an `int`, as the
size of the image section it lies in does. -/
@[ext]
structure CString where
  bytes : List UInt8
  nonzero : ∀ b ∈ bytes, b ≠ 0
  size_lt : bytes.length < 2 ^ 31

instance : DecidableEq CString := fun _ _ => decidable_of_iff _ CString.ext_iff.symm

/-- The variables the function reads and writes. -/
inductive SbatVarName
  | sbatLevel
  | sbatPolicy
  deriving DecidableEq

/-! ## Constants -/

/-- `POLICY_LATEST`. -/
def policyLatest : UInt8 := 1

/-- `POLICY_AUTOMATIC`. -/
def policyAutomatic : UInt8 := 2

/-- `POLICY_RESET`. -/
def policyReset : UInt8 := 3

/-- `POLICY_NOTREAD`. -/
def policyNotread : UInt8 := 255

/-- `UEFI_VAR_NV_BS`. -/
def uefiVarNvBs : ℕ := 0x3

/-- `UEFI_VAR_NV_BS_RT`. -/
def uefiVarNvBsRt : ℕ := 0x7

/-- `UEFI_VAR_NV_BS_TIMEAUTH`. -/
def uefiVarNvBsTimeauth : ℕ := 0x23

/-- `SBAT_VAR_SIG`, `"sbat,"`. -/
def sbatVarSig : List UInt8 := ascii "sbat,"

/-- `SBAT_VAR_ORIGINAL_DATE`, `"2021030218"`. -/
def sbatVarOriginalDate : List UInt8 := ascii "2021030218"

/-- `SBAT_VAR_ORIGINAL`, `"sbat,1,2021030218\n"`. -/
def sbatVarOriginal : CString where
  bytes := sbatVarSig ++ ascii "1," ++ sbatVarOriginalDate ++ ascii "\n"
  nonzero := by decide +kernel
  size_lt := by decide

/-- `SBAT_VAR_ATTRS`, by whether the build defines `ENABLE_SHIM_DEVEL`. -/
def sbatVarAttrs (devel : Bool) : ℕ := if devel then uefiVarNvBsRt else uefiVarNvBs

/-! ## State and calls -/

/-- The state `set_sbat_uefi_variable` works on. -/
structure SbatState where
  vars : Variables SbatVarName
  sbatPolicy : UInt8
  sbatVar : List SbatVarEntry

/-- Which of the firmware calls of one `set_sbat_uefi_variable` are refused, in the order they are
made; a `get_variable` is a size query and a read. -/
structure SbatFaults where
  policySize : Fault
  policyRead : Fault
  policyClear : Fault
  levelSize : Fault
  levelRead : Fault
  levelDelete : Fault
  levelWrite : Fault
  checkSize : Fault
  checkRead : Fault

/-- No call is refused. -/
def SbatFaults.quiet : SbatFaults := ⟨none, none, none, none, none, none, none, none, none⟩

/-- What is fixed when shim is built: `ENABLE_SHIM_DEVEL` and the data of its own `.sbat` section
that the self-check is given. -/
structure SbatBuild where
  devel : Bool
  ownSbat : List UInt8

/-- One call: its arguments, the mode the machine is in, what follows the copy of the candidate in
allocated memory, and what the firmware does. -/
structure SbatCall where
  sbatVarAutomatic : CString
  sbatVarLatest : CString
  secureMode : Bool
  inProtocol : Bool
  heap : List UInt8
  faults : SbatFaults

/-- The outcome of one call; `written` is the payload the second `SetVariable` stored, if the call
got there. -/
structure SbatOutcome where
  status : EfiStatus
  state : SbatState
  written : Option CString

/-! ## The policy -/

/-- The read of `SbatPolicy`, made once: its status, and the state with the sticky policy. -/
def readSbatPolicy (s : SbatState) (faults : SbatFaults) : EfiStatus × SbatState :=
  if s.sbatPolicy = policyNotread then
    match getVariableAttr s.vars .sbatPolicy faults.policySize faults.policyRead with
    | .error e => (e, s)
    | .ok v =>
      (.success,
        { s with
          sbatPolicy := v.data.headD 0
          vars := (delVariable s.vars .sbatPolicy faults.policyClear).2 })
  else (.success, s)

/-- The candidate when no valid policy is in force, with `reset_sbat`. -/
def defaultCandidate (call : SbatCall) : CString × Bool :=
  if call.secureMode then (call.sbatVarAutomatic, false) else (sbatVarOriginal, true)

/-- `sbat_var_candidate` and `reset_sbat`. -/
def chooseCandidate (efiStatus : EfiStatus) (policy : UInt8) (call : SbatCall) : CString × Bool :=
  if efiStatus.isError then defaultCandidate call
  else if policy = policyLatest then (call.sbatVarLatest, false)
  else if policy = policyAutomatic then (call.sbatVarAutomatic, false)
  else if policy = policyReset then defaultCandidate call
  else defaultCandidate call

/-! ## preserve_sbat_uefi_variable -/

/-- `check_sbat_var_attributes`. -/
def checkSbatVarAttributes (devel : Bool) (attributes : ℕ) : Bool :=
  if devel then attributes = uefiVarNvBsRt
  else attributes = uefiVarNvBs || attributes = uefiVarNvBsTimeauth

/-- `nth_sbat_field`: the offset of the field; `str` is what is left to look at. -/
def nthSbatField (str : List UInt8) : ℕ → ℕ → ℕ
  | 0, _ => 0
  | limit + 1, n =>
    if str.headD 0 = 0 then 0
    else if n = 0 then 0
    else nthSbatField str.tail limit (if str.headD 0 = comma then n - 1 else n) + 1

/-- The conversion of a pointer difference to `int`. -/
def toInt (d : ℤ) : ℤ := d.bmod (2 ^ 32)

/-- The conversion of an `int` to `size_t`. -/
def toSizeT (d : ℤ) : ℕ := (d % 2 ^ 64).toNat

/-- `preserve_sbat_uefi_variable`. -/
def preserveSbatUefiVariable (devel : Bool) (sbat : Variable) (sbatVar : CString) : Bool :=
  if ¬ checkSbatVarAttributes devel sbat.attrs ∨
      sbat.data.length < sbatVarOriginal.bytes.length ∨
      strncmp sbatVarSig.length sbat.data sbatVarSig ≠ .eq then false
  else
    let currentVersion := nthSbatField sbat.data sbat.data.length 1
    let newVersion := nthSbatField sbatVar.bytes (sbatVar.bytes.length + 1) 1
    let currentDatestamp := nthSbatField sbat.data sbat.data.length 2
    let newDatestamp := nthSbatField sbatVar.bytes (sbatVar.bytes.length + 1) 2
    let currentVersionLen := toInt ((currentDatestamp : ℤ) - currentVersion - 1)
    let newVersionLen := toInt ((newDatestamp : ℤ) - newVersion - 1)
    if newVersionLen < currentVersionLen ∨
        currentVersionLen = newVersionLen ∧
          strncmp (toSizeT newVersionLen) (sbat.data.drop currentVersion)
            (sbatVar.bytes.drop newVersion) = .gt then true
    else
      strncmp sbatVarOriginalDate.length (sbat.data.drop currentDatestamp)
        (sbatVar.bytes.drop newDatestamp) ≠ .lt

/-! ## set_sbat_uefi_variable -/

/-- `parse_sbat_var` of a candidate: the copy has no terminator of its own. -/
def parseSbatVar (candidate : CString) (heap : List UInt8) : Except EfiStatus (List SbatVarEntry) :=
  parseSbatVarData (candidate.bytes ++ heap) (candidate.bytes.length + 1)

/-- The variable a payload is stored as. -/
def sbatLevelOf (build : SbatBuild) (payload : CString) : Variable :=
  ⟨payload.bytes, sbatVarAttrs build.devel, payload.size_lt⟩

/-- The comparison of what is read back with what was written. -/
def readBackStatus (sbat : Variable) (candidate : CString) : EfiStatus :=
  if sbat.data.length ≠ candidate.bytes.length ∨
      strncmp candidate.bytes.length sbat.data candidate.bytes ≠ .eq then .invalidParameter
  else .success

/-- The end of the function: write the candidate and verify that the expected data is there. -/
def writeSbatLevel (build : SbatBuild) (s : SbatState) (candidate : CString)
    (faults : SbatFaults) : SbatOutcome :=
  let r := setVariable s.vars .sbatLevel (sbatLevelOf build candidate) faults.levelWrite
  if r.1.isError then ⟨r.1, s, none⟩
  else
    let s := { s with vars := r.2 }
    match getVariableAttr s.vars .sbatLevel faults.checkSize faults.checkRead with
    | .error e => ⟨e, s, some candidate⟩
    | .ok sbat => ⟨readBackStatus sbat candidate, s, some candidate⟩

/-- The branch that replaces a readable SbatLevel: parse the candidate into the global list, check
that shim does not revoke itself, delete the old variable, write the new one. -/
def replaceSbatLevel (build : SbatBuild) (s : SbatState) (call : SbatCall) (sbat : Variable)
    (candidate : CString) : SbatOutcome :=
  match parseSbatVar candidate call.heap with
  | .error e => ⟨e, s, none⟩
  | .ok entries =>
    let s := { s with sbatVar := entries }
    let efiStatus := verifySbatSection call.inProtocol s.sbatVar (some build.ownSbat)
    if efiStatus.isError then ⟨efiStatus, s, none⟩
    else
      let r := setVariable s.vars .sbatLevel ⟨[], sbat.attrs, Variable.nil_size_lt⟩ call.faults.levelDelete
      if r.1.isError then ⟨r.1, s, none⟩
      else writeSbatLevel build { s with vars := r.2 } candidate call.faults

/-- The function after the candidate has been chosen. -/
def applyCandidate (build : SbatBuild) (s : SbatState) (call : SbatCall) (candidate : CString)
    (resetSbat : Bool) : SbatOutcome :=
  match getVariableAttr s.vars .sbatLevel call.faults.levelSize call.faults.levelRead with
  | .error _ => writeSbatLevel build s candidate call.faults
  | .ok sbat =>
    if preserveSbatUefiVariable build.devel sbat candidate && !resetSbat then ⟨.success, s, none⟩
    else replaceSbatLevel build s call sbat candidate

/-- `set_sbat_uefi_variable`. -/
def setSbatUefiVariable (build : SbatBuild) (s : SbatState) (call : SbatCall) : SbatOutcome :=
  let r := readSbatPolicy s call.faults
  let c := chooseCandidate r.1 r.2.sbatPolicy call
  applyCandidate build r.2 call c.1 c.2

/-! ## What each step does -/

/-- The read of the policy leaves SbatLevel and the list alone. -/
@[simp] theorem readSbatPolicy_sbatLevel (s : SbatState) (faults : SbatFaults) :
    (readSbatPolicy s faults).2.vars .sbatLevel = s.vars .sbatLevel := by
  unfold readSbatPolicy
  split_ifs
  · split
    · rfl
    · exact delVariable_of_ne (by decide) _
  · rfl

/-- Reading the policy does not touch the level. -/
@[simp] theorem readSbatPolicy_sbatVar (s : SbatState) (faults : SbatFaults) :
    (readSbatPolicy s faults).2.sbatVar = s.sbatVar := by
  unfold readSbatPolicy
  split_ifs
  · split <;> rfl
  · rfl

/-- The candidate a call settles on, with `reset_sbat`. -/
def candidateOf (s : SbatState) (call : SbatCall) : CString × Bool :=
  chooseCandidate (readSbatPolicy s call.faults).1 (readSbatPolicy s call.faults).2.sbatPolicy call

/-- SbatLevel as the call reads it. -/
def readSbatLevel (s : SbatState) (call : SbatCall) : Except EfiStatus Variable :=
  getVariableAttr s.vars .sbatLevel call.faults.levelSize call.faults.levelRead

/-- A call is the policy, the choice of a candidate and its application. -/
theorem setSbatUefiVariable_eq (build : SbatBuild) (s : SbatState) (call : SbatCall) :
    setSbatUefiVariable build s call =
      applyCandidate build (readSbatPolicy s call.faults).2 call (candidateOf s call).1
        (candidateOf s call).2 := rfl

/-- The rest of the call meets the SbatLevel the call started with. -/
theorem setSbatUefiVariable_eq_match (build : SbatBuild) (s : SbatState) (call : SbatCall) :
    setSbatUefiVariable build s call =
      match readSbatLevel s call with
      | .error _ =>
        writeSbatLevel build (readSbatPolicy s call.faults).2 (candidateOf s call).1 call.faults
      | .ok sbat =>
        if preserveSbatUefiVariable build.devel sbat (candidateOf s call).1 &&
            !(candidateOf s call).2 then ⟨.success, (readSbatPolicy s call.faults).2, none⟩
        else replaceSbatLevel build (readSbatPolicy s call.faults).2 call sbat
          (candidateOf s call).1 := by
  have hlevel : readSbatLevel (readSbatPolicy s call.faults).2 call = readSbatLevel s call :=
    getVariableAttr_congr (readSbatPolicy_sbatLevel s call.faults) _ _
  rw [setSbatUefiVariable_eq, applyCandidate, ← readSbatLevel, hlevel]

/-- What SbatLevel is after `SetVariable` stored a payload: none, for a payload of no bytes. -/
def storedAs (build : SbatBuild) (payload : CString) : Option Variable :=
  if payload.bytes.length = 0 then none else some (sbatLevelOf build payload)

/-- The firmware refuses to read back what it has just stored. -/
def ReadBackRefused (faults : SbatFaults) : Prop :=
  queryRefused faults.checkSize ∨ faults.checkRead ≠ none

/-- `SetVariable` refuses the payload, or has nothing to delete. -/
def WriteRefused (s : SbatState) (payload : CString) (faults : SbatFaults) : Prop :=
  faults.levelWrite ≠ none ∨ payload.bytes.length = 0 ∧ s.vars .sbatLevel = none

/-- Reading back a payload just stored fails only if the firmware refuses to. -/
theorem readBack_isError_iff (build : SbatBuild) (vars : Variables SbatVarName)
    (candidate : CString) (faults : SbatFaults) (state : SbatState) (written : Option CString)
    (hlevel : vars .sbatLevel = storedAs build candidate) :
    ∃ e, (e.isError = true ↔ candidate.bytes.length = 0 ∨ ReadBackRefused faults) ∧
      (match getVariableAttr vars .sbatLevel faults.checkSize faults.checkRead with
        | .error e => (⟨e, state, written⟩ : SbatOutcome)
        | .ok sbat => ⟨readBackStatus sbat candidate, state, written⟩) = ⟨e, state, written⟩ := by
  cases hread : getVariableAttr vars .sbatLevel faults.checkSize faults.checkRead with
  | error e =>
    refine ⟨e, iff_of_true (getVariableAttr_isError hread) ?_, rfl⟩
    by_contra hok
    simp only [ReadBackRefused, not_or, not_not] at hok
    rw [storedAs, if_neg hok.1] at hlevel
    have := getVariableAttr_of_some hlevel (List.ne_nil_of_length_pos (Nat.pos_of_ne_zero hok.1))
      hok.2.1 hok.2.2
    rw [hread] at this
    cases this
  | ok sbat =>
    obtain ⟨hsome, hsize, hnone⟩ := getVariableAttr_eq_ok hread
    rw [hlevel, storedAs] at hsome
    split_ifs at hsome with hlen
    obtain rfl : sbatLevelOf build candidate = sbat := Option.some.inj hsome
    refine ⟨.success, iff_of_false Bool.false_ne_true ?_, ?_⟩
    · rintro (h | h | h)
      · exact hlen h
      · exact hsize h
      · exact h hnone
    · simp [readBackStatus, sbatLevelOf]

/-- Reading the policy does not change what is refused. -/
@[simp] theorem writeRefused_readSbatPolicy (s : SbatState) (faults : SbatFaults)
    (payload : CString) :
    WriteRefused (readSbatPolicy s faults).2 payload faults ↔ WriteRefused s payload faults := by
  simp [WriteRefused]

/-- `writeSbatLevel` either changes nothing and reports it, or stores the candidate; then only the
read-back can fail. -/
theorem writeSbatLevel_cases (build : SbatBuild) (s : SbatState) (candidate : CString)
    (faults : SbatFaults) :
    (WriteRefused s candidate faults ∧
      ∃ e, e.isError = true ∧ writeSbatLevel build s candidate faults = ⟨e, s, none⟩) ∨
    (¬ WriteRefused s candidate faults ∧ ∃ e,
      (e.isError = true ↔ candidate.bytes.length = 0 ∨ ReadBackRefused faults) ∧
      writeSbatLevel build s candidate faults =
        ⟨e, { s with vars := Function.update s.vars .sbatLevel (storedAs build candidate) },
          some candidate⟩) := by
  cases hfault : faults.levelWrite with
  -- the firmware refuses the write
  | some e =>
    refine .inl ⟨.inl (by simp [hfault]), e.1, e.2, ?_⟩
    simp [writeSbatLevel, setVariable, hfault, e.2]
  | none =>
    have hdata : (sbatLevelOf build candidate).data.length = candidate.bytes.length := rfl
    by_cases hlen : candidate.bytes.length = 0
    · by_cases hnone : s.vars .sbatLevel = none
      -- an empty level where none is stored
      · refine .inl ⟨.inr ⟨hlen, hnone⟩, .notFound, rfl, ?_⟩
        rw [writeSbatLevel, hfault, setVariable_of_nil_of_none (hdata.trans hlen) hnone]
        rfl
      -- an empty level deletes the one that is stored
      · have hset := setVariable_of_nil (hdata.trans hlen) hnone
        have hnot : ¬ WriteRefused s candidate faults := by
          rintro (h | h)
          · exact h hfault
          · exact hnone h.2
        refine .inr ⟨hnot, ?_⟩
        have hstored : storedAs build candidate = none := if_pos hlen
        rw [writeSbatLevel, hfault, hset, hstored]
        exact readBack_isError_iff build _ candidate faults _ _ (by simp [hstored])
    · have hset := setVariable_of_ne_nil s.vars .sbatLevel (v := sbatLevelOf build candidate) hlen
      have hnot : ¬ WriteRefused s candidate faults := by
        rintro (h | h)
        · exact h hfault
        · exact hlen h.1
      refine .inr ⟨hnot, ?_⟩
      have hstored : storedAs build candidate = some (sbatLevelOf build candidate) := if_neg hlen
      rw [writeSbatLevel, hfault, hset, hstored]
      exact readBack_isError_iff build _ candidate faults _ _ (by simp [hstored])

/-- A candidate that parses is not empty. -/
theorem parseSbatVar_length {candidate : CString} {heap : List UInt8}
    {entries : List SbatVarEntry} (h : parseSbatVar candidate heap = .ok entries) :
    candidate.bytes.length ≠ 0 := by
  unfold parseSbatVar parseSbatVarData at h
  obtain ⟨m, rows, hdata, -, -⟩ := parseSbatRows_ok h
  have := (parseCsvData_ok hdata).1
  omega

/-- A candidate that is refused is an error. -/
theorem parseSbatVar_isError {candidate : CString} {heap : List UInt8} {e : EfiStatus}
    (h : parseSbatVar candidate heap = .error e) : e.isError = true := by
  unfold parseSbatVar parseSbatVarData at h
  rw [parseSbatRows_error h]
  rfl

/-- The self-check fails on the entries. -/
def SelfRevokes (build : SbatBuild) (inProtocol : Bool) (entries : List SbatVarEntry) : Prop :=
  (verifySbatSection inProtocol entries (some build.ownSbat)).isError = true

/-- Replacing a SbatLevel that was read: the candidate does not parse; or the list is the
candidate's and the old variable stands, self-check or deletion having failed; or the old variable
is gone, the write having failed; or the candidate is stored. -/
theorem replaceSbatLevel_cases (build : SbatBuild) {s : SbatState} (call : SbatCall)
    {sbat : Variable} (candidate : CString) (hlevel : s.vars .sbatLevel = some sbat) :
    (∃ e, parseSbatVar candidate call.heap = .error e ∧ e.isError = true ∧
      replaceSbatLevel build s call sbat candidate = ⟨e, s, none⟩) ∨
    ∃ entries, parseSbatVar candidate call.heap = .ok entries ∧
      (((SelfRevokes build call.inProtocol entries ∨ call.faults.levelDelete ≠ none) ∧
          ∃ e, e.isError = true ∧
            replaceSbatLevel build s call sbat candidate =
              ⟨e, { s with sbatVar := entries }, none⟩) ∨
        (¬ SelfRevokes build call.inProtocol entries ∧ call.faults.levelDelete = none) ∧
          ((call.faults.levelWrite ≠ none ∧ ∃ e, e.isError = true ∧
              replaceSbatLevel build s call sbat candidate =
                ⟨e, { s with
                  sbatVar := entries
                  vars := Function.update s.vars .sbatLevel none }, none⟩) ∨
            call.faults.levelWrite = none ∧ ∃ e,
              (e.isError = true ↔ ReadBackRefused call.faults) ∧
              replaceSbatLevel build s call sbat candidate =
                ⟨e, { s with
                  sbatVar := entries
                  vars := Function.update s.vars .sbatLevel
                    (some (sbatLevelOf build candidate)) }, some candidate⟩)) := by
  cases hparse : parseSbatVar candidate call.heap with
  | error e =>
    refine .inl ⟨e, rfl, parseSbatVar_isError hparse, ?_⟩
    rw [replaceSbatLevel, hparse]
  | ok entries =>
    refine .inr ⟨entries, rfl, ?_⟩
    have hlen := parseSbatVar_length hparse
    -- the candidate would revoke shim itself
    by_cases hself : (verifySbatSection call.inProtocol entries (some build.ownSbat)).isError
    · refine .inl ⟨.inl hself, _, hself, ?_⟩
      simp only [replaceSbatLevel, hparse, hself, if_true]
    cases hdelete : call.faults.levelDelete with
    -- the old level cannot be deleted
    | some e =>
      refine .inl ⟨.inr (Option.some_ne_none e), e.1, e.2, ?_⟩
      simp [replaceSbatLevel, hparse, hself, setVariable, hdelete, e.2]
    | none =>
      -- the old level is gone when the new one is written
      refine .inr ⟨⟨hself, rfl⟩, ?_⟩
      have hsome : s.vars .sbatLevel ≠ none := by simp [hlevel]
      have hdel := setVariable_of_nil (v := ⟨[], sbat.attrs, by decide⟩) rfl hsome
      have hreplace : replaceSbatLevel build s call sbat candidate =
          writeSbatLevel build { s with
            sbatVar := entries
            vars := Function.update s.vars .sbatLevel none } candidate call.faults := by
        simp only [replaceSbatLevel, hparse, hself, hdelete, hdel]
        rfl
      rw [hreplace]
      rcases writeSbatLevel_cases build { s with
          sbatVar := entries
          vars := Function.update s.vars .sbatLevel none } candidate call.faults with
        ⟨hrefused, e, he, hwrite⟩ | ⟨hnot, e, he, hwrite⟩
      · exact .inl ⟨hrefused.resolve_right fun h => hlen h.1, e, he, hwrite⟩
      · refine .inr ⟨?_, e, he.trans (or_iff_right hlen), ?_⟩
        · by_contra hfault
          exact hnot (.inl hfault)
        · rw [hwrite, storedAs, if_neg hlen]
          simp

/-- The machine holds the original SbatLevel, and the list is empty. -/
def originalStored : SbatState where
  vars := fun
    | .sbatLevel => some ⟨sbatVarOriginal.bytes, uefiVarNvBs, by decide⟩
    | .sbatPolicy => none
  sbatPolicy := policyNotread
  sbatVar := []

end Shim
