import Shim.Common.Region
import Shim.Sbat.Level

/-! # The SkuSiPolicy variables

`set_ssp_uefi_variable` (sbat.c:665-780) with what it calls. A version and its update signers are a
pair of payloads and a pair of variables. Each pointer that is supplied may be NULL, and each call
of the firmware may be refused.
-/

namespace Shim

/-! ## State and calls -/

/-- `SSPVER_VAR_NAME`, `SSPSIG_VAR_NAME` and `SSP_POLICY`. -/
inductive SspVarName
  | skuSiPolicyVersion
  | skuSiPolicyUpdateSigners
  | sspPolicy
  deriving DecidableEq

/-- A payload of `SSPVER_SIZE` bytes. -/
abbrev SspVersion := {l : List UInt8 // l.length = 8}

/-- A payload of `SSPSIG_SIZE` bytes. -/
abbrev SspSigners := {l : List UInt8 // l.length = 131}

/-- A supplied pair; a pointer that is NULL is `none`. -/
structure SspPair where
  ver : Option SspVersion
  sig : Option SspSigners
  deriving DecidableEq

/-- The state `set_ssp_uefi_variable` works on. -/
structure SspState where
  vars : Variables SspVarName
  sspPolicy : UInt8

/-- Which of the firmware calls are refused, in the order they are made. -/
structure SspFaults where
  policySize : Fault
  policyRead : Fault
  policyClear : Fault
  versionSize : Fault
  versionRead : Fault
  versionDelete : Fault
  signersDelete : Fault
  versionWrite : Fault
  signersWrite : Fault

/-- One call: the two pairs, the mode the machine is in, whether the build defines
`ENABLE_SHIM_DEVEL`, and what the firmware does. -/
structure SspCall where
  automatic : SspPair
  latest : SspPair
  secureMode : Bool
  devel : Bool
  faults : SspFaults

/-- A payload that is given to `SetVariable`. -/
inductive SspWrite
  | version (data : Option SspVersion)
  | signers (data : Option SspSigners)
  deriving DecidableEq

/-- The outcome of one call, with the payloads that were given to `SetVariable`. -/
structure SspOutcome where
  status : EfiStatus
  state : SspState
  writes : List SspWrite

/-! ## The policy -/

/-- The read of `SSPPolicy`, made once: its status, and the state with the sticky policy. -/
def readSspPolicy (s : SspState) (faults : SspFaults) : EfiStatus × SspState :=
  if s.sspPolicy = policyNotread then
    match getVariableAttr s.vars .sspPolicy faults.policySize faults.policyRead with
    | .error e => (e, s)
    | .ok v =>
      (.success,
        { s with
          sspPolicy := v.data.headD 0
          vars := (delVariable s.vars .sspPolicy faults.policyClear).2 })
  else (.success, s)

/-- `ssp_ver` and `ssp_sig`, with `reset_ssp`. -/
def chooseSspPair (efiStatus : EfiStatus) (policy : UInt8) (call : SspCall) : SspPair × Bool :=
  if efiStatus.isError then (call.automatic, false)
  else if policy = policyLatest then (call.latest, false)
  else if policy = policyAutomatic then (call.automatic, false)
  else if policy = policyReset then
    if call.secureMode then (call.automatic, false) else (⟨none, none⟩, true)
  else (call.automatic, false)

/-! ## The version -/

/-- `ssp_ver_to_ull`: four 16-bit numbers, the first one counts most. -/
def sspVerToUll (ver : List UInt8) : ℕ :=
  let words := Region.ofList 0 ver
  words.u16 0 * 2 ^ 48 + words.u16 2 * 2 ^ 32 + words.u16 4 * 2 ^ 16 + words.u16 6

/-- `preserve_ssp_uefi_variable`. -/
def preserveSspUefiVariable (devel : Bool) (sspApplied : Variable)
    (sspCandidate : Option SspVersion) : Bool :=
  match sspCandidate with
  | none => false
  | some candidate =>
    if sspApplied.data.length ≠ 8 then false
    else if ¬ checkSbatVarAttributes devel sspApplied.attrs then false
    else sspVerToUll candidate.1 ≤ sspVerToUll sspApplied.data

/-! ## set_ssp_uefi_variable -/

/-- `clear_ssp_uefi_variables`: both are deleted, whatever becomes of the first. -/
def clearSspUefiVariables (vars : Variables SspVarName) (faults : SspFaults) :
    EfiStatus × Variables SspVarName :=
  let r := delVariable vars .skuSiPolicyVersion faults.versionDelete
  let r' := delVariable r.2 .skuSiPolicyUpdateSigners faults.signersDelete
  (if r'.1.isError then r'.1 else if r.1.isError then r.1 else .success, r'.2)

/-- `set_variable` with `SSP_VAR_ATTRS`; firmware does not store from NULL. -/
def setSspVariable (vars : Variables SspVarName) (name : SspVarName) (data : Option (List UInt8))
    (fault : Fault) : EfiStatus × Variables SspVarName :=
  match data with
  | none => (.invalidParameter, vars)
  | some data => writeVariable vars name data uefiVarNvBs fault

/-- The end of the function: the version is written, and then the signers. -/
def writeSspPair (s : SspState) (pair : SspPair) (faults : SspFaults) : SspOutcome :=
  let r := setSspVariable s.vars .skuSiPolicyVersion (pair.ver.map Subtype.val) faults.versionWrite
  if r.1.isError then ⟨r.1, { s with vars := r.2 }, [.version pair.ver]⟩
  else
    let r' :=
      setSspVariable r.2 .skuSiPolicyUpdateSigners (pair.sig.map Subtype.val) faults.signersWrite
    ⟨r'.1, { s with vars := r'.2 }, [.version pair.ver, .signers pair.sig]⟩

/-- The function after the pair has been chosen. -/
def applySspPair (s : SspState) (call : SspCall) (pair : SspPair) (resetSsp : Bool) : SspOutcome :=
  if pair.ver = none ∧ pair.sig = none ∧ resetSsp = false then ⟨.success, s, []⟩
  else
    match getVariableAttr s.vars .skuSiPolicyVersion call.faults.versionSize
        call.faults.versionRead with
    | .error e => if resetSsp then ⟨e, s, []⟩ else writeSspPair s pair call.faults
    | .ok sspver =>
      if preserveSspUefiVariable call.devel sspver pair.ver && !resetSsp then ⟨.success, s, []⟩
      else
        let r := clearSspUefiVariables s.vars call.faults
        if resetSsp then ⟨r.1, { s with vars := r.2 }, []⟩
        else writeSspPair { s with vars := r.2 } pair call.faults

/-- `set_ssp_uefi_variable`. -/
def setSspUefiVariable (s : SspState) (call : SspCall) : SspOutcome :=
  let r := readSspPolicy s call.faults
  let c := chooseSspPair r.1 r.2.sspPolicy call
  applySspPair r.2 call c.1 c.2

/-! ## What is expected -/

/-- The data is that of the pair. -/
def SspWrite.From (pair : SspPair) : SspWrite → Prop
  | .version data => data = pair.ver
  | .signers data => data = pair.sig

/-- The data is there. -/
def SspWrite.NotNull : SspWrite → Prop
  | .version data => data ≠ none
  | .signers data => data ≠ none

/-- The number of the stored version, if there are eight bytes of one. -/
def storedSspVersion (vars : Variables SspVarName) : Option ℕ :=
  (vars .skuSiPolicyVersion).bind fun v =>
    if v.data.length = 8 then some (sspVerToUll v.data) else none

/-- Both variables hold what the pair has for them. -/
def HoldsSspPair (vars : Variables SspVarName) (pair : SspPair) : Prop :=
  (vars .skuSiPolicyVersion).map Variable.data = pair.ver.map Subtype.val ∧
    (vars .skuSiPolicyUpdateSigners).map Variable.data = pair.sig.map Subtype.val

/-- The pair a call settles on, with `reset_ssp`. -/
def sspChoice (s : SspState) (call : SspCall) : SspPair × Bool :=
  chooseSspPair (readSspPolicy s call.faults).1 (readSspPolicy s call.faults).2.sspPolicy call

/-- What is expected of an outcome, with the variables before it: nothing is written from NULL; what
is written is from one supplied pair, and stored unless an error is reported; the version does not
decrease, unless that is excused; and an error leaves both variables as they were. -/
structure SspOutcome.Consistent (before : Variables SspVarName) (call : SspCall) (excused : Prop)
    (o : SspOutcome) : Prop where
  notNull : ∀ w ∈ o.writes, w.NotNull
  samePair : o.writes ≠ [] → ∃ pair, (pair = call.automatic ∨ pair = call.latest) ∧
    (∀ w ∈ o.writes, w.From pair) ∧ (o.status.isError = false → HoldsSspPair o.state.vars pair)
  monotone : ¬ excused → ∀ old, storedSspVersion before = some old →
    ∃ new, storedSspVersion o.state.vars = some new ∧ old ≤ new
  unchanged : o.status.isError = true → ∀ name, name ≠ .sspPolicy → o.state.vars name = before name

/-- The pair of variables stays consistent. Only a reset without Secure Boot may decrease the
version. -/
def SspConsistent (s : SspState) (call : SspCall) : Prop :=
  (setSspUefiVariable s call).Consistent s.vars call
    ((sspChoice s call).2 = true ∧ call.secureMode = false)

/-! ## When it is met -/

section Condition

variable (vars : Variables SspVarName) (call : SspCall)

/-- A deletion of the signers does not change them. -/
def SignersKept : Prop :=
  call.faults.signersDelete ≠ none ∨ vars .skuSiPolicyUpdateSigners = none

/-- A reset deletes both variables, or neither. -/
def ResetFits : Prop :=
  (call.faults.versionDelete = none ∧ call.faults.signersDelete = none ∧
    vars .skuSiPolicyUpdateSigners ≠ none) ∨
  call.faults.versionDelete ≠ none ∧ SignersKept vars call

/-- The variable that a version is stored as. -/
def SspVersion.variable (ver : SspVersion) : Variable :=
  ⟨ver.1, uefiVarNvBs, by rw [ver.2]; decide⟩

/-- The pair can be written, behind a deletion of both variables if `cleared`: there is a version;
if writing it is refused, nothing was deleted; else there are signers; if writing them is refused,
the version was there before, and the signers were not deleted; else the version does not
decrease. -/
structure SspWriteFits (cleared : Bool) (pair : SspPair) : Prop where
  version : pair.ver ≠ none
  refused : call.faults.versionWrite ≠ none → cleared = true →
    call.faults.versionDelete ≠ none ∧ SignersKept vars call
  signers : call.faults.versionWrite = none → pair.sig ≠ none
  torn : call.faults.versionWrite = none → call.faults.signersWrite ≠ none →
    vars .skuSiPolicyVersion = pair.ver.map SspVersion.variable ∧
      (cleared = true → SignersKept vars call)
  le : call.faults.versionWrite = none → call.faults.signersWrite = none →
    ∀ old ver, storedSspVersion vars = some old → pair.ver = some ver → old ≤ sspVerToUll ver.1

/-- How far a call gets with a pair, and what has to fit there. -/
def SspFits (pair : SspPair) (resetSsp : Bool) : Prop :=
  pair.ver = none ∧ pair.sig = none ∧ resetSsp = false ∨
    match getVariableAttr vars .skuSiPolicyVersion call.faults.versionSize
      call.faults.versionRead with
    | .error _ => resetSsp = true ∨ SspWriteFits vars call false pair
    | .ok sspver =>
      if resetSsp then ResetFits vars call
      else preserveSspUefiVariable call.devel sspver pair.ver = true ∨
        SspWriteFits vars call true pair

end Condition

/-! ## What the steps do -/

section Steps

variable {s : SspState} {vars before : Variables SspVarName} {call : SspCall} {pair : SspPair}
  {excused : Prop} {o : SspOutcome}

/-- The read of the policy leaves the other variables alone. -/
theorem readSspPolicy_vars (s : SspState) (faults : SspFaults) {name : SspVarName}
    (hname : name ≠ .sspPolicy) : (readSspPolicy s faults).2.vars name = s.vars name := by
  unfold readSspPolicy
  split_ifs
  · split
    · rfl
    · exact delVariable_of_ne hname _
  · rfl

/-- The pair is a supplied one, or there is none, and a reset. -/
theorem chooseSspPair_cases (efiStatus : EfiStatus) (policy : UInt8) (call : SspCall) :
    (((chooseSspPair efiStatus policy call).1 = call.automatic ∨
        (chooseSspPair efiStatus policy call).1 = call.latest) ∧
      (chooseSspPair efiStatus policy call).2 = false) ∨
    (chooseSspPair efiStatus policy call).2 = true ∧ call.secureMode = false := by
  unfold chooseSspPair
  split_ifs with h₁ h₂ h₃ h₄ h₅
  · exact .inl ⟨.inl rfl, rfl⟩
  · exact .inl ⟨.inr rfl, rfl⟩
  · exact .inl ⟨.inl rfl, rfl⟩
  · exact .inl ⟨.inl rfl, rfl⟩
  · exact .inr ⟨rfl, by simpa using h₅⟩
  · exact .inl ⟨.inl rfl, rfl⟩

/-- An outcome that changes nothing is consistent. -/
theorem consistent_of_unchanged (hwrites : o.writes = [])
    (hvars : ∀ name, name ≠ .sspPolicy → o.state.vars name = before name) :
    o.Consistent before call excused where
  notNull := fun w hw => by simp [hwrites] at hw
  samePair := fun hne => absurd hwrites hne
  monotone := fun _ old hold => by
    refine ⟨old, ?_, le_rfl⟩
    rwa [storedSspVersion, hvars _ (by decide), ← storedSspVersion]
  unchanged := fun _ => hvars

/-- A deletion that is carried out leaves no variable. -/
theorem delVariable_self (vars : Variables SspVarName) (name : SspVarName) (fault : Fault) :
    (delVariable vars name fault).2 name = if fault = none then none else vars name := by
  cases fault with
  | some e => rfl
  | none =>
    rw [if_pos rfl]
    by_cases hvar : vars name = none
    · rw [delVariable, setVariable_of_nil_of_none rfl hvar]
      exact hvar
    · rw [delVariable, setVariable_of_nil rfl hvar]
      exact Function.update_self name none vars

/-- Deleting fails with a fault, and where nothing is there. -/
theorem delVariable_isError (vars : Variables SspVarName) (name : SspVarName) (fault : Fault) :
    (delVariable vars name fault).1.isError = false ↔ fault = none ∧ vars name ≠ none := by
  cases fault with
  | some e => simp [delVariable, setVariable, e.2]
  | none =>
    by_cases hvar : vars name = none
    · rw [delVariable, setVariable_of_nil_of_none rfl hvar]
      simp [hvar]
    · rw [delVariable, setVariable_of_nil rfl hvar]
      simp [hvar]

/-- What clearing does to the version. -/
theorem clearSspUefiVariables_version :
    (clearSspUefiVariables vars call.faults).2 .skuSiPolicyVersion =
      if call.faults.versionDelete = none then none else vars .skuSiPolicyVersion := by
  rw [clearSspUefiVariables, delVariable_of_ne (by decide), delVariable_self]

/-- What it does to the signers. -/
theorem clearSspUefiVariables_signers :
    (clearSspUefiVariables vars call.faults).2 .skuSiPolicyUpdateSigners =
      if call.faults.signersDelete = none then none else vars .skuSiPolicyUpdateSigners := by
  rw [clearSspUefiVariables, delVariable_self, delVariable_of_ne (by decide)]

/-- The signers are kept where they cannot be deleted or are not there. -/
theorem clear_signers_iff (vars : Variables SspVarName) (call : SspCall) :
    (clearSspUefiVariables vars call.faults).2 .skuSiPolicyUpdateSigners =
      vars .skuSiPolicyUpdateSigners ↔ SignersKept vars call := by
  rw [clearSspUefiVariables_signers, SignersKept]
  split_ifs with h
  · simp [h, eq_comm]
  · simp [h]

/-- A version is kept where it cannot be deleted. -/
theorem clear_version_iff (call : SspCall) (hver : vars .skuSiPolicyVersion ≠ none) :
    (clearSspUefiVariables vars call.faults).2 .skuSiPolicyVersion = vars .skuSiPolicyVersion ↔
      call.faults.versionDelete ≠ none := by
  rw [clearSspUefiVariables_version]
  split_ifs with h
  · simp [h, hver.symm]
  · simp [h]

/-- Clearing succeeds if both are deleted. -/
theorem clear_isError_iff (call : SspCall) (hver : vars .skuSiPolicyVersion ≠ none) :
    (clearSspUefiVariables vars call.faults).1.isError = false ↔
      call.faults.versionDelete = none ∧ call.faults.signersDelete = none ∧
        vars .skuSiPolicyUpdateSigners ≠ none := by
  have hfirst := delVariable_isError vars .skuSiPolicyVersion call.faults.versionDelete
  have hsecond := delVariable_isError
    (delVariable vars .skuSiPolicyVersion call.faults.versionDelete).2 .skuSiPolicyUpdateSigners
    call.faults.signersDelete
  rw [delVariable_of_ne (by decide)] at hsecond
  rw [← hsecond, and_congr_left' (by simpa [hver] using hfirst.symm : _ ↔ _)]
  unfold clearSspUefiVariables
  dsimp only
  split_ifs with h₁ h₂
  · simp [h₁]
  · simp [h₂]
  · simp [h₁, h₂]

/-- A payload of some bytes is stored unless the firmware refuses. -/
theorem setSspVariable_some (vars : Variables SspVarName) (name : SspVarName) {data : List UInt8}
    (hdata : data ≠ []) (hlen : data.length < 2 ^ 31) (fault : Fault) :
    setSspVariable vars name (some data) fault =
      match fault with
      | some e => (e.1, vars)
      | none => (.success, Function.update vars name (some ⟨data, uefiVarNvBs, hlen⟩)) := by
  rw [setSspVariable, writeVariable, dif_pos hlen]
  cases fault with
  | some e => rfl
  | none => exact setVariable_of_ne_nil vars name fun h => hdata (List.length_eq_zero_iff.mp h)

/-- Writing a pair: what is NULL is not stored, what is refused neither. -/
theorem writeSspPair_cases (s : SspState) (pair : SspPair) (faults : SspFaults) :
    pair.ver = none ∧ .version none ∈ (writeSspPair s pair faults).writes ∨
    ∃ ver, pair.ver = some ver ∧
      ((faults.versionWrite ≠ none ∧ ∃ e : EfiStatus, e.isError = true ∧
          writeSspPair s pair faults = ⟨e, s, [.version (some ver)]⟩) ∨
        faults.versionWrite = none ∧
          (pair.sig = none ∧ .signers none ∈ (writeSspPair s pair faults).writes ∨
          ∃ sig, pair.sig = some sig ∧
            ((faults.signersWrite ≠ none ∧ ∃ e : EfiStatus, e.isError = true ∧
                writeSspPair s pair faults =
                  ⟨e, { s with
                    vars := Function.update s.vars .skuSiPolicyVersion (some ver.variable) },
                    [.version (some ver), .signers (some sig)]⟩) ∨
              faults.signersWrite = none ∧ ∃ v : Variable, v.data = sig.1 ∧
                writeSspPair s pair faults =
                  ⟨.success, { s with
                    vars := Function.update
                      (Function.update s.vars .skuSiPolicyVersion (some ver.variable))
                      .skuSiPolicyUpdateSigners (some v) },
                    [.version (some ver), .signers (some sig)]⟩))) := by
  obtain ⟨ver, sig⟩ := pair
  cases ver with
  -- the null version is handed to the firmware
  | none => exact .inl ⟨rfl, List.mem_singleton_self _⟩
  | some ver =>
    have hne : ver.1 ≠ [] := List.ne_nil_of_length_pos (by rw [ver.2]; decide)
    refine .inr ⟨ver, rfl, ?_⟩
    unfold writeSspPair
    dsimp only [Option.map_some]
    rw [setSspVariable_some _ _ hne ver.variable.size_lt]
    cases hwrite : faults.versionWrite with
    -- the version is refused, and the signers are not tried
    | some e => exact .inl ⟨by simp, e.1, e.2, by dsimp only; rw [if_pos e.2]⟩
    | none =>
      refine .inr ⟨rfl, ?_⟩
      dsimp only
      rw [if_neg (by decide)]
      cases sig with
      | none => exact .inl ⟨rfl, List.mem_cons_of_mem _ (List.mem_singleton_self _)⟩
      | some sig =>
        have hlen : sig.1.length < 2 ^ 31 := by
          rw [sig.2]
          decide
        refine .inr ⟨sig, rfl, ?_⟩
        rw [Option.map_some, setSspVariable_some _ _
          (List.ne_nil_of_length_pos (by rw [sig.2]; decide)) hlen]
        cases faults.signersWrite with
        | some e => exact .inl ⟨by simp, e.1, e.2, rfl⟩
        | none => exact .inr ⟨rfl, ⟨sig.1, uefiVarNvBs, hlen⟩, rfl, rfl⟩

/-- The stored version depends on its variable only. -/
theorem storedSspVersion_congr {vars' : Variables SspVarName}
    (h : vars .skuSiPolicyVersion = vars' .skuSiPolicyVersion) :
    storedSspVersion vars = storedSspVersion vars' := by
  rw [storedSspVersion, storedSspVersion, h]

/-- A version that is stored is read back. -/
theorem storedSspVersion_variable {ver : SspVersion}
    (h : vars .skuSiPolicyVersion = some ver.variable) :
    storedSspVersion vars = some (sspVerToUll ver.1) := by
  rw [storedSspVersion, h, Option.bind_some]
  exact if_pos ver.2

/-- What holds of both variables. -/
theorem forall_sspVarName {P : SspVarName → Prop} : (∀ name, name ≠ .sspPolicy → P name) ↔
    P .skuSiPolicyVersion ∧ P .skuSiPolicyUpdateSigners := by
  constructor
  · intro h
    exact ⟨h _ (by decide), h _ (by decide)⟩
  · rintro ⟨hversion, hsigners⟩ name hname
    cases name with
    | skuSiPolicyVersion => exact hversion
    | skuSiPolicyUpdateSigners => exact hsigners
    | sspPolicy => exact absurd rfl hname

/-- An error is consistent if nothing has changed. -/
theorem consistent_of_error (hnull : ∀ w ∈ o.writes, w.NotNull)
    (hpair : pair = call.automatic ∨ pair = call.latest) (hfrom : ∀ w ∈ o.writes, w.From pair)
    (herror : o.status.isError = true) :
    o.Consistent before call excused ↔
      ∀ name, name ≠ .sspPolicy → o.state.vars name = before name := by
  constructor
  · intro h
    exact h.unchanged herror
  · intro hvars
    refine ⟨hnull, fun _ => ⟨pair, hpair, hfrom, fun hok => ?_⟩, fun _ old hold => ?_,
      fun _ => hvars⟩
    · rw [herror] at hok
      cases hok
    · refine ⟨old, ?_, le_rfl⟩
      rwa [storedSspVersion_congr (hvars _ (by decide))]

/-- Writing a supplied pair is consistent where it fits. -/
theorem writeSspPair_consistent_iff {cleared : Bool} (hexcused : ¬ excused)
    (hpair : pair = call.automatic ∨ pair = call.latest)
    (hversion : s.vars .skuSiPolicyVersion = before .skuSiPolicyVersion ↔
      (cleared = true → call.faults.versionDelete ≠ none))
    (hsigners : s.vars .skuSiPolicyUpdateSigners = before .skuSiPolicyUpdateSigners ↔
      (cleared = true → SignersKept before call)) :
    (writeSspPair s pair call.faults).Consistent before call excused ↔
      SspWriteFits before call cleared pair := by
  rcases writeSspPair_cases s pair call.faults with
    ⟨hver, hnull⟩ | ⟨ver, hver, ⟨hrefused, e, he, heq⟩ | ⟨hwrite, ⟨hsig, hnull⟩ |
      ⟨sig, hsig, ⟨hrefused, e, he, heq⟩ | ⟨hwrite', v, hv, heq⟩⟩⟩⟩
  · exact iff_of_false (fun h => h.notNull _ hnull rfl) fun h => h.version hver
  · rw [heq, consistent_of_error (by simp [SspWrite.NotNull]) hpair
      (by simp [SspWrite.From, hver]) he, forall_sspVarName, hversion, hsigners]
    constructor
    · rintro ⟨hdelete, hkept⟩
      exact ⟨by simp [hver], fun _ hcleared => ⟨hdelete hcleared, hkept hcleared⟩,
        fun h => absurd h hrefused, fun h => absurd h hrefused, fun h => absurd h hrefused⟩
    · intro h
      exact ⟨fun hcleared => (h.refused hrefused hcleared).1,
        fun hcleared => (h.refused hrefused hcleared).2⟩
  · exact iff_of_false (fun h => h.notNull _ hnull rfl) fun h => h.signers hwrite hsig
  · rw [heq, consistent_of_error (by simp [SspWrite.NotNull]) hpair
      (by simp [SspWrite.From, hver, hsig]) he, forall_sspVarName]
    dsimp only
    rw [Function.update_self, Function.update_of_ne (by decide), hsigners]
    constructor
    · rintro ⟨hstored, hkept⟩
      exact ⟨by simp [hver], fun h => absurd hwrite h, fun _ => by simp [hsig],
        fun _ _ => ⟨by rw [hver]; exact hstored.symm, hkept⟩, fun _ h => absurd h hrefused⟩
    · intro h
      obtain ⟨hstored, hkept⟩ := h.torn hwrite hrefused
      rw [hver] at hstored
      exact ⟨hstored.symm, hkept⟩
  -- both variables are written
  · have hstored : storedSspVersion (writeSspPair s pair call.faults).state.vars =
        some (sspVerToUll ver.1) := by
      rw [heq]
      exact storedSspVersion_variable (by simp [Function.update_of_ne, Function.update_self])
    constructor
    · intro h
      refine ⟨by simp [hver], fun h => absurd hwrite h, fun _ => by simp [hsig],
        fun _ h => absurd hwrite' h, fun _ _ old ver' hold hver' => ?_⟩
      obtain rfl := Option.some.inj (hver.symm.trans hver')
      obtain ⟨new, hnew, hle⟩ := h.monotone hexcused old hold
      obtain rfl := Option.some.inj (hstored.symm.trans hnew)
      exact hle
    · intro h
      refine ⟨by rw [heq]; simp [SspWrite.NotNull], fun _ => ⟨pair, hpair, ?_, fun _ => ?_⟩,
        fun _ old hold => ⟨_, hstored, h.le hwrite hwrite' old ver hold hver⟩, fun herror => ?_⟩
      · rw [heq]
        simp [SspWrite.From, hver, hsig]
      · rw [heq]
        exact ⟨by simp [hver, SspVersion.variable, Function.update_of_ne], by simp [hsig, hv]⟩
      · rw [heq] at herror
        cases herror

/-- A reset that deletes is consistent if both variables are deleted, or neither. -/
theorem clear_consistent_iff (hexcused : excused) (hver : s.vars .skuSiPolicyVersion ≠ none)
    (hvars : ∀ name, name ≠ .sspPolicy → s.vars name = before name) :
    (SspOutcome.mk (clearSspUefiVariables s.vars call.faults).1
      { s with vars := (clearSspUefiVariables s.vars call.faults).2 } []).Consistent before call
        excused ↔ ResetFits before call := by
  obtain ⟨hversion, hsigners⟩ := forall_sspVarName.mp hvars
  have herror := clear_isError_iff call hver
  have hkept := clear_version_iff call hver
  have hkept' := clear_signers_iff s.vars call
  rw [hsigners] at herror hkept'
  rw [hversion] at hkept
  have hsame : SignersKept s.vars call ↔ SignersKept before call := by
    rw [SignersKept, SignersKept, hsigners]
  rw [hsame] at hkept'
  constructor
  · intro h
    by_cases hok : (clearSspUefiVariables s.vars call.faults).1.isError = false
    · exact .inl (herror.mp hok)
    · have hunchanged := forall_sspVarName.mp (h.unchanged (by simpa using hok))
      exact .inr ⟨hkept.mp hunchanged.1, hkept'.mp hunchanged.2⟩
  · intro h
    refine ⟨fun w hw => (nomatch hw), fun hne => absurd rfl hne, fun hnot => absurd hexcused hnot,
      fun hfailed => ?_⟩
    rcases h with hok | ⟨hdelete, hsig⟩
    · rw [herror.mpr hok] at hfailed
      cases hfailed
    · exact forall_sspVarName.mpr ⟨hkept.mpr hdelete, hkept'.mpr hsig⟩

/-- The rest of a call is consistent exactly if what it gets to fits. -/
theorem applySspPair_consistent_iff {resetSsp : Bool} (hexcused : excused ↔ resetSsp = true)
    (hpair : resetSsp = false → pair = call.automatic ∨ pair = call.latest)
    (hvars : ∀ name, name ≠ .sspPolicy → s.vars name = before name) :
    (applySspPair s call pair resetSsp).Consistent before call excused ↔
      SspFits before call pair resetSsp := by
  obtain ⟨hversion, hsigners⟩ := forall_sspVarName.mp hvars
  unfold applySspPair SspFits
  -- nothing to apply and nothing to reset
  by_cases hnothing : pair.ver = none ∧ pair.sig = none ∧ resetSsp = false
  · rw [if_pos hnothing]
    exact iff_of_true (consistent_of_unchanged rfl hvars) (.inl hnothing)
  rw [if_neg hnothing, or_iff_right hnothing, getVariableAttr_congr hversion]
  cases hread : getVariableAttr before .skuSiPolicyVersion call.faults.versionSize
      call.faults.versionRead with
  -- no version is stored, so there is nothing to delete
  | error e =>
    dsimp only
    by_cases hreset : resetSsp = true
    · rw [if_pos hreset]
      exact iff_of_true (consistent_of_unchanged rfl hvars) (.inl hreset)
    · rw [if_neg hreset, or_iff_right hreset]
      exact writeSspPair_consistent_iff (fun h => hreset (hexcused.mp h))
        (hpair (by simpa using hreset)) (iff_of_true hversion fun h => nomatch h)
        (iff_of_true hsigners fun h => nomatch h)
  | ok sspver =>
    dsimp only
    have hver : s.vars .skuSiPolicyVersion ≠ none := by
      rw [hversion, (getVariableAttr_eq_ok hread).1]
      exact Option.some_ne_none _
    by_cases hreset : resetSsp = true
    · rw [if_neg (by simp [hreset]), if_pos hreset, if_pos hreset]
      exact clear_consistent_iff (hexcused.mpr hreset) hver hvars
    · rw [if_neg hreset, if_neg hreset]
      -- the stored version stays, or it is replaced
      by_cases hkeep : preserveSspUefiVariable call.devel sspver pair.ver = true
      · rw [if_pos (by simpa [hkeep] using hreset)]
        exact iff_of_true (consistent_of_unchanged rfl hvars) (.inl hkeep)
      · have hkept := clear_version_iff call hver
        have hkept' := clear_signers_iff s.vars call
        have hsame : SignersKept s.vars call ↔ SignersKept before call := by
          rw [SignersKept, SignersKept, hsigners]
        rw [hsame, hsigners] at hkept'
        rw [hversion] at hkept
        rw [if_neg (by simp [hkeep]), or_iff_right hkeep]
        exact writeSspPair_consistent_iff (fun h => hreset (hexcused.mp h))
          (hpair (by simpa using hreset)) (by simpa using hkept) (by simpa using hkept')

end Steps

/-! ## The result -/

/-- The pair of variables stays consistent exactly if the supplied pair that a call settles on, the
stored version and the refused calls fit as far as the call gets. -/
theorem sspConsistent_iff (s : SspState) (call : SspCall) :
    SspConsistent s call ↔ SspFits s.vars call (sspChoice s call).1 (sspChoice s call).2 := by
  have hcases := chooseSspPair_cases (readSspPolicy s call.faults).1
    (readSspPolicy s call.faults).2.sspPolicy call
  unfold SspConsistent
  refine applySspPair_consistent_iff ?_ ?_ fun name hname => readSspPolicy_vars s _ hname
  · constructor
    · rintro ⟨hreset, -⟩
      exact hreset
    · intro hreset
      rcases hcases with ⟨-, hnot⟩ | ⟨-, hmode⟩
      · exact absurd (hreset.symm.trans hnot) (by decide)
      · exact ⟨hreset, hmode⟩
  · intro hnot
    rcases hcases with ⟨hpair, -⟩ | ⟨hreset, -⟩
    · exact hpair
    · exact absurd (hreset.symm.trans hnot) (by decide)

/-! ## Half a pair -/

/-- A call of `load_revocations_file` with an automatic version that has no signers, and a latest
pair. -/
def halfPairCall : SspCall where
  automatic := ⟨some ⟨[10, 0, 0, 0, 0, 0, 2, 0], rfl⟩, none⟩
  latest :=
    ⟨some ⟨[10, 0, 0, 0, 0, 0, 3, 0], rfl⟩, some ⟨List.replicate 131 0, List.length_replicate⟩⟩
  secureMode := true
  devel := false
  faults := ⟨none, none, none, none, none, none, none, none, none⟩

/-- The version is written, and then signers from NULL. -/
theorem not_sspConsistent_halfPair :
    ¬ SspConsistent ⟨fun _ => none, policyNotread⟩ halfPairCall := by
  intro h
  have hmem : SspWrite.signers none ∈
      (setSspUefiVariable ⟨fun _ => none, policyNotread⟩ halfPairCall).writes := by
    decide +kernel
  exact h.notNull _ hmem rfl

end Shim
