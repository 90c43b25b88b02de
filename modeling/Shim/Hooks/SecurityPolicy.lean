import Shim.Common.Run
import Shim.Efi.Status

/-! # The override of the security policy

`security_policy_install` and `security_policy_uninstall` (lib/security_policy.c) put shim's thunks
into the two security protocols and take them out again, over the saved functions `es2fa` and
`esfas`. Each `LibLocateProtocol` may fail. The thunks chain to the saved functions, so one that is
saved over itself never returns.
-/

namespace Shim.SecurityPolicy

open Runs (Along run)

/-- What a function pointer of a protocol refers to. -/
inductive SecurityFn
  | firmware
  | thunk
  deriving DecidableEq, Repr

/-- The function pointers of the two protocols, the functions saved, and the hook. -/
structure State where
  fileAuthentication : SecurityFn
  fileAuthenticationState : SecurityFn
  es2fa : Option SecurityFn
  esfas : Option SecurityFn
  extraCheck : Option ℕ
  deriving DecidableEq

/-- A call, with what `LibLocateProtocol` answers for `SECURITY2_PROTOCOL` and for
`SECURITY_PROTOCOL`. -/
inductive Call
  | install (hook : Option ℕ) (security2 security : Fault)
  | uninstall (security2 security : Fault)

/-- `EFI_NOT_STARTED`. -/
def notStarted : EfiStatus := .otherError 19

/-- `security_policy_install`. -/
def securityPolicyInstall (s : State) (hook : Option ℕ) (security2 security : Fault) :
    EfiStatus × State :=
  if s.esfas.isSome then (.alreadyStarted, s)
  else
    match security with
    | some e => (e.1, s)
    | none =>
      -- the first call is allowed to fail
      let s :=
        match security2 with
        | some _ => s
        | none => { s with es2fa := some s.fileAuthentication, fileAuthentication := .thunk }
      let s := { s with
        esfas := some s.fileAuthenticationState
        fileAuthenticationState := .thunk }
      (.success, { s with extraCheck := hook.or s.extraCheck })

/-- `security_policy_uninstall`. -/
def securityPolicyUninstall (s : State) (security2 security : Fault) : EfiStatus × State :=
  match s.esfas with
  | none => (notStarted, s)
  | some esfas =>
    match security with
    | some e => (e.1, s)
    | none =>
      let s := { s with fileAuthenticationState := esfas, esfas := none }
      match s.es2fa with
      | none => (.success, { s with extraCheck := none })
      | some es2fa =>
        match security2 with
        | some e => (e.1, s)
        | none =>
          (.success, { s with fileAuthentication := es2fa, es2fa := none, extraCheck := none })

/-- A call on the state. -/
def call (s : State) : Call → EfiStatus × State
  | .install hook security2 security => securityPolicyInstall s hook security2 security
  | .uninstall security2 security => securityPolicyUninstall s security2 security

/-- The state behind a call. -/
def step (s : State) (c : Call) : State := (call s c).2

/-- Before the first call. -/
def initial : State := ⟨.firmware, .firmware, none, none, none⟩

/-! ## The thunks -/

/-- `security2_policy_authentication`, on the status of the function it chains to. -/
def security2PolicyAuthentication (extraCheck : Option ℕ) (check : ℕ → EfiStatus)
    (efiStatus : EfiStatus) : EfiStatus :=
  if !efiStatus.isError then efiStatus
  else
    match extraCheck with
    | none => .securityViolation
    | some hook =>
      if check hook = .securityViolation ∨ check hook = .accessDenied then efiStatus else check hook

/-- A call of `FileAuthentication` where it is `f`; `none` where `fuel` calls do not return or a
thunk has nothing to chain to. -/
def authenticate (s : State) (firmware : EfiStatus) (check : ℕ → EfiStatus) :
    (fuel : ℕ) → SecurityFn → Option EfiStatus
  | 0, _ => none
  | _ + 1, .firmware => some firmware
  | fuel + 1, .thunk =>
    match s.es2fa with
    | none => none
    | some f =>
      (authenticate s firmware check fuel f).map (security2PolicyAuthentication s.extraCheck check)

/-! ## The property -/

/-- No saved function is a thunk. -/
def SavedFirmware (s : State) : Prop := s.es2fa ≠ some .thunk ∧ s.esfas ≠ some .thunk

/-- Both protocols have the functions of the firmware. -/
def Restored (s : State) : Prop :=
  s.fileAuthentication = .firmware ∧ s.fileAuthenticationState = .firmware

/-- The call leaves no thunk saved, and an uninstall that succeeds restores the protocols. -/
def Reversible (s : State) (c : Call) : Prop :=
  SavedFirmware (step s c) ∧
    ∀ security2 security, c = .uninstall security2 security → (call s c).1 = .success →
      Restored (step s c)

/-- The condition on a call: an install that gets to patch does not find `SECURITY2_PROTOCOL` while
its function is still saved from before. -/
def Cond (s : State) (c : Call) : Prop :=
  ∀ hook, c = .install hook none none → s.esfas = none → s.es2fa = none

/-! ## The invariant -/

/-- A protocol has a thunk exactly while its function is saved. -/
structure Inv (s : State) : Prop where
  security2 : s.es2fa = none ∧ s.fileAuthentication = .firmware ∨
    s.es2fa = some .firmware ∧ s.fileAuthentication = .thunk
  security : s.esfas = none ∧ s.fileAuthenticationState = .firmware ∨
    s.esfas = some .firmware ∧ s.fileAuthenticationState = .thunk

section Step

variable {s : State} {c : Call}

/-- What is saved is the firmware's own. -/
theorem Inv.savedFirmware (h : Inv s) : SavedFirmware s := by
  obtain ⟨h2, h1⟩ := h
  constructor
  · rcases h2 with ⟨h2, -⟩ | ⟨h2, -⟩ <;> simp [h2]
  · rcases h1 with ⟨h1, -⟩ | ⟨h1, -⟩ <;> simp [h1]

/-- What a call can do: nothing, patch, or restore one protocol or both. -/
theorem step_cases (s : State) (c : Call) :
    step s c = s ∨
    (∃ hook security2, c = .install hook security2 none ∧ s.esfas = none ∧
      step s c = { s with
        es2fa := if security2 = none then some s.fileAuthentication else s.es2fa
        fileAuthentication := if security2 = none then .thunk else s.fileAuthentication
        esfas := some s.fileAuthenticationState
        fileAuthenticationState := .thunk
        extraCheck := hook.or s.extraCheck }) ∨
    ∃ esfas security2, c = .uninstall security2 none ∧ s.esfas = some esfas ∧
      (s.es2fa = none ∧ step s c =
        { s with fileAuthenticationState := esfas, esfas := none, extraCheck := none } ∨
      s.es2fa ≠ none ∧ (call s c).1 ≠ .success ∧
        step s c = { s with fileAuthenticationState := esfas, esfas := none } ∨
      ∃ es2fa, s.es2fa = some es2fa ∧ step s c =
        ⟨es2fa, esfas, none, none, none⟩) := by
  cases c with
  | install hook security2 security =>
    unfold step call securityPolicyInstall
    -- installing a second time does nothing
    by_cases hsaved : s.esfas.isSome
    · left
      dsimp only
      rw [if_pos hsaved]
    dsimp only
    rw [if_neg hsaved]
    cases security with
    | some e => exact .inl rfl
    | none =>
      refine .inr (.inl ⟨hook, security2, rfl, by simpa using hsaved, ?_⟩)
      cases security2 <;> rfl
  | uninstall security2 security =>
    -- without a saved handler there is nothing to take back
    obtain ⟨fa, fas, es2fa, esfas, extraCheck⟩ := s
    cases esfas with
    | none => exact .inl rfl
    | some esfas =>
      cases security with
      | some e => exact .inl rfl
      | none =>
        refine .inr (.inr ⟨esfas, security2, rfl, rfl, ?_⟩)
        cases es2fa with
        | none => exact .inl ⟨rfl, rfl⟩
        | some es2fa =>
          cases security2 with
          | none => exact .inr (.inr ⟨es2fa, rfl, rfl⟩)
          | some e =>
            exact .inr (.inl ⟨Option.some_ne_none _, EfiStatus.ne_success_of_isError e.2, rfl⟩)

/-- A call keeps the invariant, under the condition. -/
theorem Inv.step (h : Inv s) (hcond : Cond s c) : Inv (step s c) := by
  obtain ⟨h2, h1⟩ := h
  rcases step_cases s c with heq | ⟨hook, security2, rfl, hesfas, heq⟩ |
      ⟨esfas, security2, rfl, hesfas, ⟨hes2fa, heq⟩ | ⟨-, -, heq⟩ | ⟨es2fa, hes2fa, heq⟩⟩
  · rw [heq]
    exact ⟨h2, h1⟩
  · have hfas := (h1.resolve_right (by simp [hesfas])).2
    rw [heq]
    refine ⟨?_, .inr ⟨by simp [hfas], rfl⟩⟩
    by_cases hlocated : security2 = none
    · subst hlocated
      have hfa := (h2.resolve_right (by simp [hcond hook rfl hesfas])).2
      exact .inr ⟨by simp [hfa], by simp⟩
    · simpa [hlocated] using h2
  · obtain rfl : esfas = .firmware := by simpa [hesfas] using (h1.resolve_left (by simp [hesfas])).1
    rw [heq]
    exact ⟨h2, .inl ⟨rfl, rfl⟩⟩
  · obtain rfl : esfas = .firmware := by simpa [hesfas] using (h1.resolve_left (by simp [hesfas])).1
    rw [heq]
    exact ⟨h2, .inl ⟨rfl, rfl⟩⟩
  · obtain rfl : esfas = .firmware := by simpa [hesfas] using (h1.resolve_left (by simp [hesfas])).1
    obtain rfl : es2fa = .firmware := by simpa [hes2fa] using (h2.resolve_left (by simp [hes2fa])).1
    rw [heq]
    exact ⟨.inl ⟨rfl, rfl⟩, .inl ⟨rfl, rfl⟩⟩

/-- An uninstall that succeeds has restored whatever was saved. -/
theorem Inv.restored (h : Inv s) {security2 security : Fault}
    (hsuccess : (call s (.uninstall security2 security)).1 = .success) :
    Restored (SecurityPolicy.step s (.uninstall security2 security)) := by
  obtain ⟨fa, fas, es2fa, esfas, extraCheck⟩ := s
  obtain ⟨h2, h1⟩ := h
  dsimp only at h1 h2
  rcases h1 with ⟨rfl, rfl⟩ | ⟨rfl, rfl⟩
  · cases hsuccess
  cases security with
  | some e => exact absurd hsuccess (EfiStatus.ne_success_of_isError e.2)
  | none =>
    rcases h2 with ⟨rfl, rfl⟩ | ⟨rfl, rfl⟩
    · exact ⟨rfl, rfl⟩
    cases security2 with
    | some e => exact absurd hsuccess (EfiStatus.ne_success_of_isError e.2)
    | none => exact ⟨rfl, rfl⟩

/-- A thunk chains to the function of the firmware. -/
theorem Inv.authenticate_returns (h : Inv s) (firmware : EfiStatus) (check : ℕ → EfiStatus) :
    (authenticate s firmware check 2 s.fileAuthentication).isSome := by
  rcases h.security2 with ⟨-, hfa⟩ | ⟨hes2fa, hfa⟩
  · rw [hfa]
    rfl
  · rw [hfa, authenticate, hes2fa]
    rfl

/-- Where a protocol has a thunk exactly while its function is saved, the condition is exact. -/
theorem Inv.reversible_iff (h : Inv s) : Reversible s c ↔ Cond s c := by
  constructor
  · rintro ⟨⟨hsaved, -⟩, -⟩ hook rfl hesfas
    by_contra hes2fa
    have hfa := (h.security2.resolve_left fun h => hes2fa h.1).2
    refine hsaved ?_
    simp [SecurityPolicy.step, call, securityPolicyInstall, hesfas, hfa]
  · intro hcond
    refine ⟨(h.step hcond).savedFirmware, ?_⟩
    rintro security2 security rfl hsuccess
    exact h.restored hsuccess

end Step

/-- The invariant holds at first. -/
theorem inv_initial : Inv initial := ⟨.inl ⟨rfl, rfl⟩, .inl ⟨rfl, rfl⟩⟩

/-- The override is reversible in a run exactly when no install of the run finds
`SECURITY2_PROTOCOL` while its function is still saved. -/
theorem reversible_along (calls : List Call) :
    Along step Reversible initial calls ↔ Along step Cond initial calls :=
  Runs.along_iff_of_invariant (fun _ _ h hcond => h.step hcond) (fun _ _ h => h.reversible_iff)
    inv_initial

/-- In such a run `FileAuthentication` returns wherever it is called. -/
theorem authenticate_along {calls : List Call} (h : Along step Cond initial calls)
    (firmware : EfiStatus) (check : ℕ → EfiStatus) :
    (authenticate (run step initial calls) firmware check 2
      (run step initial calls).fileAuthentication).isSome :=
  (Runs.run_invariant (fun _ _ h hcond => h.step hcond) inv_initial h).authenticate_returns
    firmware check

/-- An uninstall that does not find `SECURITY2_PROTOCOL`, and an install that does, save the
thunk. -/
theorem not_reversible_reinstall :
    ¬ Along step Reversible initial
      [.install none none none, .uninstall (some ⟨.notFound, rfl⟩) none,
        .install none none none] := by
  rintro ⟨-, -, ⟨hsaved, -⟩, -⟩
  exact hsaved.1 rfl

end Shim.SecurityPolicy
