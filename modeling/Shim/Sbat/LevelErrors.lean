import Shim.Sbat.Level

/-! # Failures of set_sbat_uefi_variable

Two things are expected of a call that may be refused at any of its firmware calls: that it never
installs a level that revokes shim itself, and that it changes nothing when it reports an error.
The self-check guards only the replacement of a level that was read, and the replacement changes
the list, then deletes, then writes.
-/

namespace Shim

open CText

/-! ## Self-revocation -/

/-- What the call writes, if it writes, does not revoke shim's own `.sbat` section. -/
def NeverSelfRevokes (build : SbatBuild) (s : SbatState) (call : SbatCall) : Prop :=
  ∀ payload, (setSbatUefiVariable build s call).written = some payload →
    verifySbatSection call.inProtocol (payloadEntries payload.bytes) (some build.ownSbat) =
      .success

/-- A replaced level has passed the self-check. -/
theorem neverSelfRevokes_of_read {build : SbatBuild} {s : SbatState} {call : SbatCall}
    {sbat : Variable} (hread : readSbatLevel s call = .ok sbat) :
    NeverSelfRevokes build s call := by
  intro payload hwritten
  have hsome : (readSbatPolicy s call.faults).2.vars .sbatLevel = some sbat := by
    rw [readSbatPolicy_sbatLevel]
    exact (getVariableAttr_eq_ok hread).1
  rw [setSbatUefiVariable_eq_match, hread] at hwritten
  dsimp only at hwritten
  split_ifs at hwritten
  rcases replaceSbatLevel_cases build call (candidateOf s call).1 hsome with
    ⟨e, -, -, h⟩ | ⟨entries, hparse, ⟨-, e, -, h⟩ | ⟨⟨hself, -⟩, ⟨-, e, -, h⟩ | ⟨-, e, -, h⟩⟩⟩
  · rw [h] at hwritten
    cases hwritten
  · rw [h] at hwritten
    cases hwritten
  · rw [h] at hwritten
    cases hwritten
  · rw [h] at hwritten
    obtain rfl := Option.some.inj hwritten
    exact verifySbatSection_of_initial (payloadEntries_initial (candidateOf s call).1.size_lt hparse)
      (verifySbatSection_of_not_isError hself)

/-- A call never installs a self-revoking level exactly when SbatLevel was read, or the write is
refused, or the candidate is harmless to begin with. -/
theorem neverSelfRevokes_iff (build : SbatBuild) (s : SbatState) (call : SbatCall) :
    NeverSelfRevokes build s call ↔
      (∃ sbat, readSbatLevel s call = .ok sbat) ∨
        WriteRefused s (candidateOf s call).1 call.faults ∨
        verifySbatSection call.inProtocol (payloadEntries (candidateOf s call).1.bytes)
          (some build.ownSbat) = .success := by
  cases hread : readSbatLevel s call with
  | ok sbat => exact iff_of_true (neverSelfRevokes_of_read hread) (.inl ⟨sbat, rfl⟩)
  | error e =>
    simp only [NeverSelfRevokes, setSbatUefiVariable_eq_match, hread, reduceCtorEq, exists_false,
      false_or]
    rcases writeSbatLevel_cases build (readSbatPolicy s call.faults).2 (candidateOf s call).1
      call.faults with ⟨hrefused, e', -, hwrite⟩ | ⟨hnot, e', -, hwrite⟩
    · rw [writeRefused_readSbatPolicy] at hrefused
      simp only [hwrite, reduceCtorEq, false_implies, implies_true, hrefused, true_or]
    · rw [writeRefused_readSbatPolicy] at hnot
      simp only [hwrite, Option.some.injEq, forall_eq', hnot, false_or]

/-- A shim of generation 3, built without `ENABLE_SHIM_DEVEL`. -/
def shimGenerationThree : SbatBuild where
  devel := false
  ownSbat := ascii "sbat,1,SBAT Version,sbat,1,https://u\nshim,3,UEFI shim,shim,1,https://u\n"

/-- A payload that revokes generations of shim below 4. -/
def revokeBelowFour : CString where
  bytes := ascii "sbat,1,2024010900\nshim,4\n"
  nonzero := by decide +kernel
  size_lt := by decide

/-- A call with that payload under Secure Boot, with the firmware carrying out its calls. -/
def callRevokeBelowFour : SbatCall where
  sbatVarAutomatic := revokeBelowFour
  sbatVarLatest := revokeBelowFour
  secureMode := true
  inProtocol := false
  heap := []
  faults := .quiet

/-- On a machine without SbatLevel the self-check is skipped. -/
theorem not_neverSelfRevokes_absent :
    ¬ NeverSelfRevokes shimGenerationThree ⟨fun _ => none, policyNotread, []⟩
      callRevokeBelowFour := by
  intro h
  have hpass := h revokeBelowFour (by decide +kernel)
  have hfail : verifySbatSection false (payloadEntries revokeBelowFour.bytes)
      (some shimGenerationThree.ownSbat) = .securityViolation := by decide +kernel
  rw [show callRevokeBelowFour.inProtocol = false from rfl, hfail] at hpass
  cases hpass

/-! ## Atomicity -/

/-- A call that reports an error leaves the variable and the list as they were. -/
def AtomicOnError (build : SbatBuild) (s : SbatState) (call : SbatCall) : Prop :=
  (setSbatUefiVariable build s call).status.isError = true →
    (setSbatUefiVariable build s call).state.vars .sbatLevel = s.vars .sbatLevel ∧
      (setSbatUefiVariable build s call).state.sbatVar = s.sbatVar

/-- SbatLevel could not be read: the write is refused, or it is made and read back, or the
variable held the payload before. -/
def UnreadableAtomic (build : SbatBuild) (s : SbatState) (call : SbatCall) : Prop :=
  WriteRefused s (candidateOf s call).1 call.faults ∨
    (candidateOf s call).1.bytes.length ≠ 0 ∧ ¬ ReadBackRefused call.faults ∨
    s.vars .sbatLevel = storedAs build (candidateOf s call).1

/-- The candidate parsed, so the list is its entries: if the self-check or the deletion fails they
are the entries the list had; else the write is not refused, and a refused read-back finds list
and variable as they were. -/
def ParsedAtomic (build : SbatBuild) (s : SbatState) (call : SbatCall)
    (entries : List SbatVarEntry) : Prop :=
  (SelfRevokes build call.inProtocol entries ∨ call.faults.levelDelete ≠ none →
      s.sbatVar = entries) ∧
    (¬ SelfRevokes build call.inProtocol entries ∧ call.faults.levelDelete = none →
      call.faults.levelWrite = none ∧
        (ReadBackRefused call.faults →
          s.vars .sbatLevel = some (sbatLevelOf build (candidateOf s call).1) ∧
            s.sbatVar = entries))

/-- When a call is atomic, by how far it gets. -/
def AtomicCondition (build : SbatBuild) (s : SbatState) (call : SbatCall) : Prop :=
  match readSbatLevel s call with
  | .error _ => UnreadableAtomic build s call
  | .ok sbat =>
    preserveSbatUefiVariable build.devel sbat (candidateOf s call).1 = true ∧
        (candidateOf s call).2 = false ∨
      ∀ entries, parseSbatVar (candidateOf s call).1 call.heap = .ok entries →
        ParsedAtomic build s call entries

/-- The error paths that leave everything alone are the ones before the candidate is parsed. -/
theorem atomicOnError_iff (build : SbatBuild) (s : SbatState) (call : SbatCall) :
    AtomicOnError build s call ↔ AtomicCondition build s call := by
  unfold AtomicOnError AtomicCondition
  rw [setSbatUefiVariable_eq_match]
  cases hread : readSbatLevel s call with
  | error e =>
    dsimp only
    -- the level cannot be read: the new one is written or refused
    rcases writeSbatLevel_cases build (readSbatPolicy s call.faults).2 (candidateOf s call).1
      call.faults with ⟨hrefused, e, he, hwrite⟩ | ⟨hnot, e, he, hwrite⟩
    · rw [writeRefused_readSbatPolicy] at hrefused
      rw [hwrite]
      exact iff_of_true (fun _ => ⟨readSbatPolicy_sbatLevel _ _, readSbatPolicy_sbatVar _ _⟩)
        (.inl hrefused)
    · rw [writeRefused_readSbatPolicy] at hnot
      simp only [hwrite, he, Function.update_self, readSbatPolicy_sbatVar, and_true,
        UnreadableAtomic, hnot, false_or, @eq_comm _ (storedAs build _)]
      tauto
  | ok sbat =>
    -- a level is there, and reading the policy does not touch it
    have hsome : (readSbatPolicy s call.faults).2.vars .sbatLevel = some sbat := by
      rw [readSbatPolicy_sbatLevel]
      exact (getVariableAttr_eq_ok hread).1
    have hlevel : s.vars .sbatLevel = some sbat := (getVariableAttr_eq_ok hread).1
    dsimp only
    by_cases hkeep : preserveSbatUefiVariable build.devel sbat (candidateOf s call).1 = true ∧
      (candidateOf s call).2 = false
    -- the level stays, and the call succeeds
    · rw [if_pos (by simpa using hkeep)]
      exact iff_of_true (fun h => absurd h Bool.false_ne_true) (.inl hkeep)
    rw [if_neg (by simpa using hkeep), or_iff_right hkeep]
    -- the old level is deleted first, and then the new one is written
    rcases replaceSbatLevel_cases build call (candidateOf s call).1 hsome with
      ⟨e, hparse, he, h⟩ | ⟨entries, hparse, hrest⟩
    · rw [h]
      refine iff_of_true (fun _ => ⟨readSbatPolicy_sbatLevel _ _, readSbatPolicy_sbatVar _ _⟩) ?_
      intro entries hok
      rw [hparse] at hok
      cases hok
    simp only [hparse, Except.ok.injEq, forall_eq', ParsedAtomic]
    rcases hrest with ⟨hfail, e, he, h⟩ | ⟨⟨hself, hdel⟩, ⟨hwr, e, he, h⟩ | ⟨hwr, e, he, h⟩⟩
    · simp only [h, he, readSbatPolicy_sbatLevel, true_and, forall_const, hfail,
        @eq_comm _ entries]
      tauto
    · simp only [h, he, Function.update_self, hlevel, hself, hdel, hwr]
      simp
    · simp only [h, he, Function.update_self, hlevel, hself, hdel, hwr, @eq_comm _ entries,
        @eq_comm _ (some (sbatLevelOf build _))]
      simp

/-- A failed self-check reports "Not applied" and leaves the candidate's entries in the list. -/
theorem not_atomicOnError_selfCheck :
    ¬ AtomicOnError shimGenerationThree originalStored callRevokeBelowFour := by
  intro h
  have hkept := (h (by decide +kernel)).2
  have hlength : (setSbatUefiVariable shimGenerationThree originalStored
    callRevokeBelowFour).state.sbatVar.length = 2 := by decide +kernel
  rw [hkept] at hlength
  exact absurd hlength (by decide)

end Shim
