import Shim.Mok.Entries

/-! # Variables with wrong attributes

A stored variable of the table must have every attribute of `yes_attr` and none of `no_attr`. The
check of `import_one_mok_state` is passed by any one attribute of `yes_attr`.
-/

namespace Shim.Mok

/-- The variable lacks an attribute of `yes_attr`, or has one of `no_attr`. -/
def WrongAttributes (row : MokStateVariable) (attrs : ℕ) : Prop :=
  attrs &&& row.yesAttr ≠ row.yesAttr ∨ attrs &&& row.noAttr ≠ 0

/-- The variable is not taken: it has no data, or the check finds its attributes bad. -/
def Rejected (row : MokStateVariable) (x : Variable) : Prop :=
  x.data = [] ∨ badAttributes row x.attrs = true

instance (row : MokStateVariable) (x : Variable) : Decidable (Rejected row x) :=
  inferInstanceAs (Decidable (_ ∨ _))

variable {g : Globals} (f : Firmware) (onlyFirst : Bool) {v : MokVar} {s t : State}

/-! ## Reading a stored variable -/

/-- A stored variable that is to be rejected is deleted, and its data is dropped. -/
theorem readMokState_rejected {x : Variable} (hdata : s.data v = [])
    (hx : s.vars (.stored v) = some x) (hrejected : Rejected (v.row g) x) :
    (readMokState g f onlyFirst v s).2 = true := by
  unfold readMokState
  rw [if_neg (not_not_intro hdata)]
  rcases getVariableAttr_stored hx (f.answers onlyFirst v).size (f.answers onlyFirst v).read with
    ⟨e, hget, hne⟩ | ⟨hget, hne⟩
  · rw [hget]
    split
    · rename_i heq
      cases heq
      exact absurd rfl hne
    · rfl
    · rename_i heq
      cases heq
  · rw [hget]
    exact hrejected.resolve_left hne

/-- A stored variable that passes the check is taken as it is, or not even that. -/
theorem takeMokState_accepted {x : Variable} (hx : s.vars (.stored v) = some x)
    (haccepted : ¬ Rejected (v.row g) x) (hsize : (f.answers onlyFirst v).size = none)
    (hread : (f.answers onlyFirst v).read = none) :
    (takeMokState g f onlyFirst v s).2.vars = s.vars := by
  obtain ⟨hdata, hattrs⟩ := not_or.mp haccepted
  have hdelete : (readMokState g f onlyFirst v s).2 ≠ true := by
    unfold readMokState
    by_cases htaken : s.data v ≠ []
    · rw [if_pos htaken]
      exact Bool.false_ne_true
    · rw [if_neg htaken]
      have hget : getVariableAttr s.vars (.stored v) (Refusal.fault (f.answers onlyFirst v).size)
          (Refusal.fault (f.answers onlyFirst v).read) = .ok x := by
        rw [hsize, hread]
        exact getVariableAttr_of_some hx hdata (by decide) rfl
      rw [hget]
      exact hattrs
  unfold takeMokState
  dsimp only
  rw [if_neg hdelete]

/-! ## The stored variable over an import -/

/-- Mirroring does not touch what is stored. -/
theorem maybeMirrorOneMokVariable_stored (w : MokVar) (ret : EfiStatus) (s : State) :
    (maybeMirrorOneMokVariable g f onlyFirst v ret s).2.vars (.stored w) = s.vars (.stored w) := by
  obtain ⟨efiStatus, data, writes, hwrites, heq⟩ := mirrorOneMokVariable_eq g f onlyFirst v
    ((deleteFirst g f onlyFirst v s).data v)
  have hdelete : (deleteFirst g f onlyFirst v s).vars (.stored w) = s.vars (.stored w) := by
    unfold deleteFirst
    split_ifs
    · exact delVariable_of_ne (by simp) _
    · rfl
  unfold maybeMirrorOneMokVariable
  dsimp only
  rw [takeState_vars, heq _ rfl, ← hdelete]
  exact applyWrites_of_not_mem fun n hn h => stored_not_mem_mirrorNames w v (h ▸ hwrites n hn)

/-- What is stored after an import is what taking it in has left. -/
theorem importOneMokState_stored (s : State) :
    (importOneMokState g f onlyFirst v s).2.vars (.stored v) =
      (takeMokState g f onlyFirst v s).2.vars (.stored v) :=
  maybeMirrorOneMokVariable_stored f onlyFirst v _ _

/-- A deletion leaves nothing, or reports its failure and leaves the variable. -/
theorem delVariable_cases {vars : Variables MokName} {n : MokName} {x : Variable}
    (hx : vars n = some x) (fault : Fault) :
    ((delVariable vars n fault).1.isError = false ∧ (delVariable vars n fault).2 n = none) ∨
    ((delVariable vars n fault).1.isError = true ∧ fault ≠ none ∧
      (delVariable vars n fault).2 n = some x) := by
  cases fault with
  | some e => exact .inr ⟨e.2, by simp, hx⟩
  | none =>
    have hdel : delVariable vars n none = (.success, Function.update vars n none) :=
      setVariable_of_nil rfl (by simp [hx])
    rw [hdel]
    exact .inl ⟨rfl, Function.update_self _ _ _⟩

/-- Nothing that is not there is put there. -/
theorem takeMokState_none (h : s.vars (.stored v) = none) :
    (takeMokState g f onlyFirst v s).2.vars (.stored v) = none := by
  unfold takeMokState
  dsimp only
  by_cases hdelete : (readMokState g f onlyFirst v s).2 = true
  · rw [if_pos hdelete]
    cases herase : (f.answers onlyFirst v).erase with
    | some e => exact h
    | none =>
      have hdel : delVariable s.vars (.stored v) none = (.notFound, s.vars) :=
        setVariable_of_nil_of_none rfl h
      rw [hdel]
      exact h
  · rw [if_neg hdelete]
    exact h

/-- What the first pass has taken is not read again. -/
theorem takeMokState_of_data (hdata : s.data v ≠ []) :
    takeMokState g f onlyFirst v s = (.success, s) := by
  have hread : readMokState g f onlyFirst v s = (s.data v, false) := if_pos hdata
  unfold takeMokState
  rw [hread]
  simp

/-! ## Two runs -/

/-- Two states that differ in a rejected variable at most. -/
structure SameBut (g : Globals) (v : MokVar) (s t : State) : Prop where
  same : SameOn g v (mirrorNames v) s t
  stored : (s.vars (.stored v) = none ∧ t.vars (.stored v) = none) ∨
    ∃ x y, s.vars (.stored v) = some x ∧ t.vars (.stored v) = some y ∧
      Rejected (v.row g) x ∧ Rejected (v.row g) y

/-- Taking a variable in looks at nothing but that variable. -/
theorem SameBut.takeMokState (h : SameBut g v s t) :
    SameBut g v (takeMokState g f onlyFirst v s).2 (takeMokState g f onlyFirst v t).2 := by
  obtain ⟨hsame, ⟨hs, ht⟩ | ⟨x, y, hx, hy, hrx, hry⟩⟩ := h
  -- the variable is in neither state
  · have hentry : SameEntry g v s t := by
      refine ⟨?_, hsame.data, hsame.mode⟩
      rintro n (rfl | hn)
      · rw [hs, ht]
      · exact hsame.vars n hn
    have htaken := (takeMokState_congr f onlyFirst hentry).2
    exact ⟨⟨fun n hn => htaken.vars n (.inr hn), htaken.data, htaken.mode⟩,
      .inl ⟨takeMokState_none f onlyFirst hs, takeMokState_none f onlyFirst ht⟩⟩
  · by_cases hdata : s.data v = []
    -- both are to be deleted
    · have hreads := readMokState_rejected f onlyFirst hdata hx hrx
      have hreadt := readMokState_rejected f onlyFirst (hsame.data ▸ hdata) hy hry
      unfold Mok.takeMokState
      dsimp only
      rw [if_pos hreads, if_pos hreadt]
      have hne : ∀ n ∈ mirrorNames v, n ≠ .stored v := by
        rintro n hn rfl
        exact stored_not_mem_mirrorNames v v hn
      refine ⟨⟨fun n hn => ?_, by simp, hsame.mode⟩, ?_⟩
      · dsimp only
        rw [delVariable_of_ne (hne n hn), delVariable_of_ne (hne n hn)]
        exact hsame.vars n hn
      · dsimp only
        cases (f.answers onlyFirst v).erase with
        | some e => exact .inr ⟨x, y, hx, hy, hrx, hry⟩
        | none =>
          rcases delVariable_cases hx none with ⟨-, hs⟩ | ⟨-, hfault, -⟩
          · rcases delVariable_cases hy none with ⟨-, ht⟩ | ⟨-, hfault, -⟩
            · exact .inl ⟨hs, ht⟩
            · exact absurd rfl hfault
          · exact absurd rfl hfault
    -- the data of the first pass is kept
    · rw [takeMokState_of_data f onlyFirst hdata,
        takeMokState_of_data f onlyFirst (hsame.data ▸ hdata)]
      exact ⟨hsame, .inr ⟨x, y, hx, hy, hrx, hry⟩⟩

/-- So does the whole import of it. -/
theorem SameBut.importOneMokState (h : SameBut g v s t) :
    SameBut g v (importOneMokState g f onlyFirst v s).2 (importOneMokState g f onlyFirst v t).2 := by
  have htaken := h.takeMokState f onlyFirst
  -- the status so far decides the status only
  have hret : ∀ (ret : EfiStatus) (u : State), (maybeMirrorOneMokVariable g f onlyFirst v ret u).2 =
      (maybeMirrorOneMokVariable g f onlyFirst v .success u).2 := fun _ _ => rfl
  refine ⟨?_, ?_⟩
  · unfold Mok.importOneMokState
    dsimp only
    rw [hret, hret (Mok.takeMokState g f onlyFirst v t).1]
    exact (maybeMirrorOneMokVariable_congr f onlyFirst (.inl rfl) _ htaken.same).2
  · rw [importOneMokState_stored, importOneMokState_stored]
    exact htaken.stored

/-! ## The status -/

/-- A rejected variable is deleted in the first pass, or the import ends in a security violation. -/
theorem importOneMokState_rejected {x : Variable} (hdata : s.data v = [])
    (hx : s.vars (.stored v) = some x) (hrejected : Rejected (v.row g) x) :
    (importOneMokState g f onlyFirst v s).2.vars (.stored v) = none ∨
      ((f.answers onlyFirst v).erase ≠ none ∧
        (importOneMokState g f onlyFirst v s).1 = .securityViolation) := by
  rw [importOneMokState_stored]
  unfold importOneMokState takeMokState
  dsimp only
  rw [if_pos (readMokState_rejected f onlyFirst hdata hx hrejected)]
  dsimp only
  rcases delVariable_cases hx (f.answers onlyFirst v).erase with ⟨-, hnone⟩ | ⟨herr, hfault, -⟩
  · exact .inl hnone
  · refine .inr ⟨hfault, ?_⟩
    rw [if_pos herr]
    simp [maybeMirrorOneMokVariable]

/-- A security violation is kept to the end of the first pass. -/
theorem foldl_firstPassStep_violation {vs : List MokVar} {acc : EfiStatus × State}
    (h : acc.1 = .securityViolation) :
    (vs.foldl (firstPassStep g f) acc).1 = .securityViolation := by
  induction vs generalizing acc with
  | nil => exact h
  | cons v vs ih =>
    refine ih ?_
    simp [firstPassStep, h]

/-- The violation of one entry is the status of the first pass. -/
theorem firstPass_violation (h : (importOneMokState g f true v s).1 = .securityViolation) :
    (firstPass g f s).1 = .securityViolation := by
  obtain ⟨before, after, hsplit⟩ := List.append_of_mem (mem_mokStateVariables v)
  have hnodup : (before ++ v :: after).Nodup := hsplit ▸ nodup_mokStateVariables
  have hnot : v ∉ before := fun hv =>
    (List.nodup_append.mp hnodup).2.2 v hv v List.mem_cons_self rfl
  unfold firstPass
  rw [hsplit, List.foldl_append, List.foldl_cons]
  refine foldl_firstPassStep_violation f ?_
  -- up to its turn nothing of the entry has changed
  generalize hacc : before.foldl (firstPassStep g f) (.success, s) = acc
  have hsame : SameEntry g v acc.2 s := by
    rw [← hacc]
    exact (separate_firstPass g f).foldl_of_not_mem hnot
  unfold firstPassStep
  dsimp only
  rw [(importOneMokState_congr f true hsame).1, h]
  by_cases hviolation : acc.1 = .securityViolation
  · simp [hviolation]
  · simp [hviolation]

/-! ## The whole import -/

/-- A stored variable is deleted, or its deletion failed and the import says so, and nothing that
the import leaves depends on its bytes. -/
structure Inert (g : Globals) (f : Firmware) (vars : Variables MokName) (v : MokVar)
    (x : Variable) : Prop where
  deleted : (importMokState g f (.initial vars)).state.vars (.stored v) = none ∨
    (∃ onlyFirst, (f.answers onlyFirst v).erase ≠ none) ∧
      (importMokState g f (.initial vars)).status = .securityViolation
  untouched : ∀ y : Variable, y.attrs = x.attrs → y.data.length = x.data.length →
    let run := importMokState g f (.initial vars)
    let other := importMokState g f (.initial (Function.update vars (.stored v) (some y)))
    SameOn g v (mirrorNames v) run.state other.state ∧ run.configTable = other.configTable

/-- Variables with wrong attributes have no effect. -/
def WrongAttributesInert (g : Globals) (f : Firmware) (vars : Variables MokName) : Prop :=
  ∀ v x, vars (.stored v) = some x → WrongAttributes (v.row g) x.attrs → Inert g f vars v x

/-- No stored variable of the table has some of the attributes it must have, but not all of them,
and none that it must not have. -/
def AllOrNoneOfYesAttr (g : Globals) (vars : Variables MokName) : Prop :=
  ∀ v x, vars (.stored v) = some x → x.data ≠ [] →
    x.attrs &&& (v.row g).yesAttr = (v.row g).yesAttr ∨ x.attrs &&& (v.row g).yesAttr = 0 ∨
      x.attrs &&& (v.row g).noAttr ≠ 0

/-- The table depends on the data only. -/
theorem configTable_congr (h : s.data = t.data) : configTable f s = configTable f t := by
  unfold configTable
  rw [h]

section Whole

variable {vars : Variables MokName} {x : Variable}

/-- A rejected variable is inert. -/
theorem inert_of_rejected (hx : vars (.stored v) = some x) (hrejected : Rejected (v.row g) x) :
    Inert g f vars v x := by
  have hentry := fun vars => importMokState_entry (g := g) f v vars
  constructor
  · rw [(hentry vars).vars _ (stored_mem v), importOneMokState_stored]
    rcases importOneMokState_rejected f true (s := .initial vars) rfl hx hrejected with
      hnone | ⟨herase, hstatus⟩
    · exact .inl (takeMokState_none f false hnone)
    · refine .inr ⟨⟨true, herase⟩, ?_⟩
      have hfirst := firstPass_violation f hstatus
      unfold importMokState
      dsimp only
      rw [clearModes_initial, hfirst]
      simp
  · intro y hattrs hlen
    have hy : Rejected (v.row g) y := by
      refine hrejected.imp (fun hnil => ?_) fun hbad => hattrs ▸ hbad
      rw [hnil] at hlen
      exact List.length_eq_zero_iff.mp hlen
    have hbut : SameBut g v (.initial vars)
        (.initial (Function.update vars (.stored v) (some y))) := by
      refine ⟨⟨fun n hn => ?_, rfl, fun _ _ => rfl⟩, .inr ⟨x, y, hx, ?_, hrejected, hy⟩⟩
      · refine (Function.update_of_ne ?_ _ _).symm
        rintro rfl
        exact stored_not_mem_mirrorNames v v hn
      · exact Function.update_self _ _ _
    have hfirst := hbut.importOneMokState f true
    have hequiv := sameOn_equivalence g v (mirrorNames v)
    refine ⟨?_, ?_⟩
    · have hsub : mirrorNames v ⊆ entryNames v := fun n hn => .inr hn
      have hother := (hentry (Function.update vars (.stored v) (some y))).mono hsub
      exact hequiv.trans ((hentry vars).mono hsub)
        (hequiv.trans (hfirst.importOneMokState f false).same (hequiv.symm hother))
    -- the table is made of the data after the first pass, and no other entry differs
    · unfold importMokState
      dsimp only
      rw [clearModes_initial, clearModes_initial]
      refine configTable_congr f (funext fun w => ?_)
      rw [(firstPass_entry f w _).data, (firstPass_entry f w _).data]
      by_cases hw : w = v
      · subst hw
        exact hfirst.same.data
      · have hsame : SameEntry g w (.initial vars)
            (.initial (Function.update vars (.stored v) (some y))) :=
          sameEntry_of_vars (fun n hn => (Function.update_of_ne
            (ne_of_mem_entryNames hw hn (stored_mem v)) _ _).symm) rfl rfl
        exact (importOneMokState_congr f true hsame).2.data

/-- Firmware and a TPM that do what they are asked to. -/
def Answers.quiet : Answers where
  size := none
  read := none
  erase := none
  eraseRt := none
  set _ := none
  info _ := .ok ⟨65536, 65536⟩
  measure := none
  log := none

def Firmware.quiet : Firmware where
  major := 2
  answers _ _ := .quiet
  configPages := true
  mokRequest := false
  startMokManager := .success

/-- A variable that passes the check is there after an undisturbed import. -/
theorem stored_of_accepted (hx : vars (.stored v) = some x) (haccepted : ¬ Rejected (v.row g) x) :
    (importMokState g .quiet (.initial vars)).state.vars (.stored v) = some x := by
  have hkept : ∀ (onlyFirst : Bool) (s : State), s.vars (.stored v) = some x →
      (importOneMokState g .quiet onlyFirst v s).2.vars (.stored v) = some x := by
    intro onlyFirst s hs
    rw [importOneMokState_stored, takeMokState_accepted .quiet onlyFirst hs haccepted rfl rfl, hs]
  rw [(importMokState_entry .quiet v vars).vars _ (stored_mem v)]
  exact hkept false _ (hkept true _ hx)

end Whole

/-- Variables with wrong attributes are without effect, whatever the firmware answers, exactly if no
stored variable has its attributes half right. -/
theorem wrongAttributesInert_iff (g : Globals) (vars : Variables MokName) :
    (∀ f, WrongAttributesInert g f vars) ↔ AllOrNoneOfYesAttr g vars := by
  constructor
  · intro h v x hx hdata
    by_contra hhalf
    obtain ⟨hyes, hsome, hno⟩ : _ ≠ _ ∧ _ ≠ 0 ∧ _ = 0 := by simpa [not_or] using hhalf
    have haccepted : ¬ Rejected (v.row g) x := by
      simp [Rejected, badAttributes, hdata, hsome, hno]
    rcases (h .quiet v x hx (.inl hyes)).deleted with hnone | ⟨⟨onlyFirst, hfault⟩, -⟩
    · rw [stored_of_accepted hx haccepted] at hnone
      cases hnone
    · exact hfault rfl
  · intro h f v x hx hwrong
    refine inert_of_rejected f hx ?_
    by_cases hdata : x.data = []
    · exact .inl hdata
    refine .inr ?_
    rcases h v x hx hdata with hall | hnone | hno
    · have hno := hwrong.resolve_left (not_not_intro hall)
      simp [badAttributes, hno]
    · simp [badAttributes, hnone]
    · simp [badAttributes, hno]

/-- A variable can hold a flag that is set. -/
theorem flag_size_lt : ([1] : List UInt8).length < 2 ^ 31 := by decide

/-- `MokSBState` as any code with boot service access may leave it: not non-volatile. -/
def volatileSBState : Variables MokName :=
  Function.update (fun _ => none) (.stored .mokSBState)
    (some ⟨[1], bootserviceAccess, flag_size_lt⟩)

/-- `MokSBState` without `EFI_VARIABLE_NON_VOLATILE` is neither deleted nor reported. -/
theorem not_wrongAttributesInert_volatile :
    ¬ WrongAttributesInert .plain .quiet volatileSBState := by
  intro h
  have hx : volatileSBState (.stored .mokSBState) = some ⟨[1], bootserviceAccess, by decide⟩ :=
    Function.update_self _ _ _
  have haccepted : ¬ Rejected (MokVar.mokSBState.row .plain) ⟨[1], bootserviceAccess, by decide⟩ := by
    simp [Rejected, badAttributes, MokVar.row, bootserviceAccess, bootserviceNonVolatile,
      runtimeAccess]
  have hwrong : WrongAttributes (MokVar.mokSBState.row .plain) bootserviceAccess :=
    .inl (by simp [MokVar.row, bootserviceAccess, bootserviceNonVolatile])
  rcases (h _ _ hx hwrong).deleted with hnone | ⟨⟨onlyFirst, hfault⟩, -⟩
  · rw [stored_of_accepted hx haccepted] at hnone
    cases hnone
  · exact hfault rfl

end Shim.Mok
