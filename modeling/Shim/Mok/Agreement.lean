import Shim.Mok.Attributes

/-! # What shim enforces and what it reports

The bytes of state that shim acts on are to be those that the mirrors show to the operating system.
Where every call succeeds, two paths of the import part them: an old `MokIgnoreDB` is not deleted,
and a `MokListTrusted` that the first pass deletes is absent in the second.
-/

namespace Shim.Mok

/-- The byte of data of one byte; anything else counts as nought. -/
def singleByte : List UInt8 → UInt8
  | [b] => b
  | _ => 0

/-- The variable services of the firmware do what they are asked to. -/
structure Answers.VariablesSucceed (a : Answers) : Prop where
  size : a.size = none
  read : a.read = none
  erase : a.erase = none
  eraseRt : a.eraseRt = none
  set : ∀ i, a.set i = none
  info : ∀ i, ∃ info, a.info i = .ok info

/-- And so does the TPM. -/
structure Answers.Succeed (a : Answers) : Prop extends a.VariablesSucceed where
  measure : a.measure = none
  log : a.log = none

/-- Every call of the variable services in an import succeeds. -/
def Firmware.VariablesSucceed (f : Firmware) : Prop :=
  ∀ onlyFirst v, (f.answers onlyFirst v).VariablesSucceed

/-- Every call of an import succeeds. -/
def Firmware.Succeeds (f : Firmware) : Prop := ∀ onlyFirst v, (f.answers onlyFirst v).Succeed

/-- Every byte of state is what its mirror shows afterwards. -/
def EnforcedIsReported (g : Globals) (f : Firmware) (vars : Variables MokName) : Prop :=
  let run := importMokState g f (.initial vars)
  ∀ v byte, (v.row g).state = some byte →
    run.state.mode byte = singleByte (contents run.state.vars (.rt v))

/-- `MokDBState` is taken, or the old `MokIgnoreDB` shows nought; and `MokListTrusted` is absent or
taken. -/
def NothingLeftOver (g : Globals) (vars : Variables MokName) : Prop :=
  ((∃ x, vars (.stored .mokDBState) = some x ∧ ¬ Rejected (MokVar.mokDBState.row g) x) ∨
    singleByte (contents vars (.rt .mokDBState)) = 0) ∧
  ∀ x, vars (.stored .mokListTrusted) = some x → ¬ Rejected (MokVar.mokListTrusted.row g) x

variable {g : Globals} {f : Firmware} {onlyFirst : Bool} {v : MokVar} {s : State}

/-- Only data of one byte are a mode. -/
theorem singleByte_of_length_ne {d : List UInt8} (h : d.length ≠ 1) : singleByte d = 0 := by
  unfold singleByte
  split
  · exact absurd rfl h
  · rfl

/-! ## One import of an entry that is no key database -/

/-- The data that is taken where all calls succeed. -/
def takenData (row : MokStateVariable) : Option Variable → List UInt8
  | none => if row.inverse then [1] else []
  | some x => if row.inverse ∨ Rejected row x then [] else x.data

/-- The stored variable that is left. -/
def keptStored (row : MokStateVariable) : Option Variable → Option Variable
  | none => none
  | some x => if Rejected row x then none else some x

/-- What was left is taken once more, but for a row that takes the absence of its variable. -/
theorem takenData_keptStored {row : MokStateVariable} (hinverse : row.inverse = false)
    (o : Option Variable) : takenData row (keptStored row o) = takenData row o := by
  cases o with
  | none => rfl
  | some x =>
    by_cases hrejected : Rejected row x
    · simp [keptStored, takenData, hrejected, hinverse]
    · simp [keptStored, hrejected]

/-- What is taken is shorter than 2^31 bytes. -/
theorem takenData_lt (row : MokStateVariable) (o : Option Variable) :
    (takenData row o).length < 2 ^ 31 := by
  unfold takenData
  split
  · split
    · exact (by decide : 1 < 2 ^ 31)
    · exact (by decide : 0 < 2 ^ 31)
  · rename_i x
    split
    · exact (by decide : 0 < 2 ^ 31)
    · exact x.size_lt

/-- With the variable services succeeding, a variable that is not refused is taken. -/
theorem readMokState_succeeds (ha : (f.answers onlyFirst v).VariablesSucceed) (hdata : s.data v = [])
    (hnot : ∀ x, s.vars (.stored v) = some x → ¬ Rejected (v.row g) x) :
    readMokState g f onlyFirst v s = (takenData (v.row g) (s.vars (.stored v)), false) := by
  unfold readMokState
  rw [if_neg (not_not_intro hdata), ha.size, ha.read]
  cases hstored : s.vars (.stored v) with
  | none =>
    have hget : getVariableAttr s.vars (.stored v) none none = .error .notFound := by
      simp [getVariableAttr, querySize, hstored]
    rw [show Refusal.fault none = none from rfl, hget]
    rfl
  | some x =>
    have haccepted := hnot x hstored
    obtain ⟨hne, hattrs⟩ := not_or.mp haccepted
    have hget : getVariableAttr s.vars (.stored v) (Refusal.fault none) (Refusal.fault none) =
        .ok x := getVariableAttr_of_some hstored hne (by decide) rfl
    rw [hget]
    simp [takenData, haccepted, hattrs]

/-- What is taken, what stays stored, and that nothing else changes yet. -/
theorem takeMokState_succeeds (ha : (f.answers onlyFirst v).VariablesSucceed)
    (hdata : s.data v = []) :
    let taken := (takeMokState g f onlyFirst v s).2
    taken.data v = takenData (v.row g) (s.vars (.stored v)) ∧
      taken.vars (.stored v) = keptStored (v.row g) (s.vars (.stored v)) ∧
      taken.vars (.rt v) = s.vars (.rt v) ∧ taken.mode = s.mode := by
  intro taken
  by_cases hrejected : ∃ x, s.vars (.stored v) = some x ∧ Rejected (v.row g) x
  · obtain ⟨x, hx, hrejected⟩ := hrejected
    have htaken : taken = { s with
        vars := (delVariable s.vars (.stored v) (f.answers onlyFirst v).erase).2
        data := Function.update s.data v [] } := by
      have hdelete := readMokState_rejected f onlyFirst hdata hx hrejected
      simp only [taken, takeMokState, hdelete, if_true]
    rw [htaken, ha.erase, hx]
    -- refused: the variable is deleted, and nothing is taken
    rcases delVariable_cases hx none with ⟨-, hnone⟩ | ⟨-, hfault, -⟩
    · refine ⟨?_, ?_, delVariable_of_ne (by simp) none, rfl⟩
      · simp [takenData, hrejected]
      · simpa [keptStored, hrejected] using hnone
    · exact absurd rfl hfault
  -- none is stored, or one that is taken over
  · have hnot : ∀ x, s.vars (.stored v) = some x → ¬ Rejected (v.row g) x :=
      fun x hx hr => hrejected ⟨x, hx, hr⟩
    have htaken : taken = { s with
        data := Function.update s.data v (takenData (v.row g) (s.vars (.stored v))) } := by
      simp only [taken, takeMokState, readMokState_succeeds ha hdata hnot]
      rfl
    rw [htaken]
    refine ⟨Function.update_self _ _ _, ?_, rfl, rfl⟩
    cases hx : s.vars (.stored v) with
    | none => simp [keptStored]
    | some x => simp [keptStored, hnot x hx]

/-- With the TPM calls succeeding as well, the logging goes on. -/
theorem measureAndLog_succeeds {a : Answers} (ha : a.Succeed) (row : MokStateVariable)
    (efiStatus : EfiStatus) : ∃ ret, measureAndLog row a efiStatus = .ok ret := by
  unfold measureAndLog
  rw [ha.measure, ha.log]
  cases row.measure with
  | true => cases row.log <;> exact ⟨_, rfl⟩
  | false => cases row.log <;> exact ⟨_, rfl⟩

/-- Mirroring data that is no key database: the first pass writes it all. -/
theorem mirrorOneMokVariable_direct (hkeydb : (v.row g).keydb = false)
    (ha : (f.answers onlyFirst v).Succeed) (hlen : (s.data v).length < 2 ^ 31) :
    let mirrored := (mirrorOneMokVariable g f onlyFirst v s).2
    mirrored.data v = s.data v ∧ mirrored.mode = s.mode ∧
      contents mirrored.vars (.rt v) =
        if onlyFirst ∧ s.data v ≠ [] then s.data v else contents s.vars (.rt v) := by
  intro mirrored
  have hvendor : vendorData (v.row g) = .ok [] := by simp [vendorData, hkeydb]
  cases hd : s.data v with
  | nil =>
    have hmirrored : mirrored = { s with data := Function.update s.data v [] } := by
      simp only [mirrored, mirrorOneMokVariable, hvendor, hkeydb, hd]
      rfl
    rw [hmirrored]
    exact ⟨Function.update_self _ _ _, rfl, by simp⟩
  | cons b rest =>
    -- a variable that is no key database is copied as it is
    have hdata : mirrorData g f onlyFirst v (b :: rest) =
        mirrorDirect v (f.answers onlyFirst v) (b :: rest) onlyFirst := by
      funext vars
      simp [mirrorData, hkeydb]
    obtain ⟨ret, hlogged⟩ : ∃ ret, (if onlyFirst then measureAndLog (v.row g)
        (f.answers onlyFirst v) (mirrorData g f onlyFirst v (b :: rest) s.vars).1
        else .ok (mirrorData g f onlyFirst v (b :: rest) s.vars).1 : Except _ _) = .ok ret := by
      cases onlyFirst with
      | true => exact measureAndLog_succeeds ha _ _
      | false => exact ⟨_, rfl⟩
    have hmirrored : mirrored = { s with
        vars := (mirrorData g f onlyFirst v (b :: rest) s.vars).2
        data := Function.update s.data v (b :: rest) } := by
      simp only [mirrored, mirrorOneMokVariable, hvendor, hkeydb, hd, List.nil_append,
        Bool.false_eq_true, false_and, if_false, hlogged]
    rw [hmirrored, hdata]
    refine ⟨Function.update_self _ _ _, rfl, ?_⟩
    cases onlyFirst with
    | true =>
      rw [hd] at hlen
      have hwritten : _ ∧ contents (writeVariable s.vars (.rt v) (b :: rest) bootserviceRuntime
          none).2 (.rt v) = b :: rest :=
        writeVariable_success _ (.inl (List.cons_ne_nil b rest)) hlen
      simpa [mirrorDirect, ha.set] using hwritten.2
    | false => simp [mirrorDirect]

/-- The deletion of an old mirror, where it succeeds. -/
theorem deleteFirst_succeeds (ha : (f.answers onlyFirst v).VariablesSucceed) (s : State) :
    let left := deleteFirst g f onlyFirst v s
    left.data = s.data ∧ left.mode = s.mode ∧ contents left.vars (.rt v) =
      if onlyFirst ∧ (v.row g).deleteFirst then [] else contents s.vars (.rt v) := by
  intro left
  by_cases hdelete : onlyFirst = true ∧ (v.row g).deleteFirst = true
  · have hleft : left = { s with vars := (delVariable s.vars (.rt v) none).2 } := by
      simp only [left, deleteFirst, hdelete.1, hdelete.2, Bool.and_self, if_true]
      rw [← hdelete.1, ha.eraseRt]
    rw [hleft, if_pos hdelete]
    refine ⟨rfl, rfl, ?_⟩
    cases hrt : s.vars (.rt v) with
    | none =>
      have hdel : delVariable s.vars (.rt v) none = (.notFound, s.vars) :=
        setVariable_of_nil_of_none rfl hrt
      simp [hdel, contents, hrt]
    | some x =>
      rcases delVariable_cases hrt none with ⟨-, hnone⟩ | ⟨-, hfault, -⟩
      · simp [contents, hnone]
      · exact absurd rfl hfault
  · have hleft : left = s := by
      cases onlyFirst <;> cases hrow : (v.row g).deleteFirst <;> simp_all [left, deleteFirst]
    rw [hleft, if_neg hdelete]
    exact ⟨rfl, rfl, rfl⟩

/-- A mode is set by data of one byte, and else left. -/
theorem takeState_mode {byte : ModeByte} (hstate : (v.row g).state = some byte) (s : State) :
    (takeState g v s).mode byte =
      if (s.data v).length = 1 then singleByte (s.data v) else s.mode byte := by
  unfold takeState
  rw [hstate]
  split
  · rename_i b hb heq
    cases hb
    rw [heq]
    simp [singleByte]
  · rename_i hnot
    rw [if_neg]
    intro hlen
    obtain ⟨b, hb⟩ := List.length_eq_one_iff.mp hlen
    exact hnot byte b rfl hb

/-- An import of an entry that is no key database, where all calls succeed, from the data it has
taken on. -/
theorem importOneMokState_succeeds (hkeydb : (v.row g).keydb = false)
    (ha : (f.answers onlyFirst v).Succeed) {byte : ModeByte} (hstate : (v.row g).state = some byte)
    (hlen : ((takeMokState g f onlyFirst v s).2.data v).length < 2 ^ 31) :
    let taken := (takeMokState g f onlyFirst v s).2
    let imported := (importOneMokState g f onlyFirst v s).2
    imported.data v = taken.data v ∧
      imported.mode byte = (if (taken.data v).length = 1 then singleByte (taken.data v)
        else taken.mode byte) ∧
      contents imported.vars (.rt v) =
        if onlyFirst ∧ ((v.row g).deleteFirst ∨ taken.data v ≠ []) then taken.data v
        else contents taken.vars (.rt v) := by
  intro taken imported
  obtain ⟨hdata, hmode, hrt⟩ := deleteFirst_succeeds ha.toVariablesSucceed taken
  obtain ⟨hdata', hmode', hrt'⟩ := mirrorOneMokVariable_direct hkeydb ha
    (s := deleteFirst g f onlyFirst v taken) (hdata ▸ hlen)
  have himported : imported = takeState g v
      (mirrorOneMokVariable g f onlyFirst v (deleteFirst g f onlyFirst v taken)).2 := rfl
  rw [hdata] at hdata' hrt'
  refine ⟨?_, ?_, ?_⟩
  · rw [himported, takeState_data, hdata']
  · rw [himported, takeState_mode hstate, hdata', hmode', hmode]
  · rw [himported, takeState_vars, hrt', hrt]
    cases onlyFirst <;> cases hrow : (v.row g).deleteFirst <;>
      by_cases hnil : taken.data v = [] <;> simp [hnil]

/-! ## Both passes -/

/-- The data that the second pass holds: that of the first one, or what it reads for itself. -/
def secondData (row : MokStateVariable) (o : Option Variable) : List UInt8 :=
  if takenData row o ≠ [] then takenData row o else takenData row (keptStored row o)

/-- The byte of state after both passes. -/
def enforcedByte (row : MokStateVariable) (o : Option Variable) : UInt8 :=
  if (secondData row o).length = 1 then singleByte (secondData row o)
  else singleByte (takenData row o)

/-- The byte of state and the mirror of an entry after both passes. -/
theorem importMokState_succeeds (hf : f.Succeeds) (hkeydb : (v.row g).keydb = false)
    {byte : ModeByte} (hstate : (v.row g).state = some byte) (vars : Variables MokName) :
    let run := importMokState g f (.initial vars)
    let o := vars (.stored v)
    run.state.mode byte = enforcedByte (v.row g) o ∧
      contents run.state.vars (.rt v) =
        if (v.row g).deleteFirst ∨ takenData (v.row g) o ≠ [] then takenData (v.row g) o
        else contents vars (.rt v) := by
  intro run o
  -- the first pass, from nothing
  obtain ⟨hdata, hstored, hrt, hmode⟩ :=
    takeMokState_succeeds (g := g) (s := .initial vars) (hf true v).toVariablesSucceed rfl
  obtain ⟨hdata₁, hmode₁, hrt₁⟩ := importOneMokState_succeeds hkeydb (hf true v) hstate
    (hdata ▸ takenData_lt _ _)
  have hstored₁ := importOneMokState_stored (g := g) (v := v) f true (.initial vars)
  rw [hdata] at hdata₁ hmode₁ hrt₁
  rw [hstored] at hstored₁
  set first := (importOneMokState g f true v (.initial vars)).2 with hfirst
  -- the second pass, from what it left
  have htaken : (takeMokState g f false v first).2.data v = secondData (v.row g) o ∧
      (takeMokState g f false v first).2.vars (.rt v) = first.vars (.rt v) ∧
      (takeMokState g f false v first).2.mode = first.mode := by
    by_cases hnil : takenData (v.row g) o = []
    · obtain ⟨hd, -, hr, hm⟩ := takeMokState_succeeds (g := g) (s := first)
        (hf false v).toVariablesSucceed (hdata₁.trans hnil)
      refine ⟨?_, hr, hm⟩
      rw [hd, hstored₁, secondData, if_neg (not_not_intro hnil)]
      rfl
    · rw [takeMokState_of_data f false (by rw [hdata₁]; exact hnil)]
      exact ⟨by rw [secondData, if_pos hnil]; exact hdata₁, rfl, rfl⟩
  obtain ⟨hd, hr, hm⟩ := htaken
  have hlen : ((takeMokState g f false v first).2.data v).length < 2 ^ 31 := by
    rw [hd, secondData]
    split
    · exact takenData_lt _ _
    · exact takenData_lt _ _
  obtain ⟨-, hmode₂, hrt₂⟩ := importOneMokState_succeeds hkeydb (hf false v) hstate hlen
  have hentry := importMokState_entry (g := g) f v vars
  refine ⟨?_, ?_⟩
  · rw [hentry.mode byte hstate, hmode₂, hd, hm, hmode₁]
    refine if_congr Iff.rfl rfl ?_
    split
    · rfl
    · rename_i hne
      rw [hmode]
      exact (singleByte_of_length_ne hne).symm
  · rw [contents_congr (hentry.vars _ (rt_mem v)), hrt₂, contents_congr hr, hrt₁,
      contents_congr hrt]
    simp only [Bool.false_eq_true, false_and, if_false, true_and]
    rfl

/-- Data of the first pass decides the byte. Without any, the second pass finds nothing either,
unless a variable with `MOK_VARIABLE_INVERSE` was deleted in between. -/
theorem enforcedByte_eq (row : MokStateVariable) (o : Option Variable) :
    enforcedByte row o = if takenData row o ≠ [] then singleByte (takenData row o)
      else if row.inverse ∧ keptStored row o = none then 1 else 0 := by
  unfold enforcedByte secondData
  by_cases hnil : takenData row o = []
  · rw [if_neg (not_not_intro hnil), if_neg (not_not_intro hnil), hnil]
    cases o with
    | none =>
      cases hinverse : row.inverse with
      | true => simp [takenData, hinverse] at hnil
      | false => simp [takenData, keptStored, hinverse, singleByte]
    | some x =>
      by_cases hrejected : Rejected row x
      · cases hinverse : row.inverse <;> simp [takenData, keptStored, hrejected, hinverse, singleByte]
      · have hkept : keptStored row (some x) = some x := if_neg hrejected
        rw [hkept, hnil, if_neg (by simp)]
        simp [singleByte]
  · rw [if_pos hnil, if_pos hnil]
    split <;> rfl

/-- An entry with `MOK_MIRROR_DELETE_FIRST` agrees with its mirror, unless it is inverse and was
deleted. -/
theorem agrees_of_deleteFirst {row : MokStateVariable} (hdelete : row.deleteFirst = true)
    (o : Option Variable) (old : List UInt8) :
    enforcedByte row o =
        singleByte (if row.deleteFirst ∨ takenData row o ≠ [] then takenData row o else old) ↔
      (row.inverse = true → ∀ x, o = some x → ¬ Rejected row x) := by
  have htaken : row.deleteFirst = true ∨ takenData row o ≠ [] := .inl hdelete
  rw [enforcedByte_eq, if_pos htaken]
  by_cases hnil : takenData row o = []
  · rw [if_neg (not_not_intro hnil), hnil]
    cases o with
    | none =>
      cases hinverse : row.inverse with
      | true => simp [takenData, hinverse] at hnil
      | false => simp [singleByte]
    | some x => by_cases hrejected : Rejected row x <;> simp [keptStored, hrejected, singleByte]
  · rw [if_pos hnil]
    refine iff_of_true rfl fun _ x hx hrejected => hnil ?_
    rw [hx]
    simp [takenData, hrejected]

/-- The entry that keeps its old mirror agrees with it if its stored variable is taken, or the old
mirror shows nought. -/
theorem agrees_of_not_deleteFirst {row : MokStateVariable} (hdelete : row.deleteFirst = false)
    (hinverse : row.inverse = false) (o : Option Variable) (old : List UInt8) :
    enforcedByte row o =
        singleByte (if row.deleteFirst ∨ takenData row o ≠ [] then takenData row o else old) ↔
      (∃ x, o = some x ∧ ¬ Rejected row x) ∨ singleByte old = 0 := by
  rw [enforcedByte_eq, hdelete, hinverse, eq_comm]
  cases o with
  | none => simp [takenData, hinverse]
  | some x =>
    by_cases hrejected : Rejected row x
    · simp [takenData, hrejected]
    · have hdata : x.data ≠ [] := fun h => hrejected (.inl h)
      simp [takenData, hrejected, hinverse, hdata]

/-- What shim enforces is what it reports, exactly if nothing is left over. -/
theorem enforcedIsReported_iff (hf : f.Succeeds) (vars : Variables MokName) :
    EnforcedIsReported g f vars ↔ NothingLeftOver g vars := by
  -- the byte is set from the stored variable, the mirror from the data that was taken
  have hentry : ∀ v byte, (v.row g).state = some byte → (v.row g).keydb = false →
      ((importMokState g f (.initial vars)).state.mode byte =
          singleByte (contents (importMokState g f (.initial vars)).state.vars (.rt v)) ↔
        enforcedByte (v.row g) (vars (.stored v)) = singleByte
          (if (v.row g).deleteFirst ∨ takenData (v.row g) (vars (.stored v)) ≠ []
            then takenData (v.row g) (vars (.stored v)) else contents vars (.rt v))) := by
    intro v byte hstate hkeydb
    obtain ⟨hmode, hrt⟩ := importMokState_succeeds hf hkeydb hstate vars
    rw [hmode, hrt]
  constructor
  · intro h
    -- only the entries that are not deleted first, or that invert the byte, can differ
    refine ⟨?_, ?_⟩
    · exact (agrees_of_not_deleteFirst rfl rfl _ _).mp
        ((hentry .mokDBState .ignoreDb rfl rfl).mp (h .mokDBState .ignoreDb rfl))
    · exact (agrees_of_deleteFirst rfl _ _).mp
        ((hentry .mokListTrusted .trustMokList rfl rfl).mp (h .mokListTrusted .trustMokList rfl)) rfl
  · rintro ⟨hdb, htrusted⟩ v byte hstate
    -- the key databases and the level have no byte to set
    cases v with
    | mokList => cases hstate
    | mokListX => cases hstate
    | sbatLevel => cases hstate
    | mokDBState => exact (hentry _ _ hstate rfl).mpr ((agrees_of_not_deleteFirst rfl rfl _ _).mpr hdb)
    | mokSBState =>
      refine (hentry _ _ hstate rfl).mpr ((agrees_of_deleteFirst rfl _ _).mpr ?_)
      exact fun hinverse => absurd hinverse Bool.false_ne_true
    | mokListTrusted =>
      exact (hentry _ _ hstate rfl).mpr ((agrees_of_deleteFirst rfl _ _).mpr fun _ => htrusted)
    | mokPolicy =>
      refine (hentry _ _ hstate rfl).mpr ((agrees_of_deleteFirst rfl _ _).mpr ?_)
      exact fun hinverse => absurd hinverse Bool.false_ne_true

/-- The quiet firmware fails no call. -/
theorem succeeds_quiet : Firmware.quiet.Succeeds :=
  fun _ _ => ⟨⟨rfl, rfl, rfl, rfl, fun _ => rfl, fun _ => ⟨_, rfl⟩⟩, rfl, rfl⟩

/-- A flag as MokManager stores it. -/
def storedFlag : Variable := ⟨[1], bootserviceNonVolatile, flag_size_lt⟩

/-- A machine on which MokManager has switched off validation, `db` and the trust in `MokList`. -/
def switchedOff : Variables MokName
  | .stored .mokSBState | .stored .mokDBState | .stored .mokListTrusted => some storedFlag
  | _ => none

/-- There all bytes are what is reported. -/
theorem enforcedIsReported_switchedOff : EnforcedIsReported .plain .quiet switchedOff := by
  have haccepted : ∀ v : MokVar, v ∈ [.mokDBState, .mokListTrusted] →
      ¬ Rejected (v.row .plain) storedFlag := by decide
  refine (enforcedIsReported_iff succeeds_quiet _).mpr
    ⟨.inl ⟨storedFlag, rfl, haccepted _ (by simp)⟩, fun x hx => ?_⟩
  obtain rfl := Option.some.inj hx
  exact haccepted _ (by simp)

/-- A `MokIgnoreDB` that an operating system left behind. -/
def leftMokIgnoreDB : Variables MokName :=
  Function.update (fun _ => none) (.rt .mokDBState) (some ⟨[1], bootserviceRuntime, flag_size_lt⟩)

/-- With the left `MokIgnoreDB`, shim consults the signature databases and reports that it ignores
them. -/
theorem not_enforcedIsReported_left : ¬ EnforcedIsReported .plain .quiet leftMokIgnoreDB := by
  intro h
  have hbyte := h .mokDBState .ignoreDb rfl
  obtain ⟨hmode, hrt⟩ := importMokState_succeeds (g := .plain) (v := .mokDBState) succeeds_quiet rfl
    rfl leftMokIgnoreDB
  rw [hmode, hrt] at hbyte
  exact absurd hbyte (by decide)

end Shim.Mok
