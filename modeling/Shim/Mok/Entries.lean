import Shim.Common.Parts
import Shim.Mok.Import

/-! # Entries are imported separately

The import of an entry reads and changes the part of the state that belongs to it: its stored
variable, its mirrors, its data and its byte of state. So each pass comes down, for every entry, to
the one import of it.
-/

namespace Shim.Mok

open Parts (Separate)

/-- The variables of an entry. -/
def entryNames (v : MokVar) : Set MokName := {n | n = .stored v ∨ n ∈ mirrorNames v}

/-- Two states agree on some variables and on the data and the byte of state of an entry. -/
structure SameOn (g : Globals) (v : MokVar) (names : Set MokName) (s t : State) : Prop where
  vars : ∀ n ∈ names, s.vars n = t.vars n
  data : s.data v = t.data v
  mode : ∀ byte, (v.row g).state = some byte → s.mode byte = t.mode byte

/-- Two states agree on what belongs to the entry. -/
abbrev SameEntry (g : Globals) (v : MokVar) : State → State → Prop := SameOn g v (entryNames v)

variable {g : Globals} (f : Firmware) (onlyFirst : Bool) {v w : MokVar} {s t : State} {names : Set MokName}

/-- States that are the same on some variables are equivalent. -/
theorem sameOn_equivalence (g : Globals) (v : MokVar) (names : Set MokName) :
    Equivalence (SameOn g v names) where
  refl _ := ⟨fun _ _ => rfl, rfl, fun _ _ => rfl⟩
  symm h := ⟨fun n hn => (h.vars n hn).symm, h.data.symm, fun byte hb => (h.mode byte hb).symm⟩
  trans h h' := ⟨fun n hn => (h.vars n hn).trans (h'.vars n hn), h.data.trans h'.data,
    fun byte hb => (h.mode byte hb).trans (h'.mode byte hb)⟩

/-- They are the same on fewer variables. -/
theorem SameOn.mono {names' : Set MokName} (h : SameOn g v names s t) (hsub : names' ⊆ names) :
    SameOn g v names' s t := ⟨fun n hn => h.vars n (hsub hn), h.data, h.mode⟩

/-- The stored variable is one of the entry's. -/
theorem stored_mem (v : MokVar) : .stored v ∈ entryNames v := .inl rfl

/-- So is its mirror. -/
theorem rt_mem (v : MokVar) : .rt v ∈ entryNames v := .inr (.inl rfl)

/-- No mirror is a stored variable. -/
theorem stored_not_mem_mirrorNames (v w : MokVar) : .stored v ∉ mirrorNames w := by
  rintro (h | ⟨i, h⟩) <;> cases h

/-- No variable belongs to two entries. -/
theorem ne_of_mem_entryNames {n m : MokName} (hne : v ≠ w) (hn : n ∈ entryNames v)
    (hm : m ∈ entryNames w) : n ≠ m := by
  rintro rfl
  rcases hn with rfl | rfl | ⟨i, rfl⟩ <;> rcases hm with h | h | ⟨j, h⟩ <;> cases h <;>
    exact hne rfl

/-- No byte of state belongs to two entries. -/
theorem eq_of_state_eq {byte : ModeByte} (hv : (v.row g).state = some byte)
    (hw : (w.row g).state = some byte) : v = w := by
  cases v <;> cases w <;> first | rfl | (cases hv; cases hw) | cases hv

/-! ## Mirroring -/

/-- Mirroring data writes the mirrors only. -/
theorem writesOnly_mirrorData {fullData : List UInt8} (hdata : fullData ≠ []) :
    WritesOnly (mirrorNames v) (mirrorData g f onlyFirst v fullData) := by
  unfold mirrorData
  exact .ite (fun _ => writesOnly_mirrorMokDb hdata) fun _ => writesOnly_mirrorDirect hdata

/-- What mirroring answers, leaves in `v->data` and writes is decided by the data. -/
theorem mirrorOneMokVariable_eq (g : Globals) (f : Firmware) (onlyFirst : Bool) (v : MokVar)
    (d : List UInt8) : ∃ (efiStatus : EfiStatus) (data : List UInt8)
      (writes : List (MokName × Variable)), (∀ w ∈ writes, w.1 ∈ mirrorNames v) ∧
      ∀ s : State, s.data v = d → mirrorOneMokVariable g f onlyFirst v s =
        (efiStatus, { s with
          vars := applyWrites s.vars writes, data := Function.update s.data v data }) := by
  unfold mirrorOneMokVariable
  cases hvendor : vendorData (v.row g) with
  | error e =>
    refine ⟨e, d, [], by simp, fun s hs => ?_⟩
    rw [← hs, Function.update_eq_self]
    rfl
  | ok vendor =>
    cases hfull : (if (v.row g).keydb ∧ vendor ++ d = [] then nullSha256Esl
      else .ok (vendor ++ d) : Except EfiStatus (List UInt8)) with
    | error e =>
      refine ⟨e, if vendor = [] then [] else d, [], by simp, ?_⟩
      rintro s rfl
      simp only [hfull]
      rfl
    | ok fullData =>
      cases fullData with
      | nil =>
        -- nothing to mirror
        refine ⟨.success, if vendor = [] then [] else d, [], by simp, ?_⟩
        rintro s rfl
        simp only [hfull]
        rfl
      | cons byte rest =>
        -- the writes are known before the state is
        obtain ⟨efiStatus, writes, hwrites, heq⟩ : WritesOnly (mirrorNames v)
            (mirrorData g f onlyFirst v (byte :: rest)) :=
          writesOnly_mirrorData f onlyFirst (List.cons_ne_nil _ _)
        cases hlogged : (if onlyFirst then measureAndLog (v.row g) (f.answers onlyFirst v) efiStatus
          else .ok efiStatus : Except EfiStatus EfiStatus) with
        | error e =>
          refine ⟨e, if vendor = [] then [] else d, writes, hwrites, ?_⟩
          rintro s rfl
          simp only [hfull, heq, hlogged]
        | ok status =>
          refine ⟨status, byte :: rest, writes, hwrites, ?_⟩
          rintro s rfl
          simp only [hfull, heq, hlogged]

/-- Taking a mode over touches no variable. -/
theorem takeState_vars (g : Globals) (v : MokVar) (s : State) : (takeState g v s).vars = s.vars := by
  unfold takeState
  split <;> rfl

/-- It touches no data. -/
theorem takeState_data (g : Globals) (v : MokVar) (s : State) : (takeState g v s).data = s.data := by
  unfold takeState
  split <;> rfl

/-! ## Agreement and frame -/

/-- What mirroring leaves agrees where the states it starts from do. -/
theorem SameOn.mirrored (h : SameOn g v names s t) (writes : List (MokName × Variable))
    (data : List UInt8) :
    SameOn g v names
      { s with vars := applyWrites s.vars writes, data := Function.update s.data v data }
      { t with vars := applyWrites t.vars writes, data := Function.update t.data v data } where
  vars n hn := applyWrites_congr writes (h.vars n hn)
  data := by simp
  mode := h.mode

/-- Mirroring depends on the entry's own part of the state. -/
theorem mirrorOneMokVariable_congr (h : SameOn g v names s t) :
    (mirrorOneMokVariable g f onlyFirst v s).1 = (mirrorOneMokVariable g f onlyFirst v t).1 ∧
      SameOn g v names (mirrorOneMokVariable g f onlyFirst v s).2
        (mirrorOneMokVariable g f onlyFirst v t).2 := by
  obtain ⟨efiStatus, data, writes, -, heq⟩ := mirrorOneMokVariable_eq g f onlyFirst v (s.data v)
  rw [heq s rfl, heq t h.data.symm]
  exact ⟨rfl, h.mirrored writes data⟩

/-- So does the deletion in front. -/
theorem deleteFirst_congr (hrt : .rt v ∈ names) (h : SameOn g v names s t) :
    SameOn g v names (deleteFirst g f onlyFirst v s) (deleteFirst g f onlyFirst v t) := by
  unfold deleteFirst
  split_ifs
  · exact ⟨fun n hn => (delVariable_congr (h.vars _ hrt) _).2 n (h.vars n hn), h.data, h.mode⟩
  · exact h

/-- So does taking a mode over. -/
theorem takeState_congr (h : SameOn g v names s t) :
    SameOn g v names (takeState g v s) (takeState g v t) := by
  unfold takeState
  rw [h.data]
  split
  · rename_i byte b hbyte _
    refine ⟨h.vars, h.data, fun byte' hb => ?_⟩
    obtain rfl : byte = byte' := Option.some.inj (hbyte.symm.trans hb)
    simp
  · exact h

/-- So does the choice whether to mirror. -/
theorem maybeMirrorOneMokVariable_congr (hrt : .rt v ∈ names) (ret : EfiStatus)
    (h : SameOn g v names s t) :
    (maybeMirrorOneMokVariable g f onlyFirst v ret s).1 =
        (maybeMirrorOneMokVariable g f onlyFirst v ret t).1 ∧
      SameOn g v names (maybeMirrorOneMokVariable g f onlyFirst v ret s).2
        (maybeMirrorOneMokVariable g f onlyFirst v ret t).2 := by
  obtain ⟨hret, hsame⟩ := mirrorOneMokVariable_congr f onlyFirst
    (deleteFirst_congr f onlyFirst hrt h)
  unfold maybeMirrorOneMokVariable
  dsimp only
  rw [hret]
  exact ⟨rfl, takeState_congr hsame⟩

/-- So does taking a variable in. -/
theorem takeMokState_congr (h : SameEntry g v s t) :
    (takeMokState g f onlyFirst v s).1 = (takeMokState g f onlyFirst v t).1 ∧
      SameEntry g v (takeMokState g f onlyFirst v s).2 (takeMokState g f onlyFirst v t).2 := by
  have hread : readMokState g f onlyFirst v s = readMokState g f onlyFirst v t := by
    unfold readMokState
    rw [h.data, getVariableAttr_congr (h.vars _ (stored_mem v))]
  obtain ⟨hstatus, hvars⟩ := delVariable_congr (h.vars _ (stored_mem v))
    (f.answers onlyFirst v).erase
  unfold takeMokState
  rw [hread]
  dsimp only
  by_cases hdelete : (readMokState g f onlyFirst v t).2 = true
  · rw [if_pos hdelete, if_pos hdelete, hstatus]
    exact ⟨rfl, fun n hn => hvars n (h.vars n hn), by simp, h.mode⟩
  · rw [if_neg hdelete, if_neg hdelete]
    exact ⟨rfl, h.vars, by simp, h.mode⟩

/-- The import of an entry looks at its part of the state only. -/
theorem importOneMokState_congr (h : SameEntry g v s t) :
    (importOneMokState g f onlyFirst v s).1 = (importOneMokState g f onlyFirst v t).1 ∧
      SameEntry g v (importOneMokState g f onlyFirst v s).2
        (importOneMokState g f onlyFirst v t).2 := by
  obtain ⟨hstatus, hsame⟩ := takeMokState_congr f onlyFirst h
  unfold importOneMokState
  dsimp only
  rw [hstatus]
  exact maybeMirrorOneMokVariable_congr f onlyFirst (rt_mem v) _ hsame

/-! Another entry's part stays as it is. -/

/-- What an entry's part of the state consists of. -/
theorem sameEntry_of_vars (hvars : ∀ n ∈ entryNames v, s.vars n = t.vars n)
    (hdata : s.data = t.data) (hmode : s.mode = t.mode) : SameEntry g v s t :=
  ⟨hvars, congrFun hdata v, fun byte _ => congrFun hmode byte⟩

/-- Deleting a variable of another entry leaves this one. -/
theorem delVariable_frame (hne : v ≠ w) {n : MokName} (hn : n ∈ entryNames w) (s : State)
    (fault : Fault) : SameEntry g v { s with vars := (delVariable s.vars n fault).2 } s :=
  sameEntry_of_vars (fun _ hm => delVariable_of_ne (ne_of_mem_entryNames hne hm hn) fault) rfl rfl

/-- So does another entry's data. -/
theorem updateData_frame (hne : v ≠ w) (s : State) (data : List UInt8) :
    SameEntry g v { s with data := Function.update s.data w data } s :=
  ⟨fun _ _ => rfl, Function.update_of_ne hne _ _, fun _ _ => rfl⟩

/-- So does mirroring another entry. -/
theorem mirrorOneMokVariable_frame (hne : v ≠ w) (s : State) :
    SameEntry g v (mirrorOneMokVariable g f onlyFirst w s).2 s := by
  obtain ⟨efiStatus, data, writes, hwrites, heq⟩ :=
    mirrorOneMokVariable_eq g f onlyFirst w (s.data w)
  rw [heq s rfl]
  refine ⟨fun n hn => applyWrites_of_not_mem fun m hm => ?_, Function.update_of_ne hne _ _,
    fun _ _ => rfl⟩
  exact (ne_of_mem_entryNames hne hn (.inr (hwrites m hm))).symm

/-- So does another entry's mode. -/
theorem takeState_frame (hne : v ≠ w) (s : State) : SameEntry g v (takeState g w s) s := by
  unfold takeState
  split
  · rename_i byte b hbyte _
    refine ⟨fun _ _ => rfl, rfl, fun byte' hb => Function.update_of_ne ?_ _ _⟩
    rintro rfl
    exact hne (eq_of_state_eq hb hbyte)
  · exact (sameOn_equivalence g v _).refl s

/-- So does the choice whether to mirror another entry. -/
theorem maybeMirrorOneMokVariable_frame (hne : v ≠ w) (ret : EfiStatus) (s : State) :
    SameEntry g v (maybeMirrorOneMokVariable g f onlyFirst w ret s).2 s := by
  have htrans := @(sameOn_equivalence g v (entryNames v)).trans
  have hdelete : SameEntry g v (deleteFirst g f onlyFirst w s) s := by
    unfold deleteFirst
    split_ifs
    · exact delVariable_frame hne (rt_mem w) s _
    · exact (sameOn_equivalence g v _).refl s
  exact htrans (takeState_frame hne _)
    (htrans (mirrorOneMokVariable_frame f onlyFirst hne _) hdelete)

/-- So does taking another variable in. -/
theorem takeMokState_frame (hne : v ≠ w) (s : State) :
    SameEntry g v (takeMokState g f onlyFirst w s).2 s := by
  unfold takeMokState
  dsimp only
  by_cases hdelete : (readMokState g f onlyFirst w s).2 = true
  · rw [if_pos hdelete]
    exact (sameOn_equivalence g v _).trans (updateData_frame hne { s with vars := _ } [])
      (delVariable_frame hne (stored_mem w) s _)
  · rw [if_neg hdelete]
    exact updateData_frame hne s _

/-- So does the whole import of another entry. -/
theorem importOneMokState_frame (hne : v ≠ w) (s : State) :
    SameEntry g v (importOneMokState g f onlyFirst w s).2 s :=
  (sameOn_equivalence g v _).trans (maybeMirrorOneMokVariable_frame f onlyFirst hne _ _)
    (takeMokState_frame f onlyFirst hne s)

/-! ## The passes -/

/-- The second pass treats each entry by itself. -/
theorem separate_secondPass (g : Globals) (f : Firmware) : Separate (SameEntry g)
    fun s v => (importOneMokState g f false v s).2 where
  equivalence v := sameOn_equivalence g v _
  frame s hne := importOneMokState_frame f false hne s
  congr h := (importOneMokState_congr f false h).2

/-- So does the first pass. -/
theorem separate_firstPass (g : Globals) (f : Firmware) :
    Separate (fun v (acc acc' : EfiStatus × State) => SameEntry g v acc.2 acc'.2)
      (firstPassStep g f) where
  equivalence v := (sameOn_equivalence g v _).comap Prod.snd
  frame acc hne := importOneMokState_frame f true hne acc.2
  congr h := (importOneMokState_congr f true h).2

/-- After the first pass an entry is as its one import leaves it. -/
theorem firstPass_entry (v : MokVar) (s : State) :
    SameEntry g v (firstPass g f s).2 (importOneMokState g f true v s).2 :=
  (separate_firstPass g f).foldl_of_mem nodup_mokStateVariables (mem_mokStateVariables v)

/-- At first no mode is set. -/
theorem clearModes_initial (vars : Variables MokName) :
    { State.initial vars with mode := clearModes (State.initial vars).mode } = .initial vars := by
  have hmode : clearModes (State.initial vars).mode = (State.initial vars).mode := by
    funext byte
    cases byte <;> rfl
  rw [hmode]

/-- After both passes it is as its two imports leave it. -/
theorem importMokState_entry (v : MokVar) (vars : Variables MokName) :
    SameEntry g v (importMokState g f (.initial vars)).state (importOneMokState g f false v
      (importOneMokState g f true v (.initial vars)).2).2 := by
  unfold importMokState
  dsimp only
  rw [clearModes_initial]
  exact (sameOn_equivalence g v _).trans
    ((separate_secondPass g f).foldl_of_mem nodup_mokStateVariables (mem_mokStateVariables v))
    (importOneMokState_congr f false (firstPass_entry f v _)).2

end Shim.Mok
