import Mathlib.Data.Set.Basic
import Mathlib.Logic.Function.Basic
import Shim.Efi.Status

/-! # Firmware variables

`GetVariable` and `SetVariable` over a store indexed by variable names, and shim's wrappers
`get_variable_attr`, `get_variable`, `set_variable` and `del_variable` (lib/variables.c). Every
firmware call may be answered with an error instead of being carried out; a refused call leaves
the store as it was. Allocations succeed.
-/

namespace Shim

/-- The contents of a variable. Its size fits an `int`, as the data of every variable store does. -/
structure Variable where
  data : List UInt8
  attrs : ℕ
  size_lt : data.length < 2 ^ 31
  deriving DecidableEq

theorem Variable.nil_size_lt : ([] : List UInt8).length < 2 ^ 31 := by decide

/-- The variables the firmware holds. -/
abbrev Variables (Name : Type) := Name → Option Variable

variable {Name : Type}

/-- The status of the size query, `GetVariable` into no buffer. -/
def querySize (vars : Variables Name) (name : Name) (fault : Fault) : EfiStatus :=
  match fault, vars name with
  | some e, _ => e.1
  | none, none => .notFound
  | none, some v => if v.data.length = 0 then .success else .bufferTooSmall

/-- `get_variable_attr`: the two `GetVariable` calls, each with its fault. -/
def getVariableAttr (vars : Variables Name) (name : Name) (size read : Fault) :
    Except EfiStatus Variable :=
  let efiStatus := querySize vars name size
  if efiStatus ≠ .bufferTooSmall then
    .error (if efiStatus.isError then efiStatus else .protocolError)
  else
    match read, vars name with
    | some e, _ => .error e.1
    | none, none => .error .notFound
    | none, some v => .ok v

/-- The size query is refused; answering with the buffer size needed is not a refusal. -/
def queryRefused (fault : Fault) : Prop := ∃ e, fault = some e ∧ e.1 ≠ .bufferTooSmall

instance (fault : Fault) : Decidable (queryRefused fault) :=
  match fault with
  | none => isFalse (by rintro ⟨e, h, -⟩; cases h)
  | some e => decidable_of_iff (e.1 ≠ .bufferTooSmall) ⟨fun h => ⟨e, rfl, h⟩, by
      rintro ⟨e', h, hne⟩
      cases h
      exact hne⟩

variable [DecidableEq Name]

/-- `set_variable`: data of no bytes deletes the variable. -/
def setVariable (vars : Variables Name) (name : Name) (v : Variable) (fault : Fault) :
    EfiStatus × Variables Name :=
  match fault with
  | some e => (e.1, vars)
  | none =>
    if v.data.length = 0 then
      if (vars name).isSome then (.success, Function.update vars name none) else (.notFound, vars)
    else (.success, Function.update vars name (some v))

/-- `SetVariable` with some bytes; what no variable can hold is refused. -/
def writeVariable (vars : Variables Name) (name : Name) (data : List UInt8) (attrs : ℕ)
    (fault : Fault) : EfiStatus × Variables Name :=
  if h : data.length < 2 ^ 31 then setVariable vars name ⟨data, attrs, h⟩ fault
  else (.outOfResources, vars)

/-- `del_variable`. -/
def delVariable (vars : Variables Name) (name : Name) (fault : Fault) :
    EfiStatus × Variables Name :=
  setVariable vars name ⟨[], 0, Variable.nil_size_lt⟩ fault

omit [DecidableEq Name] in
/-- A variable is read exactly as it is stored, and only if no call is refused. -/
theorem getVariableAttr_eq_ok {vars : Variables Name} {name : Name} {size read : Fault}
    {v : Variable} (h : getVariableAttr vars name size read = .ok v) :
    vars name = some v ∧ ¬ queryRefused size ∧ read = none := by
  unfold getVariableAttr at h
  by_cases hq : querySize vars name size = .bufferTooSmall
  · simp only [hq, ne_eq, not_true_eq_false, if_false] at h
    cases read with
    | some e => cases h
    | none =>
      cases hv : vars name with
      | none =>
        rw [hv] at h
        cases h
      | some w =>
        rw [hv] at h
        cases h
        refine ⟨rfl, ?_, rfl⟩
        rintro ⟨e, rfl, hne⟩
        exact hne hq
  · simp only [ne_eq, hq, not_false_eq_true, if_true] at h
    cases h

omit [DecidableEq Name] in
/-- A stored variable is read when neither call is refused. -/
theorem getVariableAttr_of_some {vars : Variables Name} {name : Name} {size read : Fault}
    {v : Variable} (hv : vars name = some v) (hdata : v.data ≠ []) (hsize : ¬ queryRefused size)
    (hread : read = none) : getVariableAttr vars name size read = .ok v := by
  have hq : querySize vars name size = .bufferTooSmall := by
    cases size with
    | none => simp [querySize, hv, hdata]
    | some e =>
      by_contra hne
      exact hsize ⟨e, rfl, hne⟩
  simp [getVariableAttr, hq, hread, hv]

omit [DecidableEq Name] in
/-- A read looks at the variable it names only. -/
theorem getVariableAttr_congr {vars vars' : Variables Name} {name : Name}
    (h : vars name = vars' name) (size read : Fault) :
    getVariableAttr vars name size read = getVariableAttr vars' name size read := by
  unfold getVariableAttr querySize
  rw [h]

omit [DecidableEq Name] in
/-- Whatever keeps a variable from being read is an error. -/
theorem getVariableAttr_isError {vars : Variables Name} {name : Name} {size read : Fault}
    {e : EfiStatus} (h : getVariableAttr vars name size read = .error e) : e.isError = true := by
  unfold getVariableAttr at h
  by_cases hq : querySize vars name size = .bufferTooSmall
  · simp only [hq, ne_eq, not_true_eq_false, if_false] at h
    cases read with
    | some e' => cases h; exact e'.2
    | none => cases hv : vars name <;> rw [hv] at h <;> cases h; rfl
  · simp only [ne_eq, hq, not_false_eq_true, if_true, Except.error.injEq] at h
    subst h
    split_ifs with he
    · exact he
    · rfl

/-- A write that is carried out stores the data. -/
theorem setVariable_of_ne_nil (vars : Variables Name) (name : Name) {v : Variable}
    (hdata : v.data.length ≠ 0) :
    setVariable vars name v none = (.success, Function.update vars name (some v)) := by
  rw [setVariable, if_neg hdata]

/-- Deleting a variable that is there. -/
theorem setVariable_of_nil {vars : Variables Name} {name : Name} {v : Variable}
    (hdata : v.data.length = 0) (h : vars name ≠ none) :
    setVariable vars name v none = (.success, Function.update vars name none) := by
  rw [setVariable, if_pos hdata, if_pos (Option.isSome_iff_ne_none.mpr h)]

/-- Deleting a variable that is not there. -/
theorem setVariable_of_nil_of_none {vars : Variables Name} {name : Name} {v : Variable}
    (hdata : v.data.length = 0) (h : vars name = none) :
    setVariable vars name v none = (.notFound, vars) := by
  rw [setVariable, if_pos hdata, h]
  rfl

/-- A call that names one variable changes no other. -/
theorem setVariable_of_ne {vars : Variables Name} {name other : Name} (h : other ≠ name)
    (v : Variable) (fault : Fault) : (setVariable vars name v fault).2 other = vars other := by
  unfold setVariable
  cases fault with
  | some e => rfl
  | none => split_ifs <;> simp [h]

/-- Deleting a variable leaves the others. -/
theorem delVariable_of_ne {vars : Variables Name} {name other : Name} (h : other ≠ name)
    (fault : Fault) : (delVariable vars name fault).2 other = vars other :=
  setVariable_of_ne h _ fault

/-- A deletion looks at the variable it names only. -/
theorem delVariable_congr {vars vars' : Variables Name} {name : Name}
    (h : vars name = vars' name) (fault : Fault) :
    (delVariable vars name fault).1 = (delVariable vars' name fault).1 ∧
      ∀ other, vars other = vars' other →
        (delVariable vars name fault).2 other = (delVariable vars' name fault).2 other := by
  unfold delVariable setVariable
  cases fault with
  | some e => exact ⟨rfl, fun other hother => hother⟩
  | none =>
    rw [h]
    simp only [List.length_nil, if_true]
    split_ifs
    · refine ⟨rfl, fun other hother => ?_⟩
      dsimp only
      by_cases hne : other = name
      · rw [hne, Function.update_self, Function.update_self]
      · rw [Function.update_of_ne hne, Function.update_of_ne hne, hother]
    · exact ⟨rfl, fun other hother => hother⟩

/-- The bytes a variable holds; an absent one holds none. -/
def contents (vars : Variables Name) (name : Name) : List UInt8 :=
  match vars name with
  | none => []
  | some v => v.data

omit [DecidableEq Name] in
/-- The contents depend on that variable only. -/
theorem contents_congr {vars vars' : Variables Name} {name : Name} (h : vars name = vars' name) :
    contents vars name = contents vars' name := by
  unfold contents
  rw [h]

omit [DecidableEq Name] in
/-- The contents of a variable are shorter than 2^31 bytes. -/
theorem contents_lt (vars : Variables Name) (name : Name) :
    (contents vars name).length < 2 ^ 31 := by
  unfold contents
  cases vars name with
  | none => exact (by decide : 0 < 2 ^ 31)
  | some v => exact v.size_lt

/-- A write either fails and changes nothing, or the variable holds the data. -/
theorem writeVariable_cases (vars : Variables Name) (name : Name) (data : List UInt8) (attrs : ℕ)
    (fault : Fault) :
    let r := writeVariable vars name data attrs fault
    (r.1.isError = true ∧ r.2 = vars) ∨ (r.1 = .success ∧ contents r.2 name = data) := by
  intro r
  by_cases hlen : data.length < 2 ^ 31
  · have hr : r = setVariable vars name ⟨data, attrs, hlen⟩ fault := dif_pos hlen
    rw [hr]
    cases fault with
    | some e => exact .inl ⟨e.2, rfl⟩
    | none =>
      by_cases hnil : data.length = 0
      · by_cases hvar : vars name = none
        · exact .inl (by rw [setVariable_of_nil_of_none hnil hvar]; exact ⟨rfl, rfl⟩)
        · rw [setVariable_of_nil hnil hvar]
          exact .inr ⟨rfl, by simp [contents, List.length_eq_zero_iff.mp hnil]⟩
      · rw [setVariable_of_ne_nil vars name hnil]
        exact .inr ⟨rfl, by simp [contents]⟩
  · have hr : r = (.outOfResources, vars) := dif_neg hlen
    rw [hr]
    exact .inl ⟨rfl, rfl⟩

/-- A write without a fault, of something that a variable can hold. -/
theorem writeVariable_success {vars : Variables Name} {name : Name} {data : List UInt8} (attrs : ℕ)
    (hdata : data ≠ [] ∨ vars name ≠ none) (hlen : data.length < 2 ^ 31) :
    (writeVariable vars name data attrs none).1 = .success ∧
      contents (writeVariable vars name data attrs none).2 name = data := by
  rcases writeVariable_cases vars name data attrs none with ⟨herr, -⟩ | h
  · rw [writeVariable, dif_pos hlen] at herr
    by_cases hnil : data.length = 0
    · have hvar := hdata.resolve_left (not_not_intro (List.length_eq_zero_iff.mp hnil))
      rw [setVariable_of_nil hnil hvar] at herr
      exact absurd herr Bool.false_ne_true
    · rw [setVariable_of_ne_nil vars name hnil] at herr
      exact absurd herr Bool.false_ne_true
  · exact h

/-- Writing some bytes fails for a fault, or because no variable can hold them. -/
theorem writeVariable_isError_iff {vars : Variables Name} {name : Name} {data : List UInt8}
    {attrs : ℕ} {fault : Fault} (hdata : data ≠ []) :
    (writeVariable vars name data attrs fault).1.isError = true ↔
      fault ≠ none ∨ 2 ^ 31 ≤ data.length := by
  by_cases hlen : data.length < 2 ^ 31
  · cases fault with
    | some e =>
      rw [writeVariable, dif_pos hlen]
      exact iff_of_true e.2 (.inl (by simp))
    | none =>
      rw [(writeVariable_success attrs (.inl hdata) hlen).1]
      exact iff_of_false Bool.false_ne_true fun h =>
        h.elim (fun h => h rfl) (Nat.not_le.mpr hlen)
  · rw [writeVariable, dif_neg hlen]
    exact iff_of_true rfl (.inr (Nat.le_of_not_lt hlen))

/-- Writing a variable leaves the others. -/
theorem writeVariable_of_ne {vars : Variables Name} {name other : Name} (h : other ≠ name)
    (data : List UInt8) (attrs : ℕ) (fault : Fault) :
    (writeVariable vars name data attrs fault).2 other = vars other := by
  unfold writeVariable
  split_ifs
  · exact setVariable_of_ne h _ fault
  · rfl

/-! ## Computations that only write -/

/-- The store after some variables were written, in order. -/
def applyWrites (vars : Variables Name) (writes : List (Name × Variable)) : Variables Name :=
  writes.foldl (fun store w => Function.update store w.1 (some w.2)) vars

/-- A variable that is not written is left. -/
theorem applyWrites_of_not_mem {vars : Variables Name} {writes : List (Name × Variable)}
    {other : Name} (h : ∀ w ∈ writes, w.1 ≠ other) : applyWrites vars writes other = vars other := by
  induction writes generalizing vars with
  | nil => rfl
  | cons w writes ih =>
    have hne := (h w List.mem_cons_self).symm
    exact (ih fun w' hw' => h w' (List.mem_cons_of_mem _ hw')).trans (Function.update_of_ne hne _ _)

/-- Stores that hold the same under a name do so after the same writes. -/
theorem applyWrites_congr {vars vars' : Variables Name} (writes : List (Name × Variable))
    {other : Name} (h : vars other = vars' other) :
    applyWrites vars writes other = applyWrites vars' writes other := by
  induction writes generalizing vars vars' with
  | nil => exact h
  | cons w writes ih =>
    refine ih ?_
    dsimp only
    by_cases hne : other = w.1
    · subst hne
      rw [Function.update_self, Function.update_self]
    · rw [Function.update_of_ne hne, Function.update_of_ne hne, h]

/-- The computation writes some of the variables `names`, and neither what it writes nor what it
answers depends on the store. -/
def WritesOnly {α : Type} (names : Set Name) (f : Variables Name → α × Variables Name) : Prop :=
  ∃ (answer : α) (writes : List (Name × Variable)), (∀ w ∈ writes, w.1 ∈ names) ∧
    ∀ vars, f vars = (answer, applyWrites vars writes)

namespace WritesOnly

variable {α : Type} {names : Set Name} {f : Variables Name → α × Variables Name}
  {vars vars' : Variables Name}

/-- An answer writes nothing. -/
theorem answer (names : Set Name) (a : α) : WritesOnly names fun vars => (a, vars) :=
  ⟨a, [], by simp, fun _ => rfl⟩

/-- Writes in front are among the writes. -/
theorem after (hf : WritesOnly names f) {writes : List (Name × Variable)}
    (hwrites : ∀ w ∈ writes, w.1 ∈ names) :
    WritesOnly names fun vars => f (applyWrites vars writes) := by
  obtain ⟨a, writes', hwrites', hf⟩ := hf
  refine ⟨a, writes ++ writes', ?_, fun vars => ?_⟩
  · intro w hw
    exact (List.mem_append.mp hw).elim (hwrites w) (hwrites' w)
  · dsimp only
    rw [hf, applyWrites, applyWrites, applyWrites, List.foldl_append]

/-- Either branch writes these variables only. -/
theorem ite {p : Prop} [Decidable p] {g : Variables Name → α × Variables Name}
    (hf : p → WritesOnly names f) (hg : ¬ p → WritesOnly names g) :
    WritesOnly names fun vars => if p then f vars else g vars := by
  by_cases h : p
  · simpa only [if_pos h] using hf h
  · simpa only [if_neg h] using hg h

/-- A write of a variable is one of the writes. -/
theorem writeVariable {name : Name} {data : List UInt8} (hname : name ∈ names) (hdata : data ≠ [])
    (attrs : ℕ) (fault : Fault) :
    WritesOnly names fun vars => writeVariable vars name data attrs fault := by
  by_cases hlen : data.length < 2 ^ 31
  · cases fault with
    | some e => exact ⟨e.1, [], by simp, fun _ => dif_pos hlen⟩
    | none =>
      refine ⟨.success, [(name, ⟨data, attrs, hlen⟩)], by simpa using hname, fun vars => ?_⟩
      have hset := setVariable_of_ne_nil vars name (v := ⟨data, attrs, hlen⟩)
        fun h => hdata (List.length_eq_zero_iff.mp h)
      exact (dif_pos hlen).trans hset
  · exact ⟨.outOfResources, [], by simp, fun _ => dif_neg hlen⟩

end WritesOnly

end Shim
