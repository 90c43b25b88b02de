import Mathlib.Algebra.GroupWithZero.Nat
import Mathlib.Data.List.Range
import Mathlib.Logic.Function.Basic
import Shim.Efi.Status

/-! # A line of input

`get_line` (MokManager.c) reads keys up to a carriage return into a buffer of its caller, for a
password or for a single character of one. What is typed into a full buffer is passed over, and a
backspace clears the last character.
-/

namespace Shim.LineInput

/-! ## The code -/

def charBackspace : UInt16 := 8

def charTab : UInt16 := 9

def charLinefeed : UInt16 := 10

def charCarriageReturn : UInt16 := 13

/-- What `console_get_keystroke` gives: `UnicodeChar`, or an error. -/
abbrev Keystroke := Except EfiError UInt16

/-- How `get_line` ends, with what is in the buffer. -/
structure LineEnd where
  efiStatus : EfiStatus
  length : ℕ
  line : ℕ → UInt16

/-- Keys that never are part of a line. -/
def isControl (key : UInt16) : Bool :=
  key = 0 || key = charTab || key = charLinefeed || key = charCarriageReturn

/-- The tests that lead to the next key. -/
def passedOver (lineMax count : ℕ) (key : UInt16) : Bool :=
  (decide (lineMax ≤ count) && decide (key ≠ charBackspace)) || isControl key ||
    (decide (count = 0) && decide (key = charBackspace))

/-- `get_line`, from `count` characters on: the indices that are written, and how it ends; `none`
while it waits for a key. -/
def getLine (lineMax : ℕ) :
    List Keystroke → (count : ℕ) → (line : ℕ → UInt16) → List ℕ × Option LineEnd
  | [], _, _ => ([], none)
  | .error e :: _, _, line => ([], some ⟨e.1, 0, line⟩)
  | .ok key :: keys, count, line =>
    if key = charCarriageReturn then ([], some ⟨.success, count, line⟩)
    else if passedOver lineMax count key then getLine lineMax keys count line
    else if key = charBackspace then
      let rest := getLine lineMax keys (count - 1) (Function.update line (count - 1) 0)
      ((count - 1) :: rest.1, rest.2)
    else
      let rest := getLine lineMax keys (count + 1) (Function.update line count key)
      (count :: rest.1, rest.2)

/-- `get_password`: the length of what is in `password`, which is that of an error too. -/
def getPassword (keystrokes : List Keystroke) (password : ℕ → UInt16) (lineMax : ℕ) :
    Option (ℕ × (ℕ → UInt16)) :=
  (getLine lineMax keystrokes 0 password).2.map fun l => (l.length, l.line)

/-- `get_password_charater`. -/
def getPasswordCharater (keystrokes : List Keystroke) : Option UInt16 :=
  (getLine 1 keystrokes 0 fun _ => 0).2.map fun l => if l.efiStatus.isError then 0 else l.line 0

/-! ## The line that is meant -/

/-- A key on the text so far. -/
def edited (lineMax : ℕ) (text : List UInt16) (key : UInt16) : List UInt16 :=
  if key = charBackspace then text.dropLast
  else if isControl key ∨ lineMax ≤ text.length then text
  else text ++ [key]

/-- The buffer holds the text in its first characters; behind it, it is as it was, or cleared. -/
structure Holds (lineMax : ℕ) (line₀ : ℕ → UInt16) (text : List UInt16) (count : ℕ)
    (line : ℕ → UInt16) : Prop where
  count_le : count ≤ lineMax
  text_eq : (List.range count).map line = text
  rest : ∀ i, count ≤ i → line i = line₀ i ∨ line i = 0

section Edits

variable {lineMax count : ℕ} {line₀ line : ℕ → UInt16} {text : List UInt16} {key : UInt16}
  {keystrokes : List Keystroke} {l : LineEnd}

/-- The count is that of the text. -/
theorem Holds.length_text (h : Holds lineMax line₀ text count line) : text.length = count := by
  rw [← h.text_eq, List.length_map, List.length_range]

/-- A write behind the text leaves it alone. -/
theorem map_update (line : ℕ → UInt16) {i : ℕ} (hi : count ≤ i) (c : UInt16) :
    (List.range count).map (Function.update line i c) = (List.range count).map line :=
  List.map_congr_left fun _ hj =>
    Function.update_of_ne (Nat.ne_of_lt (Nat.lt_of_lt_of_le (List.mem_range.mp hj) hi)) _ _

/-- A key that is passed over changes nothing. -/
theorem Holds.passedOver (h : Holds lineMax line₀ text count line)
    (hpassed : passedOver lineMax count key = true) :
    Holds lineMax line₀ (edited lineMax text key) count line := by
  have hsame : edited lineMax text key = text := by
    unfold edited
    by_cases hback : key = charBackspace
    · -- a backspace in front of the first character
      subst hback
      have hzero : count = 0 := by
        have hcontrol : isControl charBackspace = false := by decide
        simpa [LineInput.passedOver, hcontrol] using hpassed
      rw [if_pos rfl, List.eq_nil_of_length_eq_zero (h.length_text.trans hzero)]
      rfl
    · rw [if_neg hback, if_pos]
      rw [h.length_text]
      simpa [LineInput.passedOver, hback, or_comm] using hpassed
  rwa [hsame]

/-- A backspace takes the last character. -/
theorem Holds.erase (h : Holds lineMax line₀ text count line)
    (hpassed : LineInput.passedOver lineMax count charBackspace = false) :
    count - 1 < lineMax ∧ Holds lineMax line₀ (edited lineMax text charBackspace) (count - 1)
      (Function.update line (count - 1) 0) := by
  have hpos : count ≠ 0 := by
    rintro rfl
    simp [LineInput.passedOver] at hpassed
  obtain ⟨n, rfl⟩ := Nat.exists_eq_succ_of_ne_zero hpos
  rw [Nat.succ_sub_one]
  have hlt : n < lineMax := h.count_le
  refine ⟨hlt, Nat.le_of_lt hlt, ?_, fun i hi => ?_⟩
  · rw [edited, if_pos rfl, map_update line (Nat.le_refl n), ← h.text_eq, List.range_succ,
      List.map_append, List.map_singleton, List.dropLast_concat]
  · rcases Nat.eq_or_lt_of_le hi with rfl | hi
    · exact .inr (Function.update_self _ _ _)
    · rw [Function.update_of_ne (Nat.ne_of_gt hi)]
      exact h.rest i hi

/-- Any other key is put behind the text. -/
theorem Holds.put (h : Holds lineMax line₀ text count line) (hback : key ≠ charBackspace)
    (hpassed : LineInput.passedOver lineMax count key = false) :
    count < lineMax ∧ Holds lineMax line₀ (edited lineMax text key) (count + 1)
      (Function.update line count key) := by
  have hpart : ¬ (isControl key = true ∨ lineMax ≤ text.length) := by
    rw [h.length_text]
    simp [LineInput.passedOver, hback] at hpassed
    simp [hpassed]
  have hlt : count < lineMax := by
    rw [h.length_text] at hpart
    exact Nat.lt_of_not_le fun hle => hpart (.inr hle)
  refine ⟨hlt, hlt, ?_, fun i hi => ?_⟩
  · rw [edited, if_neg hback, if_neg hpart, List.range_succ, List.map_append, List.map_singleton,
      map_update line (Nat.le_refl count), Function.update_self, h.text_eq]
  · rw [Function.update_of_ne (Nat.ne_of_gt hi)]
    exact h.rest i (Nat.le_of_succ_le hi)

/-- How `get_line` may end: with an error and no line, or at a carriage return with the line that
the keys before it make. -/
def Ends (lineMax : ℕ) (line₀ : ℕ → UInt16) (text : List UInt16) (keystrokes : List Keystroke)
    (l : LineEnd) : Prop :=
  l.efiStatus.isError = true ∧ l.length = 0 ∨
    ∃ (keys : List UInt16) (later : List Keystroke),
      keystrokes = keys.map Except.ok ++ .ok charCarriageReturn :: later ∧
      charCarriageReturn ∉ keys ∧ l.efiStatus = .success ∧
      Holds lineMax line₀ (keys.foldl (edited lineMax) text) l.length l.line

/-- A key in front of the line's end. -/
theorem Ends.cons (hkey : key ≠ charCarriageReturn)
    (h : Ends lineMax line₀ (edited lineMax text key) keystrokes l) :
    Ends lineMax line₀ text (.ok key :: keystrokes) l := by
  rcases h with h | ⟨keys, later, rfl, hkeys, hstatus, hholds⟩
  · exact .inl h
  · exact .inr ⟨key :: keys, later, rfl, fun h => (List.mem_cons.mp h).elim (fun h => hkey h.symm)
      hkeys, hstatus, hholds⟩

/-- From a buffer that holds a text on, only the buffer is written, and the line that comes back is
what the keys make of the text. -/
theorem getLine_holds (h : Holds lineMax line₀ text count line) :
    (∀ i ∈ (getLine lineMax keystrokes count line).1, i < lineMax) ∧
      ∀ l, (getLine lineMax keystrokes count line).2 = some l →
        Ends lineMax line₀ text keystrokes l := by
  -- over the keys, from any text that the buffer holds
  induction keystrokes generalizing text count line with
  | nil => exact ⟨fun _ hi => absurd hi List.not_mem_nil, fun _ hl => by cases hl⟩
  | cons keystroke keystrokes ih =>
    cases keystroke with
    | error e =>
      refine ⟨fun _ hi => absurd hi List.not_mem_nil, fun l hl => ?_⟩
      obtain rfl := Option.some.inj hl
      exact .inl ⟨e.2, rfl⟩
    | ok key =>
      by_cases hreturn : key = charCarriageReturn
      · subst hreturn
        rw [getLine, if_pos rfl]
        refine ⟨fun _ hi => absurd hi List.not_mem_nil, fun l hl => ?_⟩
        obtain rfl := Option.some.inj hl
        exact .inr ⟨[], keystrokes, rfl, List.not_mem_nil, rfl, h⟩
      rw [getLine, if_neg hreturn]
      cases hpassed : LineInput.passedOver lineMax count key with
      | true =>
        rw [if_pos rfl]
        obtain ⟨hwrites, hends⟩ := ih (h.passedOver hpassed)
        exact ⟨hwrites, fun l hl => (hends l hl).cons hreturn⟩
      | false =>
        rw [if_neg Bool.false_ne_true]
        by_cases hback : key = charBackspace
        · subst hback
          obtain ⟨hlt, hnext⟩ := h.erase hpassed
          obtain ⟨hwrites, hends⟩ := ih hnext
          rw [if_pos rfl]
          exact ⟨List.forall_mem_cons.mpr ⟨hlt, hwrites⟩, fun l hl => (hends l hl).cons hreturn⟩
        · obtain ⟨hlt, hnext⟩ := h.put hback hpassed
          obtain ⟨hwrites, hends⟩ := ih hnext
          rw [if_neg hback]
          exact ⟨List.forall_mem_cons.mpr ⟨hlt, hwrites⟩, fun l hl => (hends l hl).cons hreturn⟩

/-- Before the first key there is no text. -/
theorem holds_start (lineMax : ℕ) (line : ℕ → UInt16) : Holds lineMax line [] 0 line :=
  ⟨Nat.zero_le _, rfl, fun _ _ => .inl rfl⟩

/-- Whatever keys are pressed, nothing is written behind the first `line_max` characters, and the
line that comes back is what its keys make: the characters that are typed while there is room, each
backspace taking the last one away. No character that was taken away stays in the buffer. -/
theorem getLine_edits (lineMax : ℕ) (keystrokes : List Keystroke) (line : ℕ → UInt16) :
    (∀ i ∈ (getLine lineMax keystrokes 0 line).1, i < lineMax) ∧
      ∀ l, (getLine lineMax keystrokes 0 line).2 = some l → Ends lineMax line [] keystrokes l :=
  getLine_holds (holds_start lineMax line)

/-- A password that comes back is no longer than the buffer, and is what was typed last. -/
theorem getPassword_edits {password password' : ℕ → UInt16} {n : ℕ}
    (h : getPassword keystrokes password lineMax = some (n, password')) :
    n = 0 ∨ ∃ (keys : List UInt16) (later : List Keystroke),
      keystrokes = keys.map Except.ok ++ .ok charCarriageReturn :: later ∧
        (List.range n).map password' = keys.foldl (edited lineMax) [] ∧ n ≤ lineMax := by
  obtain ⟨l, hl, heq⟩ := Option.map_eq_some_iff.mp h
  obtain ⟨rfl, rfl⟩ := Prod.mk.inj heq
  rcases (getLine_holds (holds_start lineMax password)).2 l hl with
    ⟨-, hzero⟩ | ⟨keys, later, hkeys, -, -, hholds⟩
  · exact .inl hzero
  · exact .inr ⟨keys, later, hkeys, hholds.text_eq, hholds.count_le⟩

/-- A character that comes back is the one that is left of what was typed, or nought. -/
theorem getPasswordCharater_edits {c : UInt16} (h : getPasswordCharater keystrokes = some c) :
    c = 0 ∨ ∃ (keys : List UInt16) (later : List Keystroke),
      keystrokes = keys.map Except.ok ++ .ok charCarriageReturn :: later ∧
        keys.foldl (edited 1) [] = [c] := by
  obtain ⟨l, hl, rfl⟩ := Option.map_eq_some_iff.mp h
  rcases (getLine_holds (holds_start 1 fun _ => 0)).2 l hl with
    ⟨herror, -⟩ | ⟨keys, later, hkeys, -, hstatus, hholds⟩
  · rw [if_pos herror]
    exact .inl rfl
  · have hsuccess : ¬ l.efiStatus.isError = true := by
      rw [hstatus]
      decide
    rw [if_neg hsuccess]
    rcases Nat.eq_zero_or_pos l.length with hzero | hpos
    · exact .inl ((hholds.rest 0 (Nat.le_of_eq hzero)).elim id id)
    · have hone : l.length = 1 := Nat.le_antisymm hholds.count_le hpos
      refine .inr ⟨keys, later, hkeys, ?_⟩
      rw [← hholds.text_eq, hone]
      rfl

example : getPasswordCharater [.ok 0x61, .ok 8, .ok 0x62, .ok 0x63, .ok 13] = some 0x62 := by
  decide

end Edits

end Shim.LineInput
