import Mathlib.Algebra.Group.Int.Defs
import Mathlib.Data.List.Basic
import Mathlib.Tactic.Common
import Shim.Common.Bytes

/-! # The selection of a menu entry

`console_select` shows a window of the selectors, `lines` of them from an offset on, with one row
highlighted; the keys move the highlighted row, and the window where the row is at its edge.
-/

namespace Shim

/-- What `console_select` is called with, and what the console says. `count_lines` counts with an
`int`. -/
structure Menu where
  titleLines : ℕ
  selectorLines : ℕ
  start : ℕ
  rows : ℕ
  titleLines_lt : titleLines < 2 ^ 31
  selectorLines_pos : 0 < selectorLines
  selectorLines_lt : selectorLines < 2 ^ 31
  rows_lt : rows < 2 ^ 64

/-- `EFI_INPUT_KEY`. -/
structure InputKey where
  scanCode : UInt16
  unicodeChar : UInt16
  deriving DecidableEq

def scanNull : UInt16 := 0x00
def scanUp : UInt16 := 0x01
def scanDown : UInt16 := 0x02
def scanEsc : UInt16 := 0x17
def carriageReturn : UInt16 := 0x0d

/-- A number as an `int`; sums of `int`s wrap. -/
def wrapInt (n : ℤ) : ℤ := n.bmod (2 ^ 32)

namespace Menu

variable (m : Menu)

/-- `start`, brought into the array. -/
def clampedStart : ℕ := if m.start ≥ m.selectorLines then m.selectorLines - 1 else m.start

/-- The test for a list that is too long for the screen, in unsigned arithmetic. -/
def IsLong : Prop := m.selectorLines > Bytes.sub64 m.rows 10

instance : Decidable m.IsLong := inferInstanceAs (Decidable (_ > _))

/-- `size_rows`. -/
def sizeRows : ℤ :=
  if m.IsLong then wrapInt (m.rows - 3 - m.titleLines) else wrapInt (m.selectorLines + 2)

/-- `lines`. -/
def lines : ℤ := if m.IsLong then wrapInt (m.sizeRows - 2) else m.selectorLines

end Menu

/-- The row that is highlighted, and the selector that the window starts at. -/
structure Selection where
  selector : ℤ
  selectorOffset : ℕ
  deriving DecidableEq

/-- The selection at the beginning: `start > (unsigned)lines` puts it below the window. -/
def Menu.initial (m : Menu) : Selection :=
  if (m.clampedStart : ℤ) > m.lines % 2 ^ 32 then
    ⟨m.lines, ((m.clampedStart - m.lines) % 2 ^ 32).toNat⟩
  else ⟨m.clampedStart, 0⟩

/-- What a key does to the selection. -/
def Menu.move (m : Menu) (s : Selection) (k : InputKey) : Selection :=
  if k.scanCode = scanUp then
    if s.selector > 0 then { s with selector := s.selector - 1 }
    else if s.selectorOffset > 0 then { s with selectorOffset := s.selectorOffset - 1 }
    else s
  else if k.scanCode = scanDown then
    if s.selector < m.lines - 1 then { s with selector := s.selector + 1 }
    else if s.selectorOffset < (m.selectorLines - m.lines) % 2 ^ 32 then
      { s with selectorOffset := s.selectorOffset + 1 }
    else s
  else s

/-- The `int` that is returned after the loop. -/
def Selection.result (s : Selection) : ℤ :=
  if s.selector < 0 then s.selector else wrapInt (s.selector + s.selectorOffset)

/-- The loop of `console_select`: the selections that are drawn, and the result if the keystrokes
come to an end of the loop. A keystroke that fails is `none`. -/
def Menu.selectLoop (m : Menu) : Selection → List (Option InputKey) → List Selection × Option ℤ
  | _, [] => ([], none)
  | _, none :: _ => ([], some (-1))
  | s, some k :: ks =>
    if k.scanCode = scanEsc then ([], some (-1))
    else
      let s := m.move s k
      if k.scanCode = scanNull ∧ k.unicodeChar = carriageReturn then ([s], some s.result)
      else
        let rest := m.selectLoop s ks
        (s :: rest.1, rest.2)

/-- `console_select`. The first time the window is drawn from the first selector on. -/
def Menu.consoleSelect (m : Menu) (ks : List (Option InputKey)) : List Selection × Option ℤ :=
  let rest := m.selectLoop m.initial ks
  ({ m.initial with selectorOffset := 0 } :: rest.1, rest.2)

/-! ## Choices inside of the array -/

/-- The window and the highlighted row lie in the array. -/
structure Menu.Shows (m : Menu) (s : Selection) : Prop where
  window : s.selectorOffset + m.lines ≤ m.selectorLines
  row_nonneg : 0 ≤ s.selector
  row_lt : s.selectorOffset + s.selector < m.selectorLines

/-- Everything drawn and returned is in the array, or the choice is given up. -/
structure Menu.ChoosesIn (m : Menu) (r : List Selection × Option ℤ) : Prop where
  drawn : ∀ s ∈ r.1, m.Shows s
  returned : ∀ n ∈ r.2, n = -1 ∨ 0 ≤ n ∧ n < m.selectorLines

/-- The list is not too long for the screen, or it is at least as long as the window that is left
between the title and the last lines, and starts in this window. -/
def Menu.FitsWindow (m : Menu) : Prop :=
  m.selectorLines ≤ Bytes.sub64 m.rows 10 ∨
    (m.rows : ℤ) - 5 - m.titleLines ≤ m.selectorLines ∧
      (min m.start (m.selectorLines - 1) : ℤ) < m.rows - 5 - m.titleLines

/-- The row is in the window, and the window in the array. -/
structure Menu.Kept (m : Menu) (s : Selection) : Prop where
  row_nonneg : 0 ≤ s.selector
  row_lt : s.selector < m.lines
  window : s.selectorOffset + m.lines ≤ m.selectorLines

section Select

variable {m : Menu} {s : Selection}

/-- A state that is kept shows its choice. -/
theorem Menu.Kept.shows (h : m.Kept s) : m.Shows s :=
  ⟨h.window, h.row_nonneg, by have := h.row_lt; have := h.window; omega⟩

/-- The choice at the start is one of the lines. -/
theorem Menu.clampedStart_lt (m : Menu) : m.clampedStart < m.selectorLines := by
  have hpos := m.selectorLines_pos
  unfold clampedStart
  split_ifs <;> omega

/-- A start behind the last line is the last line. -/
theorem Menu.clampedStart_eq (m : Menu) : m.clampedStart = min m.start (m.selectorLines - 1) := by
  have hpos := m.selectorLines_pos
  unfold clampedStart
  split_ifs <;> omega

/-- An `int` has 32 bits. -/
theorem wrapInt_bounds (n : ℤ) : -2 ^ 31 ≤ wrapInt n ∧ wrapInt n < 2 ^ 31 := by
  rw [wrapInt, Int.bmod_def]
  split_ifs <;> omega

/-- A number of 32 bits is not wrapped. -/
theorem wrapInt_of_lt {n : ℤ} (h : -2 ^ 31 ≤ n) (h' : n < 2 ^ 31) : wrapInt n = n := by
  rw [wrapInt, Int.bmod_def]
  split_ifs <;> omega

/-- A long menu takes what the screen leaves. -/
theorem Menu.lines_of_isLong (h : m.IsLong) : m.lines = wrapInt (m.rows - 5 - m.titleLines) := by
  rw [lines, if_pos h, sizeRows, if_pos h, wrapInt, wrapInt, wrapInt]
  simp only [Int.bmod_def]
  split_ifs <;> omega

/-- Any other menu shows all its lines. -/
theorem Menu.lines_of_not_isLong (h : ¬ m.IsLong) : m.lines = m.selectorLines := by
  rw [lines, if_neg h]

/-- The count of the lines shown is an `int`. -/
theorem Menu.lines_bounds (m : Menu) : -2 ^ 31 ≤ m.lines ∧ m.lines < 2 ^ 31 := by
  unfold lines
  split_ifs
  · exact wrapInt_bounds _
  · have := m.selectorLines_lt
    omega

/-- The difference of the lengths does not wrap where the window is not longer than the list. -/
theorem Menu.hidden_eq (h : m.lines ≤ m.selectorLines) :
    (m.selectorLines - m.lines) % 2 ^ 32 = m.selectorLines - m.lines := by
  have hbounds := m.lines_bounds
  have hlt := m.selectorLines_lt
  omega

/-- The condition, over the window that `console_select` comes by. -/
theorem Menu.fitsWindow_iff :
    m.FitsWindow ↔ m.lines ≤ m.selectorLines ∧ m.clampedStart < m.lines := by
  have hstart := m.clampedStart_lt
  have hcount := m.selectorLines_lt
  have htitle := m.titleLines_lt
  unfold FitsWindow
  rw [m.clampedStart_eq] at *
  by_cases hlong : m.IsLong
  · have hrows : m.selectorLines > Bytes.sub64 m.rows 10 := hlong
    have hle : 10 ≤ m.rows := by
      have hlt := m.rows_lt
      unfold Bytes.sub64 at hrows
      omega
    have hbounds := wrapInt_bounds (m.rows - 5 - m.titleLines)
    rw [Menu.lines_of_isLong hlong]
    rw [wrapInt, Int.bmod_def] at *
    rw [Bytes.sub64_of_le hle m.rows_lt] at *
    split_ifs at * <;> omega
  · rw [Menu.lines_of_not_isLong hlong]
    have hrows : ¬ m.selectorLines > Bytes.sub64 m.rows 10 := hlong
    constructor
    · intro _
      omega
    · intro _
      exact .inl (by omega)

/-! ## Keys that stay inside -/

/-- The first state is kept, if the window fits. -/
theorem Menu.kept_initial (h : m.FitsWindow) : m.Kept m.initial := by
  obtain ⟨hlines, hstart⟩ := Menu.fitsWindow_iff.mp h
  have hbounds := m.lines_bounds
  have hshort : ¬ (m.clampedStart : ℤ) > m.lines % 2 ^ 32 := by omega
  rw [initial, if_neg hshort]
  exact ⟨Int.natCast_nonneg _, hstart, by simpa using hlines⟩

/-- A key moves the row in the window, or the window in the array. -/
theorem Menu.Kept.move (h : m.Kept s) (k : InputKey) : m.Kept (m.move s k) := by
  obtain ⟨hnonneg, hlt, hwindow⟩ := h
  have hhidden := Menu.hidden_eq (m := m) (by omega)
  unfold Menu.move
  split_ifs
  · exact ⟨by dsimp only; omega, by dsimp only; omega, hwindow⟩
  · exact ⟨hnonneg, hlt, by dsimp only; omega⟩
  · exact ⟨hnonneg, hlt, hwindow⟩
  · exact ⟨by dsimp only; omega, by dsimp only; omega, hwindow⟩
  · exact ⟨hnonneg, hlt, by dsimp only; omega⟩
  · exact ⟨hnonneg, hlt, hwindow⟩
  · exact ⟨hnonneg, hlt, hwindow⟩

/-- What is returned is the selector under the highlighted row. -/
theorem Menu.Kept.result (h : m.Kept s) : 0 ≤ s.result ∧ s.result < m.selectorLines := by
  have hnonneg := h.row_nonneg
  have hrow := h.shows.row_lt
  have hcount := m.selectorLines_lt
  rw [Selection.result, if_neg (by omega), wrapInt_of_lt (by omega) (by omega)]
  omega

/-- No sequence of keystrokes leads out of the array. -/
theorem Menu.Kept.selectLoop (h : m.Kept s) (ks : List (Option InputKey)) :
    m.ChoosesIn (m.selectLoop s ks) := by
  induction ks generalizing s with
  | nil => exact ⟨fun _ hs => absurd hs List.not_mem_nil, fun _ hn => nomatch hn⟩
  | cons k ks ih =>
    have hgivenUp : m.ChoosesIn ([], some (-1)) :=
      ⟨fun _ hs => absurd hs List.not_mem_nil, fun n hn => .inl (Option.some.inj hn).symm⟩
    cases k with
    | none => exact hgivenUp
    | some k =>
      have hmove := h.move k
      rw [Menu.selectLoop]
      split_ifs
      · exact hgivenUp
      · refine ⟨fun s hs => ?_, fun n hn => .inr ?_⟩
        · rw [List.mem_singleton.mp hs]
          exact hmove.shows
        · rw [← Option.some.inj hn]
          exact hmove.result
      · exact ⟨List.forall_mem_cons.mpr ⟨hmove.shows, (ih hmove).drawn⟩, (ih hmove).returned⟩

/-- What is drawn first is in the array too. -/
theorem Menu.Kept.shows_first (h : m.Kept s) : m.Shows { s with selectorOffset := 0 } := by
  have hrow := h.row_lt
  have hwindow := h.window
  exact ⟨by dsimp only; omega, h.row_nonneg, by dsimp only; omega⟩

/-- The menu is right for some keys exactly if it is in its first state and in the loop. -/
theorem Menu.choosesIn_consoleSelect_iff {ks : List (Option InputKey)} :
    m.ChoosesIn (m.consoleSelect ks) ↔
      m.Shows { m.initial with selectorOffset := 0 } ∧
        m.ChoosesIn (m.selectLoop m.initial ks) := by
  rw [consoleSelect]
  constructor
  · intro h
    have hdrawn := List.forall_mem_cons.mp h.drawn
    exact ⟨hdrawn.1, hdrawn.2, h.returned⟩
  · rintro ⟨hfirst, hloop⟩
    exact ⟨List.forall_mem_cons.mpr ⟨hfirst, hloop.drawn⟩, hloop.returned⟩

/-- A menu that fits is right for all keys. -/
theorem Menu.choosesIn_consoleSelect (h : m.FitsWindow) (ks : List (Option InputKey)) :
    m.ChoosesIn (m.consoleSelect ks) := by
  have hkept := Menu.kept_initial h
  exact Menu.choosesIn_consoleSelect_iff.mpr ⟨hkept.shows_first, hkept.selectLoop ks⟩

/-! ## The way out of the array -/

/-- The key that moves down. -/
def downKey : InputKey := ⟨scanDown, 0⟩

/-- At the last row of the window, or below it, the down key moves the window. -/
theorem Menu.move_down (hrow : m.lines ≤ s.selector + 1)
    (hoffset : s.selectorOffset < (m.selectorLines - m.lines) % 2 ^ 32) :
    m.move s downKey = { s with selectorOffset := s.selectorOffset + 1 } := by
  rw [move, if_neg (by decide), if_pos (by rfl), if_neg (by omega), if_pos hoffset]

/-- A key down is one move. -/
theorem Menu.selectLoop_down (ks : List (Option InputKey)) :
    m.selectLoop s (some downKey :: ks) =
      (m.move s downKey :: (m.selectLoop (m.move s downKey) ks).1,
        (m.selectLoop (m.move s downKey) ks).2) := by
  rw [selectLoop, if_neg (by decide)]
  exact if_neg (by decide)

/-- The window can be moved down until it is at the end of the array. -/
theorem Menu.mem_selectLoop_down (hrow : m.lines ≤ s.selector + 1) {k : ℕ} (hk : 0 < k)
    (hend : s.selectorOffset + k ≤ (m.selectorLines - m.lines) % 2 ^ 32) :
    { s with selectorOffset := s.selectorOffset + k } ∈
      (m.selectLoop s (List.replicate k (some downKey))).1 := by
  induction k, hk using Nat.le_induction generalizing s with
  | base =>
    rw [List.replicate_one, m.selectLoop_down, m.move_down hrow (by omega)]
    exact List.mem_cons_self
  | succ k _ ih =>
    rw [List.replicate_succ, m.selectLoop_down, m.move_down hrow (by omega)]
    refine List.mem_cons_of_mem _ ?_
    have hrest := ih (s := { s with selectorOffset := s.selectorOffset + 1 }) hrow
      (by dsimp only; omega)
    simpa only [Nat.add_assoc, Nat.add_comm 1 k] using hrest

/-- As many keys as there are selectors behind the row bring it behind the last one, if it is below
the window. -/
theorem Menu.not_choosesIn_selectLoop (hlines : m.lines ≤ m.selectorLines)
    (hrow : m.lines ≤ s.selector) {k : ℕ} (hk : 0 < k)
    (hsum : s.selectorOffset + s.selector + k = m.selectorLines) :
    ¬ m.ChoosesIn (m.selectLoop s (List.replicate k (some downKey))) := by
  intro h
  have hhidden := Menu.hidden_eq hlines
  have hbehind := (h.drawn _ (Menu.mem_selectLoop_down (by omega) hk (by omega))).row_lt
  dsimp only at hbehind
  omega

/-- At the beginning the row and the offset make up the start. -/
theorem Menu.initial_spec (hstart : m.lines ≤ m.clampedStart) :
    m.lines ≤ m.initial.selector ∧
      m.initial.selectorOffset + m.initial.selector = m.clampedStart := by
  have hbounds := m.lines_bounds
  have hlt := m.clampedStart_lt
  have hcount := m.selectorLines_lt
  unfold initial
  split_ifs <;> dsimp only <;> omega

/-- **The choice of `console_select`.** It is in the array for every sequence of keystrokes
exactly if the window fits the list and holds the start. -/
theorem Menu.forall_choosesIn_iff (m : Menu) :
    (∀ ks, m.ChoosesIn (m.consoleSelect ks)) ↔ m.FitsWindow := by
  refine ⟨fun h => ?_, Menu.choosesIn_consoleSelect⟩
  have hlines : m.lines ≤ m.selectorLines := by
    have hfirst := (Menu.choosesIn_consoleSelect_iff.mp (h [])).1.window
    simpa using hfirst
  refine Menu.fitsWindow_iff.mpr ⟨hlines, ?_⟩
  by_contra hstart
  obtain ⟨hrow, hsum⟩ := Menu.initial_spec (Int.not_lt.mp hstart)
  obtain ⟨k, hk⟩ := Nat.exists_eq_add_of_lt m.clampedStart_lt
  refine Menu.not_choosesIn_selectLoop hlines hrow (Nat.succ_pos k) ?_
    (Menu.choosesIn_consoleSelect_iff.mp (h _)).2
  rw [hsum, hk, Nat.add_assoc, Int.natCast_add]

end Select

/-- Thirty selectors on twenty-five rows below three lines of title, started at the last one. -/
def longMenu : Menu := ⟨3, 30, 29, 25, by decide, by decide, by decide, by decide⟩

/-- Seven selectors on sixteen rows without a title. -/
def shortMenu : Menu := ⟨0, 7, 0, 16, by decide, by decide, by decide, by decide⟩

/-- One key down leads behind the last selector of the long menu, and the window of the short one
goes behind its last selector at once. -/
theorem not_forall_choosesIn :
    (0 < longMenu.lines ∧ ¬ ∀ ks, longMenu.ChoosesIn (longMenu.consoleSelect ks)) ∧
      0 < shortMenu.lines ∧ ¬ ∀ ks, shortMenu.ChoosesIn (shortMenu.consoleSelect ks) := by
  refine ⟨⟨by decide, fun h => ?_⟩, by decide, fun h => ?_⟩
  · have hreturned := (h [some downKey, some ⟨scanNull, carriageReturn⟩]).returned 30 (by decide)
    revert hreturned
    decide
  · have hwindow := ((h []).drawn ⟨0, 0⟩ (by decide)).window
    revert hwindow
    decide

end Shim
