import Mathlib.Algebra.GroupWithZero.Nat
import Mathlib.Data.List.Basic
import Mathlib.Data.List.TakeWhile
import Mathlib.Tactic.Common

/-! # Lines and fields of a text

A text goes up to its first terminator. Its lines are what stands between delimiters, where there
is something; the fields of a line are what stands between separators, also where there is nothing.
-/

namespace Lines

variable {α : Type*} [DecidableEq α] (nul : α) (delim : α → Bool)

/-- The lines of a text. -/
def lines (l : List α) : List (List α) :=
  ((l.takeWhile (· ≠ nul)).splitOnP delim).filter (· ≠ [])

/-- The first `n` fields of a line. -/
def fields (sep : α) (n : ℕ) (line : List α) : List (List α) := (line.splitOn sep).take n

/-- Neither a terminator nor a delimiter. -/
def Plain (a : α) : Prop := a ≠ nul ∧ delim a = false

variable {nul : α} {delim : α → Bool} {l row ds : List α} {a d : α}

/-! ## Lines -/

/-- At the terminator there are no more lines. -/
@[simp] theorem lines_nul : lines nul delim (nul :: l) = [] := by
  simp [lines]

/-- Delimiters in front of a line are passed over. -/
theorem lines_delim (hd : d ≠ nul) (hdelim : delim d = true) :
    lines nul delim (d :: l) = lines nul delim l := by
  simp [lines, hd, hdelim, List.splitOnP_cons_eq_if_modifyHead]

/-- Leading delimiters make no lines. -/
theorem lines_delims (hds : ∀ d ∈ ds, d ≠ nul ∧ delim d = true) :
    lines nul delim (ds ++ l) = lines nul delim l := by
  induction ds with
  | nil => rfl
  | cons d ds ih =>
    obtain ⟨hd, hrest⟩ := List.forall_mem_cons.mp hds
    rw [List.cons_append, lines_delim hd.1 hd.2, ih hrest]

/-- The text goes on behind a row without a terminator. -/
theorem takeWhile_row (hrow : ∀ a ∈ row, Plain nul delim a) :
    (row ++ l).takeWhile (· ≠ nul) = row ++ l.takeWhile (· ≠ nul) :=
  List.takeWhile_append_of_pos fun a ha => by simpa using (hrow a ha).1

/-- A line up to a delimiter is the first one. -/
theorem lines_row (hrow : ∀ a ∈ row, Plain nul delim a) (hne : row ≠ []) (hd : d ≠ nul)
    (hdelim : delim d = true) : lines nul delim (row ++ d :: l) = row :: lines nul delim l := by
  rw [lines, takeWhile_row hrow, List.takeWhile_cons_of_pos (by simpa using hd),
    List.splitOnP_append_cons_of_forall_mem (fun a ha => (hrow a ha).2) d hdelim,
    List.filter_cons_of_pos (by simpa using hne), lines]

/-- A line up to the end is the last one. -/
theorem lines_last (hrow : ∀ a ∈ row, Plain nul delim a) (hne : row ≠ [])
    (hl : l.takeWhile (· ≠ nul) = []) : lines nul delim (row ++ l) = [row] := by
  rw [lines, takeWhile_row hrow, hl, List.append_nil,
    List.splitOnP_eq_singleton fun a ha => (hrow a ha).2,
    List.filter_cons_of_pos (by simpa using hne), List.filter_nil]

omit [DecidableEq α] in
/-- What stands between delimiters is a part of the whole. -/
theorem sublist_of_mem_splitOnP (h : row ∈ l.splitOnP delim) : row.Sublist l := by
  induction l generalizing row with
  | nil =>
    rw [List.splitOnP_nil, List.mem_singleton] at h
    rw [h]
  | cons a l ih =>
    rw [List.splitOnP_cons_eq_if_modifyHead] at h
    split_ifs at h
    · rcases List.mem_cons.mp h with rfl | h
      · exact List.nil_sublist _
      · exact (ih h).cons a
    · cases hsplit : l.splitOnP delim with
      | nil => exact absurd hsplit (List.splitOnP_ne_nil delim l)
      | cons first rest =>
        rw [hsplit] at h ih
        rcases List.mem_cons.mp h with rfl | h
        · exact (ih List.mem_cons_self).cons_cons a
        · exact (ih (List.mem_cons_of_mem _ h)).cons a

/-- A line is a part of its text, and no terminator is in it. -/
theorem sublist_of_mem_lines (h : row ∈ lines nul delim l) : row.Sublist l ∧ nul ∉ row := by
  have hrow := sublist_of_mem_splitOnP (List.mem_of_mem_filter h)
  refine ⟨hrow.trans (List.takeWhile_sublist _), fun hnul => ?_⟩
  simpa using List.mem_takeWhile_imp (hrow.mem hnul)

/-! ## Fields -/

section Fields

variable {sep : α} {n : ℕ} {field : List α}

theorem fields_zero (sep : α) (line : List α) : fields sep 0 line = [] := rfl

/-- A field up to a separator is the first one. -/
theorem fields_succ (hfield : sep ∉ field) :
    fields sep (n + 1) (field ++ sep :: l) = field :: fields sep n l := by
  rw [fields, List.splitOn, List.splitOnP_append_cons_of_forall_mem _ sep (by simp),
    List.take_succ_cons]
  · rfl
  · intro a ha
    simpa using ne_of_mem_of_not_mem ha hfield

/-- A field up to the end is the last one. -/
theorem fields_last (hfield : sep ∉ field) : fields sep (n + 1) field = [field] := by
  rw [fields, List.splitOn, List.splitOnP_eq_singleton, List.take_succ_cons, List.take_nil]
  intro a ha
  simpa using ne_of_mem_of_not_mem ha hfield

/-- Fields with a byte behind each are no longer than the line with one. -/
theorem sum_fields_le (sep : α) (n : ℕ) (line : List α) :
    ((fields sep n line).map fun f => f.length + 1).sum ≤ line.length + 1 := by
  induction n generalizing line with
  | zero => exact Nat.zero_le _
  | succ n ih =>
    by_cases h : sep ∈ line
    · obtain ⟨field, rest, rfl, hfield⟩ := List.eq_append_cons_of_mem h
      have hrest := ih rest
      rw [fields_succ hfield, List.map_cons, List.sum_cons, List.length_append, List.length_cons]
      omega
    · rw [fields_last h]
      simp

/-- The characters of a field are those of its line. -/
theorem mem_of_mem_fields {line : List α} (h : field ∈ fields sep n line) (ha : a ∈ field) :
    a ∈ line := by
  induction n generalizing line with
  | zero => cases h
  | succ n ih =>
    by_cases hsep : sep ∈ line
    · obtain ⟨first, rest, rfl, hfirst⟩ := List.eq_append_cons_of_mem hsep
      rw [fields_succ hfirst] at h
      rcases List.mem_cons.mp h with rfl | h
      · exact List.mem_append_left _ ha
      · exact List.mem_append_right _ (List.mem_cons_of_mem _ (ih h))
    · rw [fields_last hsep] at h
      obtain rfl := List.mem_singleton.mp h
      exact ha

/-- A line has no more fields than are asked for. -/
theorem length_fields_le (sep : α) (n : ℕ) (line : List α) : (fields sep n line).length ≤ n :=
  List.length_take_le n _

end Fields

end Lines
