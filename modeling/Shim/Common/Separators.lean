import Mathlib.Algebra.GroupWithZero.Nat
import Mathlib.Data.List.DropRight
import Mathlib.Tactic.Common

/-! # Runs of a separator

A list with separators in it: the part up to the last separator, the part behind it, and what is
left if every run of separators is squeezed to a single one. A run starts at a separator with none
before it; what is left of a list is what is left up to the start of the last run.
-/

namespace Separators

variable {α : Type*} [DecidableEq α] {sep a : α} {l l' : List α} {i : ℕ}

/-- Leave out the separators that stand behind one; `a` is what stands before the list. -/
def squeezeAfter (sep : α) : α → List α → List α
  | _, [] => []
  | a, b :: l => if a = sep ∧ b = sep then squeezeAfter sep b l else b :: squeezeAfter sep b l

/-- One separator for every run of them. -/
def squeeze (sep : α) : List α → List α
  | [] => []
  | a :: l => a :: squeezeAfter sep a l

/-- The part up to the last separator. -/
def upToLast (sep : α) (l : List α) : List α := l.rdropWhile (· ≠ sep)

/-- The part behind the last separator. -/
def behindLast (sep : α) (l : List α) : List α := l.rtakeWhile (· ≠ sep)

/-- Where the last run of separators starts. -/
def lastRun (sep : α) (l : List α) : ℕ := ((upToLast sep l).rdropWhile (· = sep)).length

/-- A run of separators starts at `i`. -/
structure RunStart (sep : α) (l : List α) (i : ℕ) : Prop where
  at_start : l[i]? = some sep
  before : i = 0 ∨ l[i - 1]? ≠ some sep

/-! ## Squeezing -/

/-- What a last element adds: nothing if it repeats a separator. -/
theorem squeezeAfter_concat (a b : α) (l : List α) :
    squeezeAfter sep a (l ++ [b]) =
      if l.getLast?.getD a = sep ∧ b = sep then squeezeAfter sep a l
      else squeezeAfter sep a l ++ [b] := by
  induction l generalizing a with
  | nil =>
    change (if a = sep ∧ b = sep then [] else [b]) = _
    rfl
  | cons c l ih =>
    have hlast : (c :: l).getLast?.getD a = l.getLast?.getD c := by
      rw [List.getLast?_cons, Option.getD_some]
    rw [List.cons_append, squeezeAfter, squeezeAfter, ih, hlast]
    split_ifs <;> rfl

/-- An element is left out if it is a separator and the one before it too. -/
theorem squeeze_concat (l : List α) (b : α) : squeeze sep (l ++ [b]) =
    if l.getLast? = some sep ∧ b = sep then squeeze sep l else squeeze sep l ++ [b] := by
  cases l with
  | nil => rfl
  | cons a l =>
    rw [List.cons_append, squeeze, squeeze, squeezeAfter_concat, List.getLast?_cons]
    simp only [Option.some.injEq]
    split_ifs <;> rfl

/-- More separators at the end change nothing. -/
theorem squeeze_append_replicate (l : List α) (n : ℕ) :
    squeeze sep (l ++ [sep] ++ List.replicate n sep) = squeeze sep (l ++ [sep]) := by
  induction n with
  | zero => rw [List.replicate_zero, List.append_nil]
  | succ n ih =>
    have hlast : (l ++ [sep] ++ List.replicate n sep).getLast? = some sep := by
      rw [List.append_assoc, ← List.replicate_one, ← List.replicate_add, List.getLast?_append,
        List.getLast?_replicate, if_neg (by omega)]
      rfl
    rw [List.replicate_succ', ← List.append_assoc, squeeze_concat, if_pos ⟨hlast, rfl⟩, ih]

/-- More is left of a longer list. -/
theorem length_squeeze_le (l l' : List α) :
    (squeeze sep l).length ≤ (squeeze sep (l ++ l')).length := by
  induction l' using List.reverseRecOn with
  | nil => rw [List.append_nil]
  | append_singleton l' b ih =>
    rw [← List.append_assoc, squeeze_concat]
    split_ifs
    · exact ih
    · rw [List.length_append]
      omega

/-- Only nothing is squeezed to nothing. -/
theorem squeeze_eq_nil : squeeze sep l = [] ↔ l = [] := by
  cases l <;> simp [squeeze]

/-- No element gets lost altogether. -/
theorem mem_squeeze : a ∈ squeeze sep l ↔ a ∈ l := by
  induction l using List.reverseRecOn with
  | nil => exact Iff.rfl
  | append_singleton l b ih =>
    rw [squeeze_concat]
    split_ifs with hrun
    · obtain ⟨hlast, rfl⟩ := hrun
      rw [ih, List.mem_append, List.mem_singleton]
      exact ⟨.inl, fun h => h.elim id fun heq => heq ▸ List.mem_of_getLast? hlast⟩
    · rw [List.mem_append, List.mem_append, ih]

/-- Marking the separators that stand behind one, and leaving out what is marked. -/
theorem filter_marked {mark : α} {f g : ℕ → α} (n : ℕ) (hf : ∀ i < n, f i ≠ mark)
    (hg : ∀ i < n, g i = if 0 < i ∧ f i = sep ∧ f (i - 1) = sep then mark else f i) :
    ((List.range n).map g).filter (· ≠ mark) = squeeze sep ((List.range n).map f) := by
  induction n with
  | zero => rfl
  | succ n ih =>
    have hlast : ((List.range n).map f).getLast? = some sep ↔ 0 < n ∧ f (n - 1) = sep := by
      cases n with
      | zero => simp
      | succ n => simp [List.range_succ]
    rw [List.range_succ, List.map_append, List.map_append, List.filter_append,
      ih (fun i hi => hf i (by omega)) (fun i hi => hg i (by omega)), List.map_singleton,
      List.map_singleton, squeeze_concat]
    by_cases hn : (0 < n ∧ f (n - 1) = sep) ∧ f n = sep
    · rw [if_pos ⟨hlast.mpr hn.1, hn.2⟩, hg n (by omega), if_pos ⟨hn.1.1, hn.2, hn.1.2⟩]
      simp
    · have hkept : g n = f n := by
        rw [hg n (by omega), if_neg fun h => hn ⟨⟨h.1, h.2.2⟩, h.2.1⟩]
      rw [if_neg fun h => hn ⟨hlast.mp h.1, h.2⟩, hkept, List.filter_singleton]
      simp [hf n (by omega)]

/-! ## The last run -/

/-- A list that ends in a run of separators. -/
theorem exists_run_concat (l : List α) : ∃ w r, l ++ [sep] = w ++ [sep] ++ List.replicate r sep ∧
    w.getLast? ≠ some sep ∧ w = (l ++ [sep]).rdropWhile (· = sep) := by
  have hsplit : l.rdropWhile (· = sep) ++ l.rtakeWhile (· = sep) = l :=
    List.rdropWhile_append_rtakeWhile
  have hrun : l.rtakeWhile (· = sep) = List.replicate (l.rtakeWhile (· = sep)).length sep :=
    List.eq_replicate_iff.mpr ⟨rfl, fun x hx => by simpa using List.mem_rtakeWhile_imp hx⟩
  refine ⟨l.rdropWhile (· = sep), (l.rtakeWhile (· = sep)).length, ?_, ?_, ?_⟩
  · rw [List.append_assoc, List.singleton_append, ← List.replicate_succ, List.replicate_succ',
      ← hrun, ← List.append_assoc, hsplit]
  · intro hlast
    obtain ⟨hne, heq⟩ := List.mem_getLast?_eq_getLast hlast
    exact List.rdropWhile_last_not (· = sep) l hne (by simpa using heq.symm)
  · rw [List.rdropWhile_concat_pos _ _ _ (by simp)]

/-- A list with a separator, cut at its last run. -/
theorem exists_lastRun (h : sep ∈ l) : ∃ w r t, l = w ++ [sep] ++ List.replicate r sep ++ t ∧
    sep ∉ t ∧ w.getLast? ≠ some sep ∧ upToLast sep l = w ++ [sep] ++ List.replicate r sep ∧
      lastRun sep l = w.length := by
  induction l using List.reverseRecOn with
  | nil => cases h
  | append_singleton l b ih =>
    by_cases hb : b = sep
    · subst hb
      obtain ⟨w, r, hsplit, hlast, hw⟩ := @exists_run_concat α _ b l
      have hup : upToLast b (l ++ [b]) = l ++ [b] :=
        List.rdropWhile_concat_neg _ _ _ (by simp)
      refine ⟨w, r, [], by rw [List.append_nil, hsplit], List.not_mem_nil, hlast, ?_, ?_⟩
      · rw [hup, hsplit]
      · rw [lastRun, hup, hw]
    · have hmem : sep ∈ l := by
        rcases List.mem_append.mp h with hl | hl
        · exact hl
        · exact absurd (List.mem_singleton.mp hl).symm hb
      obtain ⟨w, r, t, hsplit, ht, hlast, hup, hrun⟩ := ih hmem
      have hsame : upToLast sep (l ++ [b]) = upToLast sep l :=
        List.rdropWhile_concat_pos _ _ _ (by simpa using hb)
      refine ⟨w, r, t ++ [b], ?_, ?_, hlast, ?_, ?_⟩
      · rw [← List.append_assoc, ← hsplit]
      · simp only [List.mem_append, List.mem_singleton, not_or]
        exact ⟨ht, fun h => hb h.symm⟩
      · rw [hsame, hup]
      · rw [lastRun, hsame, ← lastRun, hrun]

/-- What is in front of the last separator stays, if there is one behind it. -/
theorem upToLast_append (l l' : List α) :
    upToLast sep (l ++ l') = if sep ∈ l' then l ++ upToLast sep l' else upToLast sep l := by
  induction l' using List.reverseRecOn with
  | nil => rw [List.append_nil, if_neg List.not_mem_nil]
  | append_singleton l' b ih =>
    by_cases hb : b = sep
    · have hmem : sep ∈ l' ++ [b] := List.mem_append_right _ (List.mem_singleton.mpr hb.symm)
      have hkeep : ∀ k : List α, upToLast sep (k ++ [b]) = k ++ [b] := fun k =>
        List.rdropWhile_concat_neg _ _ _ (by simp [hb])
      rw [if_pos hmem, ← List.append_assoc, hkeep, hkeep, List.append_assoc]
    · have hdrop : ∀ k : List α, upToLast sep (k ++ [b]) = upToLast sep k := fun k =>
        List.rdropWhile_concat_pos _ _ _ (by simp [hb])
      have hmem : sep ∈ l' ++ [b] ↔ sep ∈ l' := by
        rw [List.mem_append, List.mem_singleton, or_iff_left (Ne.symm hb)]
      simp only [← List.append_assoc, hdrop, hmem, ih]

/-- The text up to the last separator, one element at a time. -/
theorem upToLast_cons (a : α) (l : List α) : upToLast sep (a :: l) =
    if sep ∈ l then a :: upToLast sep l else if a = sep then [a] else [] := by
  rw [← List.singleton_append, upToLast_append]
  refine ite_congr rfl (fun _ => rfl) fun _ => ?_
  by_cases ha : a = sep
  · rw [if_pos ha]
    exact List.rdropWhile_concat_neg _ [] _ (by simp [ha])
  · rw [if_neg ha]
    exact List.rdropWhile_concat_pos _ [] _ (by simp [ha])

/-- The text up to the last separator comes first in the text. -/
theorem prefix_upToLast (sep : α) (l : List α) : upToLast sep l <+: l :=
  List.rdropWhile_prefix _ l

/-- Without a separator nothing is left. -/
theorem upToLast_eq_nil : upToLast sep l = [] ↔ sep ∉ l := by
  rw [upToLast, List.rdropWhile_eq_nil_iff]
  constructor
  · intro h hmem
    simpa using h sep hmem
  · intro h x hx
    have hne : x ≠ sep := fun heq => h (heq ▸ hx)
    simpa using hne

/-- What is left up to the last separator is left up to the start of its run. -/
theorem squeeze_upToLast (h : sep ∈ l) :
    squeeze sep (upToLast sep l) = squeeze sep (l.take (lastRun sep l + 1)) := by
  obtain ⟨w, r, t, hsplit, -, -, hup, hrun⟩ := exists_lastRun h
  have htake : l.take (lastRun sep l + 1) = w ++ [sep] := by
    rw [hrun, hsplit, List.append_assoc, List.take_left' (by simp)]
  rw [hup, htake, squeeze_append_replicate]

/-- The last run of separators starts where one starts. -/
theorem runStart_lastRun (h : sep ∈ l) : RunStart sep l (lastRun sep l) := by
  obtain ⟨w, r, t, hsplit, -, hlast, -, hrun⟩ := exists_lastRun h
  rw [hrun, hsplit]
  constructor
  · simp
  · rcases Nat.eq_zero_or_pos w.length with hw | hw
    · exact .inl hw
    · right
      rw [List.getLast?_eq_getElem?] at hlast
      simpa [List.getElem?_append, Nat.sub_lt hw] using hlast

/-- No run starts behind the last one. -/
theorem RunStart.le_lastRun (h : RunStart sep l i) : i ≤ lastRun sep l := by
  have hmem : sep ∈ l := List.mem_of_getElem? h.at_start
  obtain ⟨w, r, t, hsplit, ht, -, -, hrun⟩ := exists_lastRun hmem
  by_contra hlt
  have hruns : l = w ++ (List.replicate (r + 1) sep ++ t) := by
    rw [hsplit, List.replicate_succ]
    simp
  have hget : ∀ k, l[w.length + k]? = if k < r + 1 then some sep else t[k - (r + 1)]? := by
    intro k
    rw [hruns, List.getElem?_append_right (Nat.le_add_right _ _), Nat.add_sub_cancel_left,
      List.getElem?_append, List.length_replicate]
    refine ite_congr rfl (fun hk => ?_) fun _ => rfl
    rw [List.getElem?_replicate, if_pos hk]
  obtain ⟨k, rfl⟩ : ∃ k, i = w.length + (k + 1) := ⟨i - w.length - 1, by omega⟩
  have hat := h.at_start
  have hbefore := h.before.resolve_left (by omega)
  rw [show w.length + (k + 1) - 1 = w.length + k by omega, hget] at hbefore
  rw [hget] at hat
  by_cases hk : k < r + 1
  · exact hbefore (if_pos hk)
  · rw [if_neg (by omega)] at hat
    exact ht (List.mem_of_getElem? hat)

/-- What is left up to the start of a run tells the runs apart. -/
theorem RunStart.eq_lastRun (h : RunStart sep l i)
    (heq : squeeze sep (l.take (i + 1)) = squeeze sep (l.take (lastRun sep l + 1))) :
    i = lastRun sep l := by
  have hmem : sep ∈ l := List.mem_of_getElem? h.at_start
  obtain ⟨w, r, t, hsplit, -, hlast, -, hrun⟩ := exists_lastRun hmem
  by_contra hne
  have hlt : i < w.length := by
    have := h.le_lastRun
    omega
  have htake : l.take (lastRun sep l + 1) = w ++ [sep] := by
    rw [hrun, hsplit, List.append_assoc, List.take_left' (by simp)]
  have hpre : l.take (i + 1) ++ w.drop (i + 1) = w := by
    rw [hsplit, List.append_assoc, List.append_assoc, List.take_append_of_le_length (by omega),
      List.take_append_drop]
  rw [htake, squeeze_concat, if_neg fun hc => hlast hc.1] at heq
  have hle := @length_squeeze_le α _ sep (l.take (i + 1)) (w.drop (i + 1))
  rw [hpre, heq, List.length_append, List.length_singleton] at hle
  omega

end Separators
