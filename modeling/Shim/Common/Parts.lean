import Mathlib.Data.List.Nodup
import Mathlib.Tactic.Common

/-! # Steps on separate parts of a state

A state has a part for every index, and `same i` says that two states agree on the part `i`. Where
the step for an index reads and changes its own part only, a pass over several indices comes down,
on every part, to the one step for it.
-/

namespace Parts

variable {ι σ : Type*}

/-- The step for an index looks at its own part of the state and changes no other. -/
structure Separate (same : ι → σ → σ → Prop) (step : σ → ι → σ) : Prop where
  equivalence : ∀ i, Equivalence (same i)
  frame : ∀ {i j : ι} (s : σ), i ≠ j → same i (step s j) s
  congr : ∀ {i : ι} {s t : σ}, same i s t → same i (step s i) (step t i)

variable {same : ι → σ → σ → Prop} {step : σ → ι → σ} {i : ι} {is : List ι} {s t : σ}

/-- A pass that leaves an index out leaves its part as it is. -/
theorem Separate.foldl_of_not_mem (h : Separate same step) (hi : i ∉ is) :
    same i (is.foldl step s) s := by
  induction is generalizing s with
  | nil => exact (h.equivalence i).refl s
  | cons j is ih =>
    have hne : i ≠ j := List.ne_of_not_mem_cons hi
    exact (h.equivalence i).trans (ih (List.not_mem_of_not_mem_cons hi)) (h.frame s hne)

/-- A pass does to each part what the one step for it does. -/
theorem Separate.foldl_of_mem (h : Separate same step) (hnodup : is.Nodup) (hi : i ∈ is) :
    same i (is.foldl step s) (step s i) := by
  induction is generalizing s with
  | nil => exact absurd hi List.not_mem_nil
  | cons j is ih =>
    obtain ⟨hj, hnodup⟩ := List.nodup_cons.mp hnodup
    by_cases hij : i = j
    · subst hij
      exact h.foldl_of_not_mem hj
    · have hrest := (List.mem_cons.mp hi).resolve_left hij
      exact (h.equivalence i).trans (ih hnodup hrest) (h.congr (h.frame s hij))

end Parts
