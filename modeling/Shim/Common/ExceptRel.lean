import Mathlib.Tactic.Common

/-! # Two runs of a computation that may fail

`Lift R x y` says that two computations fail alike, or both succeed with results related by `R`.
Two runs of one program are compared by lifting a relation through its binds, branches and loops.
-/

namespace ExceptRel

universe u

variable {ε : Type*} {α α' β β' γ : Type u} {R : α → α' → Prop} {S : β → β' → Prop}

/-- Equal errors, or related results. -/
def Lift (R : α → α' → Prop) : Except ε α → Except ε α' → Prop
  | .error e, .error e' => e = e'
  | .ok a, .ok a' => R a a'
  | _, _ => False

/-- Computations that are related go on related. -/
theorem Lift.bind {x : Except ε α} {x' : Except ε α'} {f : α → Except ε β} {f' : α' → Except ε β'}
    (hx : Lift R x x') (hf : ∀ a a', x = .ok a → R a a' → Lift S (f a) (f' a')) :
    Lift S (x >>= f) (x' >>= f') := by
  cases x with
  | error e =>
    cases x' with
    | error e' => exact hx
    | ok a' => exact hx.elim
  | ok a =>
    cases x' with
    | error e' => exact hx.elim
    | ok a' => exact hf a a' rfl hx

/-- The same computation in front. -/
theorem Lift.bind_left {x : Except ε γ} {f : γ → Except ε β} {f' : γ → Except ε β'}
    (hf : ∀ c, x = .ok c → Lift S (f c) (f' c)) : Lift S (x >>= f) (x >>= f') := by
  cases x with
  | error e => rfl
  | ok c => exact hf c rfl

/-- The same condition on both sides. -/
theorem Lift.ite {c : Prop} [Decidable c] {x y : Except ε α} {x' y' : Except ε α'}
    (hx : c → Lift R x x') (hy : ¬ c → Lift R y y') :
    Lift R (if c then x else y) (if c then x' else y') := by
  split
  · exact hx ‹_›
  · exact hy ‹_›

/-- A loop over the same list, whose body keeps the relation. -/
theorem Lift.foldlM {f : α → γ → Except ε α} {f' : α' → γ → Except ε α'} {l : List γ}
    (hf : ∀ c ∈ l, ∀ a a', R a a' → Lift R (f a c) (f' a' c)) {a : α} {a' : α'} (h : R a a') :
    Lift R (l.foldlM f a) (l.foldlM f' a') := by
  induction l generalizing a a' with
  | nil => exact h
  | cons c l ih =>
    rw [List.foldlM_cons, List.foldlM_cons]
    exact (hf c List.mem_cons_self a a' h).bind fun b b' _ hb =>
      ih (fun d hd => hf d (List.mem_cons_of_mem _ hd)) hb

/-- Two continuations that agree where they are reached. -/
theorem bind_congr_ok {x : Except ε γ} {f f' : γ → Except ε β} (h : ∀ c, x = .ok c → f c = f' c) :
    x >>= f = x >>= f' := by
  cases x with
  | error e => rfl
  | ok c => exact h c rfl

/-- A loop that collects results, with bodies that agree on the list. -/
theorem mapM_congr {f f' : γ → Except ε β} {l : List γ} (h : ∀ c ∈ l, f c = f' c) :
    l.mapM f = l.mapM f' := by
  induction l with
  | nil => rfl
  | cons c l ih =>
    rw [List.mapM_cons, List.mapM_cons, h c List.mem_cons_self,
      ih fun d hd => h d (List.mem_cons_of_mem _ hd)]

end ExceptRel
