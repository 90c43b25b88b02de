import Mathlib.Algebra.Group.Int.Defs
import Mathlib.Algebra.GroupWithZero.Nat
import Mathlib.Data.Int.Notation
import Mathlib.Tactic.Common

/-! # Stretches of several buffers

A run over several buffers is judged by the stretches that it reads or writes: each has to lie
inside of its buffer. An index that a computation brings below nought is outside of any buffer. A
`Trail` is a computation with the stretches it comes by.
-/

/-- `count` items of a buffer from `start` on. -/
structure Stretch (β : Type*) where
  buffer : β
  start : ℤ
  count : ℕ
  deriving DecidableEq

namespace Stretch

variable {β : Type*} {sizes : β → ℕ} {a : Stretch β} {l l' : List (Stretch β)}

/-- The stretch lies inside of its buffer. -/
def Inside (sizes : β → ℕ) (a : Stretch β) : Prop :=
  0 ≤ a.start ∧ a.start + a.count ≤ sizes a.buffer

instance : Decidable (a.Inside sizes) := inferInstanceAs (Decidable (_ ∧ _))

/-- All stretches of a run lie inside of their buffers. -/
def AllInside (sizes : β → ℕ) (l : List (Stretch β)) : Prop := ∀ a ∈ l, a.Inside sizes

instance : Decidable (AllInside sizes l) := inferInstanceAs (Decidable (∀ a ∈ l, _))

@[simp] theorem allInside_nil : AllInside sizes [] := fun _ ha => absurd ha List.not_mem_nil

/-- The first stretch is inside and so are those behind it. -/
@[simp] theorem allInside_cons :
    AllInside sizes (a :: l) ↔ a.Inside sizes ∧ AllInside sizes l := List.forall_mem_cons

/-- Stretches are inside if both parts are. -/
@[simp] theorem allInside_append :
    AllInside sizes (l ++ l') ↔ AllInside sizes l ∧ AllInside sizes l' := List.forall_mem_append

/-! ## Computations with their stretches -/

/-- A value and the stretches that are read or written on the way to it. -/
structure Trail (β α : Type*) where
  stretches : List (Stretch β)
  value : α

namespace Trail

variable {α σ : Type*}

instance : Monad (Trail β) where
  pure a := ⟨[], a⟩
  bind x f := ⟨x.stretches ++ (f x.value).stretches, (f x.value).value⟩

/-- Some items of a buffer are read or written. -/
def access (b : β) (start count : ℕ) : Trail β Unit := ⟨[⟨b, start, count⟩], ()⟩

/-- A loop whose counter goes up `n` times. -/
def upTo (f : ℕ → σ → Trail β σ) : (n cnt : ℕ) → σ → Trail β σ
  | 0, _, s => pure s
  | n + 1, cnt, s => f cnt s >>= upTo f n (cnt + 1)

@[simp] theorem value_pure (a : α) : (pure a : Trail β α).value = a := rfl

/-- The value goes through both steps. -/
@[simp] theorem value_bind {α γ : Type _} (x : Trail β α) (f : α → Trail β γ) :
    (x >>= f).value = (f x.value).value := rfl

/-- The value of a branch. -/
@[simp] theorem value_ite {p : Prop} [Decidable p] (x y : Trail β α) :
    (if p then x else y).value = if p then x.value else y.value := apply_ite value p x y

/-- All stretches lie inside of their buffers. -/
def StaysIn (sizes : β → ℕ) (x : Trail β α) : Prop := AllInside sizes x.stretches

@[simp] theorem staysIn_pure (a : α) : (pure a : Trail β α).StaysIn sizes := allInside_nil

/-- Both steps stay in the buffers. -/
@[simp] theorem staysIn_bind {α γ : Type _} (x : Trail β α) (f : α → Trail β γ) :
    (x >>= f).StaysIn sizes ↔ x.StaysIn sizes ∧ (f x.value).StaysIn sizes := allInside_append

/-- An access stays in its buffer if it ends inside. -/
@[simp] theorem staysIn_access (b : β) (start count : ℕ) :
    (access b start count).StaysIn sizes ↔ start + count ≤ sizes b := by
  simp [StaysIn, access, Inside]
  omega

/-- Either branch stays in the buffers. -/
theorem staysIn_ite {p : Prop} [Decidable p] {x y : Trail β α} (hx : x.StaysIn sizes)
    (hy : y.StaysIn sizes) : (if p then x else y).StaysIn sizes := by
  split_ifs
  · exact hx
  · exact hy

/-- A loop stays inside if its turns do. -/
theorem staysIn_upTo {f : ℕ → σ → Trail β σ} (h : ∀ cnt s, (f cnt s).StaysIn sizes) (n cnt : ℕ)
    (s : σ) : (upTo f n cnt s).StaysIn sizes := by
  induction n generalizing cnt s with
  | zero => exact staysIn_pure s
  | succ n ih => exact (staysIn_bind _ _).mpr ⟨h cnt s, ih _ _⟩

end Trail

end Stretch
