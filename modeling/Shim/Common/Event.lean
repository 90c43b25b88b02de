import Mathlib.Tactic.Common

/-! # Events of a run over a buffer

What a run over a buffer does that can go wrong: a read outside of the buffer, an unsigned
subtraction that wraps, a division by nought.
-/

/-- Something that C leaves undefined, or wraps, on some operands. -/
inductive Event where
  | read (o n : ℕ)
  | subtract (a b : ℕ)
  | divide (d : ℕ)
  deriving DecidableEq

namespace Event

/-- The `n` bytes from `o` on lie in a buffer of `size` bytes. No bytes lie anywhere. -/
def Inside (size o n : ℕ) : Prop := n = 0 ∨ o + n ≤ size

/-- The event is harmless in a run over a buffer of `size` bytes. -/
def Sound (size : ℕ) : Event → Prop
  | .read o n => Inside size o n
  | .subtract a b => b ≤ a
  | .divide d => d ≠ 0

/-- All events of a run are harmless. -/
def AllSound (size : ℕ) (events : List Event) : Prop := ∀ e ∈ events, e.Sound size

instance (size o n : ℕ) : Decidable (Inside size o n) := inferInstanceAs (Decidable (_ ∨ _))

instance (size : ℕ) : DecidablePred (Sound size)
  | .read _ _ => inferInstanceAs (Decidable (Inside _ _ _))
  | .subtract _ _ => inferInstanceAs (Decidable (_ ≤ _))
  | .divide _ => inferInstanceAs (Decidable (_ ≠ _))

variable {size o n a b d : ℕ} {events events' : List Event} {e : Event}

@[simp] theorem allSound_nil : AllSound size [] := fun _ he => absurd he List.not_mem_nil

/-- The first event is sound and so are those behind it. -/
@[simp] theorem allSound_cons :
    AllSound size (e :: events) ↔ e.Sound size ∧ AllSound size events := List.forall_mem_cons

/-- Events are sound if both parts are. -/
@[simp] theorem allSound_append :
    AllSound size (events ++ events') ↔ AllSound size events ∧ AllSound size events' :=
  List.forall_mem_append

/-- A read is sound if it stays inside. -/
@[simp] theorem sound_read : (read o n).Sound size ↔ Inside size o n := Iff.rfl

/-- A subtraction is sound if it does not wrap. -/
@[simp] theorem sound_subtract : (subtract a b).Sound size ↔ b ≤ a := Iff.rfl

/-- A division is sound if it is not by nought. -/
@[simp] theorem sound_divide : (divide d).Sound size ↔ d ≠ 0 := Iff.rfl

/-- A stretch of at least one byte is inside if it ends inside. -/
theorem inside_iff_of_pos (hn : 0 < n) : Inside size o n ↔ o + n ≤ size :=
  or_iff_right (Nat.pos_iff_ne_zero.mp hn)

end Event
