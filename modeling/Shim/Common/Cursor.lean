import Mathlib.Algebra.GroupWithZero.Nat
import Mathlib.Data.Nat.Notation
import Mathlib.Tactic.Common

/-! # Writing behind a cursor

A buffer is filled from front to back: each piece is written where the cursor stands, which is then
moved behind it. `Wrote c c' l` says that on the way from `c` to `c'` exactly `l` was written,
without a gap and nowhere else.
-/

/-- A buffer, the place where the next item goes, and what was written so far: where, and how
much. -/
structure Cursor (α : Type*) where
  buffer : List α
  p : ℕ
  writes : List (ℕ × ℕ)

namespace Cursor

variable {α : Type*} {c c' c'' : Cursor α} {l l' : List α}

/-- Write `l`, and move on. -/
def put (c : Cursor α) (l : List α) : Cursor α where
  buffer := c.buffer.take c.p ++ l ++ c.buffer.drop (c.p + l.length)
  p := c.p + l.length
  writes := c.writes ++ [(c.p, l.length)]

/-- The number of items written. -/
def written (c : Cursor α) : ℕ := (c.writes.map Prod.snd).sum

/-- From `c` to `c'` the items `l` were written. -/
structure Wrote (c c' : Cursor α) (l : List α) : Prop where
  p : c'.p = c.p + l.length
  buffer : c.p + l.length ≤ c.buffer.length →
    c'.buffer = c.buffer.take c.p ++ l ++ c.buffer.drop (c.p + l.length)
  written : c'.written = c.written + l.length
  writes : ∀ w ∈ c'.writes, w ∈ c.writes ∨ c.p ≤ w.1 ∧ w.1 + w.2 ≤ c'.p

/-- Nothing is written at first. -/
theorem wrote_refl (c : Cursor α) : Wrote c c [] where
  p := rfl
  buffer := fun _ => by simp
  written := rfl
  writes := fun _ hw => .inl hw

/-- A piece that is put there is written. -/
theorem wrote_put (c : Cursor α) (l : List α) : Wrote c (c.put l) l where
  p := rfl
  buffer := fun _ => rfl
  written := by simp [Cursor.written, put]
  writes := by
    intro w hw
    rcases List.mem_append.mp hw with hw | hw
    · exact .inl hw
    · obtain rfl := List.mem_singleton.mp hw
      exact .inr ⟨Nat.le_refl _, Nat.le_refl _⟩

/-- One piece behind the other. -/
theorem Wrote.trans (h : Wrote c c' l) (h' : Wrote c' c'' l') : Wrote c c'' (l ++ l') where
  p := by rw [h'.p, h.p, List.length_append, Nat.add_assoc]
  buffer := by
    rw [List.length_append]
    intro hfit
    have hbuffer := h.buffer (by omega)
    have hlen : (c.buffer.take c.p).length = c.p := List.length_take_of_le (by omega)
    have hfront : (c.buffer.take c.p ++ l).length = c.p + l.length := by
      rw [List.length_append, hlen]
    have hlength : c'.buffer.length = c.buffer.length := by
      rw [hbuffer, List.length_append, hfront, List.length_drop]
      omega
    rw [h'.buffer (by rw [h.p, hlength]; omega), h.p, hbuffer, List.take_left' hfront,
      List.drop_append, hfront, List.drop_eq_nil_of_le (by omega), List.nil_append, List.drop_drop,
      show c.p + l.length + (c.p + l.length + l'.length - (c.p + l.length)) =
        c.p + (l.length + l'.length) by omega, List.append_assoc (c.buffer.take c.p)]
  written := by rw [h'.written, h.written, List.length_append, Nat.add_assoc]
  writes := by
    intro w hw
    have hp := h'.p
    have hp' := h.p
    rcases h'.writes w hw with hw | ⟨hle, hlt⟩
    · exact (h.writes w hw).imp_right fun hw => ⟨hw.1, by omega⟩
    · exact .inr ⟨by omega, hlt⟩

/-- Writing does not change how long the buffer is. -/
theorem Wrote.length_buffer (h : Wrote c c' l) (hfit : c.p + l.length ≤ c.buffer.length) :
    c'.buffer.length = c.buffer.length := by
  rw [h.buffer hfit, List.length_append, List.length_append, List.length_take_of_le (by omega),
    List.length_drop]
  omega

end Cursor
