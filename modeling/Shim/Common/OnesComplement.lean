import Mathlib.Algebra.GroupWithZero.Nat
import Mathlib.Data.Nat.Notation
import Mathlib.Tactic.Common

/-! # Ones' complement sums of 16-bit words

The words of a byte string are little endian, and an odd last byte is a word by itself. A sum that
adds every carry back in as soon as it occurs is the ones' complement value of the whole sum.
-/

namespace OnesComplement

variable {s w b : ℕ}

/-- The 16-bit ones' complement value of a number: the one in `1 … 65535` that is equal to it
modulo `65535`, and nought for nought. -/
def fold16 (s : ℕ) : ℕ := if s = 0 then 0 else (s - 1) % 65535 + 1

/-- Add the carry out of the low 16 bits back in. -/
def carry (s : ℕ) : ℕ := (s + s / 65536) % 65536

/-- The sum of the words of a byte string. -/
def wordSum : List UInt8 → ℕ
  | [] => 0
  | [b] => b.toNat
  | b :: c :: l => b.toNat + 256 * c.toNat + wordSum l

@[simp] theorem fold16_zero : fold16 0 = 0 := rfl

/-- A folded sum that is not nought is a residue between 1 and 65535. -/
theorem fold16_of_pos (hs : 0 < s) : fold16 s = (s - 1) % 65535 + 1 :=
  if_neg (Nat.pos_iff_ne_zero.mp hs)

/-- A folded sum has sixteen bits. -/
theorem fold16_lt (s : ℕ) : fold16 s < 65536 := by
  unfold fold16
  split <;> omega

/-- One carry is enough for the sum of two words. -/
theorem carry_eq (h : s < 131071) : carry s = if s < 65536 then s else s - 65535 := by
  unfold carry
  split <;> omega

/-- The sum of a folded sum and a word needs one carry at most. -/
theorem carry_fold16_add (hw : w < 65536) : carry (fold16 s + w) = fold16 (s + w) := by
  have hlt := fold16_lt s
  rw [carry_eq (by omega)]
  rcases Nat.eq_zero_or_pos s with rfl | hs
  · rw [fold16_zero, Nat.zero_add]
    unfold fold16
    split_ifs <;> omega
  · rw [fold16_of_pos hs, fold16_of_pos (by omega : 0 < s + w)]
    split_ifs <;> omega

/-- A byte changes every sum it is added to. -/
theorem fold16_add_eq_iff (hb : b < 65535) : fold16 (s + b) = fold16 s ↔ b = 0 := by
  refine ⟨fun h => ?_, fun h => by rw [h, Nat.add_zero]⟩
  unfold fold16 at h
  split_ifs at h <;> omega

end OnesComplement
