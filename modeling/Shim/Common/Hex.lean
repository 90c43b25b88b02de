import Mathlib.Algebra.GroupWithZero.Nat
import Mathlib.Tactic.Common
import Mathlib.Data.Nat.Notation

/-! # Bytes in hexadecimal

Two ASCII digits a byte, high nybble first. The encoding loses nothing.
-/

namespace Hex

/-- The ASCII digit of a nybble, in lower case. -/
def nybble (n : ℕ) : UInt8 := UInt8.ofNat (if n < 10 then 48 + n else 97 + (n - 10))

/-- The digits of a byte string. -/
def encode : List UInt8 → List UInt8
  | [] => []
  | b :: bytes => nybble (b.toNat / 16) :: nybble (b.toNat % 16) :: encode bytes

@[simp] theorem encode_nil : encode [] = [] := rfl

/-- A digit tells its value. -/
theorem nybble_injective {m n : ℕ} (hm : m < 16) (hn : n < 16)
    (h : nybble m = nybble n) : m = n := by
  have hnat := congrArg UInt8.toNat h
  simp only [nybble, UInt8.toNat_ofNat'] at hnat
  split at hnat <;> split at hnat <;> omega

/-- A byte is known by its two digits. -/
theorem byte_injective {a b : UInt8}
    (hhigh : nybble (a.toNat / 16) = nybble (b.toNat / 16))
    (hlow : nybble (a.toNat % 16) = nybble (b.toNat % 16)) : a = b := by
  have ha := a.toNat_lt
  have hb := b.toNat_lt
  have hdiv := nybble_injective (by omega) (by omega) hhigh
  have hmod := nybble_injective (by omega) (by omega) hlow
  exact UInt8.toNat_inj.mp (by omega)

/-- Nothing gets lost in hexadecimal. -/
theorem encode_injective {a b : List UInt8} (h : encode a = encode b) : a = b := by
  induction a generalizing b with
  | nil =>
    cases b with
    | nil => rfl
    | cons y b => simp [encode] at h
  | cons x a ih =>
    cases b with
    | nil => simp [encode] at h
    | cons y b =>
      obtain ⟨hhigh, hlow, htail⟩ : nybble (x.toNat / 16) = nybble (y.toNat / 16) ∧
          nybble (x.toNat % 16) = nybble (y.toNat % 16) ∧ encode a = encode b := by
        simpa [encode] using h
      rw [byte_injective hhigh hlow, ih htail]

end Hex
