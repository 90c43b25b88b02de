import Mathlib.Algebra.GroupWithZero.Nat
import Mathlib.Data.Nat.Digits.Lemmas
import Mathlib.Tactic.Common

/-! # C strings and decimal numerals

A C string is kept as the list of its bytes without the terminator; a read past the list sees
the terminating NUL. Decimal numerals are lists of ASCII digits, most significant first. For
numerals without leading zeros the numeric order is the order by length and then by `strncmp`,
which is how C code compares version fields without parsing them.
-/

namespace CText

/-- The bytes of an ASCII text. -/
def ascii (s : String) : List UInt8 := s.toList.map fun c => c.toNat.toUInt8

/-- `strncmp(a, b, n)`: the sign of the difference at the first place, among the first `n`, where
the strings differ, looking no further than a common terminator. -/
def strncmp : ℕ → List UInt8 → List UInt8 → Ordering
  | 0, _, _ => .eq
  | n + 1, a, b =>
    if a.headD 0 = b.headD 0 then
      if a.headD 0 = 0 then .eq else strncmp n a.tail b.tail
    else if (a.headD 0).toNat < (b.headD 0).toNat then .lt else .gt

/-- One step of the comparison. -/
theorem strncmp_cons (n : ℕ) (x y : UInt8) (a b : List UInt8) :
    strncmp (n + 1) (x :: a) (y :: b) =
      if x = y then (if x = 0 then .eq else strncmp n a b)
      else if x.toNat < y.toNat then .lt else .gt := rfl

/-- A string is equal to itself. -/
@[simp] theorem strncmp_self (n : ℕ) (a : List UInt8) : strncmp n a a = .eq := by
  induction n generalizing a with
  | zero => rfl
  | succ n ih => simp [strncmp, ih]

/-- Over the length of a text, `strncmp` is a test for a prefix. -/
theorem strncmp_length_eq_iff {p : List UInt8} (hp : 0 ∉ p) (a : List UInt8) :
    strncmp p.length a p = .eq ↔ p <+: a := by
  induction p generalizing a with
  | nil => exact iff_of_true rfl (List.nil_prefix)
  | cons x p ih =>
    obtain ⟨hx, hp⟩ := not_or.mp (List.mem_cons.not.mp hp)
    cases a with
    | nil =>
      refine iff_of_false ?_ (by simp)
      have hhead : ¬ ([] : List UInt8).headD 0 = (x :: p).headD 0 := hx
      rw [List.length_cons, strncmp, if_neg hhead]
      split_ifs <;> decide
    | cons y a =>
      rw [List.length_cons, strncmp_cons, List.cons_prefix_cons]
      by_cases hyx : y = x
      · rw [if_pos hyx, if_neg (hyx ▸ Ne.symm hx), ih hp]
        exact (and_iff_right hyx.symm).symm
      · rw [if_neg hyx]
        refine iff_of_false ?_ fun h => hyx h.1.symm
        split_ifs <;> decide

/-- An ASCII decimal digit. -/
def IsDigit (b : UInt8) : Prop := 48 ≤ b.toNat ∧ b.toNat ≤ 57

instance (b : UInt8) : Decidable (IsDigit b) := inferInstanceAs (Decidable (_ ∧ _))

/-- The value of one digit. -/
def digit (b : UInt8) : ℕ := b.toNat - 48

/-- The number a list of digits denotes, most significant digit first. -/
def decimal (l : List UInt8) : ℕ := Nat.ofDigits 10 (l.map digit).reverse

/-- A decimal numeral without leading zeros. -/
def IsNumeral (l : List UInt8) : Prop :=
  l ≠ [] ∧ (∀ b ∈ l, IsDigit b) ∧ (l.head? = some 48 → l.length = 1)

instance (l : List UInt8) : Decidable (IsNumeral l) := inferInstanceAs (Decidable (_ ∧ _))

/-- A digit is no NUL. -/
theorem IsDigit.ne_zero {b : UInt8} (h : IsDigit b) : b ≠ 0 := by
  rintro rfl
  exact absurd h.1 (by decide)

/-- The value of a digit is below ten. -/
theorem IsDigit.digit_lt {b : UInt8} (h : IsDigit b) : digit b < 10 := by
  have := h.2
  unfold digit
  omega

/-- A digit other than `'0'` counts at least one. -/
theorem IsDigit.digit_pos {b : UInt8} (h : IsDigit b) (hb : b ≠ 48) : 0 < digit b := by
  have h48 : b.toNat ≠ 48 := fun h' => hb (UInt8.toNat_inj.mp h')
  have := h.1
  unfold digit
  omega

/-- Digits are ordered as their codes are. -/
theorem IsDigit.digit_lt_digit {a b : UInt8} (ha : IsDigit a) (h : a.toNat < b.toNat) :
    digit a < digit b := by
  have := ha.1
  unfold digit
  omega

@[simp] theorem decimal_nil : decimal [] = 0 := rfl

/-- The first digit counts as many times ten as there are digits behind it. -/
theorem decimal_cons (b : UInt8) (l : List UInt8) :
    decimal (b :: l) = digit b * 10 ^ l.length + decimal l := by
  simp only [decimal, List.map_cons, List.reverse_cons, Nat.ofDigits_append, List.length_reverse,
    List.length_map, Nat.ofDigits_singleton]
  ring

/-- A numeral of `n` digits is below `10 ^ n`. -/
theorem decimal_lt {l : List UInt8} (h : ∀ b ∈ l, IsDigit b) : decimal l < 10 ^ l.length := by
  have hd : ∀ d ∈ (l.map digit).reverse, d < 10 := by
    intro d hd
    obtain ⟨b, hb, rfl⟩ := List.mem_map.mp (List.mem_reverse.mp hd)
    exact (h b hb).digit_lt
  have := Nat.ofDigits_lt_base_pow_length (by decide) hd
  rwa [List.length_reverse, List.length_map] at this

/-- A numeral of `n + 1` digits that does not start with `'0'` is at least `10 ^ n`. -/
theorem pow_le_decimal {b : UInt8} {l : List UInt8} (hb : IsDigit b) (h0 : b ≠ 48) :
    10 ^ l.length ≤ decimal (b :: l) := by
  rw [decimal_cons]
  have := Nat.mul_le_mul_right (10 ^ l.length) (hb.digit_pos h0)
  omega

/-- A shorter numeral is smaller. -/
theorem decimal_lt_of_length_lt {a b : List UInt8} (ha : ∀ x ∈ a, IsDigit x) (hb : IsNumeral b)
    (ha0 : a ≠ []) (h : a.length < b.length) : decimal a < decimal b := by
  obtain ⟨-, hdig, hzero⟩ := hb
  have hapos : 0 < a.length := List.length_pos_iff.mpr ha0
  cases b with
  | nil => simp at h
  | cons y b =>
    have hy0 : y ≠ 48 := by
      rintro rfl
      have := hzero rfl
      omega
    calc decimal a < 10 ^ a.length := decimal_lt ha
      _ ≤ 10 ^ b.length := Nat.pow_le_pow_right (by decide) (by simpa using Nat.le_of_lt_succ h)
      _ ≤ decimal (y :: b) := pow_le_decimal (hdig y (by simp)) hy0

/-- Between numerals of one length, `strncmp` over that length is the numeric comparison,
whatever text follows them. -/
theorem strncmp_digits {a b : List UInt8} (r s : List UInt8) (hlen : a.length = b.length)
    (ha : ∀ x ∈ a, IsDigit x) (hb : ∀ x ∈ b, IsDigit x) :
    strncmp b.length (a ++ r) (b ++ s) = compare (decimal a) (decimal b) := by
  induction a generalizing b with
  | nil =>
    obtain rfl : b = [] := List.length_eq_zero_iff.mp hlen.symm
    rfl
  | cons x a ih =>
    cases b with
    | nil => simp at hlen
    | cons y b =>
      have hlen' : a.length = b.length := by simpa using hlen
      have hx := ha x (by simp)
      have hy := hb y (by simp)
      have ha' : ∀ z ∈ a, IsDigit z := fun z hz => ha z (by simp [hz])
      have hb' : ∀ z ∈ b, IsDigit z := fun z hz => hb z (by simp [hz])
      have hla := decimal_lt ha'
      have hlb := decimal_lt hb'
      rw [hlen'] at hla
      rw [List.length_cons, List.cons_append, List.cons_append, strncmp_cons, decimal_cons,
        decimal_cons, hlen']
      by_cases hxy : x = y
      -- equal digits: the rest decides
      · subst hxy
        rw [if_pos rfl, if_neg hx.ne_zero, ih hlen' ha' hb']
        simp only [Nat.compare_eq_ite_lt, Nat.add_lt_add_iff_left]
      · rw [if_neg hxy]
        -- the first difference weighs more than all digits behind it
        by_cases hlt : x.toNat < y.toNat
        · have := Nat.mul_le_mul_right (10 ^ b.length) (hx.digit_lt_digit hlt)
          rw [Nat.succ_mul] at this
          rw [if_pos hlt, eq_comm, Nat.compare_eq_lt]
          omega
        · have hgt : y.toNat < x.toNat :=
            lt_of_le_of_ne (not_lt.mp hlt) fun h => hxy (UInt8.toNat_inj.mp h.symm)
          have := Nat.mul_le_mul_right (10 ^ b.length) (hy.digit_lt_digit hgt)
          rw [Nat.succ_mul] at this
          rw [if_neg hlt, eq_comm, Nat.compare_eq_gt]
          omega

end CText
