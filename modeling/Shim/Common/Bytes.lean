import Mathlib.Algebra.GroupWithZero.Nat
import Mathlib.Data.List.TakeWhile
import Mathlib.Tactic.Common
import Mathlib.Data.Nat.Notation
import Mathlib.Order.Nat

/-! # Byte memory of a C program

A buffer and what follows it in memory is a list of bytes; memory past the list reads as NUL.
The only store the code modelled over this library makes is to terminate a string, so `clear`
writes a NUL, and clearing a byte past the list changes nothing that can be read.
-/

namespace Bytes

/-- Memory from some base address on. -/
abbrev Mem := List UInt8

/-- The byte at offset `i`. -/
def peek (m : Mem) (i : ℕ) : UInt8 := m.getD i 0

/-- Store a NUL at offset `i`. -/
def clear (m : Mem) (i : ℕ) : Mem := m.set i 0

/-- The C string at offset `p`, without its terminator. -/
def cstr (m : Mem) (p : ℕ) : List UInt8 := (m.drop p).takeWhile (· ≠ 0)

/-- `strlen`. -/
def strlen (m : Mem) (p : ℕ) : ℕ := (cstr m p).length

/-- Two memories hold the same bytes below `n`. -/
def AgreeBelow (n : ℕ) (m m' : Mem) : Prop := ∀ i < n, peek m i = peek m' i

/-- Unsigned 64-bit subtraction. -/
def sub64 (a b : ℕ) : ℕ := (a + (2 ^ 64 - b % 2 ^ 64)) % 2 ^ 64

/-- A difference that is not negative does not wrap. -/
theorem sub64_of_le {a b : ℕ} (h : b ≤ a) (ha : a < 2 ^ 64) : sub64 a b = a - b := by
  unfold sub64
  omega

/-- A byte of the first part. -/
theorem peek_append_left {m r : Mem} {i : ℕ} (h : i < m.length) : peek (m ++ r) i = peek m i := by
  simp [peek, List.getD_eq_getElem?_getD, List.getElem?_append_left h]

/-- A byte of the second part. -/
theorem peek_append_right {m r : Mem} {i : ℕ} (h : m.length ≤ i) :
    peek (m ++ r) i = peek r (i - m.length) := by
  simp [peek, List.getD_eq_getElem?_getD, List.getElem?_append_right h]

/-- Behind its end a memory reads as nought. -/
theorem peek_of_le {m : Mem} {i : ℕ} (h : m.length ≤ i) : peek m i = 0 := by
  simp [peek, List.getD_eq_getElem?_getD, List.getElem?_eq_none h]

/-- A byte that is read inside of a memory is one of its bytes. -/
theorem peek_mem {m : Mem} {i : ℕ} (h : i < m.length) : peek m i ∈ m := by
  rw [peek, List.getD_eq_getElem?_getD, List.getElem?_eq_getElem h]
  exact List.getElem_mem h

/-- Clearing one byte shows nowhere else, and it shows there wherever that byte is. -/
theorem peek_clear (m : Mem) (i j : ℕ) : peek (clear m i) j = if j = i then 0 else peek m j := by
  simp only [peek, clear, List.getD_eq_getElem?_getD, List.getElem?_set]
  by_cases hij : i = j
  · subst hij
    by_cases hi : i < m.length <;> simp [hi]
  · simp [hij, Ne.symm hij]

/-- A byte that is cleared is nought. -/
@[simp] theorem peek_clear_self (m : Mem) (i : ℕ) : peek (clear m i) i = 0 := by
  simp [peek_clear]

/-- No other byte is changed by clearing one. -/
theorem peek_clear_ne (m : Mem) {i j : ℕ} (h : j ≠ i) : peek (clear m i) j = peek m j := by
  simp [peek_clear, h]

/-! ## C strings -/

/-- At a NUL the string is empty. -/
theorem cstr_of_zero {m : Mem} {p : ℕ} (h : peek m p = 0) : cstr m p = [] := by
  unfold cstr
  by_cases hp : p < m.length
  · rw [List.drop_eq_getElem_cons hp]
    have : m[p] = 0 := by
      simpa [peek, List.getD_eq_getElem?_getD, List.getElem?_eq_getElem hp] using h
    simp [this]
  · simp [List.drop_eq_nil_of_le (Nat.le_of_not_lt hp)]

/-- At any other byte the string starts with that byte. -/
theorem cstr_of_ne {m : Mem} {p : ℕ} (h : peek m p ≠ 0) :
    cstr m p = peek m p :: cstr m (p + 1) := by
  have hp : p < m.length := by
    by_contra hp
    exact h (peek_of_le (Nat.le_of_not_lt hp))
  have hget : peek m p = m[p] := by
    simp [peek, List.getD_eq_getElem?_getD, List.getElem?_eq_getElem hp]
  unfold cstr
  rw [List.drop_eq_getElem_cons hp, ← hget]
  simp [h]

/-- A string has no NUL in it. -/
theorem zero_notMem_cstr (m : Mem) (p : ℕ) : 0 ∉ cstr m p := by
  intro h
  have := List.mem_takeWhile_imp h
  simp at this

/-- A C string that has its terminator below `n` depends on the bytes below `n` only. -/
theorem cstr_congr {m m' : Mem} {n p q : ℕ} (hagree : AgreeBelow n m m') (hq : q < n)
    (hpq : p ≤ q) (hz : peek m q = 0) : cstr m p = cstr m' p := by
  induction k : q - p generalizing p with
  | zero =>
    obtain rfl : p = q := by omega
    rw [cstr_of_zero hz, cstr_of_zero (hagree p hq ▸ hz)]
  | succ k ih =>
    have hp : p < q := by omega
    have hpp : peek m p = peek m' p := hagree p (by omega)
    by_cases h0 : peek m p = 0
    · rw [cstr_of_zero h0, cstr_of_zero (hpp ▸ h0)]
    · have h0' : peek m' p ≠ 0 := hpp ▸ h0
      rw [cstr_of_ne h0, cstr_of_ne h0', hpp, ih (p := p + 1) (by omega) (by omega)]

/-- A terminator at `q` bounds the string from `p`. -/
theorem strlen_le {m : Mem} {p q : ℕ} (hpq : p ≤ q) (hz : peek m q = 0) : p + strlen m p ≤ q := by
  induction k : q - p generalizing p with
  | zero =>
    obtain rfl : p = q := by omega
    simp [strlen, cstr_of_zero hz]
  | succ k ih =>
    by_cases h0 : peek m p = 0
    · simp only [strlen, cstr_of_zero h0, List.length_nil]
      omega
    · have := ih (p := p + 1) (by omega) (by omega)
      simp only [strlen, cstr_of_ne h0, List.length_cons] at this ⊢
      omega

/-! ## Agreement -/

theorem AgreeBelow.refl (n : ℕ) (m : Mem) : AgreeBelow n m m := fun _ _ => rfl

theorem AgreeBelow.symm {n : ℕ} {m m' : Mem} (h : AgreeBelow n m m') : AgreeBelow n m' m :=
  fun i hi => (h i hi).symm

/-- Agreement below a bound is transitive. -/
theorem AgreeBelow.trans {n : ℕ} {m m' m'' : Mem} (h : AgreeBelow n m m')
    (h' : AgreeBelow n m' m'') : AgreeBelow n m m'' :=
  fun i hi => (h i hi).trans (h' i hi)

/-- Memories that agree below a bound agree below a smaller one. -/
theorem AgreeBelow.mono {n k : ℕ} {m m' : Mem} (h : AgreeBelow n m m') (hk : k ≤ n) :
    AgreeBelow k m m' :=
  fun i hi => h i (by omega)

/-- Agreement survives clearing the same byte on both sides. -/
theorem AgreeBelow.clear {n : ℕ} {m m' : Mem} (h : AgreeBelow n m m') (i : ℕ) :
    AgreeBelow n (clear m i) (clear m' i) := by
  intro j hj
  rw [peek_clear, peek_clear, h j hj]

/-- Clearing the byte at `n` on both sides extends the agreement to it. -/
theorem AgreeBelow.clear_succ {n : ℕ} {m m' : Mem} (h : AgreeBelow n m m') :
    AgreeBelow (n + 1) (Bytes.clear m n) (Bytes.clear m' n) := by
  intro j hj
  rw [peek_clear, peek_clear]
  split
  · rfl
  · exact h j (by omega)

/-- Clearing a byte at or past `n` keeps what is below `n`. -/
theorem agreeBelow_clear (m : Mem) {n i : ℕ} (h : n ≤ i) : AgreeBelow n (clear m i) m :=
  fun j hj => peek_clear_ne m (by omega)

/-! ## Stretches -/

/-- The bytes from offset `p` up to `q`. -/
def slice (m : Mem) (p q : ℕ) : List UInt8 := (List.range' p (q - p)).map (peek m)

/-- A slice that ends before it starts is empty. -/
theorem slice_of_le (m : Mem) {p q : ℕ} (h : q ≤ p) : slice m p q = [] := by
  rw [slice, Nat.sub_eq_zero_of_le h]
  rfl

/-- A slice starts with its first byte. -/
theorem slice_cons (m : Mem) {p q : ℕ} (h : p < q) :
    slice m p q = peek m p :: slice m (p + 1) q := by
  obtain ⟨k, rfl⟩ : ∃ k, q = p + 1 + k := ⟨q - (p + 1), by omega⟩
  rw [slice, slice, show p + 1 + k - p = k + 1 by omega, Nat.add_sub_cancel_left, List.range'_succ,
    List.map_cons]

/-- Slices that meet are one slice. -/
theorem slice_append (m : Mem) {p k q : ℕ} (hpk : p ≤ k) (hkq : k ≤ q) :
    slice m p k ++ slice m k q = slice m p q := by
  obtain ⟨a, rfl⟩ := Nat.exists_eq_add_of_le hpk
  obtain ⟨b, rfl⟩ := Nat.exists_eq_add_of_le hkq
  rw [slice, slice, slice, ← List.map_append, Nat.add_sub_cancel_left, Nat.add_sub_cancel_left,
    List.range'_append_1, Nat.add_assoc, Nat.add_sub_cancel_left]

/-- How long a slice is, also behind the end of the memory. -/
@[simp] theorem length_slice (m : Mem) (p q : ℕ) : (slice m p q).length = q - p := by
  simp [slice]

/-- The bytes of a slice are those at its indices. -/
theorem mem_slice {m : Mem} {p q : ℕ} {b : UInt8} :
    b ∈ slice m p q ↔ ∃ i, p ≤ i ∧ i < q ∧ peek m i = b := by
  simp only [slice, List.mem_map, List.mem_range'_1]
  constructor
  · rintro ⟨i, ⟨hpi, hiq⟩, rfl⟩
    exact ⟨i, hpi, by omega, rfl⟩
  · rintro ⟨i, hpi, hiq, rfl⟩
    exact ⟨i, ⟨hpi, by omega⟩, rfl⟩

/-- A slice depends on the bytes at its indices only. -/
theorem slice_congr {m m' : Mem} {p q : ℕ} (h : ∀ i, p ≤ i → i < q → peek m i = peek m' i) :
    slice m p q = slice m' p q := by
  refine List.map_congr_left fun i hi => ?_
  rw [List.mem_range'_1] at hi
  exact h i hi.1 (by omega)

/-- A C string goes up to its terminator. -/
theorem cstr_eq_slice {m : Mem} {p q : ℕ} (hpq : p ≤ q) (hz : peek m q = 0)
    (hne : ∀ i, p ≤ i → i < q → peek m i ≠ 0) : cstr m p = slice m p q := by
  induction hk : q - p generalizing p with
  | zero =>
    obtain rfl : p = q := by omega
    rw [cstr_of_zero hz, slice_of_le m le_rfl]
  | succ k ih =>
    rw [cstr_of_ne (hne p le_rfl (by omega)), slice_cons m (by omega),
      ih (by omega) (fun i hi => hne i (by omega)) (by omega)]

end Bytes
