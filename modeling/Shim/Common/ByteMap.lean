import Mathlib.Algebra.GroupWithZero.Nat
import Mathlib.Data.Set.Basic
import Mathlib.Tactic.Common

/-! # Writable memory as a map of bytes

Memory is a function from offsets to bytes: it is filled from a source, cleared, and patched by
reading a little-endian number, changing it and writing it back. `AgreeOff E` says that two memories
differ on `E` at most; a patch keeps it unless it carries a difference out of `E`.
-/

namespace ByteMap

variable {E : Set ℕ} {m m' : ℕ → UInt8} {o n : ℕ}

/-- `n` bytes of `source` at offset `o`. -/
def fill (m : ℕ → UInt8) (o n : ℕ) (source : ℕ → UInt8) : ℕ → UInt8 :=
  fun i => if o ≤ i ∧ i < o + n then source (i - o) else m i

/-- `n` NULs at offset `o`. -/
def zero (m : ℕ → UInt8) (o n : ℕ) : ℕ → UInt8 := fill m o n fun _ => 0

/-- The little-endian number in the `n` bytes at offset `o`. -/
def readLe (m : ℕ → UInt8) (o : ℕ) : ℕ → ℕ
  | 0 => 0
  | n + 1 => readLe m o n + 256 ^ n * (m (o + n)).toNat

/-- Replace the number in the `n` bytes at offset `o`, modulo `256 ^ n`. -/
def patch (m : ℕ → UInt8) (o n : ℕ) (f : ℕ → ℕ) : ℕ → UInt8 :=
  fill m o n fun i => UInt8.ofNat (f (readLe m o n) / 256 ^ i)

/-- The same bytes except on `E`. -/
def AgreeOff (E : Set ℕ) (m m' : ℕ → UInt8) : Prop := ∀ i, i ∉ E → m i = m' i

/-- Memories that agree off a set still do when they are filled from sources that do. -/
theorem AgreeOff.fill {source source' : ℕ → UInt8} (h : AgreeOff E m m')
    (hsource : ∀ i < n, o + i ∉ E → source i = source' i) :
    AgreeOff E (ByteMap.fill m o n source) (ByteMap.fill m' o n source') := by
  intro i hi
  unfold ByteMap.fill
  by_cases hin : o ≤ i ∧ i < o + n
  · rw [if_pos hin, if_pos hin]
    exact hsource (i - o) (by omega) (by rwa [show o + (i - o) = i by omega])
  · rw [if_neg hin, if_neg hin]
    exact h i hi

/-- Clearing the same bytes keeps the agreement. -/
theorem AgreeOff.zero (h : AgreeOff E m m') :
    AgreeOff E (ByteMap.zero m o n) (ByteMap.zero m' o n) :=
  h.fill fun _ _ _ => rfl

/-- A number depends on its own bytes only. -/
theorem readLe_congr (h : ∀ i < n, m (o + i) = m' (o + i)) : readLe m o n = readLe m' o n := by
  induction n with
  | zero => rfl
  | succ n ih => rw [readLe, readLe, ih fun i hi => h i (by omega), h n (by omega)]

/-- A patch outside `E` reads the same number, and one inside `E` changes nothing outside. -/
theorem AgreeOff.patch {f : ℕ → ℕ} (h : AgreeOff E m m')
    (hrange : (∀ i < n, o + i ∉ E) ∨ ∀ i < n, o + i ∈ E) :
    AgreeOff E (ByteMap.patch m o n f) (ByteMap.patch m' o n f) := by
  refine h.fill fun i hi hiE => ?_
  rcases hrange with hout | hin
  · rw [readLe_congr fun j hj => h _ (hout j hj)]
  · exact absurd (hin i hi) hiE

/-! ## Numbers and strings -/

/-- Write a number to the `n` bytes at offset `o`. -/
def storeLe (m : ℕ → UInt8) (o n v : ℕ) : ℕ → UInt8 := fill m o n fun i => UInt8.ofNat (v / 256 ^ i)

/-- Write a C string and its terminator at offset `o`. -/
def storeString (m : ℕ → UInt8) (o : ℕ) (text : List UInt8) : ℕ → UInt8 :=
  fill m o (text.length + 1) fun i => text.getD i 0

/-- The C string at offset `o` is `text`. -/
def HasString (m : ℕ → UInt8) (o : ℕ) (text : List UInt8) : Prop :=
  0 ∉ text ∧ ∀ i ≤ text.length, m (o + i) = text.getD i 0

section Stores

variable {source : ℕ → UInt8} {i v p k : ℕ} {text : List UInt8}

/-- Inside of the stretch there is what the source has. -/
theorem fill_inside (hi : i < n) : fill m o n source (o + i) = source i := by
  rw [fill, if_pos ⟨Nat.le_add_right o i, by omega⟩, Nat.add_sub_cancel_left]

/-- Outside of the stretch nothing changes. -/
theorem fill_outside (hi : i < o ∨ o + n ≤ i) : fill m o n source i = m i :=
  if_neg (by omega)

/-- What is stored is read back, if it fits into its bytes. -/
theorem readLe_storeLe (hv : v < 256 ^ n) : readLe (storeLe m o n v) o n = v := by
  have hdigits : ∀ k ≤ n, readLe (storeLe m o n v) o k = v % 256 ^ k := by
    intro k hk
    induction k with
    | zero => rw [readLe, Nat.pow_zero, Nat.mod_one]
    | succ k ih =>
      rw [readLe, ih (by omega), storeLe, fill_inside (by omega), Nat.mod_pow_succ]
      simp
  rw [hdigits n le_rfl, Nat.mod_eq_of_lt hv]

/-- A number in bytes that two memories share. -/
theorem readLe_eq (h : ∀ i, p ≤ i → i < p + k → m i = m' i) : readLe m p k = readLe m' p k :=
  readLe_congr fun i hi => h (p + i) (by omega) (by omega)

/-- Bytes that are all nought read as nought. -/
theorem readLe_zero (h : ∀ i, p ≤ i → i < p + k → m i = 0) : readLe m p k = 0 := by
  induction k with
  | zero => rfl
  | succ k ih =>
    rw [readLe, ih fun i hi hik => h i hi (by omega), h (p + k) (by omega) (by omega)]
    rfl

/-- A string that is stored is there, up to its terminator. -/
theorem hasString_storeString (h : 0 ∉ text) : HasString (storeString m o text) o text :=
  ⟨h, fun i hi => fill_inside (by omega)⟩

/-- A string in bytes that two memories share. -/
theorem HasString.congr (h : HasString m o text)
    (heq : ∀ i, o ≤ i → i ≤ o + text.length → m' i = m i) : HasString m' o text :=
  ⟨h.1, fun i hi => by rw [heq (o + i) (by omega) (by omega), h.2 i hi]⟩

end Stores

end ByteMap
