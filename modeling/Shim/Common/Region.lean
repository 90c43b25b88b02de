import Mathlib.Algebra.GroupWithZero.Nat
import Mathlib.Data.Set.Basic
import Mathlib.Logic.Function.Basic
import Mathlib.Order.Interval.Set.Defs
import Mathlib.Tactic.Common

/-! # Regions of memory read by offset

A region is a buffer of `size` bytes at an address; `byte` also answers for offsets past the end,
where a read finds whatever lies there. Multi-byte fields are little endian and read as numbers.
`AgreeOn s r r'` says that two regions hold the same bytes at the offsets in `s`; a field depends
on the offsets it covers only.
-/

/-- A buffer in memory. -/
structure Region where
  base : ℕ
  size : ℕ
  byte : ℕ → UInt8

namespace Region

variable {r r' : Region} {s t : Set ℕ} {o n : ℕ}

/-- The 16-bit field at offset `o`. -/
def u16 (r : Region) (o : ℕ) : ℕ := (r.byte o).toNat + 256 * (r.byte (o + 1)).toNat

/-- The 32-bit field at offset `o`. -/
def u32 (r : Region) (o : ℕ) : ℕ := r.u16 o + 65536 * r.u16 (o + 2)

/-- The 64-bit field at offset `o`. -/
def u64 (r : Region) (o : ℕ) : ℕ := r.u32 o + 4294967296 * r.u32 (o + 4)

/-- The `n` bytes from offset `o` on. -/
def bytes (r : Region) (o n : ℕ) : List UInt8 := (List.range n).map fun i => r.byte (o + i)

/-- The region that holds a list of bytes, with NULs behind them. -/
def ofList (base : ℕ) (l : List UInt8) : Region := ⟨base, l.length, fun i => l.getD i 0⟩

/-- A region given by the fields at some offsets, and NULs elsewhere. -/
def ofFields (base size : ℕ) (fields : List (ℕ × List UInt8)) : Region where
  base := base
  size := size
  byte := fun i =>
    ((fields.find? fun f => f.1 ≤ i ∧ i < f.1 + f.2.length).map fun f => f.2.getD (i - f.1) 0).getD 0

/-- The same bytes at the offsets in `s`. -/
def AgreeOn (s : Set ℕ) (r r' : Region) : Prop := ∀ i ∈ s, r.byte i = r'.byte i

/-- A field of two bytes. -/
theorem u16_lt (r : Region) (o : ℕ) : r.u16 o < 2 ^ 16 := by
  have h0 := (r.byte o).toNat_lt
  have h1 := (r.byte (o + 1)).toNat_lt
  unfold u16
  omega

/-- A field of four bytes. -/
theorem u32_lt (r : Region) (o : ℕ) : r.u32 o < 2 ^ 32 := by
  have h0 := r.u16_lt o
  have h2 := r.u16_lt (o + 2)
  unfold u32
  omega

/-- As many bytes are given as are asked for. -/
@[simp] theorem length_bytes (r : Region) (o n : ℕ) : (r.bytes o n).length = n := by
  simp [bytes]

/-! ## Agreement -/

/-- Regions that agree on a set agree on a part of it. -/
theorem AgreeOn.mono (h : AgreeOn s r r') (hst : t ⊆ s) : AgreeOn t r r' :=
  fun i hi => h i (hst hi)

/-- Agreement does not depend on the side. -/
theorem AgreeOn.symm (h : AgreeOn s r r') : AgreeOn s r' r := fun i hi => (h i hi).symm

/-- A field of two bytes is the same where its bytes are. -/
theorem AgreeOn.u16 (h : AgreeOn s r r') (ho : ∀ i, o ≤ i → i < o + 2 → i ∈ s) :
    r.u16 o = r'.u16 o := by
  unfold Region.u16
  rw [h o (ho o le_rfl (by omega)), h (o + 1) (ho _ (by omega) (by omega))]

/-- A field of four bytes is the same where its bytes are. -/
theorem AgreeOn.u32 (h : AgreeOn s r r') (ho : ∀ i, o ≤ i → i < o + 4 → i ∈ s) :
    r.u32 o = r'.u32 o := by
  unfold Region.u32
  rw [h.u16 fun i hi hi' => ho i hi (by omega), h.u16 fun i hi hi' => ho i (by omega) (by omega)]

/-- A field of eight bytes is the same where its bytes are. -/
theorem AgreeOn.u64 (h : AgreeOn s r r') (ho : ∀ i, o ≤ i → i < o + 8 → i ∈ s) :
    r.u64 o = r'.u64 o := by
  unfold Region.u64
  rw [h.u32 fun i hi hi' => ho i hi (by omega), h.u32 fun i hi hi' => ho i (by omega) (by omega)]

/-- A stretch is the same where its bytes are. -/
theorem AgreeOn.bytes (h : AgreeOn s r r') (ho : ∀ i, o ≤ i → i < o + n → i ∈ s) :
    r.bytes o n = r'.bytes o n := by
  refine List.map_congr_left fun i hi => h _ (ho _ (by omega) ?_)
  have := List.mem_range.mp hi
  omega

/-- Equal byte strings are agreement on their offsets. -/
theorem agreeOn_of_bytes (h : r.bytes o n = r'.bytes o n) :
    AgreeOn {i | o ≤ i ∧ i < o + n} r r' := by
  rintro i ⟨hoi, hin⟩
  have hi : i - o ∈ List.range n := List.mem_range.mpr (by omega)
  have := (List.map_inj_left.mp h) (i - o) hi
  rwa [show o + (i - o) = i by omega] at this

/-! ## Bytes laid out in a region -/

/-- The two bytes of a 16-bit number. -/
def le16 (n : ℕ) : List UInt8 := [UInt8.ofNat n, UInt8.ofNat (n / 256)]

/-- The four bytes of a 32-bit number. -/
def le32 (n : ℕ) : List UInt8 :=
  [UInt8.ofNat n, UInt8.ofNat (n / 256), UInt8.ofNat (n / 65536), UInt8.ofNat (n / 16777216)]

/-- The eight bytes of a 64-bit number. -/
def le64 (n : ℕ) : List UInt8 := le32 (n % 2 ^ 32) ++ le32 (n / 2 ^ 32)

/-- The region holds the bytes `l` from offset `o` on. -/
def HoldsAt (r : Region) (o : ℕ) (l : List UInt8) : Prop := r.bytes o l.length = l

@[simp] theorem length_le16 (n : ℕ) : (le16 n).length = 2 := rfl

@[simp] theorem length_le32 (n : ℕ) : (le32 n).length = 4 := rfl

@[simp] theorem length_le64 (n : ℕ) : (le64 n).length = 8 := rfl

/-- A stretch is cut in two. -/
theorem bytes_add (r : Region) (o m n : ℕ) : r.bytes o (m + n) = r.bytes o m ++ r.bytes (o + m) n := by
  simp only [bytes, List.range_add, List.map_append, List.map_map]
  congr 1
  exact List.map_congr_left fun i _ => by simp [Nat.add_assoc]

theorem holdsAt_nil (r : Region) (o : ℕ) : r.HoldsAt o [] := rfl

/-- A region holds a list in two parts. -/
theorem holdsAt_append {l l' : List UInt8} :
    r.HoldsAt o (l ++ l') ↔ r.HoldsAt o l ∧ r.HoldsAt (o + l.length) l' := by
  unfold HoldsAt
  rw [List.length_append, bytes_add]
  constructor
  · intro h
    exact List.append_inj h (by simp)
  · rintro ⟨h, h'⟩
    rw [h, h']

/-- A region holds a list byte by byte. -/
theorem holdsAt_cons {b : UInt8} {l : List UInt8} :
    r.HoldsAt o (b :: l) ↔ r.byte o = b ∧ r.HoldsAt (o + 1) l := by
  rw [← List.singleton_append, holdsAt_append, List.length_singleton]
  refine and_congr_left' ?_
  simp [HoldsAt, Region.bytes]

/-- What is at an offset is some bytes. -/
theorem holdsAt_bytes (r : Region) (o n : ℕ) : r.HoldsAt o (r.bytes o n) := by
  rw [HoldsAt, length_bytes]

/-- What a region holds is read from it. -/
theorem HoldsAt.bytes {l : List UInt8} (h : r.HoldsAt o l) (hn : l.length = n) :
    r.bytes o n = l := by
  subst hn
  exact h

/-- A region holds a list if each of its bytes is the one at that place. -/
theorem holdsAt_iff {l : List UInt8} :
    r.HoldsAt o l ↔ ∀ i (hi : i < l.length), r.byte (o + i) = l[i] := by
  constructor
  · intro h i hi
    have := congrArg (·[i]?) h
    simpa [Region.bytes, hi] using this
  · intro h
    refine List.ext_getElem (by simp) fun i _ hi => ?_
    simpa [Region.bytes] using h i hi

/-- What a list of bytes holds, at the offset it starts. -/
theorem holdsAt_ofList (base : ℕ) (pre l post : List UInt8) :
    (ofList base (pre ++ l ++ post)).HoldsAt pre.length l := by
  rw [holdsAt_iff]
  intro i hi
  have hget : (pre ++ (l ++ post))[pre.length + i]? = some l[i] := by
    rw [List.getElem?_append_right (Nat.le_add_right _ _), Nat.add_sub_cancel_left,
      List.getElem?_append_left hi, List.getElem?_eq_getElem hi]
  rw [List.append_assoc]
  simp only [ofList, List.getD_eq_getElem?_getD, hget, Option.getD_some]

/-- A list of bytes is what its region holds. -/
theorem holdsAt_ofList_zero (base : ℕ) (l : List UInt8) : (ofList base l).HoldsAt 0 l := by
  simpa using holdsAt_ofList base [] l []

/-- Only the bytes of the list matter. -/
theorem HoldsAt.congr {l : List UInt8} (h : r.HoldsAt o l)
    (hr : ∀ i, o ≤ i → i < o + l.length → r.byte i = r'.byte i) : r'.HoldsAt o l := by
  rw [holdsAt_iff] at h ⊢
  intro i hi
  rw [← hr (o + i) (by omega) (by omega), h i hi]

/-- A number that was written is read back. -/
theorem HoldsAt.u16 (h : r.HoldsAt o (le16 n)) (hn : n < 2 ^ 16) : r.u16 o = n := by
  simp only [le16, holdsAt_cons] at h
  simp only [Region.u16, h.1, h.2.1, UInt8.toNat_ofNat']
  omega

/-- A number that is read is there. -/
theorem holdsAt_u16 (r : Region) (o : ℕ) : r.HoldsAt o (le16 (r.u16 o)) := by
  have h0 := (r.byte o).toNat_lt
  have h1 := (r.byte (o + 1)).toNat_lt
  simp only [le16, holdsAt_cons, holdsAt_nil, and_true, Region.u16]
  constructor <;> refine UInt8.toNat_inj.mp ?_ <;> rw [UInt8.toNat_ofNat'] <;> omega

/-- A field holds its own encoding. -/
theorem holdsAt_u32 (r : Region) (o : ℕ) : r.HoldsAt o (le32 (r.u32 o)) := by
  have h0 := (r.byte o).toNat_lt
  have h1 := (r.byte (o + 1)).toNat_lt
  have h2 := (r.byte (o + 2)).toNat_lt
  have h3 := (r.byte (o + 3)).toNat_lt
  simp only [le32, holdsAt_cons, holdsAt_nil, and_true, Region.u32, Region.u16, Nat.add_assoc,
    Nat.reduceAdd]
  refine ⟨?_, ?_, ?_, ?_⟩ <;> refine UInt8.toNat_inj.mp ?_ <;> rw [UInt8.toNat_ofNat'] <;> omega

/-- A number that is held is read back. -/
theorem HoldsAt.u32 (h : r.HoldsAt o (le32 n)) (hn : n < 2 ^ 32) : r.u32 o = n := by
  rw [holdsAt_iff] at h
  have h0 : r.byte o = UInt8.ofNat n := h 0 (by simp)
  have h1 : r.byte (o + 1) = UInt8.ofNat (n / 256) := h 1 (by simp)
  have h2 : r.byte (o + 2) = UInt8.ofNat (n / 65536) := h 2 (by simp)
  have h3 : r.byte (o + 2 + 1) = UInt8.ofNat (n / 16777216) := h 3 (by simp)
  simp only [Region.u32, Region.u16, h0, h1, h2, h3, UInt8.toNat_ofNat']
  omega

/-- A number of eight bytes that is held is read back. -/
theorem HoldsAt.u64 (h : r.HoldsAt o (le64 n)) (hn : n < 2 ^ 64) : r.u64 o = n := by
  obtain ⟨hlow, hhigh⟩ := holdsAt_append.mp h
  rw [length_le32] at hhigh
  rw [Region.u64, hlow.u32 (Nat.mod_lt _ (by decide)), hhigh.u32 (by omega)]
  omega

/-! ## Moving bytes -/

/-- Copy `n` bytes from `src` to `dest`, one by one from the lowest. -/
def move (r : Region) (dest src : ℕ) : ℕ → Region
  | 0 => r
  | n + 1 =>
    { r.move dest src n with
      byte := Function.update (r.move dest src n).byte (dest + n)
        ((r.move dest src n).byte (src + n)) }

/-- A move does not change the size. -/
@[simp] theorem size_move (r : Region) (dest src n : ℕ) : (r.move dest src n).size = r.size := by
  induction n with
  | zero => rfl
  | succ n ih => exact ih

/-- Moving down overwrites no byte before it is read. -/
theorem byte_move {dest src : ℕ} (h : dest ≤ src) (i : ℕ) :
    (r.move dest src n).byte i =
      if dest ≤ i ∧ i < dest + n then r.byte (src + (i - dest)) else r.byte i := by
  induction n generalizing i with
  | zero =>
    rw [if_neg (by omega)]
    rfl
  | succ n ih =>
    change Function.update (r.move dest src n).byte (dest + n) _ i = _
    by_cases hi : i = dest + n
    · subst hi
      rw [Function.update_self, ih, if_neg (by omega), if_pos (by omega), Nat.add_sub_cancel_left]
    · rw [Function.update_of_ne hi, ih]
      refine if_congr ?_ rfl rfl
      omega

/-- A list that is moved down is held where it is moved to. -/
theorem HoldsAt.move {l : List UInt8} {dest src : ℕ} (h : r.HoldsAt src l) (hle : dest ≤ src) :
    (r.move dest src l.length).HoldsAt dest l := by
  rw [holdsAt_iff] at h ⊢
  intro i hi
  rw [byte_move hle, if_pos (by omega), Nat.add_sub_cancel_left, h i hi]

end Region
