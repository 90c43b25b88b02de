import Shim.Common.Region

/-! # Writing to a region

`write` lays bytes out at an offset. What does not meet them is not changed, they are read back, and
writing what is there, or writing twice to one place, does no more than it should.
-/

namespace Region

variable {r r' r'' : Region} {s : Set ℕ} {o p i n : ℕ} {l l' : List UInt8}

/-- Write the bytes `l` from offset `o` on. -/
def write (r : Region) (o : ℕ) (l : List UInt8) : Region :=
  { r with byte := fun i => if o ≤ i ∧ i < o + l.length then l.getD (i - o) 0 else r.byte i }

@[simp] theorem size_write (r : Region) (o : ℕ) (l : List UInt8) :
    (r.write o l).size = r.size := rfl

/-- Agreement is transitive. -/
theorem AgreeOn.trans (h : AgreeOn s r r') (h' : AgreeOn s r' r'') : AgreeOn s r r'' :=
  fun i hi => (h i hi).trans (h' i hi)

/-- Outside of what is written nothing changes. -/
theorem byte_write_outside (h : i < o ∨ o + l.length ≤ i) : (r.write o l).byte i = r.byte i :=
  if_neg (by omega)

/-- What is written is there. -/
theorem holdsAt_write (r : Region) (o : ℕ) (l : List UInt8) : (r.write o l).HoldsAt o l := by
  rw [holdsAt_iff]
  intro i hi
  have hin : o ≤ o + i ∧ o + i < o + l.length := by omega
  change (if o ≤ o + i ∧ o + i < o + l.length then l.getD (o + i - o) 0 else r.byte (o + i)) = l[i]
  rw [if_pos hin, Nat.add_sub_cancel_left, List.getD_eq_getElem?_getD, List.getElem?_eq_getElem hi,
    Option.getD_some]

/-- A write is not seen outside of it. -/
theorem agreeOn_write (h : ∀ i ∈ s, i < o ∨ o + l.length ≤ i) : AgreeOn s (r.write o l) r :=
  fun i hi => byte_write_outside (h i hi)

/-- A field of two bytes outside of the write is kept. -/
theorem u16_write_outside (h : p + 2 ≤ o ∨ o + l.length ≤ p) : (r.write o l).u16 p = r.u16 p := by
  unfold u16
  rw [byte_write_outside (by omega), byte_write_outside (by omega)]

/-- A field of four bytes outside of the write is kept. -/
theorem u32_write_outside (h : p + 4 ≤ o ∨ o + l.length ≤ p) : (r.write o l).u32 p = r.u32 p := by
  unfold u32
  rw [u16_write_outside (by omega), u16_write_outside (by omega)]

/-- A field of two bytes that is written is read back. -/
theorem u16_write (hn : n < 2 ^ 16) : (r.write o (le16 n)).u16 o = n := (holdsAt_write r o _).u16 hn

/-- A field of four bytes that is written is read back. -/
theorem u32_write (hn : n < 2 ^ 32) : (r.write o (le32 n)).u32 o = n := (holdsAt_write r o _).u32 hn

/-- The second of two writes of one length to one place is the one that counts. -/
theorem write_write (h : l.length = l'.length) : (r.write o l).write o l' = r.write o l' := by
  refine congrArg (Region.mk r.base r.size) (funext fun i => ?_)
  by_cases hi : o ≤ i ∧ i < o + l'.length
  · rw [if_pos hi, if_pos hi]
  · rw [if_neg hi, if_neg hi, byte_write_outside (by omega)]

end Region
