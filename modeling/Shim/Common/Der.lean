import Mathlib.Algebra.GroupWithZero.Nat
import Mathlib.Data.Nat.Digits.Lemmas
import Mathlib.Data.Nat.Notation

/-! # The distinguished encoding of ASN.1 values

An element is a tag octet, the length of its contents and the contents. A length has a short form
below 128, and else a long form, of a count and a big-endian number; the distinguished encoding is
the shortest one. The decoder takes no other.
-/

namespace Der

/-- The number that octets stand for, the highest first. -/
def ofOctets (l : List UInt8) : ℕ := Nat.ofDigits 256 (l.reverse.map UInt8.toNat)

/-- The octets of a number, the highest first and not nought. -/
def toOctets (n : ℕ) : List UInt8 := ((Nat.digits 256 n).map UInt8.ofNat).reverse

/-- `l` is an encoding of the length `n`, of either form. -/
def EncodesLength (n : ℕ) (l : List UInt8) : Prop :=
  (n < 128 ∧ l = [UInt8.ofNat n]) ∨
    ∃ ds, 0 < ds.length ∧ ds.length < 127 ∧ ofOctets ds = n ∧
      l = UInt8.ofNat (128 + ds.length) :: ds

/-- `l` is a shortest encoding of the length `n`. -/
structure IsLength (n : ℕ) (l : List UInt8) : Prop where
  encodes : EncodesLength n l
  shortest : ∀ l', EncodesLength n l' → l.length ≤ l'.length

/-- The shortest encoding of a length. -/
def lengthOctets (n : ℕ) : List UInt8 :=
  if n < 128 then [UInt8.ofNat n] else UInt8.ofNat (128 + (toOctets n).length) :: toOctets n

/-- A length, and the octets behind it. -/
def decodeLength : List UInt8 → Option (ℕ × List UInt8)
  | [] => none
  | b :: rest =>
    if b.toNat < 128 then some (b.toNat, rest)
    else
      let octets := rest.take (b.toNat - 128)
      if rest.length < b.toNat - 128 ∨ octets.headD 0 = 0 ∨ ofOctets octets < 128 then none
      else some (ofOctets octets, rest.drop (b.toNat - 128))

/-- A tag of one octet, and the contents. -/
structure Element where
  tag : UInt8
  contents : List UInt8
  deriving DecidableEq

def Element.encode (e : Element) : List UInt8 :=
  e.tag :: lengthOctets e.contents.length ++ e.contents

/-- An element, and the octets behind it. -/
def decode : List UInt8 → Option (Element × List UInt8)
  | [] => none
  | tag :: rest => do
    let (n, rest) ← decodeLength rest
    if rest.length < n then none else some (⟨tag, rest.take n⟩, rest.drop n)

/-- The values that a decoder of one value finds until there are no octets left; `none` where it
fails, or finds more of them than `fuel`. -/
def decodeMany {α : Type*} (d : List UInt8 → Option (α × List UInt8)) :
    (fuel : ℕ) → List UInt8 → Option (List α)
  | _, [] => some []
  | 0, _ :: _ => none
  | fuel + 1, b :: rest => do
    let (a, rest) ← d (b :: rest)
    let as ← decodeMany d fuel rest
    return a :: as

/-! ## Numbers -/

/-- A number of some octets is below that power of 256. -/
theorem ofOctets_lt (l : List UInt8) : ofOctets l < 256 ^ l.length := by
  have hlt := Nat.ofDigits_lt_base_pow_length (b := 256) (l := l.reverse.map UInt8.toNat)
    (by decide) fun d hd => by
      obtain ⟨b, -, rfl⟩ := List.mem_map.mp hd
      exact b.toNat_lt
  simpa [ofOctets] using hlt

/-- A number has as many octets as digits to the base 256. -/
theorem length_toOctets (n : ℕ) : (toOctets n).length = (Nat.digits 256 n).length := by
  simp [toOctets]

/-- The octets of a number give it back. -/
theorem ofOctets_toOctets (n : ℕ) : ofOctets (toOctets n) = n := by
  have hdigits : ((Nat.digits 256 n).map UInt8.ofNat).map UInt8.toNat = Nat.digits 256 n := by
    rw [List.map_map]
    refine (List.map_congr_left fun d hd => ?_).trans (List.map_id _)
    exact UInt8.toNat_ofNat_of_lt (Nat.digits_lt_base (by decide) hd)
  rw [ofOctets, toOctets, List.reverse_reverse, hdigits, Nat.ofDigits_digits]

/-- A number below a power of 256 has at most that many octets. -/
theorem length_toOctets_le_iff {n k : ℕ} : (toOctets n).length ≤ k ↔ n < 256 ^ k := by
  rw [length_toOctets, Nat.digits_length_le_iff (by decide)]

/-- The first octet is the highest. -/
theorem ofOctets_cons (b : UInt8) (l : List UInt8) :
    ofOctets (b :: l) = ofOctets l + 256 ^ l.length * b.toNat := by
  simp [ofOctets, Nat.ofDigits_append]

/-- The first octet of a number is not nought: the others would do. -/
theorem headD_toOctets_ne_zero {n : ℕ} (hn : n ≠ 0) : (toOctets n).headD 0 ≠ 0 := by
  intro hhead
  have hvalue := ofOctets_toOctets n
  rcases hoctets : toOctets n with _ | ⟨b, l⟩
  · rw [hoctets] at hvalue
    exact hn hvalue.symm
  · rw [hoctets] at hhead hvalue
    obtain rfl : b = 0 := hhead
    rw [ofOctets_cons] at hvalue
    have hfewer : (toOctets n).length ≤ l.length :=
      length_toOctets_le_iff.mpr (by simpa [← hvalue] using ofOctets_lt l)
    rw [hoctets, List.length_cons] at hfewer
    omega

/-! ## Lengths -/

/-- The first octet of a long length does not wrap. -/
theorem toNat_longForm {k : ℕ} (hk : k < 128) : (UInt8.ofNat (128 + k)).toNat = 128 + k :=
  UInt8.toNat_ofNat_of_lt (show 128 + k < 256 by omega)

/-- Lengths of up to 126 octets have a shortest encoding. -/
theorem isLength_lengthOctets {n : ℕ} (hn : n < 256 ^ 126) : IsLength n (lengthOctets n) := by
  have hfew : (toOctets n).length ≤ 126 := length_toOctets_le_iff.mpr hn
  unfold lengthOctets
  split_ifs with hshort
  · refine ⟨.inl ⟨hshort, rfl⟩, ?_⟩
    rintro l' (⟨-, rfl⟩ | ⟨ds, -, -, -, rfl⟩)
    · rfl
    · simp
  · have hsome : 0 < (toOctets n).length := by
      by_contra hnone
      have : n < 256 ^ 0 := length_toOctets_le_iff.mp (by omega)
      omega
    refine ⟨.inr ⟨toOctets n, hsome, by omega, ofOctets_toOctets n, rfl⟩, ?_⟩
    rintro l' (⟨hlt, -⟩ | ⟨ds, -, -, hvalue, rfl⟩)
    · exact absurd hlt hshort
    · have hle : (toOctets n).length ≤ ds.length :=
        length_toOctets_le_iff.mpr (hvalue ▸ ofOctets_lt ds)
      simpa using hle

/-- The decoder takes the shortest encoding and nothing behind it. -/
theorem decodeLength_append {n : ℕ} (hn : n < 256 ^ 126) (rest : List UInt8) :
    decodeLength (lengthOctets n ++ rest) = some (n, rest) := by
  have hfew : (toOctets n).length ≤ 126 := length_toOctets_le_iff.mpr hn
  unfold lengthOctets
  split_ifs with hshort
  · have hb : (UInt8.ofNat n).toNat = n :=
      UInt8.toNat_ofNat_of_lt (show n < 256 by omega)
    simp [decodeLength, hb, hshort]
  · have hcount := toNat_longForm (k := (toOctets n).length) (by omega)
    have hhead := headD_toOctets_ne_zero (n := n) (by omega)
    simp only [List.cons_append, decodeLength, hcount, Nat.add_sub_cancel_left,
      List.take_left, List.drop_left, ofOctets_toOctets]
    rw [if_neg (by omega), if_neg]
    rintro (hlen | hzero | hsmall)
    · rw [List.length_append] at hlen
      omega
    · exact hhead hzero
    · exact hshort hsmall

/-! ## Elements -/

/-- An element that is encoded is decoded, and what follows it is left. -/
theorem decode_append {e : Element} (he : e.contents.length < 256 ^ 126) (rest : List UInt8) :
    decode (e.encode ++ rest) = some (e, rest) := by
  simp [decode, Element.encode, decodeLength_append he]

/-- Values that are decoded one by one come back from their encodings in a row. -/
theorem decodeMany_flatMap {α : Type*} {encode : α → List UInt8}
    {d : List UInt8 → Option (α × List UInt8)} (hsome : ∀ a, encode a ≠ [])
    (hd : ∀ a rest, d (encode a ++ rest) = some (a, rest)) (l : List α) {fuel : ℕ}
    (hfuel : (l.flatMap encode).length ≤ fuel) : decodeMany d fuel (l.flatMap encode) = some l := by
  induction l generalizing fuel with
  | nil => cases fuel <;> rfl
  | cons a l ih =>
    obtain ⟨b, tail, hencode⟩ := List.exists_cons_of_ne_nil (hsome a)
    have hfirst := hd a (l.flatMap encode)
    rw [hencode, List.cons_append] at hfirst
    rw [List.flatMap_cons, hencode, List.cons_append] at hfuel ⊢
    rw [List.length_cons, List.length_append] at hfuel
    obtain ⟨fuel, rfl⟩ : ∃ k, fuel = k + 1 := ⟨fuel - 1, by omega⟩
    have hrest := @ih fuel (by omega)
    simp [decodeMany, hfirst, hrest]

end Der
