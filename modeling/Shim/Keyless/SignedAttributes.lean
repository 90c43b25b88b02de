import Shim.Common.Der
import Shim.Keyless.Extract

/-! # The signed attributes as they are sent

The signature covers the authenticated attributes as a DER SET, which is not how they stand in the
PKCS#7 structure: `extract_verification_data` writes the SET anew, with one pass over the attributes
for the length and one for the content.
-/

namespace Shim

section Code

variable {α : Type} (i2d : α → List UInt8)

/-- The first pass: the sum of the lengths. -/
def signedAttrsTotalLen (attrs : List α) : ℕ :=
  attrs.foldl (fun totalLen attr =>
    let attrLen := (i2d attr).length
    if attrLen > 0 then totalLen + attrLen else totalLen) 0

/-- The bytes of a length, the lowest first, in an array with `room` for so many; `none` where it is
too small. -/
def derLenBytes : (room tempLen : ℕ) → Option (List UInt8)
  | 0, tempLen => if tempLen > 0 then none else some []
  | room + 1, tempLen =>
    if tempLen > 0 then
      (derLenBytes room (tempLen >>> 8)).map fun lenBytes =>
        UInt8.ofNat (tempLen &&& 0xff) :: lenBytes
    else some []

/-- The bytes that are written while the index goes down. -/
def writeLenBytes (lenBytes : List UInt8) : (count : ℕ) → List UInt8
  | 0 => []
  | i + 1 => lenBytes.getD i 0 :: writeLenBytes lenBytes i

/-- The second pass: the encodings behind what is in the BIO. -/
def writeAttrs (attrs : List α) (bio : List UInt8) : List UInt8 :=
  attrs.foldl (fun bio attr => if (i2d attr).length > 0 then bio ++ i2d attr else bio) bio

/-- The tag and the length; `none` where `len_bytes` is too small. -/
def signedAttrsHeader (totalLen : ℕ) : Option (List UInt8) :=
  if totalLen < 128 then some [0x31, UInt8.ofNat totalLen]
  else (derLenBytes 4 totalLen).map fun lenBytes =>
    0x31 :: UInt8.ofNat (0x80 ||| lenBytes.length) :: writeLenBytes lenBytes lenBytes.length

/-- What `extract_verification_data` hands to `b64_encode`, if anything. -/
def signedAttrsPayload (attrs : List α) : Option (Option (List UInt8)) :=
  let totalLen := signedAttrsTotalLen i2d attrs
  if totalLen > 0 then
    (signedAttrsHeader totalLen).map fun bio => some (writeAttrs i2d attrs bio)
  else some none

end Code

/-- `i2d_X509_ATTRIBUTE`, where it succeeds, and `d2i_X509_ATTRIBUTE`, which takes an attribute from
the front. -/
structure X509AttributeCodec (α : Type) where
  i2d : α → List UInt8
  d2i : List UInt8 → Option (α × List UInt8)
  i2d_ne_nil : ∀ attr, i2d attr ≠ []
  d2i_i2d : ∀ attr rest, d2i (i2d attr ++ rest) = some (attr, rest)

namespace X509AttributeCodec

variable {α : Type} (codec : X509AttributeCodec α)

/-- The attributes of a SET that takes up all bytes. -/
def decodeSet (bytes : List UInt8) : Option (List α) := do
  let (e, rest) ← Der.decode bytes
  if e.tag ≠ 0x31 ∨ rest ≠ [] then none
  else Der.decodeMany codec.d2i e.contents.length e.contents

/-- The bytes are the SET of the attributes, and nothing else. -/
structure IsSetOf (attrs : List α) (bytes : List UInt8) : Prop where
  layout : ∃ len, Der.IsLength (attrs.flatMap codec.i2d).length len ∧
    bytes = 0x31 :: len ++ attrs.flatMap codec.i2d
  decoded : codec.decodeSet bytes = some attrs

end X509AttributeCodec

section Passes

variable {α : Type} {i2d : α → List UInt8} {attrs : List α}

/-- The length that is summed up is that of all attributes. -/
theorem signedAttrsTotalLen_eq (attrs : List α) :
    signedAttrsTotalLen i2d attrs = (attrs.flatMap i2d).length := by
  have hfold : ∀ n, attrs.foldl (fun totalLen attr =>
      let attrLen := (i2d attr).length
      if attrLen > 0 then totalLen + attrLen else totalLen) n =
        n + (attrs.flatMap i2d).length := by
    induction attrs with
    | nil => exact fun n => rfl
    | cons attr attrs ih =>
      intro n
      rw [List.foldl_cons, ih, List.flatMap_cons, List.length_append]
      dsimp only
      split_ifs <;> omega
  exact (hfold 0).trans (Nat.zero_add _)

/-- The attributes are written one behind the other. -/
theorem writeAttrs_eq (attrs : List α) (bio : List UInt8) :
    writeAttrs i2d attrs bio = bio ++ attrs.flatMap i2d := by
  unfold writeAttrs
  induction attrs generalizing bio with
  | nil => simp
  | cons attr attrs ih =>
    rw [List.foldl_cons, ih, List.flatMap_cons]
    split_ifs with hsome
    · rw [List.append_assoc]
    · rw [List.length_eq_zero_iff.mp (Nat.le_zero.mp (Nat.not_lt.mp hsome)), List.nil_append]

/-- A length fits into as many bytes as its power of 256 says. -/
theorem derLenBytes_eq {room n : ℕ} (hn : n < 256 ^ room) :
    derLenBytes room n = some (Der.toOctets n).reverse := by
  induction room generalizing n with
  | zero =>
    obtain rfl : n = 0 := by omega
    rfl
  | succ room ih =>
    rw [derLenBytes]
    split_ifs with hpos
    · have hrest : n >>> 8 < 256 ^ room := by
        rw [Nat.shiftRight_eq_div_pow]
        rw [Nat.pow_succ] at hn
        omega
      have hlow : UInt8.ofNat (n &&& 0xff) = UInt8.ofNat (n % 256) := by
        rw [show 0xff = 2 ^ 8 - 1 from rfl, Nat.and_two_pow_sub_one_eq_mod]
      rw [ih hrest, Option.map_some, Nat.shiftRight_eq_div_pow, hlow, Der.toOctets, Der.toOctets,
        List.reverse_reverse, List.reverse_reverse, Nat.digits_def' (by decide) hpos, List.map_cons]
    · obtain rfl : n = 0 := by omega
      rfl

/-- The length is written with its highest byte first. -/
theorem writeLenBytes_eq (lenBytes : List UInt8) :
    writeLenBytes lenBytes lenBytes.length = lenBytes.reverse := by
  have htake : ∀ count ≤ lenBytes.length,
      writeLenBytes lenBytes count = (lenBytes.take count).reverse := by
    intro count hcount
    induction count with
    | zero => rfl
    | succ i ih =>
      rw [writeLenBytes, ih (Nat.le_of_succ_le hcount), List.getD_eq_getElem?_getD,
        List.getElem?_eq_getElem hcount, ← List.take_append_getElem hcount, List.reverse_append]
      rfl
  rw [htake _ le_rfl, List.take_length]

/-- The count of the long form, as it is put together with the bit for it. -/
theorem or_length_toOctets {n : ℕ} (hn : n < 2 ^ 31) :
    0x80 ||| (Der.toOctets n).length = 128 + (Der.toOctets n).length := by
  have hfew : (Der.toOctets n).length ≤ 4 := Der.length_toOctets_le_iff.mpr (by omega)
  exact (Nat.two_pow_add_eq_or_of_lt (i := 7) (by omega) 1).symm

/-- The header that is written is the one of the distinguished encoding. -/
theorem signedAttrsHeader_eq {n : ℕ} (hn : n < 2 ^ 31) :
    signedAttrsHeader n = some (0x31 :: Der.lengthOctets n) := by
  unfold signedAttrsHeader Der.lengthOctets
  split_ifs with hshort
  · rfl
  · rw [derLenBytes_eq (by omega), Option.map_some, writeLenBytes_eq, List.length_reverse,
      or_length_toOctets hn, List.reverse_reverse]

/-- The length is encoded as DER has it. -/
theorem derLength_eq {n : ℕ} (hn : n < 2 ^ 31) : derLength n = Der.lengthOctets n := by
  unfold derLength Der.lengthOctets
  split_ifs with hshort
  · rfl
  · have hcount := or_length_toOctets hn
    rw [Der.length_toOctets] at hcount
    rw [Der.length_toOctets]
    dsimp only
    rw [List.length_map, hcount]
    rfl

/-- The payload is the encoding of a set, and nothing where there are no attributes. -/
theorem signedAttrsPayload_eq (h : (attrs.flatMap i2d).length < 2 ^ 31) :
    signedAttrsPayload i2d attrs =
      some (if attrs.flatMap i2d = [] then none
        else some (Der.Element.encode ⟨0x31, attrs.flatMap i2d⟩)) := by
  rw [signedAttrsPayload]
  simp only [signedAttrsTotalLen_eq, signedAttrsHeader_eq h, writeAttrs_eq, Option.map_some,
    gt_iff_lt, List.length_pos_iff, ne_eq]
  split_ifs <;> rfl

/-- In base64 it is what `extract_verification_data` puts out. -/
theorem signedAttrs_eq (lib : KeylessLibrary) {si : SignerInfo}
    (hattrs : si.authAttr = some (attrs.map i2d)) (h : (attrs.flatMap i2d).length < 2 ^ 31) :
    (signedAttrsPayload i2d attrs).map (·.bind lib.b64Encode) = some (lib.signedAttrs si) := by
  have hflatten : (attrs.map i2d).flatten = attrs.flatMap i2d := List.flatMap_def.symm
  rw [signedAttrsPayload_eq h, Option.map_some, KeylessLibrary.signedAttrs, hattrs]
  simp only [Option.bind_eq_bind, Option.bind_some, hflatten, derLength_eq h]
  split_ifs <;> rfl

end Passes

/-- **The payload.** It is built unless there are no attributes, and it is the SET of them. -/
theorem signedAttrsPayload_spec {α : Type} (codec : X509AttributeCodec α) (attrs : List α)
    (h : (attrs.flatMap codec.i2d).length < 2 ^ 31) :
    ∃ payload, signedAttrsPayload codec.i2d attrs = some payload ∧
      (payload = none ↔ attrs = []) ∧
      ∀ bytes, payload = some bytes → codec.IsSetOf attrs bytes := by
  refine ⟨_, signedAttrsPayload_eq h, ?_, ?_⟩
  · have hempty : attrs.flatMap codec.i2d = [] ↔ attrs = [] := by
      cases attrs with
      | nil => simp
      | cons attr attrs => simp [codec.i2d_ne_nil]
    rw [← hempty]
    split_ifs with hnil
    · exact iff_of_true rfl hnil
    · exact iff_of_false (by simp) hnil
  · rintro bytes hbytes
    have hlen : (attrs.flatMap codec.i2d).length < 256 ^ 126 := h.trans (by decide)
    split_ifs at hbytes
    obtain rfl := Option.some.inj hbytes
    refine ⟨⟨_, Der.isLength_lengthOctets hlen, rfl⟩, ?_⟩
    have hdecode := Der.decode_append (e := ⟨0x31, attrs.flatMap codec.i2d⟩) hlen []
    rw [List.append_nil] at hdecode
    have hmany := Der.decodeMany_flatMap codec.i2d_ne_nil codec.d2i_i2d attrs le_rfl
    simp only [X509AttributeCodec.decodeSet, hdecode, Option.bind_eq_bind, Option.bind_some, ne_eq,
      not_true_eq_false, or_self, if_false]
    exact hmany

/-- An attribute as a SEQUENCE with given contents. -/
def sequenceCodec : X509AttributeCodec {l : List UInt8 // l.length < 2 ^ 31} where
  i2d attr := Der.Element.encode ⟨0x30, attr⟩
  d2i bytes := do
    let (e, rest) ← Der.decode bytes
    if h : e.tag = 0x30 ∧ e.contents.length < 2 ^ 31 then some (⟨e.contents, h.2⟩, rest) else none
  i2d_ne_nil _ := List.cons_ne_nil _ _
  d2i_i2d attr rest := by
    have hlen : attr.1.length < 256 ^ 126 := attr.2.trans (by decide)
    rw [Der.decode_append (e := ⟨0x30, attr⟩) hlen]
    exact dif_pos ⟨rfl, attr.2⟩

/-- The content type and the message digest, cut short. -/
def twoAttributes : List {l : List UInt8 // l.length < 2 ^ 31} :=
  [⟨[0x06, 0x01, 0x03], by decide⟩, ⟨[0x06, 0x01, 0x04, 0x31, 0x00], by decide⟩]

/-- A set of two attributes. -/
theorem signedAttrsPayload_twoAttributes :
    (twoAttributes.flatMap sequenceCodec.i2d).length < 2 ^ 31 ∧
      ∃ payload, signedAttrsPayload sequenceCodec.i2d twoAttributes = some payload ∧
        (payload = none ↔ twoAttributes = []) ∧
        ∀ bytes, payload = some bytes → sequenceCodec.IsSetOf twoAttributes bytes :=
  ⟨by decide, signedAttrsPayload_spec sequenceCodec twoAttributes (by decide)⟩

end Shim
