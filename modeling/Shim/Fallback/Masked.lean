import Shim.Common.Stretch
import Shim.Fallback.LoadOption

/-! # Masked load options

`check_masked_boot_option` (fallback.c:331-395) against the form in which some firmware stores an
option that it hides: the hidden attribute is set, and a vendor node and an end node stand before
the device path. The result is that of `checkMaskedBootOption`; here is what is read on the way to
it.
-/

namespace Shim

open Stretch (AllInside allInside_nil allInside_cons allInside_append)

/-! ## The reads -/

/-- The two buffers. -/
inductive MaskedBuffer where
  | candidate
  | data
  deriving DecidableEq

section Reads

variable (candidate data : List UInt8)

/-- The two nodes are looked at, the first one at `cursor`. -/
def maskedPathReads (cursor : ℕ) : List (Stretch MaskedBuffer) :=
  let r := Region.ofList 0 candidate
  let nodeSize := (r.u16 (cursor + 2) + (2 ^ 32 - 4)) % 2 ^ 32
  if candidate.length ≤ cursor + 4 then []
  else ⟨.candidate, cursor, 4⟩ ::
    if (cursor + 4 + nodeSize) % 2 ^ 32 < candidate.length ∧ r.byte cursor &&& 0x7f = 1 ∧
        r.byte (cursor + 1) = 4 ∧ nodeSize = 16 then
      ⟨.candidate, (cursor + 4 : ℕ), 16⟩ ::
        if r.bytes (cursor + 4) 16 = amiMaskedDevicePathGuid ∧ cursor + 24 < candidate.length then
          [⟨.candidate, (cursor + 20 : ℕ), 4⟩]
        else []
    else []

/-- What is compared before the device path: the nodes are those of a masked option, it is hidden,
and its attributes, the size of its device path and its description of `n` bytes are those of
`data`. -/
structure ComesToPath (n : ℕ) : Prop where
  nodes : isMaskedPath candidate (6 + n)
  hidden : (Region.ofList 0 candidate).u32 0 / loadOptionHidden % 2 ≠ 0
  attributes : (Region.ofList 0 candidate).u32 0 - loadOptionHidden = (Region.ofList 0 data).u32 0
  pathLength : calcMaskedBootOptionSize ((Region.ofList 0 data).u16 4) =
    (Region.ofList 0 candidate).u16 4
  description : (Region.ofList 0 candidate).bytes 6 n = (Region.ofList 0 data).bytes 6 n

instance (n : ℕ) : Decidable (ComesToPath candidate data n) :=
  decidable_of_iff (isMaskedPath candidate (6 + n) ∧
    (Region.ofList 0 candidate).u32 0 / loadOptionHidden % 2 ≠ 0 ∧
    (Region.ofList 0 candidate).u32 0 - loadOptionHidden = (Region.ofList 0 data).u32 0 ∧
    calcMaskedBootOptionSize ((Region.ofList 0 data).u16 4) = (Region.ofList 0 candidate).u16 4 ∧
    (Region.ofList 0 candidate).bytes 6 n = (Region.ofList 0 data).bytes 6 n)
    ⟨fun ⟨h₁, h₂, h₃, h₄, h₅⟩ => ⟨h₁, h₂, h₃, h₄, h₅⟩, fun h => ⟨h.1, h.2, h.3, h.4, h.5⟩⟩

/-- The fields of the two buffers are compared up to the description. -/
def maskedFieldReads (n : ℕ) : List (Stretch MaskedBuffer) :=
  let r := Region.ofList 0 candidate
  let d := Region.ofList 0 data
  ⟨.candidate, 0, 4⟩ ::
    if r.u32 0 / loadOptionHidden % 2 = 0 then []
    else ⟨.data, 0, 4⟩ ::
      if r.u32 0 - loadOptionHidden ≠ d.u32 0 then []
      else ⟨.data, 4, 2⟩ :: ⟨.candidate, 4, 2⟩ ::
        if calcMaskedBootOptionSize (d.u16 4) ≠ r.u16 4 then []
        else [⟨.candidate, 6, n⟩, ⟨.data, 6, n⟩]

/-- The device paths and what is behind them are compared. The description of `data` is measured
from its second character on; there are two more bytes in its buffer. -/
def maskedRestReads (n : ℕ) : List (Stretch MaskedBuffer) :=
  let size := candidate.length - (6 + n + 24)
  match strSize (data ++ [0, 0]) 8 with
  | none => [⟨.data, 8, data.length + 2⟩]
  | some m =>
    [⟨.data, 8, m⟩,
      ⟨.candidate, (6 + n + 20 + (Region.ofList 0 candidate).u16 (6 + n + 22) : ℕ), size⟩,
      ⟨.data, (8 + m : ℕ), size⟩]

/-- What `check_masked_boot_option` reads. -/
def maskedReads (dataSize : ℕ) : List (Stretch MaskedBuffer) :=
  if calcMaskedBootOptionSize dataSize ≠ candidate.length then []
  else
    match strSize candidate 6 with
    -- on from the description to behind the candidate
    | none => [⟨.candidate, 6, candidate.length⟩]
    | some n =>
      ⟨.candidate, 6, n⟩ :: maskedPathReads candidate (6 + n) ++
        (if isMaskedPath candidate (6 + n) then maskedFieldReads candidate data n else []) ++
        (if ComesToPath candidate data n then maskedRestReads candidate data n else [])

end Reads

/-! ## What is expected -/

/-- An option that `find_boot_option` builds: an `unsigned int` counts it and the masking nodes, so
that it is built inside of the buffer that is allocated for it. -/
structure BuiltOption where
  dp : List DevicePathNode
  label : CsvField
  arguments : CsvField
  fits : writtenSize dp label arguments + 48 < 2 ^ 32

namespace BuiltOption

variable (o : BuiltOption)

/-- `data` and `size`. -/
def data : List UInt8 := expectedOption o.dp o.label o.arguments

def size : ℕ := expectedSize o.dp o.label o.arguments

/-- The description with its terminator. -/
def description : List UInt8 := wideBytes o.label.text ++ [0, 0]

/-- The device path and the arguments. -/
def rest : List UInt8 := encodePath o.dp ++ wideBytes o.arguments.text

/-- `FilePathListLength`. -/
def pathLength : ℕ := devicePathSize o.dp % 2 ^ 16

end BuiltOption

/-- A vendor node with the GUID. The highest bit of a type does not belong to it. -/
def IsAmiNode (node : List UInt8) : Prop :=
  ∃ type : UInt8, type &&& 0x7f = 1 ∧ node = type :: 4 :: field16 20 ++ amiMaskedDevicePathGuid

/-- An end node. -/
def IsEndNode (node : List UInt8) : Prop :=
  ∃ type : UInt8, type &&& 0x7f = 0x7f ∧ node = type :: 0xff :: field16 4

/-- The masked form of an option. -/
def IsMaskedForm (o : BuiltOption) (candidate : List UInt8) : Prop :=
  ∃ vendor endOfMask, IsAmiNode vendor ∧ IsEndNode endOfMask ∧ o.pathLength + 24 < 2 ^ 16 ∧
    candidate = Region.le32 (loadOptionActive + loadOptionHidden) ++ field16 (o.pathLength + 24) ++
      o.description ++ vendor ++ endOfMask ++ o.rest

/-- The sizes of the buffers; two NULs are behind `data`. -/
def MaskedBuffer.size (o : BuiltOption) (candidate : List UInt8) : MaskedBuffer → ℕ
  | .candidate => candidate.length
  | .data => o.size + 2

/-- The candidate is taken for a masked option exactly if it is one, and read within its bounds. -/
structure RecognisesMasked (o : BuiltOption) (candidate : List UInt8) : Prop where
  inside : AllInside (MaskedBuffer.size o candidate) (maskedReads candidate o.data o.size)
  exact : checkMaskedBootOption candidate o.data o.size = true ↔ IsMaskedForm o candidate

/-! ## When it is met -/

section Condition

variable (o : BuiltOption) (candidate : List UInt8) (n : ℕ)

/-- The length of the end node of the mask. -/
def endLength : ℕ := (Region.ofList 0 candidate).u16 (6 + n + 22)

/-- The bytes from an offset of the candidate on are those from an offset of `data` on, for all that
is behind the masking nodes. -/
def SameRest (p q : ℕ) : Prop :=
  (Region.ofList 0 candidate).bytes p o.rest.length = (Region.ofList 0 o.data).bytes q o.rest.length

/-- Where the device paths are compared, the end node of the mask is no longer than four bytes, and
an empty description is followed by two NULs; and if it is shorter, or the description is empty,
neither the bytes that are compared are the same nor those that should be. -/
structure RestCondition : Prop where
  short_end : endLength candidate n ≤ 4
  empty : o.label.text = [] → (Region.ofList 0 o.data).u16 8 = 0
  differ : endLength candidate n = 4 ∧ o.label.text ≠ [] ∨
    ¬ SameRest o candidate (6 + n + 20 + endLength candidate n)
        (if o.label.text = [] then 10 else 6 + n) ∧
      (endLength candidate n = 4 → ¬ SameRest o candidate (6 + n + 24) (6 + n))

/-- A candidate of the size of a masked option has a description that ends in it, and what is
compared behind the masking nodes is what should be. -/
structure MaskedCondition : Prop where
  terminated : candidate.length = o.size + 24 → strSize candidate 6 ≠ none
  rest : candidate.length = o.size + 24 → ∀ n, strSize candidate 6 = some n →
    ComesToPath candidate o.data n → RestCondition o candidate n

end Condition

/-! ## Strings in bytes -/

section Strings

variable {r : Region} {l : List UInt8} {p n k : ℕ}

/-- A character that is held is read. -/
theorem u16_bytes16 {c : UInt16} (h : r.HoldsAt p (bytes16 c)) : r.u16 p = c.toNat := by
  have hlt := c.toNat_lt
  simp only [bytes16, Region.holdsAt_cons] at h
  obtain ⟨hlow, hhigh, -⟩ := h
  rw [Region.u16, hlow, hhigh]
  simp only [UInt16.toNat_toUInt8, UInt16.toNat_shiftRight, Nat.shiftRight_eq_div_pow]
  have h8 : (8 : UInt16).toNat % 16 = 8 := rfl
  rw [h8]
  omega

/-- The characters of a wide string. -/
theorem u16_wideBytes {text : List UInt16} (h : r.HoldsAt p (wideBytes text))
    (hk : k < text.length) : r.u16 (p + 2 * k) = text[k].toNat := by
  induction text generalizing p k with
  | nil => exact absurd hk (Nat.not_lt_zero k)
  | cons c text ih =>
    have hcons : wideBytes (c :: text) = bytes16 c ++ wideBytes text := rfl
    rw [hcons, Region.holdsAt_append] at h
    cases k with
    | zero => exact u16_bytes16 h.1
    | succ k =>
      have hrest := ih h.2 (by simpa using hk)
      have hlen : (bytes16 c).length = 2 := rfl
      rw [hlen, show p + 2 + 2 * k = p + 2 * (k + 1) by omega] at hrest
      exact hrest

/-- The size of a string is found exactly if its NUL is. -/
theorem strSize_eq_some : strSize l p = some n ↔ ∃ k, n = 2 * k + 2 ∧ k < (l.length - p) / 2 ∧
    (Region.ofList 0 l).u16 (p + 2 * k) = 0 ∧
      ∀ j < k, (Region.ofList 0 l).u16 (p + 2 * j) ≠ 0 := by
  rw [strSize, Option.map_eq_some_iff]
  simp only [List.find?_range_eq_some, decide_eq_true_eq, List.mem_range]
  constructor
  · rintro ⟨k, ⟨hzero, hk, hne⟩, rfl⟩
    exact ⟨k, rfl, hk, hzero, fun j hj => by simpa using hne j hj⟩
  · rintro ⟨k, rfl, hk, hzero, hne⟩
    exact ⟨k, ⟨hzero, hk, fun j hj => by simpa using hne j hj⟩, rfl⟩

/-- A number that is held is read, modulo 2^16. -/
theorem u16_le16 (h : r.HoldsAt p (field16 n)) : r.u16 p = n % 2 ^ 16 := by
  simp only [field16, Region.holdsAt_cons] at h
  rw [Region.u16, h.1, h.2.1, UInt8.toNat_ofNat', UInt8.toNat_ofNat']
  omega

end Strings

/-! ## The option in memory -/

section Built

variable (o : BuiltOption)

/-- The parts of an option: its fields, its description and the rest. -/
theorem BuiltOption.data_eq : o.data = Region.le32 loadOptionActive ++
    field16 (devicePathSize o.dp) ++ o.description ++ o.rest := by
  have hfits := o.fits
  rw [data, expectedOption_eq, writtenOption, Nat.mod_eq_of_lt (by omega), List.take_of_length_le]
  · simp only [description, rest, List.append_assoc]
  · simp only [List.length_append, length_wideBytes, Region.length_le32, field16,
      List.length_cons, List.length_nil, writtenSize, devicePathSize]
    omega

/-- The description with its NUL. -/
theorem BuiltOption.length_description : o.description.length = 2 * o.label.text.length + 2 := by
  rw [description, List.length_append, length_wideBytes]
  simp only [List.length_cons, List.length_nil]
  omega

/-- How long an option is, by its parts. -/
theorem BuiltOption.length_data :
    o.data.length = 6 + o.description.length + o.rest.length := by
  rw [data_eq]
  simp only [List.length_append, Region.length_le32, field16, List.length_cons, List.length_nil]

/-- The size of an option is the length of its data. -/
theorem BuiltOption.size_eq : o.size = o.data.length := by
  have hfits := o.fits
  rw [size, expectedSize_eq, Nat.mod_eq_of_lt (by omega), o.length_data, o.length_description, rest,
    List.length_append, length_wideBytes, writtenSize, devicePathSize]
  omega

/-- The fields of the option. -/
theorem BuiltOption.holdsAt : (Region.ofList 0 o.data).u32 0 = loadOptionActive ∧
    (Region.ofList 0 o.data).u16 4 = o.pathLength ∧
    (Region.ofList 0 o.data).HoldsAt 6 o.description ∧
    (Region.ofList 0 o.data).HoldsAt (6 + o.description.length) o.rest := by
  have h := Region.holdsAt_ofList_zero 0 o.data
  have hdata := o.data_eq
  generalize Region.ofList 0 o.data = d at h ⊢
  rw [hdata] at h
  simp only [Region.holdsAt_append, List.length_append, Region.length_le32, Nat.zero_add] at h
  obtain ⟨⟨⟨hattributes, hlength⟩, hdescription⟩, hrest⟩ := h
  exact ⟨hattributes.u32 (by decide), u16_le16 hlength, hdescription, hrest⟩

/-- The description of the option is a string. -/
theorem BuiltOption.description_u16 :
    (∀ j < o.label.text.length, (Region.ofList 0 o.data).u16 (6 + 2 * j) ≠ 0) ∧
      (Region.ofList 0 o.data).u16 (6 + 2 * o.label.text.length) = 0 := by
  obtain ⟨-, -, hdescription, -⟩ := o.holdsAt
  generalize Region.ofList 0 o.data = d at hdescription ⊢
  rw [description, Region.holdsAt_append, length_wideBytes] at hdescription
  constructor
  · intro j hj
    rw [u16_wideBytes hdescription.1 hj]
    intro hzero
    have hnul : o.label.text[j] = 0 := UInt16.toNat_inj.mp hzero
    exact o.label.no_nul (hnul ▸ List.getElem_mem hj)
  · have hnul := hdescription.2
    simp only [Region.holdsAt_cons] at hnul
    rw [Nat.mul_comm 2, Region.u16, hnul.1, hnul.2.1]
    rfl

end Built

/-! ## The masked form in memory -/

section Form

variable {o : BuiltOption} {candidate : List UInt8} {n : ℕ}

/-- What `isMaskedPath` tests, field by field. -/
theorem isMaskedPath_iff {cursor : ℕ} : isMaskedPath candidate cursor = true ↔
    cursor + 24 < candidate.length ∧ (Region.ofList 0 candidate).byte cursor &&& 0x7f = 1 ∧
      (Region.ofList 0 candidate).byte (cursor + 1) = 4 ∧
      (Region.ofList 0 candidate).u16 (cursor + 2) = 20 ∧
      (Region.ofList 0 candidate).bytes (cursor + 4) 16 = amiMaskedDevicePathGuid ∧
      (Region.ofList 0 candidate).byte (cursor + 20) &&& 0x7f = 0x7f ∧
      (Region.ofList 0 candidate).byte (cursor + 21) = 0xff := by
  have hlt := (Region.ofList 0 candidate).u16_lt (cursor + 2)
  rw [isMaskedPath, decide_eq_true_eq]
  constructor
  · rintro ⟨-, -, htype, hsub, hsize, hguid, hlen, hend, hendsub⟩
    exact ⟨hlen, htype, hsub, by omega, hguid, hend, hendsub⟩
  · rintro ⟨hlen, htype, hsub, hsize, hguid, hend, hendsub⟩
    rw [hsize]
    refine ⟨by omega, ?_, htype, hsub, rfl, hguid, hlen, hend, hendsub⟩
    exact lt_of_le_of_lt (Nat.mod_le _ _) (by omega)

/-- A description that is the same ends at the same place. -/
theorem ComesToPath.eq_description (h : ComesToPath candidate o.data n)
    (hn : strSize candidate 6 = some n) : n = o.description.length := by
  obtain ⟨k, rfl, -, hzero, hne⟩ := strSize_eq_some.mp hn
  obtain ⟨hchars, hnul⟩ := o.description_u16
  have hsame : ∀ j ≤ k, (Region.ofList 0 candidate).u16 (6 + 2 * j) =
      (Region.ofList 0 o.data).u16 (6 + 2 * j) := by
    intro j hj
    refine (Region.agreeOn_of_bytes h.description).u16 fun i hi hi' => ?_
    exact ⟨by omega, by omega⟩
  rw [o.length_description]
  rcases lt_trichotomy k o.label.text.length with hlt | rfl | hlt
  · exact absurd ((hsame k le_rfl).symm.trans hzero) (hchars k hlt)
  · rfl
  · exact absurd ((hsame _ hlt.le).trans hnul) (hne _ hlt)

/-- The masked form, by what is compared. -/
structure FormAt (o : BuiltOption) (candidate : List UInt8) : Prop where
  length : candidate.length = o.data.length + 24
  terminated : strSize candidate 6 = some o.description.length
  comes : ComesToPath candidate o.data o.description.length
  end_length : endLength candidate o.description.length = 4
  rest : SameRest o candidate (6 + o.description.length + 24) (6 + o.description.length)

/-- The mask takes 24 bytes. -/
theorem calcMaskedBootOptionSize_eq {m : ℕ} (h : m < 2 ^ 16) :
    calcMaskedBootOptionSize m = m + 24 := by
  unfold calcMaskedBootOptionSize
  omega

/-- The node in front takes 20 bytes. -/
theorem length_amiNode {node : List UInt8} (h : IsAmiNode node) : node.length = 20 := by
  obtain ⟨type, -, rfl⟩ := h
  rfl

/-- The end node takes 4 bytes. -/
theorem length_endNode {node : List UInt8} (h : IsEndNode node) : node.length = 4 := by
  obtain ⟨type, -, rfl⟩ := h
  rfl

/-- There is always a path. -/
theorem BuiltOption.rest_pos (o : BuiltOption) : 0 < o.rest.length := by
  rw [rest, encodePath]
  simp only [List.length_append, endNode, List.length_cons]
  omega

/-- The nodes of a mask, as they are looked at. -/
theorem holdsAt_amiNode {r : Region} {p : ℕ} : (∃ node, IsAmiNode node ∧ r.HoldsAt p node) ↔
    r.byte p &&& 0x7f = 1 ∧ r.byte (p + 1) = 4 ∧ r.u16 (p + 2) = 20 ∧
      r.bytes (p + 4) 16 = amiMaskedDevicePathGuid := by
  constructor
  · rintro ⟨node, ⟨type, htype, rfl⟩, h⟩
    rw [Region.holdsAt_append, Region.holdsAt_cons, Region.holdsAt_cons] at h
    obtain ⟨⟨hbyte, hsub, hsize⟩, hguid⟩ := h
    exact ⟨hbyte.symm ▸ htype, hsub, u16_le16 hsize, hguid⟩
  · rintro ⟨htype, hsub, hsize, hguid⟩
    refine ⟨_, ⟨r.byte p, htype, rfl⟩, ?_⟩
    rw [Region.holdsAt_append, Region.holdsAt_cons, Region.holdsAt_cons]
    exact ⟨⟨rfl, hsub, hsize ▸ r.holdsAt_u16 (p + 2)⟩, hguid⟩

/-- An end node, field by field. -/
theorem holdsAt_endOfMask {r : Region} {p : ℕ} : (∃ node, IsEndNode node ∧ r.HoldsAt p node) ↔
    r.byte p &&& 0x7f = 0x7f ∧ r.byte (p + 1) = 0xff ∧ r.u16 (p + 2) = 4 := by
  constructor
  · rintro ⟨node, ⟨type, htype, rfl⟩, h⟩
    rw [Region.holdsAt_cons, Region.holdsAt_cons] at h
    exact ⟨h.1.symm ▸ htype, h.2.1, u16_le16 h.2.2⟩
  · rintro ⟨htype, hsub, hsize⟩
    refine ⟨_, ⟨r.byte p, htype, rfl⟩, ?_⟩
    rw [Region.holdsAt_cons, Region.holdsAt_cons]
    exact ⟨rfl, hsub, hsize ▸ r.holdsAt_u16 (p + 2)⟩

/-- The hidden attribute is set in no other attribute. -/
theorem hidden_iff {m : ℕ} : m / loadOptionHidden % 2 ≠ 0 ∧
    m - loadOptionHidden = loadOptionActive ↔ m = loadOptionActive + loadOptionHidden := by
  unfold loadOptionHidden loadOptionActive
  omega

/-- A masked form has the mask behind its description. -/
theorem formAt_of_isMaskedForm (h : IsMaskedForm o candidate) : FormAt o candidate := by
  obtain ⟨vendor, endOfMask, hvendor, hend, hlength, hcandidate⟩ := h
  obtain ⟨hattributes, hpath, hdescription, hrest⟩ := o.holdsAt
  obtain ⟨hchars, hnul⟩ := o.description_u16
  have hdesc := o.length_description
  have hpos := o.rest_pos
  have hlen : candidate.length = o.data.length + 24 := by
    rw [hcandidate, o.length_data]
    simp only [List.length_append, Region.length_le32, field16, List.length_cons, List.length_nil,
      length_amiNode hvendor, length_endNode hend]
    omega
  have hfields := Region.holdsAt_ofList_zero 0 candidate
  have hdata := o.length_data
  generalize hr : Region.ofList 0 candidate = r at hfields
  rw [hcandidate] at hfields
  simp only [Region.holdsAt_append, List.length_append, Region.length_le32, length_amiNode hvendor,
    length_endNode hend, Nat.zero_add] at hfields
  have hfield : (field16 (o.pathLength + 24)).length = 2 := rfl
  simp only [hfield, Nat.reduceAdd] at hfields
  -- the parts of the candidate one behind the other
  obtain ⟨⟨⟨⟨⟨hhidden, hsize⟩, htext⟩, hnode⟩, hendNode⟩, hsame⟩ := hfields
  obtain ⟨hattr, hequal⟩ := hidden_iff.mpr (hhidden.u32 (by decide))
  obtain ⟨htype, hsub, hnodeSize, hguid⟩ := holdsAt_amiNode.mp ⟨vendor, hvendor, hnode⟩
  obtain ⟨hendType, hendSub, hendSize⟩ := holdsAt_endOfMask.mp ⟨endOfMask, hend, hendNode⟩
  have hbytes : r.bytes 6 o.description.length =
      (Region.ofList 0 o.data).bytes 6 o.description.length := htext.trans hdescription.symm
  have hchar : ∀ j, 2 * j + 2 ≤ o.description.length →
      r.u16 (6 + 2 * j) = (Region.ofList 0 o.data).u16 (6 + 2 * j) := by
    intro j hj
    exact (Region.agreeOn_of_bytes hbytes).u16 fun i hi hi' => ⟨by omega, by omega⟩
  refine ⟨hlen, ?_, ⟨?_, ?_, ?_, ?_, ?_⟩, ?_, ?_⟩
  · refine strSize_eq_some.mpr ⟨o.label.text.length, hdesc, by omega, ?_, fun j hj => ?_⟩
    · rw [hr, hchar _ (by omega), hnul]
    · rw [hr, hchar j (by omega)]
      exact hchars j hj
  · rw [isMaskedPath_iff, hr]
    exact ⟨by omega, htype, hsub, hnodeSize, hguid, hendType, hendSub⟩
  · rw [hr]
    exact hattr
  · rw [hr, hequal, hattributes]
  · have hle : o.pathLength < 2 ^ 16 := by omega
    rw [hr, hpath, calcMaskedBootOptionSize_eq hle, u16_le16 hsize, Nat.mod_eq_of_lt hlength]
  · rw [hr]
    exact hbytes
  · rw [endLength, hr]
    exact hendSize
  · unfold SameRest
    rw [hr]
    exact hsame.trans hrest.symm

/-- The mask behind the description makes a masked form. -/
theorem isMaskedForm_of_formAt (h : FormAt o candidate) : IsMaskedForm o candidate := by
  obtain ⟨hattributes, hpath, hdescription, hrest⟩ := o.holdsAt
  obtain ⟨-, htype, hsub, hnodeSize, hguid, hendType, hendSub⟩ := isMaskedPath_iff.mp h.comes.nodes
  have hhidden := h.comes.hidden
  have hequal := h.comes.attributes
  have hlength := h.comes.pathLength
  have htext := h.comes.description
  have hsame := h.rest
  have hend := h.end_length
  have hdata := o.length_data
  have hlen := h.length
  have hfields := Region.holdsAt_bytes (Region.ofList 0 candidate) 0 candidate.length
  have hlist : (Region.ofList 0 candidate).bytes 0 candidate.length = candidate :=
    Region.holdsAt_ofList_zero 0 candidate
  unfold SameRest at hsame
  unfold endLength at hend
  generalize Region.ofList 0 candidate = r at *
  have hle : o.pathLength < 2 ^ 16 := Nat.mod_lt _ (by decide)
  have hu16 := r.u16_lt 4
  rw [hattributes] at hequal
  rw [hpath, calcMaskedBootOptionSize_eq hle] at hlength
  obtain ⟨vendor, hvendor, hnode⟩ := holdsAt_amiNode.mpr ⟨htype, hsub, hnodeSize, hguid⟩
  obtain ⟨endOfMask, hendNode, hendAt⟩ := holdsAt_endOfMask.mpr ⟨hendType, hendSub, hend⟩
  refine ⟨vendor, endOfMask, hvendor, hendNode, by omega, ?_⟩
  have hfirst : r.HoldsAt 0 (Region.le32 (loadOptionActive + loadOptionHidden)) := by
    rw [← hidden_iff.mp ⟨hhidden, hequal⟩]
    exact r.holdsAt_u32 0
  have hsecond : r.HoldsAt 4 (field16 (o.pathLength + 24)) := by
    rw [hlength]
    exact r.holdsAt_u16 4
  -- the six parts, one behind the other
  have hform : r.HoldsAt 0 (Region.le32 (loadOptionActive + loadOptionHidden) ++
      field16 (o.pathLength + 24) ++ o.description ++ vendor ++ endOfMask ++ o.rest) := by
    have hfield : (field16 (o.pathLength + 24)).length = 2 := rfl
    simp only [Region.holdsAt_append, List.length_append, Region.length_le32,
      length_amiNode hvendor, length_endNode hendNode, Nat.zero_add, hfield, Nat.reduceAdd]
    exact ⟨⟨⟨⟨⟨hfirst, hsecond⟩, htext.trans hdescription⟩, hnode⟩, hendAt⟩, hsame.trans hrest⟩
  rw [← hlist]
  refine hform.bytes ?_
  rw [hlen, hdata]
  simp only [List.length_append, Region.length_le32, field16, List.length_cons, List.length_nil,
    length_amiNode hvendor, length_endNode hendNode]
  omega

/-- A masked form is told by its fields. -/
theorem isMaskedForm_iff : IsMaskedForm o candidate ↔ FormAt o candidate :=
  ⟨formAt_of_isMaskedForm, isMaskedForm_of_formAt⟩

/-- The size of a masked option. -/
theorem BuiltOption.maskedSize (o : BuiltOption) :
    calcMaskedBootOptionSize o.size = o.data.length + 24 ∧ o.data.length + 48 < 2 ^ 32 := by
  have hfits := o.fits
  have hsize : o.size = writtenSize o.dp o.label o.arguments := by
    rw [size, expectedSize_eq, Nat.mod_eq_of_lt (by omega)]
  rw [← o.size_eq, hsize]
  unfold calcMaskedBootOptionSize
  exact ⟨by omega, hfits⟩

end Form

/-! ## The bounds of the reads -/

section ReadsSpec

variable {o : BuiltOption} {candidate : List UInt8} {n : ℕ}

/-- A stretch of the candidate. -/
theorem inside_candidate {start count : ℕ} (h : start + count ≤ candidate.length) :
    Stretch.Inside (MaskedBuffer.size o candidate) ⟨.candidate, start, count⟩ := by
  constructor <;> dsimp only [MaskedBuffer.size] <;> omega

/-- A stretch of the option with the NUL behind it. -/
theorem inside_data {start count : ℕ} (h : start + count ≤ o.data.length + 2) :
    Stretch.Inside (MaskedBuffer.size o candidate) ⟨.data, start, count⟩ := by
  constructor <;> dsimp only [MaskedBuffer.size]
  · omega
  · rw [o.size_eq]
    omega

/-- The test for the mask reads inside of the candidate. -/
theorem maskedPathReads_inside {cursor : ℕ} (h : cursor + 24 < 2 ^ 32) :
    AllInside (MaskedBuffer.size o candidate) (maskedPathReads candidate cursor) := by
  unfold maskedPathReads
  dsimp only
  split_ifs with hlen hnode hguid
  · exact allInside_nil
  · exact allInside_cons.mpr ⟨inside_candidate (by omega), allInside_cons.mpr
      ⟨inside_candidate (by omega), allInside_cons.mpr
        ⟨inside_candidate (by omega), allInside_nil⟩⟩⟩
  · obtain ⟨hlt, -, -, hsize⟩ := hnode
    rw [hsize, Nat.mod_eq_of_lt (by omega)] at hlt
    exact allInside_cons.mpr ⟨inside_candidate (by omega), allInside_cons.mpr
      ⟨inside_candidate (by omega), allInside_nil⟩⟩
  · exact allInside_cons.mpr ⟨inside_candidate (by omega), allInside_nil⟩

/-- So does the comparison of the fields. -/
theorem maskedFieldReads_inside (hlength : candidate.length = o.data.length + 24)
    (hlong : 6 + n + 24 < candidate.length) :
    AllInside (MaskedBuffer.size o candidate) (maskedFieldReads candidate o.data n) := by
  have hfirst : Stretch.Inside (MaskedBuffer.size o candidate) ⟨.candidate, (0 : ℕ), 4⟩ :=
    inside_candidate (by omega)
  have hattributes : Stretch.Inside (MaskedBuffer.size o candidate) ⟨.data, (0 : ℕ), 4⟩ :=
    inside_data (by omega)
  unfold maskedFieldReads
  dsimp only
  split_ifs
  · exact allInside_cons.mpr ⟨hfirst, allInside_nil⟩
  · exact allInside_cons.mpr ⟨hfirst, allInside_cons.mpr ⟨hattributes, allInside_nil⟩⟩
  · exact allInside_cons.mpr ⟨hfirst, allInside_cons.mpr ⟨hattributes, allInside_cons.mpr
      ⟨@inside_data o candidate 4 2 (by omega), allInside_cons.mpr
        ⟨@inside_candidate o candidate 4 2 (by omega), allInside_nil⟩⟩⟩⟩
  · exact allInside_cons.mpr ⟨hfirst, allInside_cons.mpr ⟨hattributes, allInside_cons.mpr
      ⟨@inside_data o candidate 4 2 (by omega), allInside_cons.mpr
        ⟨@inside_candidate o candidate 4 2 (by omega), allInside_cons.mpr
          ⟨@inside_candidate o candidate 6 n (by omega), allInside_cons.mpr
            ⟨@inside_data o candidate 6 n (by omega), allInside_nil⟩⟩⟩⟩⟩⟩

/-- What is read before the device paths is read inside of the buffers if the description ends. -/
theorem maskedReads_inside_iff :
    AllInside (MaskedBuffer.size o candidate) (maskedReads candidate o.data o.size) ↔
      (candidate.length = o.data.length + 24 → strSize candidate 6 ≠ none ∧
        ∀ n, strSize candidate 6 = some n → ComesToPath candidate o.data n →
          AllInside (MaskedBuffer.size o candidate) (maskedRestReads candidate o.data n)) := by
  obtain ⟨hmasked, hfits⟩ := o.maskedSize
  unfold maskedReads
  rw [hmasked]
  by_cases hsize : candidate.length = o.data.length + 24
  · rw [if_neg (not_not_intro hsize.symm)]
    cases hstr : strSize candidate 6 with
    | none =>
      -- the description does not end in the candidate
      refine iff_of_false (fun h => ?_) fun h => (h hsize).1 rfl
      have hread := (allInside_cons.mp h).1.2
      dsimp only [MaskedBuffer.size] at hread
      omega
    | some n =>
      -- the reads up to the path are inside; what follows depends on the path
      obtain ⟨k, rfl, hk, -, -⟩ := strSize_eq_some.mp hstr
      have hdescription : Stretch.Inside (MaskedBuffer.size o candidate)
          ⟨.candidate, (6 : ℕ), 2 * k + 2⟩ := inside_candidate (by omega)
      have hpath : AllInside (MaskedBuffer.size o candidate)
          (maskedPathReads candidate (6 + (2 * k + 2))) := maskedPathReads_inside (by omega)
      have hfields : AllInside (MaskedBuffer.size o candidate)
          (if isMaskedPath candidate (6 + (2 * k + 2)) then
            maskedFieldReads candidate o.data (2 * k + 2) else []) := by
        split_ifs with hnodes
        · exact maskedFieldReads_inside hsize (isMaskedPath_iff.mp hnodes).1
        · exact allInside_nil
      dsimp only
      rw [allInside_append, allInside_append, allInside_cons]
      constructor
      · rintro ⟨-, hrest⟩ -
        refine ⟨by simp, fun n hn hcomes => ?_⟩
        obtain rfl := Option.some.inj hn
        rwa [if_pos hcomes] at hrest
      · intro h
        refine ⟨⟨⟨hdescription, hpath⟩, hfields⟩, ?_⟩
        split_ifs with hcomes
        · exact (h hsize).2 _ rfl hcomes
        · exact allInside_nil
  · rw [if_pos fun h => hsize h.symm]
    exact iff_of_true allInside_nil fun h => absurd h hsize

/-- The buffer of an option holds NULs behind it. -/
theorem ofList_append_nul (l : List UInt8) (i : ℕ) :
    (Region.ofList 0 (l ++ [0, 0])).byte i = (Region.ofList 0 l).byte i := by
  simp only [Region.ofList, List.getD_eq_getElem?_getD, List.getElem?_append]
  split_ifs with hi
  · rfl
  · rw [List.getElem?_eq_none (Nat.le_of_not_lt hi)]
    generalize i - l.length = k
    rcases k with _ | _ | k <;> rfl

/-- A NUL behind the bytes is read as nothing. -/
theorem u16_append_nul (l : List UInt8) (p : ℕ) :
    (Region.ofList 0 (l ++ [0, 0])).u16 p = (Region.ofList 0 l).u16 p := by
  rw [Region.u16, Region.u16, ofList_append_nul, ofList_append_nul]

/-- What is measured of a description that is not empty. -/
theorem strSize_data (h : o.label.text ≠ []) :
    strSize (o.data ++ [0, 0]) 8 = some (o.description.length - 2) := by
  obtain ⟨hchars, hnul⟩ := o.description_u16
  have hlen := o.length_description
  have hdata := o.length_data
  have hpos := List.length_pos_iff.mpr h
  refine strSize_eq_some.mpr ⟨o.label.text.length - 1, by omega, ?_, ?_, fun j hj => ?_⟩
  · rw [List.length_append, List.length_cons, List.length_singleton]
    omega
  · rw [u16_append_nul,
      show 8 + 2 * (o.label.text.length - 1) = 6 + 2 * o.label.text.length by omega]
    exact hnul
  · rw [u16_append_nul, show 8 + 2 * j = 6 + 2 * (j + 1) by omega]
    exact hchars (j + 1) (by omega)

/-- What is measured where NULs follow an empty description. -/
theorem strSize_data_two (h : (Region.ofList 0 o.data).u16 8 = 0) :
    strSize (o.data ++ [0, 0]) 8 = some 2 := by
  have hdata := o.length_data
  have hlen := o.length_description
  have hpos := o.rest_pos
  refine strSize_eq_some.mpr ⟨0, rfl, ?_, ?_, fun j hj => absurd hj (Nat.not_lt_zero j)⟩
  · rw [List.length_append, List.length_cons, List.length_singleton]
    omega
  · rw [u16_append_nul]
    exact h

/-- The end of the reads, for the size that is measured in `data`. -/
theorem maskedRestReads_some (hsize : candidate.length = o.data.length + 24)
    (hn : n = o.description.length) {m : ℕ} (hm : strSize (o.data ++ [0, 0]) 8 = some m) :
    AllInside (MaskedBuffer.size o candidate) (maskedRestReads candidate o.data n) ↔
      endLength candidate n ≤ 4 ∧ m ≤ o.description.length := by
  have hdata := o.length_data
  have hpos := o.rest_pos
  have hcount : candidate.length - (6 + n + 24) = o.rest.length := by omega
  obtain ⟨k, rfl, hk, -, -⟩ := strSize_eq_some.mp hm
  rw [List.length_append, List.length_cons, List.length_singleton] at hk
  have hfirst : Stretch.Inside (MaskedBuffer.size o candidate) ⟨.data, (8 : ℕ), 2 * k + 2⟩ :=
    inside_data (by omega)
  unfold maskedRestReads
  rw [hm]
  dsimp only
  rw [hcount, ← endLength, allInside_cons, allInside_cons, allInside_cons]
  constructor
  · rintro ⟨-, hcandidate, hrest, -⟩
    have hcandidate := hcandidate.2
    have hrest := hrest.2
    dsimp only [MaskedBuffer.size] at hcandidate hrest
    rw [o.size_eq] at hrest
    omega
  · rintro ⟨hend, hle⟩
    exact ⟨hfirst, inside_candidate (by omega), inside_data (by omega), allInside_nil⟩

/-- The end of the reads is inside of the buffers if the mask ends in four bytes, and an empty
description is followed by NULs. -/
theorem maskedRestReads_inside_iff (hsize : candidate.length = o.data.length + 24)
    (hn : n = o.description.length) :
    AllInside (MaskedBuffer.size o candidate) (maskedRestReads candidate o.data n) ↔
      endLength candidate n ≤ 4 ∧
        (o.label.text = [] → (Region.ofList 0 o.data).u16 8 = 0) := by
  have hlen := o.length_description
  by_cases hlabel : o.label.text = []
  · rw [hlabel, List.length_nil] at hlen
    by_cases hnul : (Region.ofList 0 o.data).u16 8 = 0
    · rw [maskedRestReads_some hsize hn (strSize_data_two hnul)]
      exact and_congr_right fun _ => iff_of_true (by omega) fun _ => hnul
    · refine iff_of_false (fun h => ?_) fun h => hnul (h.2 hlabel)
      cases hm : strSize (o.data ++ [0, 0]) 8 with
      | none =>
        unfold maskedRestReads at h
        rw [hm] at h
        have hread := (allInside_cons.mp h).1.2
        dsimp only [MaskedBuffer.size] at hread
        rw [o.size_eq] at hread
        omega
      | some m =>
        have hle := ((maskedRestReads_some hsize hn hm).mp h).2
        obtain ⟨k, rfl, -, hzero, -⟩ := strSize_eq_some.mp hm
        obtain rfl : k = 0 := by omega
        rw [u16_append_nul] at hzero
        exact hnul hzero
  · rw [maskedRestReads_some hsize hn (strSize_data hlabel)]
    exact and_congr_right fun _ => iff_of_true (by omega) fun h => absurd h hlabel

end ReadsSpec

/-! ## The result -/

section Result

variable {o : BuiltOption} {candidate : List UInt8} {n m : ℕ}

/-- A candidate of another size is refused. -/
theorem checkMaskedBootOption_of_size (h : candidate.length ≠ o.data.length + 24) :
    checkMaskedBootOption candidate o.data o.size = false := by
  unfold checkMaskedBootOption
  dsimp only
  rw [o.maskedSize.1, if_pos fun hc => h hc.symm]

/-- What is compared up to the device paths. -/
theorem checkMaskedBootOption_of_not_comes (hsize : candidate.length = o.data.length + 24)
    (hn : strSize candidate 6 = some n) (h : ¬ ComesToPath candidate o.data n) :
    checkMaskedBootOption candidate o.data o.size = false := by
  unfold checkMaskedBootOption
  dsimp only
  rw [o.maskedSize.1, if_neg (not_not_intro hsize.symm), hn]
  dsimp only
  split_ifs with hnodes hhidden hattributes hlength hdescription
  · rfl
  · rfl
  · rfl
  · rfl
  · exact absurd ⟨hnodes, hhidden, not_not.mp hattributes, not_not.mp hlength,
      not_not.mp hdescription⟩ h
  · rfl

/-- What is compared then. -/
theorem checkMaskedBootOption_of_comes (hsize : candidate.length = o.data.length + 24)
    (hn : strSize candidate 6 = some n) (h : ComesToPath candidate o.data n)
    (hm : strSize (o.data ++ [0, 0]) 8 = some m) :
    checkMaskedBootOption candidate o.data o.size = true ↔
      SameRest o candidate (6 + n + 20 + endLength candidate n) (8 + m) := by
  have hdata := o.length_data
  have hcount : candidate.length - (6 + n + 24) = o.rest.length := by
    have := h.eq_description hn
    omega
  unfold checkMaskedBootOption
  dsimp only
  rw [o.maskedSize.1, if_neg (not_not_intro hsize.symm), hn]
  dsimp only
  rw [if_neg (not_not_intro h.nodes), if_neg h.hidden, if_neg (not_not_intro h.attributes),
    if_neg (not_not_intro h.pathLength), if_neg (not_not_intro h.description), hm]
  dsimp only
  rw [decide_eq_true_eq, hcount]
  exact Iff.rfl

/-- Two places of `data` that are two bytes apart do not hold the same, up to the NULs behind it. -/
theorem not_sameRest_shift (h : o.label.text = []) {p : ℕ} (h8 : SameRest o candidate p 8)
    (h10 : SameRest o candidate p 10) : False := by
  have hdata := o.length_data
  have hlen := o.length_description
  rw [h, List.length_nil] at hlen
  have hshift := h8.symm.trans h10
  -- two copies two bytes apart, so the bytes repeat
  have hsame : ∀ i < o.rest.length, (Region.ofList 0 o.data).byte (8 + i) =
      (Region.ofList 0 o.data).byte (8 + (i + 2)) := by
    intro i hi
    have hi' : i ∈ List.range o.rest.length := List.mem_range.mpr hi
    have hbyte := List.map_inj_left.mp hshift i hi'
    rwa [show 10 + i = 8 + (i + 2) by omega] at hbyte
  have hbehind : ∀ i, o.rest.length ≤ i → (Region.ofList 0 o.data).byte (8 + i) = 0 := by
    intro i hi
    have hnone : o.data[8 + i]? = none := List.getElem?_eq_none (by omega)
    simp only [Region.ofList, List.getD_eq_getElem?_getD, hnone, Option.getD_none]
  -- and behind the data they are zero, so all of them are
  have hzero : ∀ left i, o.rest.length ≤ i + left → (Region.ofList 0 o.data).byte (8 + i) = 0 := by
    intro left
    induction left with
    | zero => exact hbehind
    | succ left ih =>
      intro i hi
      by_cases hlt : i < o.rest.length
      · rw [hsame i hlt]
        exact ih (i + 2) (by omega)
      · exact hbehind i (by omega)
  -- but the end node has a byte that is not
  have hmem : (0x7f : UInt8) ∈ o.rest := by
    rw [BuiltOption.rest, encodePath]
    simp [endNode]
  have hrest := o.holdsAt.2.2.2
  rw [hlen] at hrest
  obtain ⟨i, hi, heq⟩ := List.getElem_of_mem hmem
  have hbyte := Region.holdsAt_iff.mp hrest i hi
  have hnul := hzero o.rest.length i (by omega)
  rw [show 6 + (2 * 0 + 2) + i = 8 + i by omega, hnul, heq] at hbyte
  exact absurd hbyte (by decide)

/-- Where the ends are read inside of the buffers, this is compared. -/
theorem checkMaskedBootOption_iff (hsize : candidate.length = o.data.length + 24)
    (hn : strSize candidate 6 = some n) (h : ComesToPath candidate o.data n)
    (hempty : o.label.text = [] → (Region.ofList 0 o.data).u16 8 = 0) :
    checkMaskedBootOption candidate o.data o.size = true ↔
      SameRest o candidate (6 + n + 20 + endLength candidate n)
        (if o.label.text = [] then 10 else 6 + n) := by
  by_cases hlabel : o.label.text = []
  · rw [if_pos hlabel, checkMaskedBootOption_of_comes hsize hn h (strSize_data_two (hempty hlabel))]
  · have hlen := o.length_description
    have heq := h.eq_description hn
    rw [if_neg hlabel, checkMaskedBootOption_of_comes hsize hn h (strSize_data hlabel),
      show 8 + (o.description.length - 2) = 6 + n by omega]

/-- Where the description is the same, the end node and the rest decide. -/
theorem isMaskedForm_iff_of_comes (hsize : candidate.length = o.data.length + 24)
    (hn : strSize candidate 6 = some n) (h : ComesToPath candidate o.data n) :
    IsMaskedForm o candidate ↔
      endLength candidate n = 4 ∧ SameRest o candidate (6 + n + 24) (6 + n) := by
  obtain rfl := h.eq_description hn
  rw [isMaskedForm_iff]
  exact ⟨fun hform => ⟨hform.end_length, hform.rest⟩, fun hform => ⟨hsize, hn, h, hform.1, hform.2⟩⟩

/-- The end of the comparison is right exactly under the condition. -/
theorem restCondition_iff (hsize : candidate.length = o.data.length + 24)
    (hn : strSize candidate 6 = some n) (h : ComesToPath candidate o.data n) :
    RestCondition o candidate n ↔
      AllInside (MaskedBuffer.size o candidate) (maskedRestReads candidate o.data n) ∧
        (checkMaskedBootOption candidate o.data o.size = true ↔ IsMaskedForm o candidate) := by
  have heq := h.eq_description hn
  rw [maskedRestReads_inside_iff hsize heq, isMaskedForm_iff_of_comes hsize hn h]
  constructor
  · intro hcondition
    refine ⟨⟨hcondition.short_end, hcondition.empty⟩, ?_⟩
    rw [checkMaskedBootOption_iff hsize hn h hcondition.empty]
    rcases hcondition.differ with ⟨hend, hlabel⟩ | ⟨hshift, hrest⟩
    · rw [if_neg hlabel, hend]
      exact (and_iff_right rfl).symm
    · exact iff_of_false hshift fun hform => hrest hform.1 hform.2
  · rintro ⟨⟨hend, hempty⟩, hexact⟩
    rw [checkMaskedBootOption_iff hsize hn h hempty] at hexact
    refine ⟨hend, hempty, ?_⟩
    by_cases hright : endLength candidate n = 4 ∧ o.label.text ≠ []
    · exact .inl hright
    -- where the end has another length the code compares at a shifted place
    · have hshift : ¬ SameRest o candidate (6 + n + 20 + endLength candidate n)
          (if o.label.text = [] then 10 else 6 + n) := by
        intro hsame
        obtain ⟨hfour, hrest⟩ := hexact.mp hsame
        have hlabel : o.label.text = [] := by
          by_contra hlabel
          exact hright ⟨hfour, hlabel⟩
        have hlen := o.length_description
        rw [hlabel, List.length_nil] at hlen
        obtain rfl : n = 2 := by omega
        rw [if_pos hlabel, hfour] at hsame
        exact not_sameRest_shift hlabel hrest hsame
      exact .inr ⟨hshift, fun hfour hrest => hshift (hexact.mpr ⟨hfour, hrest⟩)⟩

end Result

/-- The code recognises the masked form exactly where the condition is met. -/
theorem recognisesMasked_iff (o : BuiltOption) (candidate : List UInt8) :
    RecognisesMasked o candidate ↔ MaskedCondition o candidate := by
  have hreads := @maskedReads_inside_iff o candidate
  by_cases hsize : candidate.length = o.data.length + 24
  · cases hn : strSize candidate 6 with
    | none =>
      -- a candidate without the end of its description is read beyond
      have hno : ¬ AllInside (MaskedBuffer.size o candidate)
          (maskedReads candidate o.data o.size) := fun h => (hreads.mp h hsize).1 hn
      refine iff_of_false (fun h => hno h.inside) fun h => h.terminated ?_ hn
      rw [o.size_eq]
      exact hsize
    | some n =>
      by_cases hcomes : ComesToPath candidate o.data n
      -- the path is compared, and the rest decides
      · have hrest := restCondition_iff hsize hn hcomes
        constructor
        · intro h
          refine ⟨fun _ => by simp [hn], fun _ n' hn' _ => ?_⟩
          obtain rfl := Option.some.inj (hn.symm.trans hn')
          exact hrest.mpr ⟨(hreads.mp h.inside hsize).2 n hn hcomes, h.exact⟩
        · intro h
          obtain ⟨hinside, hexact⟩ := hrest.mp (h.rest (by rw [o.size_eq]; exact hsize) n hn hcomes)
          refine ⟨hreads.mpr fun _ => ⟨by simp [hn], fun n' hn' _ => ?_⟩, hexact⟩
          obtain rfl := Option.some.inj (hn.symm.trans hn')
          exact hinside
      -- another path: no masked form, and the code says no as well
      · have hother : ∀ n', strSize candidate 6 = some n' → ¬ ComesToPath candidate o.data n' := by
          intro n' hn'
          obtain rfl := Option.some.inj (hn.symm.trans hn')
          exact hcomes
        have hform : ¬ IsMaskedForm o candidate := by
          intro h
          have hat := isMaskedForm_iff.mp h
          exact hother _ hat.terminated hat.comes
        have hresult := checkMaskedBootOption_of_not_comes hsize hn hcomes
        refine iff_of_true ⟨hreads.mpr fun _ => ⟨by simp [hn], fun n' hn' hc => ?_⟩, ?_⟩
          ⟨fun _ => by simp [hn], fun _ n' hn' hc => ?_⟩
        · exact absurd hc (hother n' hn')
        · rw [hresult]
          exact iff_of_false Bool.false_ne_true hform
        · exact absurd hc (hother n' hn')
  · have hform : ¬ IsMaskedForm o candidate := fun h => hsize (isMaskedForm_iff.mp h).length
    refine iff_of_true ⟨hreads.mpr fun h => absurd h hsize, ?_⟩
      ⟨fun h => absurd (o.size_eq ▸ h) hsize, fun h => absurd (o.size_eq ▸ h) hsize⟩
    rw [checkMaskedBootOption_of_size hsize]
    exact iff_of_false Bool.false_ne_true hform

/-- An option with an empty device path, and the label `A`. -/
def shortOption : BuiltOption where
  dp := []
  label := ⟨[0x41], by decide, by decide⟩
  arguments := ⟨[], CsvField.nil_no_nul, CsvField.nil_length_lt⟩
  fits := by decide

/-- A variable of the size of the masked option, without a NUL. -/
def noNul : List UInt8 := List.replicate 38 0x41

/-- Its description is read on behind it. -/
theorem not_recognisesMasked_noNul : ¬ RecognisesMasked shortOption noNul := by
  intro h
  have hsize : noNul.length = shortOption.data.length + 24 := by decide +kernel
  have hnone : strSize noNul 6 = none := by decide +kernel
  exact (maskedReads_inside_iff.mp h.inside hsize).1 hnone

end Shim
