import Shim.Auth.SignatureDb

/-! # Well-formed signature lists

`SignatureList` is an `EFI_SIGNATURE_LIST` as a writer means it: signatures of one type and one
size. `encodeDb` lays a sequence of lists out as the bytes of a variable, and `signatures` reads
them back along the chain of list sizes. No standard type has a list header, so none is encoded.
-/

namespace Shim

open Bytes (sub64 sub64_of_le)

/-- `EFI_SIGNATURE_DATA`. -/
structure SignatureData where
  owner : List UInt8
  data : List UInt8
  deriving DecidableEq

/-- A signature of a database: its data, its owner and the type of its list. -/
structure Signature where
  type : List UInt8
  owner : List UInt8
  data : List UInt8
  deriving DecidableEq

/-- An `EFI_SIGNATURE_LIST` whose fields agree with what it holds. -/
structure SignatureList where
  type : List UInt8
  size : ℕ
  sigs : List SignatureData
  type_length : type.length = 16
  size_gt : 16 < size
  size_lt : size < 2 ^ 32
  uniform : ∀ s ∈ sigs, s.owner.length = 16 ∧ 16 + s.data.length = size
  deriving DecidableEq

theorem SignatureList.lt_sha256Size : 16 < 48 := by decide

theorem SignatureList.sha256Size_lt : 48 < 2 ^ 32 := by decide

def SignatureData.encode (s : SignatureData) : List UInt8 := s.owner ++ s.data

namespace SignatureList

variable (l : SignatureList)

/-- `SignatureListSize`. -/
def listSize : ℕ := 28 + l.sigs.length * l.size

/-- The header of the list: type, list size, header size, signature size. -/
def header : List UInt8 :=
  l.type ++ Region.le32 l.listSize ++ Region.le32 0 ++ Region.le32 l.size

def encode : List UInt8 := l.header ++ l.sigs.flatMap SignatureData.encode

/-- The signatures of the list. -/
def entries : List Signature := l.sigs.map fun s => ⟨l.type, s.owner, s.data⟩

end SignatureList

/-- The bytes of a database. -/
def encodeDb (ls : List SignatureList) : List UInt8 := ls.flatMap SignatureList.encode

/-- The signatures of a database. -/
def entriesDb (ls : List SignatureList) : List Signature := ls.flatMap SignatureList.entries

/-- The signatures of the list at offset `o`. -/
def signaturesAt (d : Region) (o : ℕ) : List Signature :=
  (List.range (certCount d o)).map fun index =>
    ⟨signatureType d o, d.bytes (signatureAt d o index) 16,
      d.bytes (signatureAt d o index + 16) (certSize d o)⟩

/-- The signatures that a reader of the chain of lists finds in some bytes. -/
def signatures (bytes : List UInt8) : List Signature :=
  (signatureLists (Region.ofList 0 bytes)).flatMap (signaturesAt (Region.ofList 0 bytes))

/-- The bytes are a well-formed database with these signatures. -/
def Decodes (bytes : List UInt8) (sigs : List Signature) : Prop :=
  ∃ ls, bytes = encodeDb ls ∧ entriesDb ls = sigs

/-! ## Sizes -/

section Sizes

variable {l : SignatureList}

/-- The header takes 28 bytes. -/
@[simp] theorem SignatureList.length_header : l.header.length = 28 := by
  simp [SignatureList.header, l.type_length]

/-- Every signature is as long as the list says. -/
theorem SignatureList.length_encode_of_mem {s : SignatureData} (hs : s ∈ l.sigs) :
    s.encode.length = l.size := by
  have := l.uniform s hs
  simp only [SignatureData.encode, List.length_append]
  omega

/-- Signatures of one size take up their number of times that size. -/
theorem length_flatMap_encode {sigs : List SignatureData} {n : ℕ}
    (h : ∀ s ∈ sigs, s.encode.length = n) :
    (sigs.flatMap SignatureData.encode).length = sigs.length * n := by
  rw [List.length_flatMap, List.map_congr_left h, List.map_const', List.sum_replicate_nat]

/-- A list takes as many bytes as its size says. -/
@[simp] theorem SignatureList.length_encode : l.encode.length = l.listSize := by
  simp only [SignatureList.encode, SignatureList.listSize, List.length_append, l.length_header,
    length_flatMap_encode fun s hs => l.length_encode_of_mem hs]

/-- A list is no shorter than its header. -/
theorem SignatureList.le_listSize (l : SignatureList) : 28 ≤ l.listSize := Nat.le_add_right _ _

@[simp] theorem encodeDb_nil : encodeDb [] = [] := rfl

/-- The first list comes first. -/
@[simp] theorem encodeDb_cons (ls : List SignatureList) :
    encodeDb (l :: ls) = l.encode ++ encodeDb ls := rfl

/-- Databases one behind the other. -/
@[simp] theorem encodeDb_append (ls ls' : List SignatureList) :
    encodeDb (ls ++ ls') = encodeDb ls ++ encodeDb ls' := List.flatMap_append

/-- A database without bytes is one without lists. -/
theorem encodeDb_eq_nil_iff {ls : List SignatureList} : encodeDb ls = [] ↔ ls = [] := by
  cases ls with
  | nil => simp
  | cons l ls =>
    refine iff_of_false (fun h => ?_) (List.cons_ne_nil l ls)
    have hle := l.le_listSize
    have hlen := congrArg List.length h
    rw [encodeDb_cons, List.length_append, l.length_encode, List.length_nil] at hlen
    omega

@[simp] theorem entriesDb_nil : entriesDb [] = [] := rfl

/-- The signatures of the first list come first. -/
@[simp] theorem entriesDb_cons (ls : List SignatureList) :
    entriesDb (l :: ls) = l.entries ++ entriesDb ls := rfl

/-- The signatures of two databases. -/
@[simp] theorem entriesDb_append (ls ls' : List SignatureList) :
    entriesDb (ls ++ ls') = entriesDb ls ++ entriesDb ls' := List.flatMap_append

theorem Decodes.nil : Decodes [] [] := ⟨[], rfl, rfl⟩

/-- Well-formed contents one behind the other are well formed. -/
theorem Decodes.append {b b' : List UInt8} {s s' : List Signature} (h : Decodes b s)
    (h' : Decodes b' s') : Decodes (b ++ b') (s ++ s') := by
  obtain ⟨ls, rfl, rfl⟩ := h
  obtain ⟨ls', rfl, rfl⟩ := h'
  exact ⟨ls ++ ls', by simp, by simp⟩

end Sizes

/-! ## Reading a list back -/

section Fields

variable {l : SignatureList} {d : Region} {o : ℕ}

/-- A list is held if its header and its signatures are. -/
theorem SignatureList.holdsAt_encode : d.HoldsAt o l.encode ↔ d.HoldsAt o l.header ∧
    d.HoldsAt (o + 28) (l.sigs.flatMap SignatureData.encode) := by
  rw [SignatureList.encode, Region.holdsAt_append, l.length_header]

/-- The fields of a list that was laid out. -/
theorem SignatureList.fields (h : d.HoldsAt o l.header) (hsize : l.listSize < 2 ^ 32) :
    signatureType d o = l.type ∧ signatureListSize d o = l.listSize ∧
      signatureHeaderSize d o = 0 ∧ signatureSize d o = l.size := by
  simp only [SignatureList.header, Region.holdsAt_append, List.length_append,
    Region.length_le32, l.type_length, Nat.reduceAdd] at h
  obtain ⟨⟨⟨htype, hlist⟩, hheader⟩, hsig⟩ := h
  exact ⟨htype.bytes l.type_length, hlist.u32 hsize, hheader.u32 (by decide), hsig.u32 l.size_lt⟩

/-- One of several signatures of one size. -/
theorem holdsAt_flatMap_encode {sigs : List SignatureData} {n : ℕ}
    (hn : ∀ s ∈ sigs, s.encode.length = n) (h : d.HoldsAt o (sigs.flatMap SignatureData.encode))
    {i : ℕ} (hi : i < sigs.length) : d.HoldsAt (o + i * n) (sigs[i]).encode := by
  induction sigs generalizing o i with
  | nil => exact absurd hi (by simp)
  | cons s sigs ih =>
    rw [List.flatMap_cons, Region.holdsAt_append, hn s List.mem_cons_self] at h
    cases i with
    | zero => simpa using h.1
    | succ i =>
      have := ih (fun s' hs' => hn s' (List.mem_cons_of_mem _ hs')) h.2
        (Nat.lt_of_succ_lt_succ hi)
      rwa [Nat.succ_mul, Nat.add_comm (i * n), ← Nat.add_assoc]

/-- A laid out list has the signatures it was made of. -/
theorem signaturesAt_eq (h : d.HoldsAt o l.encode) (hsize : l.listSize < 2 ^ 32) :
    signaturesAt d o = l.entries := by
  obtain ⟨hhead, hsigs⟩ := l.holdsAt_encode.mp h
  obtain ⟨htype, hlist, hheader, hsig⟩ := l.fields hhead hsize
  have hpos := l.size_gt
  have hcount : certCount d o = l.sigs.length := by
    have hle := l.le_listSize
    rw [certCount, hlist, hheader, hsig, sub64_of_le hle (by omega),
      sub64_of_le (Nat.zero_le _) (by omega), SignatureList.listSize, Nat.sub_zero,
      Nat.add_sub_cancel_left, Nat.mul_div_cancel _ (by omega)]
  have hdata : certSize d o = l.size - 16 := by
    rw [certSize, hsig, sub64_of_le hpos.le (lt_trans l.size_lt (by decide))]
  refine List.ext_getElem (by simp [signaturesAt, SignatureList.entries, hcount]) fun i hi _ => ?_
  have hi' : i < l.sigs.length := by simpa [signaturesAt, hcount] using hi
  have hat := holdsAt_flatMap_encode (fun s hs => l.length_encode_of_mem hs) hsigs hi'
  obtain ⟨howner, hlen⟩ := l.uniform l.sigs[i] (List.getElem_mem hi')
  rw [SignatureData.encode, Region.holdsAt_append, howner] at hat
  simp only [signaturesAt, SignatureList.entries, List.getElem_map, List.getElem_range,
    signatureAt, hheader, hsig, hdata, htype, Nat.add_zero]
  rw [hat.1.bytes howner, hat.2.bytes (by omega)]

/-- The walk over laid out lists meets each of them. -/
theorem flatMap_signatureListsFrom {ls : List SignatureList} {fuel : ℕ}
    (h : d.HoldsAt o (encodeDb ls)) (hsize : (encodeDb ls).length < 2 ^ 32)
    (hfuel : (encodeDb ls).length ≤ fuel) :
    (signatureListsFrom d fuel o (encodeDb ls).length).flatMap (signaturesAt d) = entriesDb ls := by
  induction ls generalizing o fuel with
  | nil => cases fuel <;> simp [signatureListsFrom]
  | cons l ls ih =>
    rw [encodeDb_cons, Region.holdsAt_append] at h
    simp only [encodeDb_cons, List.length_append, l.length_encode] at h hsize hfuel ⊢
    have hle := l.le_listSize
    obtain ⟨fuel, rfl⟩ : ∃ k, fuel = k + 1 := ⟨fuel - 1, by omega⟩
    have hlist := (l.fields (l.holdsAt_encode.mp h.1).1 (by omega)).2.1
    rw [signatureListsFrom, if_pos (by omega), hlist, List.flatMap_cons, entriesDb_cons,
      signaturesAt_eq h.1 (by omega), Nat.add_sub_cancel_left, ih h.2 (by omega) (by omega)]

end Fields

/-- Reading undoes laying out. -/
theorem signatures_encodeDb {ls : List SignatureList} (hsize : (encodeDb ls).length < 2 ^ 32) :
    signatures (encodeDb ls) = entriesDb ls := by
  have h : (Region.ofList 0 (encodeDb ls)).HoldsAt 0 (encodeDb ls) :=
    Region.holdsAt_ofList_zero 0 _
  exact flatMap_signatureListsFrom h hsize le_rfl

/-- A well-formed database has one reading. -/
theorem Decodes.eq_signatures {bytes : List UInt8} {sigs : List Signature} (h : Decodes bytes sigs)
    (hsize : bytes.length < 2 ^ 32) : sigs = signatures bytes := by
  obtain ⟨ls, rfl, rfl⟩ := h
  exact (signatures_encodeDb hsize).symm

end Shim
