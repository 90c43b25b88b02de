import Mathlib.Logic.Relation
import Shim.Fallback.LoadOption

/-! # The format of a load option

`EFI_LOAD_OPTION`: attributes, the size of the file path list, a description, the list, and optional
data. The format is given twice: as what a writer lays out, and by the offsets at which a reader
finds its parts. A description consists of characters below 256.
-/

namespace Shim

open Relation (ReflTransGen)

/-- A node of a device path that does not end it: its type, its sub-type and its data. -/
structure PathNode where
  type : UInt8
  subType : UInt8
  data : List UInt8
  not_end : ¬ (type = 0x7f ∧ subType = 0xff)
  length_lt : data.length + 4 < 2 ^ 16

/-- A node in memory: the length counts its four bytes. -/
def PathNode.encode (n : PathNode) : List UInt8 :=
  [n.type, n.subType] ++ Region.le16 (n.data.length + 4) ++ n.data

/-- A device path in memory. -/
def encodeFilePath (nodes : List PathNode) : List UInt8 :=
  nodes.flatMap PathNode.encode ++ endNode

/-- A description in memory. -/
def encodeDescription (description : List UInt8) : List UInt8 :=
  description.flatMap (fun c => [c, 0]) ++ [0, 0]

/-- An `EFI_LOAD_OPTION`. -/
structure EfiLoadOption where
  attributes : List UInt8
  description : List UInt8
  path : List PathNode
  optionalData : List UInt8
  attributes_length : attributes.length = 4
  description_ne : ∀ c ∈ description, c ≠ 0
  path_lt : (encodeFilePath path).length < 2 ^ 16

namespace EfiLoadOption

variable (o : EfiLoadOption)

def encode : List UInt8 :=
  o.attributes ++ Region.le16 (encodeFilePath o.path).length ++ encodeDescription o.description ++
    encodeFilePath o.path ++ o.optionalData

/-- Where the file path list starts. -/
def pathOffset : ℕ := 6 + (encodeDescription o.description).length

/-- Where the optional data starts. -/
def dataOffset : ℕ := o.pathOffset + (encodeFilePath o.path).length

end EfiLoadOption

/-- The buffer holds the option, and nothing else. -/
def IsOption (d : Region) (o : EfiLoadOption) : Prop :=
  d.HoldsAt 0 o.encode ∧ o.encode.length = d.size

/-! ## Where the parts are -/

section Parts

variable (d : Region)

/-- `FilePathListLength`. -/
def filePathListLength : ℕ := d.u16 4

/-- A description goes on at offset `o` and is over at `stop`. -/
inductive DescriptionAt : (o stop : ℕ) → Prop
  | nul {o : ℕ} (h : d.byte o = 0) (h' : d.byte (o + 1) = 0) : DescriptionAt o (o + 2)
  | char {o stop : ℕ} (h : d.byte o ≠ 0) (h' : d.byte (o + 1) = 0)
      (rest : DescriptionAt (o + 2) stop) : DescriptionAt o stop

/-- The length of the node at `o`. -/
def nodeLength (o : ℕ) : ℕ := d.u16 (o + 2)

/-- The node at `o` is of the type End Entire. -/
def IsEnd (o : ℕ) : Prop := d.byte o = 0x7f ∧ d.byte (o + 1) = 0xff

instance (o : ℕ) : Decidable (IsEnd d o) := inferInstanceAs (Decidable (_ ∧ _))

/-- The node at `o` does not end the path, and the next one is at `o'`. -/
structure NextNode (o o' : ℕ) : Prop where
  not_end : ¬ IsEnd d o
  length : 4 ≤ nodeLength d o
  next : o' = o + nodeLength d o

/-- The chain of nodes from `start` leads to `o`. -/
def NodeReached (start o : ℕ) : Prop := ReflTransGen (NextNode d) start o

/-- A device path goes from `start` to `stop`: the chain of nodes leads to an end node before it. -/
def PathAt (start stop : ℕ) : Prop :=
  ∃ o, NodeReached d start o ∧ IsEnd d o ∧ nodeLength d o = 4 ∧ stop = o + 4

end Parts

section Reading

variable {d : Region} {o start stop n : ℕ}

/-- A description by its first character. -/
theorem descriptionAt_cases : DescriptionAt d o stop ↔ d.byte (o + 1) = 0 ∧
    (d.byte o = 0 ∧ stop = o + 2 ∨ d.byte o ≠ 0 ∧ DescriptionAt d (o + 2) stop) := by
  constructor
  · intro h
    cases h with
    | nul h h' => exact ⟨h', .inl ⟨h, rfl⟩⟩
    | char h h' rest => exact ⟨h', .inr ⟨h, rest⟩⟩
  · rintro ⟨h', ⟨h, rfl⟩ | ⟨h, rest⟩⟩
    · exact .nul h h'
    · exact .char h h' rest

/-- A description takes at least its NUL. -/
theorem DescriptionAt.lt (h : DescriptionAt d o stop) : o + 2 ≤ stop := by
  induction h with
  | nul => exact le_rfl
  | char _ _ _ ih => omega

/-- A description ends at one place. -/
theorem DescriptionAt.unique {stop' : ℕ} (h : DescriptionAt d o stop)
    (h' : DescriptionAt d o stop') : stop = stop' := by
  induction h with
  | nul hnul _ =>
    cases h' with
    | nul => rfl
    | char hne _ _ => exact absurd hnul hne
  | char hne _ _ ih =>
    cases h' with
    | nul hnul _ => exact absurd hnul hne
    | char _ _ rest => exact ih rest

/-- A description is what a writer lays out. -/
theorem descriptionAt_iff : DescriptionAt d o stop ↔ ∃ description : List UInt8,
    (∀ c ∈ description, c ≠ 0) ∧ d.HoldsAt o (encodeDescription description) ∧
      stop = o + (encodeDescription description).length := by
  constructor
  · intro h
    induction h with
    -- two NUL bytes end the description
    | nul h h' =>
      refine ⟨[], by simp, ?_, rfl⟩
      simp [encodeDescription, Region.holdsAt_cons, Region.holdsAt_nil, h, h']
    | @char o stop h h' _ ih =>
      obtain ⟨description, hne, hholds, rfl⟩ := ih
      refine ⟨d.byte o :: description, List.forall_mem_cons.mpr ⟨h, hne⟩, ?_, ?_⟩
      · simp only [encodeDescription, List.flatMap_cons, List.cons_append, List.nil_append,
          Region.holdsAt_cons, h', true_and]
        exact hholds
      · simp only [encodeDescription, List.flatMap_cons, List.cons_append, List.nil_append,
          List.length_cons]
        omega
  · rintro ⟨description, hne, hholds, rfl⟩
    induction description generalizing o with
    | nil =>
      simp only [encodeDescription, List.flatMap_nil, List.nil_append, Region.holdsAt_cons] at hholds
      exact .nul hholds.1 hholds.2.1
    | cons c description ih =>
      simp only [encodeDescription, List.flatMap_cons, List.cons_append, List.nil_append,
        Region.holdsAt_cons] at hholds
      obtain ⟨hc, h0, hholds⟩ := hholds
      have hrest := ih (fun c' hc' => hne c' (List.mem_cons_of_mem _ hc')) hholds
      refine .char (hc ▸ hne c List.mem_cons_self) h0 ?_
      have hlen : o + 2 + (encodeDescription description).length =
          o + (encodeDescription (c :: description)).length := by
        simp only [encodeDescription, List.flatMap_cons, List.cons_append, List.nil_append,
          List.length_cons]
        omega
      exact hlen ▸ hrest

/-- The next node is further on. -/
theorem NextNode.lt {o' : ℕ} (h : NextNode d o o') : o < o' := by
  have := h.length
  have := h.next
  omega

/-- The walk does not go back. -/
theorem NodeReached.le (h : NodeReached d start o) : start ≤ o := by
  induction h with
  | refl => exact le_rfl
  | tail _ hnext ih => exact ih.trans hnext.lt.le

/-- A node that a writer lays out. -/
theorem holdsAt_pathNode {node : PathNode} :
    d.HoldsAt o node.encode ↔ d.byte o = node.type ∧ d.byte (o + 1) = node.subType ∧
      d.HoldsAt (o + 2) (Region.le16 (node.data.length + 4)) ∧ d.HoldsAt (o + 4) node.data := by
  rw [PathNode.encode, Region.holdsAt_append, Region.holdsAt_append]
  simp only [Region.holdsAt_cons, Region.holdsAt_nil, and_true, List.length_append,
    List.length_cons, List.length_nil, Region.le16, and_assoc]

/-- A node has four bytes in front of its data. -/
theorem length_pathNode (node : PathNode) : node.encode.length = node.data.length + 4 := by
  simp [PathNode.encode, Region.le16]

/-- The first node comes first. -/
theorem encodeFilePath_cons (node : PathNode) (nodes : List PathNode) :
    encodeFilePath (node :: nodes) = node.encode ++ encodeFilePath nodes := by
  rw [encodeFilePath, List.flatMap_cons, List.append_assoc]
  rfl

/-- An end node, by its fields. -/
theorem holdsAt_endNode : d.HoldsAt o endNode ↔ IsEnd d o ∧ nodeLength d o = 4 := by
  constructor
  · intro h
    simp only [endNode, Region.holdsAt_cons] at h
    have hlen : d.HoldsAt (o + 2) (Region.le16 4) := by
      simpa [Region.le16, Region.holdsAt_cons] using h.2.2
    exact ⟨⟨h.1, h.2.1⟩, hlen.u16 (by decide)⟩
  · rintro ⟨⟨h, h'⟩, hlen⟩
    have hfield := d.holdsAt_u16 (o + 2)
    rw [← nodeLength, hlen] at hfield
    have hend : d.HoldsAt o ([0x7f, 0xff] ++ Region.le16 4) :=
      Region.holdsAt_append.mpr ⟨by simp [Region.holdsAt_cons, Region.holdsAt_nil, h, h'], hfield⟩
    exact hend

/-- A device path is what a writer lays out. -/
theorem pathAt_iff : PathAt d start stop ↔ ∃ nodes : List PathNode,
    d.HoldsAt start (encodeFilePath nodes) ∧ stop = start + (encodeFilePath nodes).length := by
  constructor
  · rintro ⟨o, hreached, hend, hlen, rfl⟩
    -- from the end node back to the first
    induction hreached using ReflTransGen.head_induction_on with
    | refl => exact ⟨[], holdsAt_endNode.mpr ⟨hend, hlen⟩, rfl⟩
    | @head start next hnext _ ih =>
      obtain ⟨nodes, hholds, hstop⟩ := ih
      have hlong := hnext.length
      have hlt : nodeLength d start < 2 ^ 16 := d.u16_lt _
      -- the node as it stands at `start`
      let node : PathNode := ⟨d.byte start, d.byte (start + 1),
        d.bytes (start + 4) (nodeLength d start - 4), hnext.not_end, by
          rw [Region.length_bytes]
          omega⟩
      have hdata : node.data.length + 4 = nodeLength d start := by
        rw [Region.length_bytes]
        omega
      refine ⟨node :: nodes, ?_, ?_⟩
      · rw [encodeFilePath_cons, Region.holdsAt_append, holdsAt_pathNode, length_pathNode, hdata,
          ← hnext.next]
        exact ⟨⟨rfl, rfl, d.holdsAt_u16 _, d.holdsAt_bytes _ _⟩, hholds⟩
      · rw [encodeFilePath_cons, List.length_append, length_pathNode, hdata, hstop, hnext.next]
        omega
  · rintro ⟨nodes, hholds, rfl⟩
    induction nodes generalizing start with
    | nil =>
      obtain ⟨hend, hlen⟩ := holdsAt_endNode.mp hholds
      exact ⟨start, .refl, hend, hlen, rfl⟩
    | cons node nodes ih =>
      rw [encodeFilePath_cons, Region.holdsAt_append, holdsAt_pathNode, length_pathNode] at hholds
      obtain ⟨⟨htype, hsub, hfield, -⟩, hrest⟩ := hholds
      have hlen : nodeLength d start = node.data.length + 4 := hfield.u16 node.length_lt
      have hnext : NextNode d start (start + (node.data.length + 4)) :=
        ⟨fun h => node.not_end ⟨htype.symm.trans h.1, hsub.symm.trans h.2⟩, by omega, by rw [hlen]⟩
      obtain ⟨o, hreached, hend, hlast, hstop⟩ := ih hrest
      refine ⟨o, hreached.head hnext, hend, hlast, ?_⟩
      rw [← hstop, encodeFilePath_cons, List.length_append, length_pathNode]
      omega

/-- The list of an option is behind its description. -/
structure OptionAt (d : Region) (m : ℕ) : Prop where
  description : DescriptionAt d 6 m
  path : PathAt d m (m + filePathListLength d)
  le : m + filePathListLength d ≤ d.size

/-- The parts of an option that was laid out are where a reader looks for them. -/
theorem IsOption.optionAt {option : EfiLoadOption} (h : IsOption d option) :
    OptionAt d option.pathOffset ∧
      option.dataOffset = option.pathOffset + filePathListLength d := by
  obtain ⟨hholds, hsize⟩ := h
  simp only [EfiLoadOption.encode, Region.holdsAt_append, List.length_append,
    option.attributes_length, Region.length_le16, Nat.zero_add, Nat.reduceAdd] at hholds hsize
  obtain ⟨⟨⟨⟨-, hlen⟩, hdescription⟩, hpath⟩, -⟩ := hholds
  have hfpl : filePathListLength d = (encodeFilePath option.path).length := hlen.u16 option.path_lt
  refine ⟨⟨?_, ?_, ?_⟩, ?_⟩
  · exact descriptionAt_iff.mpr ⟨_, option.description_ne, hdescription, rfl⟩
  · exact pathAt_iff.mpr ⟨_, hpath, by rw [hfpl]⟩
  · rw [EfiLoadOption.pathOffset]
    omega
  · rw [hfpl, EfiLoadOption.dataOffset]

/-- Where a reader finds the parts, there is an option. -/
theorem OptionAt.exists_isOption {m : ℕ} (h : OptionAt d m) :
    ∃ option, IsOption d option ∧ option.dataOffset = m + filePathListLength d := by
  obtain ⟨description, hne, hdescription, rfl⟩ := descriptionAt_iff.mp h.description
  obtain ⟨path, hpath, hstop⟩ := pathAt_iff.mp h.path
  have hfpl : filePathListLength d = (encodeFilePath path).length := Nat.add_left_cancel hstop
  have hle := h.le
  rw [hfpl] at hle
  have hfield := d.holdsAt_u16 4
  rw [← filePathListLength, hfpl] at hfield
  let dataOffset := 6 + (encodeDescription description).length + (encodeFilePath path).length
  refine ⟨⟨d.bytes 0 4, description, path, d.bytes dataOffset (d.size - dataOffset),
    Region.length_bytes _ _ _, hne, hfpl ▸ d.u16_lt 4⟩, ⟨?_, ?_⟩, ?_⟩
  · simp only [EfiLoadOption.encode, Region.holdsAt_append, List.length_append,
      Region.length_bytes, Nat.zero_add]
    exact ⟨⟨⟨⟨d.holdsAt_bytes 0 4, hfield⟩, hdescription⟩, hpath⟩, d.holdsAt_bytes _ _⟩
  · simp only [EfiLoadOption.encode, List.length_append, Region.length_bytes, Region.le16,
      List.length_cons, List.length_nil, dataOffset]
    omega
  · exact congrArg (6 + (encodeDescription description).length + ·) hfpl.symm

end Reading

end Shim
