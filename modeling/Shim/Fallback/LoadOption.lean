import Shim.Common.Region

/-! # Load options

The contents of a `Boot####` variable, as `add_boot_option` writes them and as `find_boot_option`
expects them (fallback.c), and the form some firmware gives a hidden one. A device path is the list
of its nodes before the end node.
-/

namespace Shim

/-! ## Texts and device paths -/

/-- A wide string literal. -/
def wide (s : String) : List UInt16 := s.toList.map fun c => c.toNat.toUInt16

/-- The two bytes of a CHAR16. -/
def bytes16 (c : UInt16) : List UInt8 := [c.toUInt8, (c >>> 8).toUInt8]

/-- The bytes of a wide string, without its terminator. -/
def wideBytes (l : List UInt16) : List UInt8 := l.flatMap bytes16

/-- A 16-bit field. -/
def field16 (n : ℕ) : List UInt8 := [UInt8.ofNat n, UInt8.ofNat (n / 256)]

/-- A field of a CSV file: a file of more than 1024 pages is not read. -/
structure CsvField where
  text : List UInt16
  no_nul : 0 ∉ text
  length_lt : text.length < 2 ^ 21

/-- The empty text is a field. -/
theorem CsvField.nil_no_nul : 0 ∉ ([] : List UInt16) := List.not_mem_nil

theorem CsvField.nil_length_lt : ([] : List UInt16).length < 2 ^ 21 := by decide

/-- A device path node other than the end node. -/
structure DevicePathNode where
  type : UInt8
  subType : UInt8
  data : List UInt8
  not_end : ¬ (type &&& 0x7f = 0x7f ∧ subType = 0xff)
  length_lt : data.length + 4 < 2 ^ 16
  deriving DecidableEq

/-- A node in memory. -/
def DevicePathNode.encode (n : DevicePathNode) : List UInt8 :=
  n.type :: n.subType :: field16 (n.data.length + 4) ++ n.data

/-- The end node. -/
def endNode : List UInt8 := [0x7f, 0xff, 4, 0]

/-- A device path in memory. -/
def encodePath (dp : List DevicePathNode) : List UInt8 :=
  dp.flatMap DevicePathNode.encode ++ endNode

/-- `DevicePathSize`. -/
def devicePathSize (dp : List DevicePathNode) : ℕ := (encodePath dp).length

/-- `MEDIA_DEVICE_PATH`, `MEDIA_HARDDRIVE_DP`. -/
def DevicePathNode.IsHardDrive (n : DevicePathNode) : Prop := n.type &&& 0x7f = 4 ∧ n.subType = 1

instance (n : DevicePathNode) : Decidable n.IsHardDrive := inferInstanceAs (Decidable (_ ∧ _))

/-- `FindSubDevicePath` for a hard drive, and the whole path where there is none. -/
def bootDevicePath (full : List DevicePathNode) : List DevicePathNode :=
  match full.dropWhile (fun n => ¬ n.IsHardDrive) with
  | [] => full
  | n :: dp => n :: dp

/-! ## The option -/

/-- `LOAD_OPTION_ACTIVE`. -/
def loadOptionActive : ℕ := 1

/-- `LOAD_OPTION_HIDDEN`. -/
def loadOptionHidden : ℕ := 8

/-- `size` of `add_boot_option`, before it becomes an `int`. -/
def writtenSize (dp : List DevicePathNode) (label arguments : CsvField) : ℕ :=
  4 + 2 + label.text.length * 2 + 2 + devicePathSize dp + arguments.text.length * 2

/-- `data` of `add_boot_option`: the attributes, the size of the device path, the label with its
terminator, the device path and the arguments. -/
def writtenOption (dp : List DevicePathNode) (label arguments : CsvField) : List UInt8 :=
  (Region.le32 loadOptionActive ++ field16 (devicePathSize dp) ++ wideBytes label.text ++ [0, 0] ++
    encodePath dp ++ wideBytes arguments.text).take (writtenSize dp label arguments % 2 ^ 32)

/-- `label_size` of `find_boot_option`. -/
def labelSize (label : CsvField) : ℕ := (label.text.length * 2 + 2) % 2 ^ 32

/-- `size` of `find_boot_option`. -/
def expectedSize (dp : List DevicePathNode) (label arguments : CsvField) : ℕ :=
  (4 + 2 + labelSize label + devicePathSize dp + arguments.text.length * 2) % 2 ^ 32

/-- `data` of `find_boot_option`: the device path goes `label_size` behind the label's place. -/
def expectedOption (dp : List DevicePathNode) (label arguments : CsvField) : List UInt8 :=
  (Region.le32 loadOptionActive ++ field16 (devicePathSize dp) ++
    (wideBytes label.text ++ [0, 0]).take (labelSize label) ++
    encodePath dp ++ wideBytes arguments.text).take (expectedSize dp label arguments)

/-- A character takes two bytes. -/
@[simp] theorem length_wideBytes (l : List UInt16) : (wideBytes l).length = l.length * 2 := by
  have hchar : ∀ c ∈ l, (bytes16 c).length = 2 := fun _ _ => rfl
  rw [wideBytes, List.length_flatMap, List.map_congr_left hchar, List.map_const',
    List.sum_replicate_nat]

/-- The label with its NUL. -/
theorem labelSize_eq (label : CsvField) : labelSize label = label.text.length * 2 + 2 := by
  have hlt := label.length_lt
  exact Nat.mod_eq_of_lt (by omega)

/-- The size that is looked for is the one that is written, modulo 2^32. -/
theorem expectedSize_eq (dp : List DevicePathNode) (label arguments : CsvField) :
    expectedSize dp label arguments = writtenSize dp label arguments % 2 ^ 32 := by
  rw [expectedSize, writtenSize, labelSize_eq]
  congr 1

/-- The two functions build the same option. -/
theorem expectedOption_eq (dp : List DevicePathNode) (label arguments : CsvField) :
    expectedOption dp label arguments = writtenOption dp label arguments := by
  have hlabel : (wideBytes label.text ++ [0, 0]).take (labelSize label) =
      wideBytes label.text ++ [0, 0] := by
    refine List.take_of_length_le ?_
    rw [labelSize_eq, List.length_append, length_wideBytes]
    exact le_rfl
  rw [expectedOption, writtenOption, expectedSize_eq, hlabel]
  simp only [List.append_assoc]

/-! ## Masked options -/

/-- `ami_masked_device_path_guid`. -/
def amiMaskedDevicePathGuid : List UInt8 :=
  [0xe7, 0x75, 0xe2, 0x99, 0xa0, 0x75, 0x37, 0x4b, 0xa2, 0xe6, 0xc5, 0x38, 0x5e, 0x6c, 0x00, 0xcb]

/-- `calc_masked_boot_option_size`. -/
def calcMaskedBootOptionSize (size : ℕ) : ℕ := (size + 4 + 16 + 4) % 2 ^ 32

/-- `StrSize` of the wide string at offset `o`, if its terminator is among the bytes. -/
def strSize (l : List UInt8) (o : ℕ) : Option ℕ :=
  ((List.range ((l.length - o) / 2)).find? fun k => (Region.ofList 0 l).u16 (o + 2 * k) = 0).map
    fun k => 2 * k + 2

/-- The node of the masked form at `cursor`, and the end node behind it. -/
def isMaskedPath (candidate : List UInt8) (cursor : ℕ) : Bool :=
  let r := Region.ofList 0 candidate
  let nodeSize := (r.u16 (cursor + 2) + (2 ^ 32 - 4)) % 2 ^ 32
  decide (cursor + 4 < candidate.length ∧ (cursor + 4 + nodeSize) % 2 ^ 32 < candidate.length ∧
    r.byte cursor &&& 0x7f = 1 ∧ r.byte (cursor + 1) = 4 ∧ nodeSize = 16 ∧
    r.bytes (cursor + 4) 16 = amiMaskedDevicePathGuid ∧ cursor + 24 < candidate.length ∧
    r.byte (cursor + 20) &&& 0x7f = 0x7f ∧ r.byte (cursor + 21) = 0xff)

/-- `check_masked_boot_option`: whether `candidate` is `data` hidden behind a masking node. A
description that does not end in the candidate leads to a cursor behind it, and bytes behind either
buffer are taken to be NULs. -/
def checkMaskedBootOption (candidate data : List UInt8) (dataSize : ℕ) : Bool :=
  let r := Region.ofList 0 candidate
  let d := Region.ofList 0 data
  if calcMaskedBootOptionSize dataSize ≠ candidate.length then false
  else
    match strSize candidate 6 with
    | none => false
    | some n =>
      let cursor := 6 + n
      if ¬ isMaskedPath candidate cursor then false
      else if r.u32 0 / loadOptionHidden % 2 = 0 then false
      else if r.u32 0 - loadOptionHidden ≠ d.u32 0 then false
      else if calcMaskedBootOptionSize (d.u16 4) ≠ r.u16 4 then false
      else if r.bytes 6 n ≠ d.bytes 6 n then false
      else
        -- the description is measured from its second character on
        match strSize (data ++ [0, 0]) 8 with
        | none => false
        | some m =>
          let rest := cursor + 20 + r.u16 (cursor + 22)
          let size := candidate.length - (cursor + 24)
          r.bytes rest size = d.bytes (8 + m) size

end Shim
