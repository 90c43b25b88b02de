import Shim.Common.Region
import Shim.Efi.Status

/-! # PE headers

`read_header`, `ImageAddress` and `get_section_vma` (pe-relocate.c), for a 64-bit build. Pointers
into a file are offsets into its region, `none` is NULL; `unsigned int` arithmetic wraps at `2^32`.
-/

namespace Shim

/-- Fail with `e` when the check `c` strikes. -/
def failIf (c : Prop) [Decidable c] (e : EfiStatus) : Except EfiStatus Unit :=
  if c then .error e else .ok ()

/-- A computation that stops early only with a status in `P`. -/
def FailsWith {α : Type} (P : EfiStatus → Prop) (x : Except EfiStatus α) : Prop :=
  ∀ e, x = .error e → P e

/-- A computation that never stops early with anything but an error. -/
abbrev FailsWithError {α : Type} (x : Except EfiStatus α) : Prop :=
  FailsWith (fun e => e.isError = true) x

/-- A computation that stops early with `EFI_UNSUPPORTED` only. -/
abbrev FailsUnsupported {α : Type} (x : Except EfiStatus α) : Prop :=
  FailsWith (fun e => e = .unsupported) x

section FailsWith

variable {α β : Type} {x : Except EfiStatus α} {f : α → Except EfiStatus β} {P : EfiStatus → Prop}

/-- A success does not fail. -/
theorem failsWith_ok (a : α) : FailsWith P (.ok a : Except EfiStatus α) := by
  intro e h
  cases h

/-- A check fails with its own status. -/
theorem failsWith_failIf (c : Prop) [Decidable c] {e : EfiStatus} (he : P e) :
    FailsWith P (failIf c e) := by
  intro e' h
  unfold failIf at h
  split at h <;> cases h
  exact he

/-- If that is an error, with an error only. -/
theorem failsWithError_failIf (c : Prop) [Decidable c] {e : EfiStatus} (he : e.isError = true) :
    FailsWithError (failIf c e) :=
  failsWith_failIf c he

/-- Or with `EFI_UNSUPPORTED` only. -/
theorem failsUnsupported_failIf (c : Prop) [Decidable c] :
    FailsUnsupported (failIf c .unsupported) :=
  failsWith_failIf c rfl

/-- Two steps fail as each of them does. -/
theorem FailsWith.bind (hx : FailsWith P x) (hf : ∀ a, FailsWith P (f a)) :
    FailsWith P (x >>= f) := by
  intro e h
  cases x with
  | error e' =>
    obtain rfl : e' = e := by simpa [Bind.bind, Except.bind] using h
    exact hx _ rfl
  | ok a => exact hf a e h

/-- So does a loop. -/
theorem FailsWith.foldlM {γ : Type} {g : α → γ → Except EfiStatus α} {l : List γ}
    (hg : ∀ a, ∀ c ∈ l, FailsWith P (g a c)) (a : α) : FailsWith P (l.foldlM g a) := by
  induction l generalizing a with
  | nil => exact failsWith_ok a
  | cons c l ih =>
    rw [List.foldlM_cons]
    exact (hg a c List.mem_cons_self).bind fun b =>
      ih (fun a d hd => hg a d (List.mem_cons_of_mem _ hd)) b

/-- A computation that goes on to fail as it may have failed before. -/
theorem FailsWith.bind_eq_error {e : EfiStatus} (hx : FailsWith (· = e) x)
    (hf : ∀ a, f a = .error e) : (x >>= f) = .error e := by
  cases x with
  | error e' =>
    obtain rfl := hx e' rfl
    rfl
  | ok a => exact hf a

/-- What stands in front of a success succeeded. -/
theorem exists_of_bind_ok {b : β} (h : (x >>= f) = .ok b) : ∃ a, x = .ok a ∧ f a = .ok b := by
  cases x with
  | error e => simp [Bind.bind, Except.bind] at h
  | ok a => exact ⟨a, rfl, h⟩

/-- A check that was passed did not strike. -/
theorem not_of_failIf_ok {c : Prop} [Decidable c] {e : EfiStatus} {u : Unit}
    (h : failIf c e = .ok u) : ¬ c := by
  intro hc
  simp [failIf, hc] at h

/-- A check in front of a success was passed. -/
theorem failIf_bind_ok {c : Prop} [Decidable c] {e : EfiStatus} {g : Except EfiStatus β} {b : β} :
    (failIf c e >>= fun _ => g) = .ok b ↔ ¬ c ∧ g = .ok b := by
  by_cases hc : c <;> simp [failIf, hc, Bind.bind, Except.bind]

/-- A computation that succeeds has a result. -/
theorem exists_of_isOk (h : x.isOk = true) : ∃ a, x = .ok a := by
  cases x with
  | error e => cases h
  | ok a => exact ⟨a, rfl⟩

end FailsWith

/-- Unsigned 32-bit addition. -/
def add32 (a b : ℕ) : ℕ := (a + b) % 2 ^ 32

/-- Unsigned 32-bit subtraction. -/
def sub32 (a b : ℕ) : ℕ := (a + (2 ^ 32 - b % 2 ^ 32)) % 2 ^ 32

/-- A difference that is not negative does not wrap. -/
theorem sub32_of_le {a b : ℕ} (h : b ≤ a) (ha : a < 2 ^ 32) : sub32 a b = a - b := by
  unfold sub32
  omega

/-- A file in memory: its size is an `unsigned int`, and it lies low enough that no offset the code
forms wraps an address. -/
structure PeFile extends Region where
  size_lt : size < 2 ^ 32
  room : base + 2 ^ 34 ≤ 2 ^ 64

/-- The images of the examples, one section table behind the headers, are small enough. -/
theorem PeFile.small_size : 328 < 2 ^ 32 := by decide

/-- They lie where there is room. -/
theorem PeFile.low_room : 0x10000 + 2 ^ 34 ≤ 2 ^ 64 := by decide

/-- The build and the policy: `machine_type`, `allow_64_bit`, `allow_32_bit`, and whether
`mok_policy` has `MOK_POLICY_REQUIRE_NX`. -/
structure Platform where
  machineType : ℕ
  allow64Bit : Bool
  allow32Bit : Bool
  requireNx : Bool

/-- `IMAGE_FILE_MACHINE_I386`. -/
def machineI386 : ℕ := 0x014c

/-- `IMAGE_FILE_MACHINE_X64`. -/
def machineX64 : ℕ := 0x8664

/-- `EFI_IMAGE_DOS_SIGNATURE`. -/
def dosSignature : ℕ := 0x5a4d

/-- `EFI_IMAGE_NT_SIGNATURE`, as the 16-bit `Te.Signature` is compared with it. -/
def ntSignature : ℕ := 0x4550

/-- `EFI_IMAGE_NT_OPTIONAL_HDR32_MAGIC`. -/
def optionalHdr32Magic : ℕ := 0x10b

/-- `EFI_IMAGE_NT_OPTIONAL_HDR64_MAGIC`. -/
def optionalHdr64Magic : ℕ := 0x20b

/-- `EFI_IMAGE_SCN_CNT_UNINITIALIZED_DATA`. -/
def scnCntUninitializedData : ℕ := 0x00000080

/-- `EFI_IMAGE_SCN_MEM_DISCARDABLE`. -/
def scnMemDiscardable : ℕ := 0x02000000

/-- `PE_COFF_LOADER_IMAGE_CONTEXT`; the header, the section table and the directory entries are
offsets into the file. -/
structure Context where
  imageAddress : ℕ
  imageSize : ℕ
  entryPoint : ℕ
  sizeOfHeaders : ℕ
  sectionAlignment : ℕ
  numberOfRvaAndSizes : ℕ
  numberOfSections : ℕ
  peHdr : ℕ
  firstSection : ℕ
  relocDir : ℕ
  secDir : ℕ
  deriving DecidableEq

/-- `ImageAddress`: the offset, unless it is not below `size` or its address wraps. -/
def imageAddress (base size address : ℕ) : Option ℕ :=
  if size ≤ address then none else if 2 ^ 64 ≤ base + address then none else some address

/-! ## read_header -/

/-- `image_is_64_bit`. -/
def imageIs64Bit (r : Region) (peHdr : ℕ) : Bool := r.u16 (peHdr + 24) = optionalHdr64Magic

/-- `image_is_loadable`. -/
def imageIsLoadable (p : Platform) (r : Region) (peHdr : ℕ) : Bool :=
  if r.u16 (peHdr + 4) ≠ p.machineType ∧
      ¬ (p.machineType = machineI386 ∧ r.u16 (peHdr + 4) = machineX64 ∧ p.allow64Bit) then false
  else if r.u16 (peHdr + 24) ≠ optionalHdr64Magic ∧ r.u16 (peHdr + 24) ≠ optionalHdr32Magic then
    false
  else if imageIs64Bit r peHdr then p.allow64Bit
  else p.allow32Bit

/-- Offset of `DataDirectory[n]`. -/
def dataDirectory (r : Region) (peHdr n : ℕ) : ℕ :=
  peHdr + 24 + (if imageIs64Bit r peHdr then 112 else 96) + 8 * n

/-- `NumberOfRvaAndSizes`. -/
def numberOfRvaAndSizes (r : Region) (peHdr : ℕ) : ℕ :=
  r.u32 (peHdr + 24 + if imageIs64Bit r peHdr then 108 else 92)

/-- `FileAlignment`, with the default for nought. -/
def fileAlignment (r : Region) (peHdr : ℕ) : ℕ :=
  if r.u32 (peHdr + 60) = 0 then 0x200 else r.u32 (peHdr + 60)

/-- `SectionAlignment` as the context keeps it: a page by default, and at least `FileAlignment`. -/
def sectionAlignment (r : Region) (peHdr : ℕ) : ℕ :=
  max (if r.u32 (peHdr + 56) = 0 then 0x1000 else r.u32 (peHdr + 56)) (fileAlignment r peHdr)

/-- The context `read_header` fills in for the header at `peHdr`. -/
def contextAt (r : Region) (peHdr : ℕ) : Context where
  imageAddress := if imageIs64Bit r peHdr then r.u64 (peHdr + 48) else r.u32 (peHdr + 52)
  imageSize := r.u32 (peHdr + 80)
  entryPoint := r.u32 (peHdr + 40)
  sizeOfHeaders := r.u32 (peHdr + 84)
  sectionAlignment := sectionAlignment r peHdr
  numberOfRvaAndSizes := numberOfRvaAndSizes r peHdr
  numberOfSections := r.u16 (peHdr + 6)
  peHdr := peHdr
  firstSection := peHdr + r.u16 (peHdr + 20) + 4 + 20
  relocDir := dataDirectory r peHdr 5
  secDir := dataDirectory r peHdr 4

/-- Where the PE header is: at `e_lfanew` behind an MZ header, else at the start. -/
def peHdrOffset (r : Region) : ℕ := if r.u16 0 = dosSignature then r.u32 60 else 0

/-- `SizeOfOptionalHeader` is the fixed part and exactly the declared directory entries. -/
def optionalHeaderFits (r : Region) (peHdr : ℕ) : Prop :=
  (if imageIs64Bit r peHdr then 112 else 96) ≤ r.u16 (peHdr + 20) ∧
    r.u16 (peHdr + 20) - (if imageIs64Bit r peHdr then 112 else 96) =
      numberOfRvaAndSizes r peHdr * 8

instance (r : Region) (peHdr : ℕ) : Decidable (optionalHeaderFits r peHdr) :=
  inferInstanceAs (Decidable (_ ∧ _))

/-- `SectionHeaderOffset`, which takes `e_lfanew` also where there is no MZ header. -/
def sectionHeaderOffset (r : Region) (peHdr : ℕ) : ℕ := r.u32 60 + 4 + 20 + r.u16 (peHdr + 20)

/-- `read_header`. -/
def readHeader (p : Platform) (r : Region) : Except EfiStatus Context := do
  failIf (r.size < 64) .unsupported
  failIf (r.u16 0 = dosSignature ∧ (r.u32 60 < 64 ∨ r.size - 4 < r.u32 60)) .unsupported
  let peHdr := peHdrOffset r
  failIf (r.size - peHdr < 248) .unsupported
  failIf (imageIs64Bit r peHdr ∧ r.size - peHdr < 264) .unsupported
  failIf (¬ imageIsLoadable p r peHdr) .unsupported
  let context := contextAt r peHdr
  failIf (r.u32 (peHdr + 60) % 2 ≠ 0) .unsupported
  failIf (16 < context.numberOfRvaAndSizes) .unsupported
  failIf (¬ optionalHeaderFits r peHdr) .unsupported
  let offset := sectionHeaderOffset r peHdr
  failIf (context.imageSize < offset ∨
    (context.imageSize - offset) / 40 ≤ context.numberOfSections) .unsupported
  failIf (context.sizeOfHeaders < offset ∨
    (context.sizeOfHeaders - offset) / 40 < context.numberOfSections) .unsupported
  failIf (r.size < context.numberOfSections * 40 + offset) .unsupported
  failIf (r.size < peHdr + 264) .unsupported
  failIf (r.u16 peHdr ≠ ntSignature) .unsupported
  -- EFI_IMAGE_FILE_RELOCS_STRIPPED is bit 0 of Characteristics
  failIf (r.u16 (peHdr + 22) % 2 = 1) .unsupported
  -- EFI_IMAGE_DLLCHARACTERISTICS_NX_COMPAT is bit 8 of DllCharacteristics
  failIf (p.requireNx ∧ r.u16 (peHdr + 94) / 256 % 2 = 0) .unsupported
  failIf (r.size < context.firstSection) .unsupported
  failIf (context.imageSize < context.sizeOfHeaders) .unsupported
  failIf (r.size - 8 < context.secDir) .unsupported
  failIf (r.size < r.u32 context.secDir ∨
    r.u32 context.secDir = r.size ∧ 0 < r.u32 (context.secDir + 4)) .invalidParameter
  return context

/-! ## An example -/

/-- A build for 64-bit images. -/
def platformX64 : Platform := ⟨machineX64, true, false, false⟩

/-- A small image without sections: its headers end with the certificate table entry, and the table
of one PKCS#7 record ends the file. -/
def signedImage : Region := .ofFields 0x10000 352
  [(0, [0x4d, 0x5a]), (60, [64]), (64, [0x50, 0x45]), (68, [0x64, 0x86]), (84, [152]),
   (88, [0x0b, 0x02]), (144, [0x00, 0x10]), (148, [240]), (196, [5]),
   (232, [0x50, 0x01, 0x00, 0x00, 0x10]), (336, [0x10, 0x00, 0x00, 0x00, 0x00, 0x02, 0x02, 0x00])]

/-- Its context. -/
def signedContext : Context := contextAt signedImage 64

example : readHeader platformX64 signedImage = .ok signedContext := by decide +kernel

/-! ## Sections -/

/-- `EFI_IMAGE_SECTION_HEADER`. -/
structure SectionHeader where
  name : List UInt8
  virtualSize : ℕ
  virtualAddress : ℕ
  sizeOfRawData : ℕ
  pointerToRawData : ℕ
  pointerToRelocations : ℕ
  numberOfRelocations : ℕ
  characteristics : ℕ
  deriving DecidableEq

/-- The section header at offset `o`. -/
def sectionHeaderAt (r : Region) (o : ℕ) : SectionHeader where
  name := r.bytes o 8
  virtualSize := r.u32 (o + 8)
  virtualAddress := r.u32 (o + 12)
  sizeOfRawData := r.u32 (o + 16)
  pointerToRawData := r.u32 (o + 20)
  pointerToRelocations := r.u32 (o + 24)
  numberOfRelocations := r.u16 (o + 32)
  characteristics := r.u32 (o + 36)

/-- The section table. -/
def sectionHeaders (r : Region) (context : Context) : List SectionHeader :=
  (List.range context.numberOfSections).map fun i => sectionHeaderAt r (context.firstSection + 40 * i)

/-- A characteristics flag, given by its mask of one bit, is set. -/
def SectionHeader.has (s : SectionHeader) (flag : ℕ) : Bool := s.characteristics / flag % 2 = 1

/-- `end < base` for pointers: NULL is below every address. -/
def pointerLt : Option ℕ → Option ℕ → Bool
  | some l, some f => l < f
  | none, some _ => true
  | _, none => false

/-- `get_section_vma` for one header, over a buffer at `base`: the first and the last byte of the
section in an image of `ImageSize` bytes, where they are inside. -/
def getSectionVma (base : ℕ) (context : Context) (s : SectionHeader) :
    Except EfiStatus (Option ℕ × Option ℕ) := do
  let first := imageAddress base context.imageSize s.virtualAddress
  let last := imageAddress base context.imageSize
    (sub32 (add32 s.virtualAddress s.virtualSize) 1)
  failIf (¬ s.has scnMemDiscardable ∧ first = none) .unsupported
  failIf (¬ s.has scnMemDiscardable ∧ last = none) .unsupported
  failIf (¬ s.has scnCntUninitializedData ∧
    (s.virtualAddress < context.sizeOfHeaders ∨ s.pointerToRawData < context.sizeOfHeaders))
    .unsupported
  failIf (pointerLt last first) .unsupported
  return (first, last)

end Shim
