import Shim.Common.Bytes
import Shim.Common.ByteMap
import Shim.Pe.Hash
import Shim.Sbat.Verify

/-! # Loading an image

The loading part of `handle_image` (pe.c), `relocate_coff` (pe-relocate.c) and `verify_buffer_sbat`
(shim.c). The image in memory is a byte map over offsets from `buffer`. The relocation table is read
from the file while the fixups go to the image, so its walk is modelled apart from applying them;
page permissions are left out.
-/

namespace Shim

open Bytes (sub64)

/-! ## Relocation -/

/-- One relocation: add to the number of `width` bytes at an offset of the image. -/
structure Fixup where
  offset : ℕ
  width : ℕ
  addend : ℕ
  deriving DecidableEq

/-- The store a fixup makes. -/
def Fixup.apply (m : ℕ → UInt8) (f : Fixup) : ℕ → UInt8 :=
  ByteMap.patch m f.offset f.width (· + f.addend)

/-- The switch over the type of an entry. -/
def relocEntry (adjust fixupBase entry : ℕ) : Except EfiStatus Fixup :=
  let offset := fixupBase + entry % 4096
  match entry / 4096 with
  | 0 => .ok ⟨offset, 0, 0⟩
  | 1 => .ok ⟨offset, 2, adjust % 2 ^ 32 / 2 ^ 16⟩
  | 2 => .ok ⟨offset, 2, adjust % 2 ^ 16⟩
  | 3 => .ok ⟨offset, 4, adjust % 2 ^ 32⟩
  | 10 => .ok ⟨offset, 8, adjust⟩
  | _ => .error .unsupported

/-- A 32-bit size through an `int`, as the 64-bit size it is extended to. -/
def intSize (size : ℕ) : ℕ := if size < 2 ^ 31 then size else 2 ^ 64 - 2 ^ 32 + size

/-- `RelocDir->Size`. -/
def relocDirSize (r : Region) (context : Context) : ℕ := r.u32 (context.relocDir + 4)

/-- The checks on the block at `off`, and its `FixupBase`. -/
def relocBlock (r : Region) (context : Context) (buffer off : ℕ) : Except EfiStatus ℕ := do
  let sizeOfBlock := r.u32 (off + 4)
  failIf (sizeOfBlock = 0) .unsupported
  failIf (relocDirSize r context < sizeOfBlock) .unsupported
  -- ImageEnd is taken from the file's address
  failIf ((r.base + intSize context.imageSize) % 2 ^ 64 < r.base + off + sizeOfBlock) .unsupported
  match imageAddress buffer (intSize context.imageSize) (r.u32 off) with
  | none => .error .unsupported
  | some fixupBase => .ok fixupBase

/-- How many entries the block at `off` has. -/
def relocCount (r : Region) (off : ℕ) : ℕ := (r.u32 (off + 4) - 8 + 1) / 2

/-- The fixups of the entries of the block at `off`. -/
def relocEntries (r : Region) (adjust fixupBase off : ℕ) : Except EfiStatus (List Fixup) :=
  (List.range (relocCount r off)).mapM fun i =>
    relocEntry adjust fixupBase (r.u16 (off + 8 + 2 * i))

/-- The walk over the blocks: every block takes a byte at least. -/
def relocBlocks (r : Region) (context : Context) (buffer adjust relocEnd : ℕ) :
    (fuel off : ℕ) → Except EfiStatus (List Fixup)
  | 0, _ => .ok []
  | fuel + 1, off =>
    if off < relocEnd then do
      let fixupBase ← relocBlock r context buffer off
      let fixups ← relocEntries r adjust fixupBase off
      let rest ← relocBlocks r context buffer adjust relocEnd fuel (off + r.u32 (off + 4))
      return fixups ++ rest
    else .ok []

/-- The stretches of the file the walk reads: the header of every block it gets to, and the entries
of the blocks that pass the checks. -/
def relocReads (r : Region) (context : Context) (buffer adjust relocEnd : ℕ) :
    (fuel off : ℕ) → List Chunk
  | 0, _ => []
  | fuel + 1, off =>
    if off < relocEnd then
      (off, 8) :: match relocBlock r context buffer off with
        | .error _ => []
        | .ok fixupBase =>
          (off + 8, 2 * relocCount r off) :: match relocEntries r adjust fixupBase off with
            | .error _ => []
            | .ok _ =>
              relocReads r context buffer adjust relocEnd fuel (off + r.u32 (off + 4))
    else []

/-- `RelocBase` and `RelocBaseEnd`, offsets into the file. -/
def relocTable (r : Region) (context : Context) (s : SectionHeader) : Option ℕ × Option ℕ :=
  (imageAddress r.base (intSize context.imageSize) s.pointerToRawData,
    imageAddress r.base (intSize context.imageSize)
      (sub32 (add32 s.pointerToRawData (relocDirSize r context)) 1))

/-- `Adjust`. -/
def relocAdjust (context : Context) (buffer : ℕ) : ℕ := sub64 buffer context.imageAddress

/-- `relocate_coff`: the fixups it applies. -/
def relocateCoff (r : Region) (context : Context) (buffer : ℕ) (s : SectionHeader) :
    Except EfiStatus (List Fixup) :=
  match relocTable r context s with
  | (none, none) => .ok []
  | (some relocBase, some relocEnd) =>
    if relocAdjust context buffer = 0 then .ok []
    else relocBlocks r context buffer (relocAdjust context buffer) relocEnd (relocDirSize r context)
      relocBase
  | _ => .error .unsupported

/-- What `relocate_coff` reads of the file besides the headers. -/
def relocateReads (r : Region) (context : Context) (buffer : ℕ) (s : SectionHeader) : List Chunk :=
  match relocTable r context s with
  | (some relocBase, some relocEnd) =>
    if relocAdjust context buffer = 0 then []
    else relocReads r context buffer (relocAdjust context buffer) relocEnd (relocDirSize r context)
      relocBase
  | _ => []

/-! ## Sections -/

/-- `EFI_IMAGE_SCN_MEM_EXECUTE`. -/
def scnMemExecute : ℕ := 0x20000000

/-- `EFI_IMAGE_SCN_MEM_READ`. -/
def scnMemRead : ℕ := 0x40000000

/-- `EFI_IMAGE_SCN_MEM_WRITE`. -/
def scnMemWrite : ℕ := 0x80000000

/-- `".reloc\0\0"`. -/
def relocName : List UInt8 := [0x2e, 0x72, 0x65, 0x6c, 0x6f, 0x63, 0x00, 0x00]

/-- `".sbat\0\0\0"`. -/
def sbatName : List UInt8 := [0x2e, 0x73, 0x62, 0x61, 0x74, 0x00, 0x00, 0x00]

/-- The loop over the sections: the image, `RelocSection` and `found_entry_point`. -/
structure LoadState where
  memory : ℕ → UInt8
  relocSection : Option SectionHeader
  foundEntryPoint : ℕ

/-- Where the relocation directory is mapped: `RelocBase` and `RelocBaseEnd` of `handle_image`. -/
def relocDirVma (r : Region) (context : Context) (buffer : ℕ) : Option ℕ × Option ℕ :=
  (imageAddress buffer context.imageSize (r.u32 context.relocDir),
    imageAddress buffer context.imageSize
      (sub32 (add32 (r.u32 context.relocDir) (relocDirSize r context)) 1))

/-- The last byte of a section, `VirtualAddress + VirtualSize - 1`. -/
def SectionHeader.last (s : SectionHeader) : ℕ := sub32 (add32 s.virtualAddress s.virtualSize) 1

/-- The check of a section named `.reloc`, given where the directory is mapped. -/
def checkRelocSection (relocDir : Option ℕ × Option ℕ) (base last : Option ℕ) (s : SectionHeader)
    (relocSection : Option SectionHeader) : Except EfiStatus (Option SectionHeader) :=
  if s.name ≠ relocName then .ok relocSection
  else do
    failIf relocSection.isSome .unsupported
    failIf (¬ (s.sizeOfRawData ≠ 0 ∧ s.virtualSize ≠ 0 ∧ base.isSome ∧ last.isSome ∧
      relocDir.1 = base ∧ ¬ pointerLt last relocDir.2)) .unsupported
    return some s

/-- Copy one section to its place. -/
def copySection (r : Region) (s : SectionHeader) (m : ℕ → UInt8) : ℕ → UInt8 :=
  if s.has scnCntUninitializedData then ByteMap.zero m s.virtualAddress s.virtualSize
  else
    let size := min s.virtualSize s.sizeOfRawData
    let m := ByteMap.fill m s.virtualAddress size fun i => r.byte (s.pointerToRawData + i)
    ByteMap.zero m (s.virtualAddress + size) (s.virtualSize - size)

/-- The body of the loop over the sections. -/
def loadSection (p : Platform) (r : Region) (context : Context) (buffer : ℕ)
    (relocDir : Option ℕ × Option ℕ) (st : LoadState) (s : SectionHeader) :
    Except EfiStatus LoadState := do
  if s.has scnMemDiscardable ∧ s.virtualSize = 0 then return st
  if ¬ s.has scnMemRead then return st
  failIf (¬ s.has scnMemDiscardable ∧ s.has scnMemWrite ∧ s.has scnMemExecute ∧ p.requireNx)
    .unsupported
  let base := imageAddress buffer context.imageSize s.virtualAddress
  let last := imageAddress buffer context.imageSize s.last
  failIf (pointerLt last base) .unsupported
  let found := st.foundEntryPoint +
    if s.virtualAddress ≤ context.entryPoint ∧ context.entryPoint < s.last then 1 else 0
  let relocSection ← checkRelocSection relocDir base last s st.relocSection
  if s.has scnMemDiscardable then return ⟨st.memory, relocSection, found⟩
  failIf (base = none) .unsupported
  failIf (last = none) .unsupported
  failIf (¬ s.has scnCntUninitializedData ∧
    (s.virtualAddress < context.sizeOfHeaders ∨ s.pointerToRawData < context.sizeOfHeaders))
    .unsupported
  return ⟨copySection r s st.memory, relocSection, found⟩

/-! ## handle_image -/

/-- `ALIGN_VALUE`, on 64 bits. -/
def alignValue (value alignment : ℕ) : ℕ :=
  (value + (sub64 alignment value &&& (alignment - 1))) % 2 ^ 64

/-- A loaded image: the entry point as an offset, and the bytes from `buffer` on. -/
structure LoadedImage where
  entryPoint : ℕ
  memory : ℕ → UInt8

/-- The fixups of the image, where there is something to relocate. -/
def relocation (r : Region) (context : Context) (buffer : ℕ) (st : LoadState) :
    Except EfiStatus (List Fixup) :=
  match st.relocSection with
  | none => .ok []
  | some s => if relocDirSize r context = 0 then .ok [] else relocateCoff r context buffer s

/-- The loading part of `handle_image`: `allocAddress` is what `AllocatePages` answers, `m` what is
in the pages. -/
def loadImage (p : Platform) (r : Region) (context : Context) (allocAddress : Option ℕ)
    (m : ℕ → UInt8) : Except EfiStatus LoadedImage :=
  match allocAddress with
  | none => .error .outOfResources
  | some address => do
    let buffer := alignValue address context.sectionAlignment
    let m := ByteMap.fill m 0 context.sizeOfHeaders r.byte
    failIf (imageAddress buffer context.imageSize context.entryPoint = none) .unsupported
    let st ← (sectionHeaders r context).foldlM
      (loadSection p r context buffer (relocDirVma r context buffer)) ⟨m, none, 0⟩
    failIf (context.numberOfRvaAndSizes ≤ 5) .unsupported
    let fixups ← relocation r context buffer st
    failIf (st.foundEntryPoint = 0) .unsupported
    failIf (1 < st.foundEntryPoint) .unsupported
    return ⟨context.entryPoint, fixups.foldl Fixup.apply st.memory⟩

/-! ## verify_buffer_sbat -/

/-- The loop over the sections: `SBATBase` and `SBATSize`. -/
def findSbat (r : Region) (context : Context) :
    List ℕ → Option ℕ × ℕ → Except EfiStatus (Option ℕ × ℕ)
  | [], sbat => .ok sbat
  | i :: rest, sbat => do
    let dataEnd := (r.base + intSize r.size) % 2 ^ 64
    failIf (dataEnd < r.base + context.firstSection + 40 * (i + 1)) .unsupported
    let s := sectionHeaderAt r (context.firstSection + 40 * i)
    if s.name ≠ sbatName then findSbat r context rest sbat
    else
      failIf (sbat.1.isSome ∨ sbat.2 ≠ 0) .unsupported
      failIf (s.numberOfRelocations ≠ 0 ∨ s.pointerToRelocations ≠ 0) .unsupported
      if s.sizeOfRawData ≠ 0 ∧ s.virtualSize ≤ s.sizeOfRawData then
        let sbatBase := imageAddress r.base (intSize r.size) s.pointerToRawData
        let boundary := sbatBase.elim 0 (r.base + ·) + s.sizeOfRawData
        failIf (2 ^ 64 ≤ boundary ∨ dataEnd < boundary) .unsupported
        findSbat r context rest (sbatBase, s.sizeOfRawData)
      else findSbat r context rest sbat

/-- `verify_buffer_sbat`. -/
def verifyBufferSbat (inProtocol : Bool) (sbatVar : List SbatVarEntry) (r : Region)
    (context : Context) : EfiStatus :=
  match findSbat r context (List.range context.numberOfSections) (none, 0) with
  | .error e => e
  | .ok (sbatBase, sbatSize) =>
    verifySbatSection inProtocol sbatVar (sbatBase.map fun o => r.bytes o sbatSize)

end Shim
