import Shim.Common.Traced
import Shim.Pe.Header

/-! # What reading a header reads

`read_header` once more, with its reads and its unsigned subtractions. Nothing it does goes wrong,
whatever the buffer holds, and the context it returns lies in the buffer. The place of the section
table is computed twice: the checks take `e_lfanew` also where there is no MZ header, which moves
the table they look at behind the one that is used, so that they cover it.
-/

namespace Shim

open Event (AllSound)
open Traced (Meets)

/-- `failIf`, in a run with events. -/
def check (c : Prop) [Decidable c] (e : EfiStatus) : Traced EfiStatus Unit := Traced.lift (failIf c e)

/-- A check that is recorded is the check. -/
@[simp] theorem result_check (c : Prop) [Decidable c] (e : EfiStatus) :
    (check c e).result = failIf c e := rfl

/-- What stands behind a check may rely on it. -/
theorem meets_check_bind {β : Type} {c : Prop} [Decidable c] {e : EfiStatus} {size : ℕ}
    {f : Unit → Traced EfiStatus β} {Q : β → Prop} (hf : ¬ c → Meets size (f ()) Q) :
    Meets size (check c e >>= f) Q :=
  (Traced.meets_lift fun _ h => not_of_failIf_ok h).bind fun _ h => hf h

section Fields

variable (p : Platform) (r : Region) (peHdr : ℕ)

/-- `Magic`, which `image_is_64_bit` reads. -/
def readMagic : Traced EfiStatus Unit := Traced.read (peHdr + 24) 2

/-- The fields of `image_is_loadable`. -/
def readLoadable : Traced EfiStatus Unit := do
  Traced.read (peHdr + 4) 2
  Traced.read (peHdr + 24) 2

/-- The fields of the context that are read first. -/
def readSizes : Traced EfiStatus Unit := do
  readMagic peHdr
  Traced.read (peHdr + 24 + if imageIs64Bit r peHdr then 108 else 92) 4
  Traced.read (peHdr + 84) 4
  Traced.read (peHdr + 80) 4
  Traced.read (peHdr + 56) 4
  Traced.read (peHdr + 60) 4

/-- The fields of the context that are read last. -/
def readAddresses : Traced EfiStatus Unit := do
  readMagic peHdr
  Traced.read (if imageIs64Bit r peHdr then peHdr + 48 else peHdr + 52)
    (if imageIs64Bit r peHdr then 8 else 4)
  Traced.read (peHdr + 40) 4
  Traced.read (peHdr + 94) 2

end Fields

/-- `read_header`, with what it reads and subtracts. -/
def readHeaderTraced (p : Platform) (r : Region) : Traced EfiStatus Context := do
  check (r.size < 64) .unsupported
  Traced.read 0 2
  Traced.eventWhen (r.u16 0 = dosSignature) (.read 60 4)
  Traced.subtract r.size 4
  check (r.u16 0 = dosSignature ∧ (r.u32 60 < 64 ∨ r.size - 4 < r.u32 60)) .unsupported
  let peHdr := peHdrOffset r
  Traced.subtract r.size peHdr
  check (r.size - peHdr < 248) .unsupported
  readMagic peHdr
  check (imageIs64Bit r peHdr ∧ r.size - peHdr < 264) .unsupported
  readLoadable peHdr
  check (¬ imageIsLoadable p r peHdr) .unsupported
  readSizes r peHdr
  let context := contextAt r peHdr
  check (r.u32 (peHdr + 60) % 2 ≠ 0) .unsupported
  -- NumberOfSections
  Traced.read (peHdr + 6) 2
  check (16 < context.numberOfRvaAndSizes) .unsupported
  -- SizeOfOptionalHeader
  Traced.read (peHdr + 20) 2
  check (¬ optionalHeaderFits r peHdr) .unsupported
  Traced.read 60 4
  let offset := sectionHeaderOffset r peHdr
  check (context.imageSize < offset ∨
    (context.imageSize - offset) / 40 ≤ context.numberOfSections) .unsupported
  check (context.sizeOfHeaders < offset ∨
    (context.sizeOfHeaders - offset) / 40 < context.numberOfSections) .unsupported
  check (r.size < context.numberOfSections * 40 + offset) .unsupported
  check (r.size < peHdr + 264) .unsupported
  Traced.read peHdr 2
  check (r.u16 peHdr ≠ ntSignature) .unsupported
  -- Characteristics
  Traced.read (peHdr + 22) 2
  check (r.u16 (peHdr + 22) % 2 = 1) .unsupported
  readAddresses r peHdr
  check (p.requireNx ∧ r.u16 (peHdr + 94) / 256 % 2 = 0) .unsupported
  check (r.size < context.firstSection) .unsupported
  check (context.imageSize < context.sizeOfHeaders) .unsupported
  Traced.subtract r.size 8
  check (r.size - 8 < context.secDir) .unsupported
  Traced.read context.secDir 8
  check (r.size < r.u32 context.secDir ∨
    r.u32 context.secDir = r.size ∧ 0 < r.u32 (context.secDir + 4)) .invalidParameter
  return context

/-- The run with events computes what `read_header` does. -/
theorem result_readHeaderTraced (p : Platform) (r : Region) :
    (readHeaderTraced p r).result = readHeader p r := by
  simp only [readHeaderTraced, readHeader, readMagic, readLoadable, readSizes, readAddresses,
    Traced.result_bind, Traced.result_read, Traced.result_eventWhen, Traced.result_subtract,
    Traced.result_pure, result_check]
  rfl

/-- What later code takes for granted of a context. -/
structure HeaderFits (r : Region) (context : Context) : Prop where
  peHdr : context.peHdr + (if imageIs64Bit r context.peHdr then 264 else 248) ≤ r.size
  sectionTable : context.firstSection + 40 * context.numberOfSections ≤ r.size
  secDir : context.secDir + 8 ≤ r.size
  relocDir : context.relocDir + 8 ≤ r.size
  sizeOfHeaders : context.firstSection + 40 * context.numberOfSections ≤ context.sizeOfHeaders
  imageSize : context.sizeOfHeaders ≤ context.imageSize

section Sound

variable {r : Region} {peHdr : ℕ}

/-- The magic number is read inside of the headers. -/
theorem meets_readMagic (h : peHdr + 248 ≤ r.size) :
    Meets r.size (readMagic peHdr) fun _ => True :=
  Traced.meets_read (by omega)

/-- So are the fields that say whether the image can be loaded. -/
theorem meets_readLoadable (h : peHdr + 248 ≤ r.size) :
    Meets r.size (readLoadable peHdr) fun _ => True :=
  Traced.meets_read_bind (by omega) (Traced.meets_read (by omega))

/-- So are the sizes. -/
theorem meets_readSizes (h : peHdr + 248 ≤ r.size) :
    Meets r.size (readSizes r peHdr) fun _ => True := by
  have hdirs : (if imageIs64Bit r peHdr then 108 else 92) ≤ 108 := by split <;> omega
  refine (meets_readMagic h).bind fun _ _ => ?_
  refine Traced.meets_read_bind (by omega) ?_
  refine Traced.meets_read_bind (by omega) ?_
  refine Traced.meets_read_bind (by omega) ?_
  exact Traced.meets_read_bind (by omega) (Traced.meets_read (by omega))

/-- So are the addresses. -/
theorem meets_readAddresses (h : peHdr + 248 ≤ r.size) :
    Meets r.size (readAddresses r peHdr) fun _ => True := by
  have hbase : (if imageIs64Bit r peHdr then peHdr + 48 else peHdr + 52) +
      (if imageIs64Bit r peHdr then 8 else 4) ≤ r.size := by
    split <;> omega
  refine (meets_readMagic h).bind fun _ _ => ?_
  refine Traced.meets_read_bind hbase ?_
  exact Traced.meets_read_bind (by omega) (Traced.meets_read (by omega))

/-- The entries that the code keeps pointers to end with the fixed part of the header. -/
theorem dataDirectory_le (r : Region) (peHdr : ℕ) {n : ℕ} (hn : n ≤ 15) :
    dataDirectory r peHdr n + 8 ≤ peHdr + 264 := by
  unfold dataDirectory
  split <;> omega

/-- Where the checks look for the section table: not before the place that is used. -/
theorem firstSection_le (r : Region) :
    (contextAt r (peHdrOffset r)).firstSection ≤ sectionHeaderOffset r (peHdrOffset r) := by
  have hpe : peHdrOffset r ≤ r.u32 60 := by
    unfold peHdrOffset
    split
    · exact le_rfl
    · exact Nat.zero_le _
  have hfirst : (contextAt r (peHdrOffset r)).firstSection =
      peHdrOffset r + r.u16 (peHdrOffset r + 20) + 4 + 20 := rfl
  rw [hfirst, sectionHeaderOffset]
  omega

/-- The run stays inside of the buffer, and so does what it returns. -/
theorem meets_readHeaderTraced (p : Platform) (r : Region) :
    Meets r.size (readHeaderTraced p r) (HeaderFits r) := by
  unfold readHeaderTraced
  refine meets_check_bind fun hdos => ?_
  refine Traced.meets_read_bind (by omega) ?_
  refine Traced.meets_eventWhen_bind (fun _ => .inr (by omega)) ?_
  refine Traced.meets_subtract_bind (by omega) ?_
  refine meets_check_bind fun hlfanew => ?_
  -- the PE header starts in the file
  have hpe : peHdrOffset r ≤ r.size := by
    unfold peHdrOffset
    split
    · have := not_and.mp hlfanew ‹_›
      omega
    · exact Nat.zero_le _
  refine Traced.meets_subtract_bind hpe ?_
  refine meets_check_bind fun h32 => ?_
  -- and all of its fields lie there
  have hhdr : peHdrOffset r + 248 ≤ r.size := by omega
  refine (meets_readMagic hhdr).bind fun _ _ => ?_
  refine meets_check_bind fun h64 => ?_
  refine (meets_readLoadable hhdr).bind fun _ _ => ?_
  refine meets_check_bind fun _ => ?_
  refine (meets_readSizes hhdr).bind fun _ _ => ?_
  refine meets_check_bind fun _ => ?_
  refine Traced.meets_read_bind (by omega) ?_
  refine meets_check_bind fun _ => ?_
  refine Traced.meets_read_bind (by omega) ?_
  refine meets_check_bind fun _ => ?_
  refine Traced.meets_read_bind (by omega) ?_
  refine meets_check_bind fun _ => ?_
  refine meets_check_bind fun hheaders => ?_
  refine meets_check_bind fun htable => ?_
  refine meets_check_bind fun hunion => ?_
  refine Traced.meets_read_bind (by omega) ?_
  refine meets_check_bind fun _ => ?_
  refine Traced.meets_read_bind (by omega) ?_
  refine meets_check_bind fun _ => ?_
  refine (meets_readAddresses hhdr).bind fun _ _ => ?_
  refine meets_check_bind fun _ => ?_
  refine meets_check_bind fun _ => ?_
  refine meets_check_bind fun himage => ?_
  refine Traced.meets_subtract_bind (by omega) ?_
  refine meets_check_bind fun hsecDir => ?_
  refine Traced.meets_read_bind (by omega) ?_
  refine meets_check_bind fun _ => ?_
  refine Traced.meets_pure ?_
  -- what the context says of the file, from the checks on the way
  have hfirst := firstSection_le r
  have hreloc := dataDirectory_le r (peHdrOffset r) (n := 5) (by decide)
  have hdirs : (contextAt r (peHdrOffset r)).relocDir = dataDirectory r (peHdrOffset r) 5 := rfl
  refine ⟨?_, by omega, by omega, by omega, by omega, by omega⟩
  change peHdrOffset r + _ ≤ r.size
  split <;> omega

end Sound

/-- `read_header` reads its buffer only and wraps no size, whatever the buffer holds, and a context
that it accepts fits into the buffer. -/
theorem readHeader_sufficient (p : Platform) (r : Region) :
    AllSound r.size (readHeaderTraced p r).events ∧
      ∀ context, readHeader p r = .ok context → HeaderFits r context := by
  have h := meets_readHeaderTraced p r
  refine ⟨h.sound, ?_⟩
  rw [← result_readHeaderTraced]
  exact h.result

/-- The headers of the signed image fit. -/
theorem headerFits_signedImage : HeaderFits signedImage signedContext :=
  (readHeader_sufficient platformX64 signedImage).2 _ (by decide +kernel)

end Shim
