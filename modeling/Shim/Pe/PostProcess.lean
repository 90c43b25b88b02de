import Shim.Common.OnesComplement
import Shim.Common.Write
import Shim.Pe.Header

/-! # post-process-pe

`load_pe`, `set_dll_characteristics`, `fix_timestamp`, `fix_checksum` and `handle_one`
(post-process-pe.c). The file is mapped shared and low enough that no pointer into it wraps; what
was written before `errx` ends the program stays in the file.

`fix_checksum` adds whole words only, so that the last byte of a file of odd size is left out, and
`load_pe` takes a PE header whose time stamp lies over `e_lfanew`, which `fix_timestamp` then
clears. Every other file comes out as it should (`handleOne_processed_iff`).
-/

namespace Shim

open OnesComplement Region

/-! ## The program -/

/-- `errx` when the check `c` strikes: the file is left as it is by then. -/
def errxIf (c : Prop) [Decidable c] (r : Region) : Except Region Unit :=
  if c then .error r else .ok ()

/-- `(x + align - 1) & ~(align - 1)` for `size_t`. -/
def roundUp (x align : ℕ) : ℕ := (x + align - 1) &&& (2 ^ 64 - align)

/-- `SizeOfHeaders` leaves no room for the section table. -/
def headersTooSmall (r : Region) (peHdr : ℕ) : Prop :=
  r.u32 (peHdr + 84) < sectionHeaderOffset r peHdr ∨
    (r.u32 (peHdr + 84) - sectionHeaderOffset r peHdr) / 40 < r.u16 (peHdr + 6)

instance (r : Region) (peHdr : ℕ) : Decidable (headersTooSmall r peHdr) :=
  inferInstanceAs (Decidable (_ ∨ _))

/-- `ctx->SizeOfHeaders`: what is too small is replaced by the end of the section table, rounded up
to `FileAlignment`. -/
def ctxSizeOfHeaders (r : Region) (peHdr : ℕ) : ℕ :=
  if headersTooSmall r peHdr then
    roundUp (sectionHeaderOffset r peHdr + r.u16 (peHdr + 6) * 40) (fileAlignment r peHdr)
  else r.u32 (peHdr + 84)

/-- The replacement in the file, which has room for a `UINT32`. -/
def fixSizeOfHeaders (r : Region) (peHdr : ℕ) : Region :=
  if headersTooSmall r peHdr then
    r.write (peHdr + 84) (le32 (ctxSizeOfHeaders r peHdr % 2 ^ 32))
  else r

/-- `load_pe`: the file and the offset of its PE header. -/
def loadPe (r : Region) : Except Region (Region × ℕ) := do
  errxIf (r.size < 248) r
  errxIf (r.u16 0 ≠ dosSignature) r
  errxIf (r.size ≤ r.u32 60) r
  let peHdr := r.u32 60
  errxIf (r.u32 peHdr ≠ ntSignature) r
  errxIf (r.u32 (peHdr + 60) % 2 ≠ 0) r
  errxIf (16 < numberOfRvaAndSizes r peHdr) r
  errxIf (¬ optionalHeaderFits r peHdr) r
  errxIf (r.u32 (peHdr + 80) < sectionHeaderOffset r peHdr ∨
    (r.u32 (peHdr + 80) - sectionHeaderOffset r peHdr) / 40 ≤ r.u16 (peHdr + 6)) r
  let r' := fixSizeOfHeaders r peHdr
  errxIf (r'.size < peHdr + 264) r'
  -- EFI_IMAGE_FILE_RELOCS_STRIPPED is bit 0 of Characteristics
  errxIf (r'.u16 (peHdr + 22) % 2 = 1) r'
  errxIf (r.u32 (peHdr + 80) < ctxSizeOfHeaders r peHdr) r'
  let secDir := dataDirectory r' peHdr 4
  errxIf (r'.size - 8 < secDir) r'
  errxIf (r'.size < r'.u32 secDir ∨ r'.u32 secDir = r'.size ∧ 0 < r'.u32 (secDir + 4)) r'
  return (r', peHdr)

/-- The new flags: `EFI_IMAGE_DLLCHARACTERISTICS_NX_COMPAT` set or cleared. -/
def nxFlags (setNxCompat : Bool) (flags : ℕ) : ℕ :=
  if setNxCompat then flags ||| 0x100 else flags &&& 0xfeff

/-- `set_dll_characteristics`. -/
def setDllCharacteristics (setNxCompat : Bool) (r : Region) (peHdr : ℕ) : Region :=
  let oldflags := r.u16 (peHdr + 94)
  if oldflags = nxFlags setNxCompat oldflags then r
  else r.write (peHdr + 94) (le16 (nxFlags setNxCompat oldflags))

/-- `fix_timestamp`. -/
def fixTimestamp (r : Region) (peHdr : ℕ) : Region :=
  if r.u32 (peHdr + 8) ≠ 0 then r.write (peHdr + 8) (le32 0) else r

/-- The loop of `fix_checksum` from offset `i` on. -/
def checksumWords (r : Region) (checksum i : ℕ) : ℕ :=
  if i < r.size - 1 then checksumWords r (carry (checksum + r.u16 i)) (i + 2) else checksum
termination_by r.size - i

/-- The file with `CheckSum` cleared. -/
def clearChecksum (r : Region) (peHdr : ℕ) : Region := r.write (peHdr + 88) (le32 0)

/-- `fix_checksum`; `checksum` is a `uint32_t`. -/
def fixChecksum (r : Region) (peHdr : ℕ) : Region :=
  (clearChecksum r peHdr).write (peHdr + 88)
    (le32 ((checksumWords (clearChecksum r peHdr) 0 0 + r.size) % 2 ^ 32))

/-- What follows `load_pe`. -/
def fixUp (setNxCompat : Bool) (r : Region) (peHdr : ℕ) : Region :=
  fixChecksum (fixTimestamp (setDllCharacteristics setNxCompat r peHdr) peHdr) peHdr

/-- `handle_one`, on a file that can be opened, mapped and written back. -/
def handleOne (setNxCompat : Bool) (r : Region) : Except Region Region := do
  let (r', peHdr) ← loadPe r
  return fixUp setNxCompat r' peHdr

/-! ## What it is for -/

/-- The PE checksum of a file: the ones' complement sum of its words, `CheckSum` taken as nought,
and the size added. -/
def peChecksum (r : Region) (peHdr : ℕ) : ℕ :=
  (fold16 (wordSum ((clearChecksum r peHdr).bytes 0 r.size)) + r.size) % 2 ^ 32

/-- The fields that may change: `TimeDateStamp`, `SizeOfHeaders`, `CheckSum` and
`DllCharacteristics`. -/
def fixedFields (peHdr : ℕ) : Set ℕ :=
  {i | (peHdr + 8 ≤ i ∧ i < peHdr + 12) ∨ (peHdr + 84 ≤ i ∧ i < peHdr + 88) ∨
    (peHdr + 88 ≤ i ∧ i < peHdr + 92) ∨ (peHdr + 94 ≤ i ∧ i < peHdr + 96)}

/-- The checks `read_header` makes of `SizeOfHeaders`. -/
def PassesHeaderChecks (r : Region) : Prop :=
  let peHdr := peHdrOffset r
  let context := contextAt r peHdr
  let offset := sectionHeaderOffset r peHdr
  ¬ (context.sizeOfHeaders < offset ∨
      (context.sizeOfHeaders - offset) / 40 < context.numberOfSections) ∧
    ¬ context.imageSize < context.sizeOfHeaders

/-- A file that was processed as it should: it has its checksum and room for its section table,
differs from the original in the four fields only, and is left alone by a second run. -/
structure Processed (setNxCompat : Bool) (r r' : Region) : Prop where
  checksum : r'.u32 (r'.u32 60 + 88) = peChecksum r' (r'.u32 60)
  headers : PassesHeaderChecks r'
  size : r'.size = r.size
  frame : AgreeOn (fixedFields (r.u32 60))ᶜ r' r
  stable : handleOne setNxCompat r' = .ok r'

/-! ## Accepted files -/

/-- A check that stops the program is passed by. -/
theorem errxIf_bind_ok {α : Type} {c : Prop} [Decidable c] {r : Region} {g : Except Region α}
    {a : α} : (errxIf c r >>= fun _ => g) = .ok a ↔ ¬ c ∧ g = .ok a := by
  by_cases hc : c <;> simp [errxIf, hc, Bind.bind, Except.bind]

/-- What `load_pe` asks of a file with its PE header at `peHdr`, `SizeOfHeaders` apart. -/
structure Loadable (r : Region) (peHdr : ℕ) : Prop where
  size_ge : 248 ≤ r.size
  magic : r.u16 0 = dosSignature
  lfanew : r.u32 60 = peHdr
  lt_size : peHdr < r.size
  signature : r.u32 peHdr = ntSignature
  aligned : r.u32 (peHdr + 60) % 2 = 0
  directories : numberOfRvaAndSizes r peHdr ≤ 16
  fits : optionalHeaderFits r peHdr
  sections : ¬ (r.u32 (peHdr + 80) < sectionHeaderOffset r peHdr ∨
    (r.u32 (peHdr + 80) - sectionHeaderOffset r peHdr) / 40 ≤ r.u16 (peHdr + 6))
  header_le : peHdr + 264 ≤ r.size
  relocs : r.u16 (peHdr + 22) % 2 ≠ 1
  secDir_le : dataDirectory r peHdr 4 ≤ r.size - 8
  secDir_end : ¬ (r.size < r.u32 (dataDirectory r peHdr 4) ∨
    r.u32 (dataDirectory r peHdr 4) = r.size ∧ 0 < r.u32 (dataDirectory r peHdr 4 + 4))

section Outside

variable {r r' : Region} {peHdr o : ℕ}

/-- Fields that do not meet the four. -/
theorem u16_outside (h : AgreeOn (fixedFields peHdr)ᶜ r r')
    (ho : o + 2 ≤ peHdr + 8 ∨ peHdr + 12 ≤ o ∧ o + 2 ≤ peHdr + 84 ∨ peHdr + 96 ≤ o) :
    r.u16 o = r'.u16 o :=
  h.u16 fun i hi hio hmem => by
    rcases hmem with hmem | hmem | hmem | hmem <;> omega

/-- A field outside of those that are fixed is the same. -/
theorem u32_outside (h : AgreeOn (fixedFields peHdr)ᶜ r r')
    (ho : o + 4 ≤ peHdr + 8 ∨ peHdr + 12 ≤ o ∧ o + 4 ≤ peHdr + 84 ∨ peHdr + 96 ≤ o) :
    r.u32 o = r'.u32 o :=
  h.u32 fun i hi hio hmem => by
    rcases hmem with hmem | hmem | hmem | hmem <;> omega

/-- So is the kind of the image. -/
theorem imageIs64Bit_outside (h : AgreeOn (fixedFields peHdr)ᶜ r r') :
    imageIs64Bit r peHdr = imageIs64Bit r' peHdr := by
  simp only [imageIs64Bit, u16_outside h (show _ ∨ peHdr + 12 ≤ peHdr + 24 ∧ _ ∨ _ by omega)]

/-- So is the number of its directories. -/
theorem numberOfRvaAndSizes_outside (h : AgreeOn (fixedFields peHdr)ᶜ r r') :
    numberOfRvaAndSizes r peHdr = numberOfRvaAndSizes r' peHdr := by
  unfold numberOfRvaAndSizes
  rw [imageIs64Bit_outside h]
  exact u32_outside h (by split <;> omega)

/-- So is the place of a directory. -/
theorem dataDirectory_outside (h : AgreeOn (fixedFields peHdr)ᶜ r r') (n : ℕ) :
    dataDirectory r peHdr n = dataDirectory r' peHdr n := by
  rw [dataDirectory, dataDirectory, imageIs64Bit_outside h]

/-- The directories lie behind the fields that are fixed. -/
theorem le_dataDirectory (r : Region) (peHdr n : ℕ) : peHdr + 96 ≤ dataDirectory r peHdr n := by
  unfold dataDirectory
  split <;> omega

/-- The section headers are at the same place. -/
theorem sectionHeaderOffset_outside (h : AgreeOn (fixedFields peHdr)ᶜ r r')
    (hlfanew : r.u32 60 = r'.u32 60) :
    sectionHeaderOffset r peHdr = sectionHeaderOffset r' peHdr := by
  rw [sectionHeaderOffset, sectionHeaderOffset, hlfanew, u16_outside h (by omega)]

/-- The four fields, and what lies over `e_lfanew`, do not count. -/
theorem Loadable.congr (hr : Loadable r peHdr) (h : AgreeOn (fixedFields peHdr)ᶜ r r')
    (hsize : r.size = r'.size) (hlfanew : r.u32 60 = r'.u32 60) : Loadable r' peHdr where
  size_ge := hsize ▸ hr.size_ge
  magic := (u16_outside h (by omega)).symm.trans hr.magic
  lfanew := hlfanew.symm.trans hr.lfanew
  lt_size := hsize ▸ hr.lt_size
  signature := (u32_outside h (by omega)).symm.trans hr.signature
  aligned := u32_outside h (o := peHdr + 60) (by omega) ▸ hr.aligned
  directories := numberOfRvaAndSizes_outside h ▸ hr.directories
  fits := by
    have hfits := hr.fits
    unfold optionalHeaderFits at hfits ⊢
    rwa [imageIs64Bit_outside h, numberOfRvaAndSizes_outside h,
      u16_outside h (o := peHdr + 20) (by omega)] at hfits
  sections := by
    have hsections := hr.sections
    rwa [sectionHeaderOffset_outside h hlfanew, u32_outside h (o := peHdr + 80) (by omega),
      u16_outside h (o := peHdr + 6) (by omega)] at hsections
  header_le := hsize ▸ hr.header_le
  relocs := u16_outside h (o := peHdr + 22) (by omega) ▸ hr.relocs
  secDir_le := by
    have hle := hr.secDir_le
    rwa [dataDirectory_outside h, hsize] at hle
  secDir_end := by
    have hend := hr.secDir_end
    have hle := le_dataDirectory r peHdr 4
    rwa [u32_outside h (o := dataDirectory r peHdr 4) (by omega),
      u32_outside h (o := dataDirectory r peHdr 4 + 4) (by omega), dataDirectory_outside h,
      hsize] at hend

end Outside

/-! ## The steps -/

section Steps

variable {r : Region} {peHdr : ℕ} {setNxCompat : Bool}

/-- A write into these fields is not seen outside of them. -/
theorem agreeOn_write_fixed {o : ℕ} {l : List UInt8}
    (h : ∀ i, o ≤ i → i < o + l.length → i ∈ fixedFields peHdr) :
    AgreeOn (fixedFields peHdr)ᶜ (r.write o l) r := by
  refine agreeOn_write fun i hi => ?_
  by_contra hin
  exact hi (h i (by omega) (by omega))

/-- Fixing `SizeOfHeaders` writes these fields only. -/
theorem agreeOn_fixSizeOfHeaders (r : Region) (peHdr : ℕ) :
    AgreeOn (fixedFields peHdr)ᶜ (fixSizeOfHeaders r peHdr) r := by
  unfold fixSizeOfHeaders
  split
  · exact agreeOn_write_fixed fun i hi hio => .inr (.inl ⟨hi, by simpa using hio⟩)
  · exact fun _ _ => rfl

/-- So does setting the characteristics. -/
theorem agreeOn_setDllCharacteristics (setNxCompat : Bool) (r : Region) (peHdr : ℕ) :
    AgreeOn (fixedFields peHdr)ᶜ (setDllCharacteristics setNxCompat r peHdr) r := by
  simp only [setDllCharacteristics]
  split
  · exact fun _ _ => rfl
  · exact agreeOn_write_fixed fun i hi hio => .inr (.inr (.inr ⟨hi, by simpa using hio⟩))

/-- So does clearing the time stamp. -/
theorem agreeOn_fixTimestamp (r : Region) (peHdr : ℕ) :
    AgreeOn (fixedFields peHdr)ᶜ (fixTimestamp r peHdr) r := by
  unfold fixTimestamp
  split
  · exact agreeOn_write_fixed fun i hi hio => .inl ⟨hi, by simpa using hio⟩
  · exact fun _ _ => rfl

/-- So does fixing the checksum. -/
theorem agreeOn_fixChecksum (r : Region) (peHdr : ℕ) :
    AgreeOn (fixedFields peHdr)ᶜ (fixChecksum r peHdr) r := by
  have hchecksum : ∀ i, peHdr + 88 ≤ i → i < peHdr + 88 + 4 → i ∈ fixedFields peHdr :=
    fun i hi hio => .inr (.inr (.inl ⟨hi, by omega⟩))
  exact (agreeOn_write_fixed hchecksum).trans (agreeOn_write_fixed hchecksum)

/-- What is written is in the four fields. -/
theorem agreeOn_fixUp (setNxCompat : Bool) (r : Region) (peHdr : ℕ) :
    AgreeOn (fixedFields peHdr)ᶜ (fixUp setNxCompat r peHdr) r :=
  (agreeOn_fixChecksum _ peHdr).trans
    ((agreeOn_fixTimestamp _ peHdr).trans (agreeOn_setDllCharacteristics setNxCompat r peHdr))

/-- Fixing `SizeOfHeaders` keeps the size of the file. -/
@[simp] theorem size_fixSizeOfHeaders (r : Region) (peHdr : ℕ) :
    (fixSizeOfHeaders r peHdr).size = r.size := by
  unfold fixSizeOfHeaders
  split <;> rfl

/-- So does setting the characteristics. -/
@[simp] theorem size_setDllCharacteristics (setNxCompat : Bool) (r : Region) (peHdr : ℕ) :
    (setDllCharacteristics setNxCompat r peHdr).size = r.size := by
  simp only [setDllCharacteristics]
  split <;> rfl

/-- So does clearing the time stamp. -/
@[simp] theorem size_fixTimestamp (r : Region) (peHdr : ℕ) :
    (fixTimestamp r peHdr).size = r.size := by
  unfold fixTimestamp
  split <;> rfl

/-- So does fixing the checksum. -/
@[simp] theorem size_fixChecksum (r : Region) (peHdr : ℕ) :
    (fixChecksum r peHdr).size = r.size := by
  rw [fixChecksum, size_write, clearChecksum, size_write]

/-- So do all four. -/
@[simp] theorem size_fixUp (setNxCompat : Bool) (r : Region) (peHdr : ℕ) :
    (fixUp setNxCompat r peHdr).size = r.size := by
  simp [fixUp]

/-- `load_pe` accepts a file that has what it asks for, if the image has room for the headers. -/
theorem loadPe_eq_ok_iff {p : Region × ℕ} : loadPe r = .ok p ↔ ∃ peHdr, Loadable r peHdr ∧
    ctxSizeOfHeaders r peHdr ≤ r.u32 (peHdr + 80) ∧ p = (fixSizeOfHeaders r peHdr, peHdr) := by
  have hfixed : ∀ peHdr, AgreeOn (fixedFields peHdr)ᶜ (fixSizeOfHeaders r peHdr) r :=
    agreeOn_fixSizeOfHeaders r
  have hsecDir := fun peHdr => dataDirectory_outside (hfixed peHdr) 4
  have hrelocs := fun peHdr => u16_outside (hfixed peHdr) (o := peHdr + 22) (by omega)
  have hdir := fun peHdr => u32_outside (hfixed peHdr) (o := dataDirectory r peHdr 4)
    (by have := le_dataDirectory r peHdr 4; omega)
  have hdirSize := fun peHdr => u32_outside (hfixed peHdr) (o := dataDirectory r peHdr 4 + 4)
    (by have := le_dataDirectory r peHdr 4; omega)
  unfold loadPe
  simp only [errxIf_bind_ok, size_fixSizeOfHeaders, hsecDir, hrelocs, hdir, hdirSize]
  constructor
  · rintro ⟨hsize, hmagic, hlt, hsig, halign, hdirs, hfits, hsections, hle, hreloc, hheaders, hsec,
      hend, hok⟩
    exact ⟨r.u32 60, ⟨not_lt.mp hsize, not_not.mp hmagic, rfl, not_le.mp hlt, not_not.mp hsig,
      not_not.mp halign, not_lt.mp hdirs, not_not.mp hfits, hsections, not_lt.mp hle, hreloc,
      not_lt.mp hsec, hend⟩, not_lt.mp hheaders, (Except.ok.inj hok).symm⟩
  · rintro ⟨peHdr, hr, hheaders, rfl⟩
    obtain rfl := hr.lfanew
    exact ⟨not_lt.mpr hr.size_ge, not_not.mpr hr.magic, not_le.mpr hr.lt_size,
      not_not.mpr hr.signature, not_not.mpr hr.aligned, not_lt.mpr hr.directories,
      not_not.mpr hr.fits, hr.sections, not_lt.mpr hr.header_le, hr.relocs, not_lt.mpr hheaders,
      not_lt.mpr hr.secDir_le, hr.secDir_end, rfl⟩

end Steps

/-! ## The size of the headers -/

/-- A number is not rounded up to a smaller one, whether `align` is a power of two or not. -/
theorem le_roundUp {x align : ℕ} (h0 : 0 < align) (h : x + align ≤ 2 ^ 64) :
    x ≤ roundUp x align := by
  have hsplit : ∀ y m : BitVec 64, (y &&& m) + (y &&& ~~~m) = y := by
    intro y m
    rw [BitVec.add_eq_or_of_and_eq_zero]
    · ext i
      simp only [BitVec.getElem_or, BitVec.getElem_and, BitVec.getElem_not]
      cases y[i] <;> cases m[i] <;> rfl
    · ext i
      simp only [BitVec.getElem_and, BitVec.getElem_not, BitVec.getElem_zero]
      cases y[i] <;> cases m[i] <;> rfl
  have hy : x + align - 1 < 2 ^ 64 := by omega
  have hm : align - 1 < 2 ^ 64 := by omega
  have hsum := congrArg BitVec.toNat
    (hsplit (BitVec.ofNat 64 (x + align - 1)) (BitVec.ofNat 64 (align - 1)))
  rw [BitVec.toNat_add, BitVec.toNat_and, BitVec.toNat_and, BitVec.toNat_not, BitVec.toNat_ofNat,
    BitVec.toNat_ofNat, Nat.mod_eq_of_lt hy, Nat.mod_eq_of_lt hm,
    show 2 ^ 64 - 1 - (align - 1) = 2 ^ 64 - align by omega] at hsum
  have hlow : (x + align - 1) &&& (align - 1) ≤ align - 1 := Nat.and_le_right
  have hmod := Nat.mod_le
    (((x + align - 1) &&& (align - 1)) + ((x + align - 1) &&& (2 ^ 64 - align))) (2 ^ 64)
  unfold roundUp
  omega

section Headers

variable {r : Region} {peHdr : ℕ}

/-- The alignment that is used is positive, with 32 bits. -/
theorem fileAlignment_bounds (r : Region) (peHdr : ℕ) :
    0 < fileAlignment r peHdr ∧ fileAlignment r peHdr < 2 ^ 32 := by
  have hlt := r.u32_lt (peHdr + 60)
  unfold fileAlignment
  split <;> omega

/-- The section headers start below this bound. -/
theorem sectionHeaderOffset_lt (r : Region) (peHdr : ℕ) :
    sectionHeaderOffset r peHdr < 2 ^ 32 + 2 ^ 17 := by
  have hlfanew := r.u32_lt 60
  have hsize := r.u16_lt (peHdr + 20)
  unfold sectionHeaderOffset
  omega

/-- `ctx->SizeOfHeaders` covers the section table. -/
theorem le_ctxSizeOfHeaders (r : Region) (peHdr : ℕ) :
    sectionHeaderOffset r peHdr + r.u16 (peHdr + 6) * 40 ≤ ctxSizeOfHeaders r peHdr := by
  unfold ctxSizeOfHeaders
  split_ifs with hsmall
  · have halign := fileAlignment_bounds r peHdr
    have hoffset := sectionHeaderOffset_lt r peHdr
    have hsections := r.u16_lt (peHdr + 6)
    exact le_roundUp halign.1 (by omega)
  · unfold headersTooSmall at hsmall
    omega

/-- What the file then says is what `ctx` says. -/
theorem sizeOfHeaders_fixSizeOfHeaders (h : ctxSizeOfHeaders r peHdr < 2 ^ 32) :
    (fixSizeOfHeaders r peHdr).u32 (peHdr + 84) = ctxSizeOfHeaders r peHdr := by
  unfold fixSizeOfHeaders
  split_ifs with hsmall
  · rw [u32_write (Nat.mod_lt _ (by decide)), Nat.mod_eq_of_lt h]
  · rw [ctxSizeOfHeaders, if_neg hsmall]

/-- Headers that cover the section table are left as they are. -/
theorem not_headersTooSmall
    (h : sectionHeaderOffset r peHdr + r.u16 (peHdr + 6) * 40 ≤ r.u32 (peHdr + 84)) :
    ¬ headersTooSmall r peHdr := by
  unfold headersTooSmall
  omega

end Headers

/-! ## The checksum -/

section Checksum

variable {r : Region} {peHdr : ℕ}

/-- The last byte of a file of odd size. -/
def oddByte (r : Region) : ℕ := if r.size % 2 = 1 then (r.byte (r.size - 1)).toNat else 0

/-- The sum of a first word and of those behind it. -/
theorem wordSum_bytes (r : Region) (i n : ℕ) :
    wordSum (r.bytes i (n + 2)) = r.u16 i + wordSum (r.bytes (i + 2) n) := by
  rw [Nat.add_comm n 2, bytes_add]
  rfl

/-- The loop folds the words of the file, and leaves out the last byte of a file of odd size. -/
theorem checksumWords_eq (r : Region) (s i : ℕ) (hi : i ≤ r.size) (heven : i % 2 = 0) :
    ∃ t, checksumWords r (fold16 s) i = fold16 t ∧
      s + wordSum (r.bytes i (r.size - i)) = t + oddByte r := by
  rw [checksumWords]
  split_ifs with hlt
  · obtain ⟨t, ht, hsum⟩ := checksumWords_eq r (s + r.u16 i) (i + 2) (by omega) (by omega)
    refine ⟨t, ?_, ?_⟩
    · rw [carry_fold16_add (r.u16_lt i), ht]
    · rw [show r.size - i = r.size - (i + 2) + 2 by omega, wordSum_bytes, ← Nat.add_assoc, hsum]
  · refine ⟨s, rfl, ?_⟩
    unfold oddByte
    rcases Nat.eq_or_lt_of_le hi with heq | hless
    · rw [heq, Nat.sub_self, if_neg (by omega)]
      rfl
    · rw [show r.size - i = 1 by omega, show r.size - 1 = i by omega, if_pos (by omega)]
      rfl
termination_by r.size - i

/-- Without its checksum the file is the same. -/
theorem clearChecksum_fixChecksum (r : Region) (peHdr : ℕ) :
    clearChecksum (fixChecksum r peHdr) peHdr = clearChecksum r peHdr := by
  rw [clearChecksum, fixChecksum, write_write (by simp), clearChecksum, write_write (by simp)]

/-- The last byte of an odd file is not in the checksum. -/
theorem oddByte_clearChecksum (h : peHdr + 264 ≤ r.size) :
    oddByte (clearChecksum r peHdr) = oddByte r := by
  have hbyte : (clearChecksum r peHdr).byte (r.size - 1) = r.byte (r.size - 1) :=
    byte_write_outside (.inr (by rw [length_le32]; omega))
  rw [oddByte, clearChecksum, size_write, ← clearChecksum, hbyte, oddByte]

/-- The stored checksum is that of the file if no byte was left out that counts. -/
theorem checksum_fixChecksum_iff (h : peHdr + 264 ≤ r.size) :
    (fixChecksum r peHdr).u32 (peHdr + 88) = peChecksum (fixChecksum r peHdr) peHdr ↔
      oddByte r = 0 := by
  obtain ⟨t, ht, hsum⟩ := checksumWords_eq (clearChecksum r peHdr) 0 0 (Nat.zero_le _) rfl
  rw [oddByte_clearChecksum h, Nat.zero_add, Nat.sub_zero] at hsum
  rw [fold16_zero] at ht
  have hodd : oddByte r < 256 := by
    unfold oddByte
    have := (r.byte (r.size - 1)).toNat_lt
    split <;> omega
  have hstored : (fixChecksum r peHdr).u32 (peHdr + 88) = (fold16 t + r.size) % 2 ^ 32 := by
    rw [fixChecksum, u32_write (Nat.mod_lt _ (by decide)), ht]
  have htrue : peChecksum (fixChecksum r peHdr) peHdr =
      (fold16 (t + oddByte r) + r.size) % 2 ^ 32 := by
    rw [peChecksum, clearChecksum_fixChecksum, ← hsum]
    rfl
  rw [hstored, htrue, ← fold16_add_eq_iff (s := t) (show oddByte r < 65535 by omega)]
  have hlt := fold16_lt t
  have hlt' := fold16_lt (t + oddByte r)
  omega

end Checksum

/-! ## A second run -/

section SecondRun

variable {r : Region} {peHdr : ℕ} {setNxCompat : Bool}

/-- Setting the flags twice is setting them once. -/
theorem nxFlags_idem (setNxCompat : Bool) (flags : ℕ) :
    nxFlags setNxCompat (nxFlags setNxCompat flags) = nxFlags setNxCompat flags := by
  cases setNxCompat
  · exact Nat.and_assoc flags 0xfeff 0xfeff
  · exact Nat.or_assoc flags 0x100 0x100

/-- The flags have sixteen bits. -/
theorem nxFlags_lt {flags : ℕ} (h : flags < 2 ^ 16) : nxFlags setNxCompat flags < 2 ^ 16 := by
  cases setNxCompat
  · exact Nat.lt_of_le_of_lt Nat.and_le_left h
  · exact Nat.or_lt_two_pow h (by decide)

/-- The characteristics that are stored. -/
theorem dllCharacteristics_set (setNxCompat : Bool) (r : Region) (peHdr : ℕ) :
    (setDllCharacteristics setNxCompat r peHdr).u16 (peHdr + 94) =
      nxFlags setNxCompat (r.u16 (peHdr + 94)) := by
  simp only [setDllCharacteristics]
  split_ifs with hsame
  · exact hsame
  · exact u16_write (nxFlags_lt (r.u16_lt _))

/-- The time stamp is nought. -/
theorem timeDateStamp_fixTimestamp (r : Region) (peHdr : ℕ) :
    (fixTimestamp r peHdr).u32 (peHdr + 8) = 0 := by
  unfold fixTimestamp
  split_ifs with hzero
  · exact u32_write (by decide)
  · exact not_not.mp hzero

/-- Fixing the checksum twice is fixing it once. -/
theorem fixChecksum_idem (r : Region) (peHdr : ℕ) :
    fixChecksum (fixChecksum r peHdr) peHdr = fixChecksum r peHdr := by
  rw [fixChecksum, clearChecksum_fixChecksum]
  rfl

/-- A field of two bytes beside the checksum is kept. -/
theorem u16_fixChecksum_outside {o : ℕ} (h : o + 2 ≤ peHdr + 88 ∨ peHdr + 92 ≤ o) :
    (fixChecksum r peHdr).u16 o = r.u16 o := by
  rw [fixChecksum, clearChecksum, write_write (by simp),
    u16_write_outside (by rw [length_le32]; omega)]

/-- A field of four bytes beside the checksum is kept. -/
theorem u32_fixChecksum_outside {o : ℕ} (h : o + 4 ≤ peHdr + 88 ∨ peHdr + 92 ≤ o) :
    (fixChecksum r peHdr).u32 o = r.u32 o := by
  rw [fixChecksum, clearChecksum, write_write (by simp),
    u32_write_outside (by rw [length_le32]; omega)]

/-- What was fixed up stays as it is. -/
theorem fixUp_idem (setNxCompat : Bool) (r : Region) (peHdr : ℕ) :
    fixUp setNxCompat (fixUp setNxCompat r peHdr) peHdr = fixUp setNxCompat r peHdr := by
  have hflags : (fixUp setNxCompat r peHdr).u16 (peHdr + 94) =
      nxFlags setNxCompat (r.u16 (peHdr + 94)) := by
    rw [fixUp, u16_fixChecksum_outside (by omega), ← dllCharacteristics_set]
    unfold fixTimestamp
    split
    · exact u16_write_outside (by rw [length_le32]; omega)
    · rfl
  have hstamp : (fixUp setNxCompat r peHdr).u32 (peHdr + 8) = 0 := by
    rw [fixUp, u32_fixChecksum_outside (by omega), timeDateStamp_fixTimestamp]
  have hdll : setDllCharacteristics setNxCompat (fixUp setNxCompat r peHdr) peHdr =
      fixUp setNxCompat r peHdr := by
    simp only [setDllCharacteristics]
    rw [if_pos (by rw [hflags, nxFlags_idem])]
  have htimestamp : fixTimestamp (fixUp setNxCompat r peHdr) peHdr = fixUp setNxCompat r peHdr :=
    if_neg (not_not.mpr hstamp)
  rw [fixUp, hdll, htimestamp]
  exact fixChecksum_idem _ peHdr

/-- A field of four bytes beside those that are fixed is kept. -/
theorem u32_fixUp_outside {o : ℕ} (h : o + 4 ≤ peHdr + 8 ∨ peHdr + 12 ≤ o ∧ o + 4 ≤ peHdr + 88) :
    (fixUp setNxCompat r peHdr).u32 o = r.u32 o := by
  have hstamp : ∀ r' : Region, (fixTimestamp r' peHdr).u32 o = r'.u32 o := by
    intro r'
    unfold fixTimestamp
    split
    · exact u32_write_outside (by rw [length_le32]; omega)
    · rfl
  have hdll : (setDllCharacteristics setNxCompat r peHdr).u32 o = r.u32 o := by
    simp only [setDllCharacteristics]
    split
    · rfl
    · exact u32_write_outside (by rw [length_le16]; omega)
  rw [fixUp, u32_fixChecksum_outside (by omega), hstamp, hdll]

end SecondRun

/-! ## Processed files -/

/-- What becomes of an accepted file. -/
def processedFile (setNxCompat : Bool) (r : Region) (peHdr : ℕ) : Region :=
  fixUp setNxCompat (fixSizeOfHeaders r peHdr) peHdr

section ProcessedFile

variable {r r' : Region} {peHdr i : ℕ} {setNxCompat : Bool}

/-- A file is processed if it can be loaded and its headers fit. -/
theorem handleOne_eq_ok_iff : handleOne setNxCompat r = .ok r' ↔ ∃ peHdr, Loadable r peHdr ∧
    ctxSizeOfHeaders r peHdr ≤ r.u32 (peHdr + 80) ∧ r' = processedFile setNxCompat r peHdr := by
  unfold handleOne
  cases hload : loadPe r with
  | error e =>
    refine iff_of_false (fun h => by cases h) ?_
    rintro ⟨peHdr, hr, hheaders, -⟩
    cases hload.symm.trans (loadPe_eq_ok_iff.mpr ⟨peHdr, hr, hheaders, rfl⟩)
  | ok p =>
    obtain ⟨peHdr, hr, hheaders, rfl⟩ := loadPe_eq_ok_iff.mp hload
    constructor
    · intro h
      exact ⟨peHdr, hr, hheaders, (Except.ok.inj h).symm⟩
    · rintro ⟨peHdr', hr', -, rfl⟩
      obtain rfl : peHdr' = peHdr := hr'.lfanew.symm.trans hr.lfanew
      rfl

/-- A processed file differs in the fixed fields only. -/
theorem agreeOn_processedFile (setNxCompat : Bool) (r : Region) (peHdr : ℕ) :
    AgreeOn (fixedFields peHdr)ᶜ (processedFile setNxCompat r peHdr) r :=
  (agreeOn_fixUp _ _ _).trans (agreeOn_fixSizeOfHeaders _ _)

/-- It is as long as it was. -/
@[simp] theorem size_processedFile (setNxCompat : Bool) (r : Region) (peHdr : ℕ) :
    (processedFile setNxCompat r peHdr).size = r.size :=
  (size_fixUp _ _ _).trans (size_fixSizeOfHeaders _ _)

/-- Its time stamp is nought, byte by byte. -/
theorem processedFile_stamp (h : peHdr + 8 ≤ i) (h' : i < peHdr + 12) :
    (processedFile setNxCompat r peHdr).byte i = 0 := by
  have hstamp : (processedFile setNxCompat r peHdr).u32 (peHdr + 8) = 0 := by
    rw [processedFile, fixUp, u32_fixChecksum_outside (by omega), timeDateStamp_fixTimestamp]
  have hholds := holdsAt_u32 (processedFile setNxCompat r peHdr) (peHdr + 8)
  rw [hstamp, show le32 0 = List.replicate 4 0 from rfl, holdsAt_iff] at hholds
  obtain ⟨k, rfl⟩ := Nat.exists_eq_add_of_le h
  rw [hholds k (by rw [List.length_replicate]; omega), List.getElem_replicate]

/-- `e_lfanew` of a small value is its first byte. -/
theorem byte_eq_zero_of_u32_lt {o : ℕ} (h : r.u32 o < 256) (hi : o < i) (hio : i < o + 4) :
    r.byte i = 0 := by
  have hbytes : ∀ k < 3, (r.byte (o + (k + 1))).toNat = 0 := by
    intro k hk
    unfold u32 u16 at h
    simp only [Nat.add_assoc, Nat.reduceAdd] at h
    obtain rfl | rfl | rfl : k = 0 ∨ k = 1 ∨ k = 2 := by omega
    all_goals simp only [Nat.reduceAdd]; omega
  obtain ⟨k, rfl⟩ := Nat.exists_eq_add_of_lt hi
  exact UInt8.toNat_inj.mp (hbytes k (by omega))

/-- The time stamp lies over `e_lfanew`'s low byte. -/
def StampOverLfanew (peHdr : ℕ) : Prop := 49 ≤ peHdr ∧ peHdr ≤ 52

/-- Elsewhere `e_lfanew` keeps its value. -/
theorem lfanew_processedFile (hlfanew : r.u32 60 = peHdr) (h : ¬ StampOverLfanew peHdr) :
    (processedFile setNxCompat r peHdr).u32 60 = peHdr := by
  unfold StampOverLfanew at h
  rw [← hlfanew]
  refine AgreeOn.u32 (s := {i | 60 ≤ i ∧ i < 64}) (fun i hi => ?_) fun i hi hio => ⟨hi, hio⟩
  have hbounds : 60 ≤ i ∧ i < 64 := hi
  rw [hlfanew]
  by_cases hstamp : peHdr + 8 ≤ i ∧ i < peHdr + 12
  · rw [processedFile_stamp hstamp.1 hstamp.2]
    exact (@byte_eq_zero_of_u32_lt r i 60 (by omega) (by omega) (by omega)).symm
  · refine agreeOn_processedFile setNxCompat r peHdr i fun hmem => ?_
    rcases hmem with hmem | hmem | hmem | hmem <;> omega

/-- A time stamp over `e_lfanew` leaves nought there. -/
theorem lfanew_eq_zero (hlfanew : r.u32 60 = peHdr) (h : StampOverLfanew peHdr) :
    (processedFile setNxCompat r peHdr).u32 60 = 0 := by
  unfold StampOverLfanew at h
  have hzero : ∀ i, 60 ≤ i → i < 64 → (processedFile setNxCompat r peHdr).byte i = 0 := by
    intro i hi hio
    by_cases hstamp : i < peHdr + 12
    · exact processedFile_stamp (by omega) hstamp
    · have hsame : (processedFile setNxCompat r peHdr).byte i = r.byte i := by
        refine agreeOn_processedFile setNxCompat r peHdr i fun hmem => ?_
        rcases hmem with hmem | hmem | hmem | hmem <;> omega
      rw [hsame]
      exact @byte_eq_zero_of_u32_lt r i 60 (by omega) (by omega) (by omega)
  unfold u32 u16
  rw [hzero 60 (by omega) (by omega), hzero 61 (by omega) (by omega),
    hzero 62 (by omega) (by omega), hzero 63 (by omega) (by omega)]
  rfl

/-- The checksum of a processed file is right if no last byte was left out that counts. -/
theorem checksum_processedFile_iff (hr : Loadable r peHdr) :
    (processedFile setNxCompat r peHdr).u32 (peHdr + 88) =
      peChecksum (processedFile setNxCompat r peHdr) peHdr ↔
        r.size % 2 = 0 ∨ r.byte (r.size - 1) = 0 := by
  have hle := hr.header_le
  have hagree : AgreeOn (fixedFields peHdr)ᶜ
      (fixTimestamp (setDllCharacteristics setNxCompat (fixSizeOfHeaders r peHdr) peHdr) peHdr) r :=
    (agreeOn_fixTimestamp _ _).trans
      ((agreeOn_setDllCharacteristics _ _ _).trans (agreeOn_fixSizeOfHeaders _ _))
  have hsize : (fixTimestamp (setDllCharacteristics setNxCompat (fixSizeOfHeaders r peHdr) peHdr)
      peHdr).size = r.size := by simp
  have hlast : r.size - 1 ∈ (fixedFields peHdr)ᶜ := by
    intro hmem
    rcases hmem with hmem | hmem | hmem | hmem <;> omega
  have hodd : oddByte (fixTimestamp (setDllCharacteristics setNxCompat
      (fixSizeOfHeaders r peHdr) peHdr) peHdr) = oddByte r := by
    rw [oddByte, hsize, hagree _ hlast, oddByte]
  rw [processedFile, fixUp, checksum_fixChecksum_iff (by omega), hodd, oddByte]
  rcases Nat.mod_two_eq_zero_or_one r.size with heven | hone
  · rw [if_neg (by omega)]
    exact iff_of_true rfl (.inl heven)
  · rw [if_pos hone, or_iff_right (by omega)]
    exact @UInt8.toNat_inj _ 0

/-- Its headers pass the checks, and it has what `load_pe` asks for. -/
theorem loadable_processedFile (hr : Loadable r peHdr) (h : ¬ StampOverLfanew peHdr) :
    Loadable (processedFile setNxCompat r peHdr) peHdr :=
  hr.congr (agreeOn_processedFile setNxCompat r peHdr).symm (size_processedFile _ _ _).symm
    (hr.lfanew.trans (lfanew_processedFile hr.lfanew h).symm)

/-- Its `SizeOfHeaders` is that of its headers. -/
theorem sizeOfHeaders_processedFile (hheaders : ctxSizeOfHeaders r peHdr ≤ r.u32 (peHdr + 80)) :
    (processedFile setNxCompat r peHdr).u32 (peHdr + 84) = ctxSizeOfHeaders r peHdr := by
  have hlt := r.u32_lt (peHdr + 80)
  rw [processedFile, u32_fixUp_outside (by omega), sizeOfHeaders_fixSizeOfHeaders (by omega)]

/-- Its headers are not too small, unless the stamp lies over `e_lfanew`. -/
theorem not_headersTooSmall_processedFile (hr : Loadable r peHdr)
    (hheaders : ctxSizeOfHeaders r peHdr ≤ r.u32 (peHdr + 80)) (h : ¬ StampOverLfanew peHdr) :
    ¬ headersTooSmall (processedFile setNxCompat r peHdr) peHdr := by
  have hagree := agreeOn_processedFile setNxCompat r peHdr
  have hlfanew : (processedFile setNxCompat r peHdr).u32 60 = r.u32 60 :=
    (lfanew_processedFile hr.lfanew h).trans hr.lfanew.symm
  refine not_headersTooSmall ?_
  rw [sizeOfHeaders_processedFile hheaders, sectionHeaderOffset_outside hagree hlfanew,
    u16_outside hagree (o := peHdr + 6) (by omega)]
  exact le_ctxSizeOfHeaders r peHdr

/-- It passes the checks again. -/
theorem passesHeaderChecks_processedFile (hr : Loadable r peHdr)
    (hheaders : ctxSizeOfHeaders r peHdr ≤ r.u32 (peHdr + 80)) (h : ¬ StampOverLfanew peHdr) :
    PassesHeaderChecks (processedFile setNxCompat r peHdr) := by
  have hagree := agreeOn_processedFile setNxCompat r peHdr
  have hloadable : Loadable (processedFile setNxCompat r peHdr) peHdr := loadable_processedFile hr h
  have hpeHdr : peHdrOffset (processedFile setNxCompat r peHdr) = peHdr := by
    rw [peHdrOffset, if_pos hloadable.magic, hloadable.lfanew]
  have hsmall : ¬ headersTooSmall (processedFile setNxCompat r peHdr) peHdr :=
    not_headersTooSmall_processedFile hr hheaders h
  unfold PassesHeaderChecks
  rw [hpeHdr]
  refine ⟨hsmall, ?_⟩
  change ¬ (processedFile setNxCompat r peHdr).u32 (peHdr + 80) <
    (processedFile setNxCompat r peHdr).u32 (peHdr + 84)
  rw [sizeOfHeaders_processedFile hheaders, u32_outside hagree (o := peHdr + 80) (by omega)]
  exact not_lt.mpr hheaders

/-- A second run finds nothing to do. -/
theorem handleOne_processedFile (hr : Loadable r peHdr)
    (hheaders : ctxSizeOfHeaders r peHdr ≤ r.u32 (peHdr + 80)) (h : ¬ StampOverLfanew peHdr) :
    handleOne setNxCompat (processedFile setNxCompat r peHdr) =
      .ok (processedFile setNxCompat r peHdr) := by
  have hagree := agreeOn_processedFile setNxCompat r peHdr
  have hsmall : ¬ headersTooSmall (processedFile setNxCompat r peHdr) peHdr :=
    not_headersTooSmall_processedFile hr hheaders h
  refine handleOne_eq_ok_iff.mpr ⟨peHdr, loadable_processedFile hr h, ?_, ?_⟩
  · rw [ctxSizeOfHeaders, if_neg hsmall, sizeOfHeaders_processedFile hheaders,
      u32_outside hagree (o := peHdr + 80) (by omega)]
    exact hheaders
  · have hfixed : fixSizeOfHeaders (processedFile setNxCompat r peHdr) peHdr =
        processedFile setNxCompat r peHdr := if_neg hsmall
    change _ = fixUp setNxCompat (fixSizeOfHeaders (processedFile setNxCompat r peHdr) peHdr) peHdr
    rw [hfixed]
    exact (fixUp_idem setNxCompat _ peHdr).symm

/-- A file whose time stamp lay over `e_lfanew` is accepted no more. -/
theorem not_loadable_processedFile (hr : Loadable r peHdr) (h : StampOverLfanew peHdr)
    (peHdr' : ℕ) : ¬ Loadable (processedFile setNxCompat r peHdr) peHdr' := by
  intro hr'
  have hzero : peHdr' = 0 := hr'.lfanew.symm.trans (lfanew_eq_zero hr.lfanew h)
  have hsignature := hr'.signature
  have hmagic := hr'.magic
  rw [hzero] at hsignature
  unfold u32 at hsignature
  rw [hmagic] at hsignature
  simp only [ntSignature, dosSignature] at hsignature
  omega

end ProcessedFile

/-- **post-process-pe.** A file that is accepted comes out as it should exactly if its size is even
or its last byte nought, and its time stamp does not lie over `e_lfanew`. -/
theorem handleOne_processed_iff (setNxCompat : Bool) (r : Region)
    (haccepted : (loadPe r).isOk = true) :
    (∃ r', handleOne setNxCompat r = .ok r' ∧ Processed setNxCompat r r') ↔
      (r.size % 2 = 0 ∨ r.byte (r.size - 1) = 0) ∧ ¬ StampOverLfanew (r.u32 60) := by
  cases hload : loadPe r with
  | error e =>
    rw [hload] at haccepted
    cases haccepted
  | ok p =>
    obtain ⟨peHdr, hr, hheaders, -⟩ := loadPe_eq_ok_iff.mp hload
    rw [hr.lfanew]
    constructor
    · rintro ⟨r', hrun, hprocessed⟩
      obtain ⟨peHdr', hr', -, rfl⟩ := handleOne_eq_ok_iff.mp hrun
      obtain rfl : peHdr = peHdr' := hr.lfanew.symm.trans hr'.lfanew
      -- a stamp over `e_lfanew` leaves no file that would be accepted again
      have hstamp : ¬ StampOverLfanew peHdr := by
        intro h
        obtain ⟨peHdr'', hr'', -⟩ := handleOne_eq_ok_iff.mp hprocessed.stable
        exact not_loadable_processedFile hr h peHdr'' hr''
      have hchecksum := hprocessed.checksum
      rw [lfanew_processedFile hr.lfanew hstamp] at hchecksum
      exact ⟨(checksum_processedFile_iff hr).mp hchecksum, hstamp⟩
    · rintro ⟨hodd, hstamp⟩
      refine ⟨processedFile setNxCompat r peHdr,
        handleOne_eq_ok_iff.mpr ⟨peHdr, hr, hheaders, rfl⟩, ?_⟩
      exact {
        checksum := by
          rw [lfanew_processedFile hr.lfanew hstamp]
          exact (checksum_processedFile_iff hr).mpr hodd
        headers := passesHeaderChecks_processedFile hr hheaders hstamp
        size := size_processedFile setNxCompat r peHdr
        frame := by
          rw [hr.lfanew]
          exact agreeOn_processedFile setNxCompat r peHdr
        stable := handleOne_processedFile hr hheaders hstamp }

/-- A 32-bit image of no sections and `size` bytes, with nought for `SizeOfHeaders` and `last` for
its last byte. -/
def smallImage (size : ℕ) (last : UInt8) : Region := .ofFields 0x10000 size
  [(0, [0x4d, 0x5a]), (60, [64]), (64, [0x50, 0x45]), (84, [96]), (88, [0x0b, 0x01]),
   (144, [0x00, 0x10]), (size - 1, [last])]

/-- An even size. -/
theorem handleOne_smallImage :
    (loadPe (smallImage 328 1)).isOk = true ∧
      ∃ r', handleOne true (smallImage 328 1) = .ok r' ∧ Processed true (smallImage 328 1) r' := by
  have haccepted : (loadPe (smallImage 328 1)).isOk = true := by decide +kernel
  have hcondition : ((smallImage 328 1).size % 2 = 0 ∨
      (smallImage 328 1).byte ((smallImage 328 1).size - 1) = 0) ∧
      ¬ StampOverLfanew ((smallImage 328 1).u32 60) := by
    unfold StampOverLfanew
    decide
  exact ⟨haccepted, (handleOne_processed_iff true (smallImage 328 1) haccepted).mpr hcondition⟩

/-- An odd size, and a last byte that the checksum leaves out. -/
theorem not_processed_oddSize : ¬ ∀ (setNxCompat : Bool) (r : Region), (loadPe r).isOk = true →
    ∃ r', handleOne setNxCompat r = .ok r' ∧ Processed setNxCompat r r' := by
  intro h
  have haccepted : (loadPe (smallImage 329 1)).isOk = true := by decide +kernel
  obtain ⟨r', hrun, hprocessed⟩ := h true (smallImage 329 1) haccepted
  obtain ⟨peHdr, hr, -, rfl⟩ := handleOne_eq_ok_iff.mp hrun
  have hpeHdr : peHdr = 64 := hr.lfanew.symm.trans (by decide)
  have hstamp : ¬ StampOverLfanew peHdr := by
    unfold StampOverLfanew
    omega
  have hchecksum := hprocessed.checksum
  rw [lfanew_processedFile hr.lfanew hstamp] at hchecksum
  have hcondition := (checksum_processedFile_iff hr).mp hchecksum
  revert hcondition
  decide

end Shim
