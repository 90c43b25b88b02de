import Shim.Common.CText
import Shim.Pe.Load

/-! # Trust loaded from files

`load_unbundled_trust`, `load_revocations_file` and `load_cert_file` (shim.c). The boot medium is a
directory or a network, and reading and verifying a file is an answer per file name. Modelled is
what is done in order: the SBAT levels and SkuSiPolicies that are set, and the certificate lists
that are added to `user_cert`.
-/

namespace Shim.Trust

/-! ## File names -/

/-- A file name, in 16-bit characters. -/
abbrev FileName := List UInt16

/-- An ASCII text in 16-bit characters. -/
def text16 (s : String) : FileName := (CText.ascii s).map UInt8.toUInt16

/-- A character with ASCII capitals made small. -/
def lower (c : UInt16) : UInt16 := if 65 ≤ c ∧ c ≤ 90 then c + 32 else c

/-- `StrCaseCmp(a, b) == 0`. -/
def strCaseEq (a b : FileName) : Bool := a.map lower = b.map lower

/-- `StrnCaseCmp(a, b, n) == 0`. -/
def strnCaseEq (a b : FileName) (n : ℕ) : Bool := strCaseEq (a.take n) (b.take n)

/-- `REVOCATIONFILE`. -/
def revocationFile : FileName := text16 "revocations.efi"

/-- The file is named `REVOCATIONFILE`. -/
def isRevocations (name : FileName) : Bool := strCaseEq name revocationFile

/-- The file is named `shim_certificate*`. -/
def isCertificate (name : FileName) : Bool := strnCaseEq name (text16 "shim_certificate") 16

/-- The revocations are not named like a certificate. -/
theorem not_isCertificate_of_isRevocations {name : FileName} (h : isRevocations name = true) :
    isCertificate name = false := by
  have hname : name.map lower = revocationFile.map lower := by
    simpa [isRevocations, strCaseEq] using h
  have hne : (revocationFile.map lower).take 16 ≠
      ((text16 "shim_certificate").map lower).take 16 := by decide
  simpa [isCertificate, strnCaseEq, strCaseEq, List.map_take, hname] using hne

/-! ## What a file brings -/

/-- A file that `read_image` and `verify_image` accept: its data and the context of its headers. -/
structure Image where
  data : Region
  context : Context

/-- What is done: `set_sbat_uefi_variable` and `set_ssp_uefi_variable` with pointers into
`revocations.efi`, and the lists of a certificate file. -/
inductive Action
  | setSbat (automatic latest : ℕ)
  | setSsp (versionAutomatic policyAutomatic versionLatest policyLatest : Option ℕ)
  | loadCert (name : FileName) (certs : List UInt8)
  deriving DecidableEq

/-- `check_section` over the section table: the last section of the name counts. One below the
minimum size is reported, with the pointer set all the same. -/
def checkSection (image : Image) (name : List UInt8) : Option ℕ :=
  (sectionHeaders image.data image.context).foldl
    (fun pointer s => if s.name = name then
      imageAddress image.data.base (intSize image.data.size) s.pointerToRawData else pointer) none

/-- The SBAT level payload of `revocations.efi`: the sections `.sbata` and `.sbatl`. -/
def sbatPayload (image : Image) : Option (ℕ × ℕ) :=
  match checkSection image (CText.ascii ".sbata" ++ [0, 0]),
    checkSection image (CText.ascii ".sbatl" ++ [0, 0]) with
  | some automatic, some latest => some (automatic, latest)
  | _, _ => none

/-- Its SkuSiPolicies. -/
def sspPayload (image : Image) : List Action :=
  let sspva := checkSection image (CText.ascii ".sspva" ++ [0, 0])
  let sspsa := checkSection image (CText.ascii ".sspsa" ++ [0, 0])
  let sspvl := checkSection image (CText.ascii ".sspvl" ++ [0, 0])
  let sspsl := checkSection image (CText.ascii ".sspsl" ++ [0, 0])
  if (sspva.isSome && sspsa.isSome) || (sspvl.isSome && sspsl.isSome) then
    [.setSsp sspva sspsa sspvl sspsl]
  else []

/-- `load_revocations_file`, with what reading `revocations.efi` answers. -/
def loadRevocationsFile (file : Option Image) : List Action :=
  match file with
  | none => []
  | some image =>
    ((sbatPayload image).elim [] fun payload => [.setSbat payload.1 payload.2]) ++ sspPayload image

/-- The lists that the `.db` sections of a file add to `user_cert`: of each the first one. -/
def dbLists (image : Image) : List UInt8 :=
  (sectionHeaders image.data image.context).flatMap fun s =>
    if s.name = CText.ascii ".db" ++ [0, 0, 0, 0, 0] ∧ 28 ≤ s.sizeOfRawData then
      (imageAddress image.data.base (intSize image.data.size) s.pointerToRawData).elim []
        fun pointer => image.data.bytes pointer (image.data.u32 (pointer + 16))
    else []

/-- `load_cert_file`, with what reading the file answers. -/
def loadCertFile (name : FileName) (file : Option Image) : List Action :=
  file.elim [] fun image => [.loadCert name (dbLists image)]

/-! ## The directory -/

/-- An entry of a directory, by its name and the size of its `EFI_FILE_INFO`. -/
structure Entry where
  name : FileName
  size : ℕ
  size_pos : 0 < size

/-- The directory of shim's own file: whether the three calls that open it succeed, what the reads
from its start answer, an entry or an error, and whether the driver says how much buffer it wants
when it gets too little. -/
structure Directory where
  openVolume : Bool
  openDir : Bool
  reopenDir : Bool
  entries : List (Option Entry)
  compliant : Bool

/-- `Read` with a driver that does not say what it wants: the buffer is doubled up to 1024 bytes. -/
def growBuffer (needed : ℕ) : (fuel buffersize : ℕ) → Bool
  | 0, _ => false
  | fuel + 1, buffersize =>
    if needed ≤ buffersize then true
    else
      let buffersize := if buffersize < 4 then 4 else buffersize * 2
      if 1024 < buffersize then false else growBuffer needed fuel buffersize

/-- The turns of the loop up to the next entry: none if it gives up. `buffersize` is the size of the
entry read last, which a success leaves there. -/
def readEntry (compliant : Bool) (buffersize : ℕ) (entry : Option Entry) : Option Entry :=
  entry.filter fun e => compliant || growBuffer e.size 11 buffersize

/-- The boot medium: the files by their names, `secure_mode`, and the directory, where there is a
file system. -/
structure Medium where
  files : FileName → Option Image
  secure : Bool
  directory : Option Directory

/-- The second pass over the directory. -/
def certificatePass (files : FileName → Option Image) (compliant : Bool) :
    ℕ → List (Option Entry) → List Action
  | _, [] => []
  | buffersize, entry :: rest =>
    match readEntry compliant buffersize entry with
    | none => []
    | some e =>
      (if isCertificate e.name then loadCertFile e.name (files e.name) else []) ++
        certificatePass files compliant e.size rest

/-- The first pass, and the second one behind it. -/
def revocationPass (files : FileName → Option Image) (d : Directory) :
    ℕ → List (Option Entry) → List Action
  | _, [] => if d.reopenDir then certificatePass files d.compliant 0 d.entries else []
  | buffersize, entry :: rest =>
    match readEntry d.compliant buffersize entry with
    | none => []
    | some e =>
      if isRevocations e.name then
        loadRevocationsFile (files revocationFile) ++
          if d.reopenDir then
            -- the entry at hand is looked at once more
            (if isCertificate e.name then loadCertFile e.name (files e.name) else []) ++
              certificatePass files d.compliant e.size d.entries
          else []
      else revocationPass files d e.size rest

/-- `load_unbundled_trust`. Without a file system the one file is given to `load_cert_file`. -/
def loadUnbundledTrust (medium : Medium) : List Action :=
  match medium.directory with
  | none => loadCertFile revocationFile (medium.files revocationFile)
  | some d =>
    if d.openVolume && d.openDir && medium.secure then revocationPass medium.files d 0 d.entries
    else []

end Shim.Trust
