import Shim.Auth.SignatureDb
import Shim.Pe.Hash

/-! # Verification of an image

`check_denylist`, `check_allowlist`, `verify_one_signature` and `verify_buffer_authenticode`
(shim.c), and the part of `osign_parse_pkcs7` (keyless-sign.c) that selects the signature the
keyless server is asked about. What a function does to the global `verification_method` is returned
next to its status. `none` is a check that does not come back.
-/

namespace Shim

/-- `verification_method_t`. -/
inductive VerificationMethod
  | verifiedByNothing
  | verifiedByCert
  | verifiedByHash
  deriving DecidableEq

open VerificationMethod

/-- `update_verification_method`. -/
def updateVerificationMethod (method verificationMethod : VerificationMethod) :
    VerificationMethod :=
  if verificationMethod = verifiedByNothing then method else verificationMethod

/-- What a piece of code does to `verification_method`. -/
abbrev MethodChange := VerificationMethod → VerificationMethod

/-- A status, and what was done to `verification_method` on the way to it. -/
abbrev Verdict := EfiStatus × MethodChange

/-- `sha256hash` and `sha1hash`. -/
structure Digests where
  sha256 : List UInt8
  sha1 : List UInt8
  deriving DecidableEq

/-- What a request to the keyless server carries. -/
structure OsignData where
  payload : List UInt8
  signature : List UInt8
  certificate : List UInt8

/-- Everything verification consults: the cryptographic library, the keyless server, the vendor
lists built in (`vendor_db` and the two certificates only in builds that have them), the variables
that can be read, and `ignore_db`. -/
structure Verifier where
  sha256 : List UInt8 → List UInt8
  sha1 : List UInt8 → List UInt8
  verifyEku : (cert : List UInt8) → Bool
  authenticodeVerify : (certData cert hash : List UInt8) → Bool
  extractVerificationData : (certData : List UInt8) → Digests → Except EfiError OsignData
  osignHttpRequest : OsignData → EfiStatus
  vendorDeauthorized : Region
  vendorDb : Option Region
  db : Option Region
  dbx : Option Region
  mokListRT : Option Region
  mokListX : Option Region
  ignoreDb : Bool
  buildCert : Option (List UInt8)
  vendorCert : Option (List UInt8)

/-! ## Lists of checks -/

/-- The outcome `a` of the first check that finds its data, or none. -/
def firstFound {α : Type} : List (Option CheckStatus × α) → Option (Option α)
  | [] => some none
  | (none, _) :: _ => none
  | (some s, a) :: checks => if s = .dataFound then some (some a) else firstFound checks

section FirstFound

variable {α : Type} {checks : List (Option CheckStatus × α)} {a : α}

/-- The first check that finds something is one of the checks. -/
theorem exists_of_firstFound (h : firstFound checks = some (some a)) :
    (some .dataFound, a) ∈ checks := by
  induction checks with
  | nil => simp [firstFound] at h
  | cons check checks ih =>
    obtain ⟨_ | s, b⟩ := check
    · simp [firstFound] at h
    · by_cases hs : s = .dataFound
      · simp only [firstFound, hs, if_true, Option.some.injEq] at h
        simp [hs, h]
      · simp only [firstFound, hs, if_false] at h
        exact List.mem_cons_of_mem _ (ih h)

end FirstFound

/-! ## Deny lists and allow lists -/

namespace Verifier

variable (v : Verifier)

/-- `verify_eku` and `AuthenticodeVerify` of a signature against a certificate. -/
def certVerifies (certData : List UInt8) (h : Digests) (cert : List UInt8) : Bool :=
  v.verifyEku cert && v.authenticodeVerify certData cert h.sha256

/-- A check `cert && check(cert)`. -/
def ifCert (cert : Option (List UInt8)) (check : List UInt8 → Option CheckStatus) :
    Option CheckStatus :=
  match cert with
  | none => some .dataNotFound
  | some certData => check certData

/-- The checks of `check_denylist`, in order. -/
def denyChecks (cert : Option (List UInt8)) (h : Digests) : List (Option CheckStatus × EfiStatus) :=
  [(checkDbHashInRam v.vendorDeauthorized h.sha256 certSha256Guid, .securityViolation),
   (checkDbHashInRam v.vendorDeauthorized h.sha1 certSha1Guid, .securityViolation),
   (ifCert cert fun c => checkDbCertInRam (v.certVerifies c h) v.vendorDeauthorized,
     .securityViolation),
   (checkDbHash v.dbx h.sha256 certSha256Guid, .securityViolation),
   (checkDbHash v.dbx h.sha1 certSha1Guid, .securityViolation),
   (ifCert cert fun c => checkDbCert (v.certVerifies c h) v.dbx, .securityViolation),
   (checkDbHash v.mokListX h.sha256 certSha256Guid, .securityViolation),
   (ifCert cert fun c => checkDbCert (v.certVerifies c h) v.mokListX, .securityViolation)]

/-- `check_denylist`; without a certificate for the hashes alone. -/
def checkDenylist (cert : Option (List UInt8)) (h : Digests) : Option EfiStatus :=
  (firstFound (v.denyChecks cert h)).map fun found => found.getD .success

/-- The checks of `check_allowlist` in db, each with what it does to `verification_method`. -/
def dbChecks (cert : Option (List UInt8)) (h : Digests) :
    List (Option CheckStatus × MethodChange) :=
  [(checkDbHash v.db h.sha256 certSha256Guid, updateVerificationMethod verifiedByHash),
   (checkDbHash v.db h.sha1 certSha1Guid, fun _ => verifiedByHash),
   (ifCert cert fun c => checkDbCert (v.certVerifies c h) v.db, fun _ => verifiedByCert)]

/-- Those in vendor_db, in builds that have it. -/
def vendorDbChecks (cert : Option (List UInt8)) (h : Digests) :
    List (Option CheckStatus × MethodChange) :=
  match v.vendorDb with
  | none => []
  | some vendorDb =>
    [(checkDbHashInRam vendorDb h.sha256 certSha256Guid, fun _ => verifiedByHash),
     (ifCert cert fun c => checkDbCertInRam (v.certVerifies c h) vendorDb,
       fun _ => verifiedByCert)]

/-- Those in MokListRT. -/
def mokListChecks (cert : Option (List UInt8)) (h : Digests) :
    List (Option CheckStatus × MethodChange) :=
  [(checkDbHash v.mokListRT h.sha256 certSha256Guid, fun _ => verifiedByHash),
   (ifCert cert fun c => checkDbCert (v.certVerifies c h) v.mokListRT, fun _ => verifiedByCert)]

/-- The checks of `check_allowlist`, in order. -/
def allowChecks (cert : Option (List UInt8)) (h : Digests) :
    List (Option CheckStatus × MethodChange) :=
  (if v.ignoreDb then [] else v.dbChecks cert h) ++ v.vendorDbChecks cert h ++
    v.mokListChecks cert h

/-- `check_allowlist`. -/
def checkAllowlist (cert : Option (List UInt8)) (h : Digests) : Option Verdict :=
  (firstFound (v.allowChecks cert h)).map fun found =>
    match found with
    | some method => (.success, method)
    | none => (.notFound, updateVerificationMethod verifiedByNothing)

/-- A build or vendor certificate that is there and verifies the signature. -/
def builtInVerifies (certData : List UInt8) (h : Digests) (builtIn : Option (List UInt8)) : Bool :=
  match builtIn with
  | none => false
  | some cert => cert ≠ [] ∧ v.authenticodeVerify certData cert h.sha256

/-- `verify_one_signature`. -/
def verifyOneSignature (certData : List UInt8) (h : Digests) : Option Verdict := do
  let denied ← v.checkDenylist (some certData) h
  if denied.isError then return (denied, id)
  let (allowed, method) ← v.checkAllowlist (some certData) h
  if ¬ allowed.isError then return (allowed, method)
  if v.builtInVerifies certData h v.buildCert then
    return (.success, updateVerificationMethod verifiedByCert ∘ method)
  if v.builtInVerifies certData h v.vendorCert then
    return (.success, updateVerificationMethod verifiedByCert ∘ method)
  return (.notFound, method)

end Verifier

/-! ## Certificate records -/

/-- `WIN_CERT_TYPE_PKCS_SIGNED_DATA`. -/
def winCertTypePkcsSignedData : ℕ := 0x0002

/-- `ALIGN_VALUE(value, 8)`. -/
def alignValue8 (value : ℕ) : ℕ := (value + 7) / 8 * 8

/-- `CertData` of the record at `sig`. -/
def certData (r : Region) (sig : ℕ) : List UInt8 := r.bytes (sig + 8) (r.u32 sig - 8)

/-- The bounds checks on the record at `sig`, which is `offset` bytes into the table. -/
def checkCertificate (r : Region) (context : Context) (offset sig : ℕ) : Except EfiStatus Unit := do
  failIf (r.size < sig + 12) .invalidParameter
  failIf (r.u32 (context.secDir + 4) < offset + 4) .invalidParameter
  failIf (r.u32 (context.secDir + 4) - offset < r.u32 sig) .invalidParameter
  failIf (r.u32 sig < 8) .invalidParameter

/-- The loop over the certificate records; `ret` is `ret_efi_status`, an `.error` an early return.
Every turn that goes on raises `offset`, which bounds the fuel by the size of the table. -/
def verifySignatures (v : Verifier) (r : Region) (context : Context) (h : Digests) :
    (fuel offset : ℕ) → EfiStatus → Option (Except EfiStatus EfiStatus × MethodChange)
  | 0, _, ret => some (.ok ret, id)
  | fuel + 1, offset, ret =>
    if offset < r.u32 (context.secDir + 4) then
      match imageAddress r.base r.size (r.u32 context.secDir + offset) with
      | none => some (.ok ret, id)
      | some sig =>
        match checkCertificate r context offset sig with
        | .error e => some (.error e, id)
        | .ok () =>
          if r.u16 (sig + 6) = winCertTypePkcsSignedData then do
            let (status, method) ← v.verifyOneSignature (certData r sig) h
            let (result, method') ← verifySignatures v r context h fuel
              (alignValue8 (offset + r.u32 sig)) (if ret ≠ .success then status else ret)
            return (result, method' ∘ method)
          else verifySignatures v r context h fuel (alignValue8 (offset + r.u32 sig)) ret
    else some (.ok ret, id)

/-- The walk of `osign_parse_pkcs7`: the last PKCS#7 record before the end or a bad record. -/
def lastPkcs7 (r : Region) (context : Context) :
    (fuel offset : ℕ) → (last : Option ℕ) → Option ℕ
  | 0, _, last => last
  | fuel + 1, offset, last =>
    if offset < r.u32 (context.secDir + 4) then
      match imageAddress r.base r.size (r.u32 context.secDir + offset) with
      | none => last
      | some w =>
        if r.u32 w < 8 ∨ r.u32 (context.secDir + 4) - offset < r.u32 w then last
        else lastPkcs7 r context fuel (alignValue8 (offset + r.u32 w))
          (if r.u16 (w + 6) = winCertTypePkcsSignedData then some w else last)
    else last

/-! ## verify_buffer_authenticode -/

/-- The digests of the chunks `generate_hash` selects. -/
def Verifier.digests (v : Verifier) (r : Region) (chunks : List Chunk) : Digests where
  sha256 := v.sha256 (chunkBytes r chunks)
  sha1 := v.sha1 (chunkBytes r chunks)

/-- `osign_parse_pkcs7`, up to what `extract_verification_data` makes of the record. -/
def osignParsePkcs7 (v : Verifier) (r : Region) (context : Context) :
    Except EfiStatus OsignData := do
  let size := r.u32 (context.secDir + 4)
  let ends := r.u32 context.secDir + size
  failIf (r.size < ends) .invalidParameter
  let chunks ← generateHash r ends context
  match lastPkcs7 r context size 0 none with
  | none => .error .notFound
  | some sig =>
    match v.extractVerificationData (certData r sig) (v.digests r chunks) with
    | .error e => .error e
    | .ok data => .ok data

/-- The remote verification: `osign_parse_pkcs7`, then `osign_http_request`. -/
def httpStatus (v : Verifier) (r : Region) (context : Context) : EfiStatus :=
  match osignParsePkcs7 v r context with
  | .error e => e
  | .ok data => v.osignHttpRequest data

/-- `verify_buffer_authenticode` behind the hash checks. -/
def verifyBySignature (v : Verifier) (r : Region) (context : Context) (h : Digests) :
    Option Verdict := do
  let secSize := r.u32 (context.secDir + 4)
  if secSize = 0 then return (.securityViolation, id)
  if r.size < secSize + r.u32 context.secDir then return (.invalidParameter, id)
  let (result, method) ← verifySignatures v r context h secSize 0 .notFound
  match result with
  | .error e => return (e, method)
  | .ok ret =>
    if ¬ (httpStatus v r context).isError then return (httpStatus v r context, method)
    else return (ret, method)

/-- `verify_buffer_authenticode`. -/
def verifyBufferAuthenticode (v : Verifier) (r : Region) (context : Context) : Option Verdict :=
  if 2 ^ 31 ≤ r.size then some (.invalidParameter, id)
  else match generateHash r r.size context with
  | .error e => some (e, id)
  | .ok chunks => do
    let h := v.digests r chunks
    let denied ← v.checkDenylist none h
    if denied.isError then return (denied, id)
    let (allowed, method) ← v.checkAllowlist none h
    if ¬ allowed.isError then return (allowed, method)
    if allowed ≠ .notFound then return (allowed, method)
    let (status, method') ← verifyBySignature v r context h
    return (status, method' ∘ method)

end Shim
