import Mathlib.Data.Nat.Digits.Defs
import Shim.Auth.Verify
import Shim.Common.Hex

/-! # What is sent to the keyless server

`extract_verification_data` (keyless-sign.c). ASN.1 parsing, the digests and base64 are parameters;
the PKCS#7 structure is as the library hands it over, `none` standing for NULL. Allocations succeed.
-/

namespace Shim

/-- What `ASN1_get_object` makes of some bytes: the length of the header, that of the content, the
tag, and bit `0x80` of the result. -/
structure Asn1Object where
  headerLength : ℕ
  length : ℤ
  tag : ℕ
  error : Bool

/-- The library functions behind `extract_verification_data`. `d2iX509Sig` answers the digest octets
of the `X509_SIG` it parses. -/
structure KeylessLibrary where
  asn1GetObject : List UInt8 → Asn1Object
  d2iX509Sig : List UInt8 → Option (Option (List UInt8))
  sha256 : List UInt8 → List UInt8
  sha1 : List UInt8 → List UInt8
  b64Encode : List UInt8 → Option (List UInt8)
  length_sha256 : ∀ bytes, (sha256 bytes).length = 32
  length_sha1 : ∀ bytes, (sha1 bytes).length = 20

/-- The first `PKCS7_SIGNER_INFO`: the digest algorithm, the octets of the messageDigest attribute
where it is an OCTET STRING, the DER encodings of the authenticated attributes (empty where
`i2d_X509_ATTRIBUTE` fails) and `enc_digest`. -/
structure SignerInfo where
  mdNid : ℕ
  messageDigest : Option (List UInt8)
  authAttr : Option (List (List UInt8))
  encDigest : Option (List UInt8)

/-- `ASN1_TYPE`. All types but three keep an `ASN1_STRING`. -/
inductive Asn1Type where
  | boolean (value : Bool)
  | object (encoding : List UInt8)
  | null
  | string (data : List UInt8)
  deriving DecidableEq

/-- The union of a `PKCS7` in the content of signed data: a member of its own for each of the types
of PKCS#7, and `other`, an `ASN1_TYPE`, for all types besides. -/
inductive Pkcs7Content where
  | data
  | signed
  | enveloped
  | signedAndEnveloped
  | digest
  | encrypted
  | other (value : Asn1Type)
  deriving DecidableEq

/-- `PKCS7`: the first signer, the content, the DER of the signer's certificate. `strayString` are
the bytes found by taking the member of the union for an `ASN1_TYPE` with an `ASN1_STRING` where it
is none: whatever lies in memory there, `none` for a NULL on the way or no bytes. -/
structure Pkcs7 where
  typeIsSigned : Bool
  signerInfo : Option SignerInfo
  contents : Option Pkcs7Content
  strayString : Option (List UInt8)
  signerCert : Option (List UInt8)

/-- `sd->contents->d.other->value.asn1_string`, which is read whatever the type of the content. -/
def Pkcs7.asn1String (p7 : Pkcs7) : Option (List UInt8) :=
  match p7.contents with
  | none => none
  | some (.other (.string bytes)) => some bytes
  | some (.other .null) => none
  | some _ => p7.strayString

/-- The content, where it is an SpcIndirectDataContent: of no type of PKCS#7, and an
`ASN1_STRING`. -/
def Pkcs7.spcIndirectData (p7 : Pkcs7) : Option (List UInt8) :=
  match p7.contents with
  | some (.other (.string bytes)) => some bytes
  | _ => none

/-- `NID_sha256`. -/
def nidSha256 : ℕ := 672

/-- `NID_sha1`. -/
def nidSha1 : ℕ := 64

/-- `V_ASN1_SEQUENCE`. -/
def asn1Sequence : ℕ := 16

/-- Room for a SHA-256 in hexadecimal and a NUL. -/
def hexCapacity : ℕ := 32 * 2 + 1

/-- `bin_to_hex_buf` with `upper` FALSE, into a buffer that held an empty string: the string it
leaves there. -/
def binToHexBuf (bytes : List UInt8) (outcap : ℕ) : List UInt8 :=
  if outcap < bytes.length * 2 + 1 then Hex.encode (bytes.take ((outcap - 1) / 2))
  else Hex.encode bytes

/-- `ascii_eq`, on strings without their terminators. -/
def asciiEq : List UInt8 → List UInt8 → Bool
  | [], [] => true
  | a :: as, b :: bs => if a ≠ b then false else asciiEq as bs
  | _, _ => false

/-- `file_match`: the digest octets are the hash of the image of that length. -/
def fileMatch (h : Digests) (embed : Option (List UInt8)) : Bool :=
  match embed with
  | none => false
  | some octets =>
    if octets.length = 32 then octets = h.sha256
    else if octets.length = 20 then octets = h.sha1
    else false

/-- The length bytes of a DER header. -/
def derLength (totalLen : ℕ) : List UInt8 :=
  if totalLen < 128 then [UInt8.ofNat totalLen]
  else
    let lenBytes := (Nat.digits 256 totalLen).map UInt8.ofNat
    UInt8.ofNat (0x80 ||| lenBytes.length) :: lenBytes.reverse

namespace KeylessLibrary

variable (lib : KeylessLibrary)

/-- The digest under a supported algorithm. -/
def digest (mdNid : ℕ) (bytes : List UInt8) : Option (List UInt8) :=
  if mdNid = nidSha256 then some (lib.sha256 bytes)
  else if mdNid = nidSha1 then some (lib.sha1 bytes)
  else none

/-- `hash_to_hex`, into a buffer that held an empty string. -/
def hashToHex (mdNid : ℕ) (bytes : List UInt8) (outcap : ℕ) : List UInt8 :=
  match lib.digest mdNid bytes with
  | none => []
  | some md => binToHexBuf md outcap

/-- The content bytes of the SpcIndirectDataContent SEQUENCE. -/
def seqContent (contents : List UInt8) : Option (List UInt8) :=
  let object := lib.asn1GetObject contents
  if object.error ∨ object.tag ≠ asn1Sequence ∨ object.length < 0 ∨
      contents.length < object.headerLength + object.length.toNat then none
  else some ((contents.drop object.headerLength).take object.length.toNat)

/-- The DigestInfo behind the first field of the content, where there is one to parse: its digest
octets. -/
def digestInfo (seqContent : List UInt8) : Option (Option (List UInt8)) :=
  let object := lib.asn1GetObject seqContent
  if object.error ∨ object.length < 0 ∨
      seqContent.length < object.headerLength + object.length.toNat then none
  else
    let firstTotal := object.headerLength + object.length.toNat
    if seqContent.length ≤ firstTotal then none
    else lib.d2iX509Sig (seqContent.drop firstTotal)

/-- The authenticated attributes as a SET, in base64. -/
def signedAttrs (si : SignerInfo) : Option (List UInt8) := do
  let attrs ← si.authAttr
  if attrs.flatten = [] then none
  else lib.b64Encode (0x31 :: derLength attrs.flatten.length ++ attrs.flatten)

/-- The three strings of the request. -/
def outputs (p7 : Pkcs7) (si : SignerInfo) : OsignData where
  payload := (lib.signedAttrs si).getD []
  signature := ((si.encDigest.filter (· ≠ [])).bind lib.b64Encode).getD []
  certificate := ((p7.signerCert.filter (· ≠ [])).bind lib.b64Encode).getD []

/-- The signer, the content bytes and the messageDigest attribute that the checks compare; `none`
where one is missing or malformed. -/
def compared (p7 : Pkcs7) : Option (SignerInfo × List UInt8 × List UInt8) := do
  if ¬ p7.typeIsSigned then none
  let si ← p7.signerInfo
  let contents ← p7.asn1String
  if contents = [] then none
  let content ← lib.seqContent contents
  let messageDigest ← si.messageDigest
  return (si, content, messageDigest)

/-- `extract_verification_data`: `none` is FALSE. -/
def extractVerificationData (p7 : Pkcs7) (h : Digests) : Option OsignData := do
  let (si, content, messageDigest) ← lib.compared p7
  if ¬ asciiEq (binToHexBuf messageDigest hexCapacity)
      (lib.hashToHex si.mdNid content hexCapacity) then none
  match lib.digestInfo content with
  | none => return lib.outputs p7 si
  | some embed => if fileMatch h embed then return lib.outputs p7 si else none

end KeylessLibrary

/-! ## The comparisons -/

/-- The comparison is right for texts. -/
theorem asciiEq_iff {a b : List UInt8} : asciiEq a b ↔ a = b := by
  induction a generalizing b with
  | nil => cases b <;> simp [asciiEq]
  | cons x a ih =>
    cases b with
    | nil => simp [asciiEq]
    | cons y b => by_cases hxy : x = y <;> simp [asciiEq, hxy, ih]

/-- Into room for 32 bytes goes the encoding of the first 32. -/
theorem binToHexBuf_eq (bytes : List UInt8) :
    binToHexBuf bytes hexCapacity = Hex.encode (bytes.take 32) := by
  unfold binToHexBuf hexCapacity
  split
  · rfl
  · rw [List.take_of_length_le (by omega)]

namespace KeylessLibrary

variable {lib : KeylessLibrary} {mdNid : ℕ} {content md : List UInt8}

/-- A digest has at most 32 bytes. -/
theorem length_digest_le (hmd : lib.digest mdNid content = some md) : md.length ≤ 32 := by
  unfold digest at hmd
  split at hmd
  · obtain rfl := Option.some.inj hmd
    exact (lib.length_sha256 _).le
  · split at hmd
    · obtain rfl := Option.some.inj hmd
      have := lib.length_sha1 content
      omega
    · cases hmd

/-- `md_match` compares the first 32 bytes of the attribute with the digest, and with nothing where
the algorithm is not supported. -/
theorem mdMatch_iff {messageDigest : List UInt8} :
    asciiEq (binToHexBuf messageDigest hexCapacity) (lib.hashToHex mdNid content hexCapacity) ↔
      messageDigest.take 32 = (lib.digest mdNid content).getD [] := by
  rw [asciiEq_iff, binToHexBuf_eq]
  unfold hashToHex
  rcases hmd : lib.digest mdNid content with _ | md
  · constructor
    · exact fun h => Hex.encode_injective (b := []) h
    · intro h
      simp only [Option.getD_none] at h
      simp [h]
  · simp only [Option.getD_some]
    rw [binToHexBuf_eq, List.take_of_length_le (i := 32) (length_digest_le hmd)]
    exact ⟨Hex.encode_injective, congrArg _⟩

/-- Data come back exactly if both digests are right. -/
theorem extractVerificationData_isSome {p7 : Pkcs7} {h : Digests} {si : SignerInfo}
    {messageDigest : List UInt8} (hcompared : lib.compared p7 = some (si, content, messageDigest)) :
    (lib.extractVerificationData p7 h).isSome ↔
      messageDigest.take 32 = (lib.digest si.mdNid content).getD [] ∧
      ∀ embed, lib.digestInfo content = some embed → fileMatch h embed := by
  rw [← mdMatch_iff]
  unfold extractVerificationData
  rw [hcompared]
  cases hmd : asciiEq (binToHexBuf messageDigest hexCapacity)
    (lib.hashToHex si.mdNid content hexCapacity) with
  | false => simp [hmd]
  | true =>
    rcases hinfo : lib.digestInfo content with _ | embed
    · simp [hmd, hinfo]
    · cases hfile : fileMatch h embed <;> simp [hmd, hinfo, hfile]

end KeylessLibrary

/-- A file is matched by one of its two digests. -/
theorem fileMatch_spec {h : Digests} {embed : Option (List UInt8)} (hmatch : fileMatch h embed) :
    ∃ octets, embed = some octets ∧ (octets = h.sha256 ∨ octets = h.sha1) := by
  unfold fileMatch at hmatch
  rcases embed with _ | octets
  · cases hmatch
  · refine ⟨octets, rfl, ?_⟩
    dsimp only at hmatch
    split at hmatch
    · exact .inl (by simpa using hmatch)
    · split at hmatch
      · exact .inr (by simpa using hmatch)
      · cases hmatch

/-! ## In the verification of an image -/

/-- What `osign_parse_pkcs7` does with a record: `d2i_PKCS7` and `extract_verification_data`. -/
def KeylessLibrary.parseRecord (lib : KeylessLibrary) (d2iPkcs7 : List UInt8 → Option Pkcs7)
    (certData : List UInt8) (h : Digests) : Except EfiError OsignData :=
  match (d2iPkcs7 certData).filter Pkcs7.typeIsSigned with
  | none => .error ⟨.compromisedData, rfl⟩
  | some p7 =>
    match lib.extractVerificationData p7 h with
    | none => .error ⟨.securityViolation, EfiStatus.isError_securityViolation⟩
    | some data => .ok data

/-- The parser fails with an error only. -/
theorem failsWithError_osignParsePkcs7 (v : Verifier) (r : Region) (context : Context) :
    FailsWithError (osignParsePkcs7 v r context) := by
  refine (failsWithError_failIf _ rfl).bind fun _ => (failsWithError_generateHash _ _ _).bind
    fun chunks => ?_
  rcases lastPkcs7 r context (r.u32 (context.secDir + 4)) 0 none with _ | sig
  · rintro _ ⟨⟩
    rfl
  · dsimp only
    rcases v.extractVerificationData (certData r sig) (v.digests r chunks) with e | data
    · rintro _ ⟨⟩
      exact e.2
    · exact failsWith_ok data

/-- The keyless server is asked only about a record that passed the checks, against the hash of the
image up to the end of its certificate table. -/
theorem extracted_of_httpStatus_success {v : Verifier} {r : Region} {context : Context}
    {lib : KeylessLibrary} {d2iPkcs7 : List UInt8 → Option Pkcs7}
    (hv : v.extractVerificationData = lib.parseRecord d2iPkcs7)
    (hhttp : httpStatus v r context = .success) :
    ∃ sig chunks p7, lastPkcs7 r context (r.u32 (context.secDir + 4)) 0 none = some sig ∧
      generateHash r (r.u32 context.secDir + r.u32 (context.secDir + 4)) context = .ok chunks ∧
      d2iPkcs7 (certData r sig) = some p7 ∧
      (lib.extractVerificationData p7 (v.digests r chunks)).isSome := by
  unfold httpStatus at hhttp
  rcases hparse : osignParsePkcs7 v r context with e | data
  · rw [hparse] at hhttp
    have := failsWithError_osignParsePkcs7 v r context e hparse
    simp [show e = .success from hhttp] at this
  · unfold osignParsePkcs7 at hparse
    obtain ⟨-, -, hparse⟩ := exists_of_bind_ok hparse
    obtain ⟨chunks, hchunks, hparse⟩ := exists_of_bind_ok hparse
    rcases hlast : lastPkcs7 r context (r.u32 (context.secDir + 4)) 0 none with _ | sig
    · simp [hlast] at hparse
    · simp only [hlast, hv, KeylessLibrary.parseRecord] at hparse
      rcases hp7 : (d2iPkcs7 (certData r sig)).filter Pkcs7.typeIsSigned with _ | p7
      · simp [hp7] at hparse
      · rcases hextract : lib.extractVerificationData p7 (v.digests r chunks) with _ | data'
        · simp [hp7, hextract] at hparse
        · exact ⟨sig, chunks, p7, rfl, hchunks, (Option.filter_eq_some_iff.mp hp7).1,
            by simp [hextract]⟩

/-! ## Binding -/

/-- The signature is bound to the image: the messageDigest attribute is the digest of the
SpcIndirectDataContent under a supported algorithm, and that has a DigestInfo with the hash of the
image. -/
def BoundToImage (lib : KeylessLibrary) (p7 : Pkcs7) (h : Digests) : Prop :=
  ∃ si contents content messageDigest, p7.signerInfo = some si ∧
    p7.spcIndirectData = some contents ∧ lib.seqContent contents = some content ∧
    si.messageDigest = some messageDigest ∧ lib.digest si.mdNid content = some messageDigest ∧
    ∃ octets, lib.digestInfo content = some (some octets) ∧
      (octets = h.sha256 ∨ octets = h.sha1)

/-- The structures the checks would let through are checked in full: the content is an
SpcIndirectDataContent, the digest algorithm is supported, the attribute is at most 32 bytes long,
and there is a DigestInfo to parse. -/
def CheckedInFull (lib : KeylessLibrary) (p7 : Pkcs7) (h : Digests) : Prop :=
  ∀ si content messageDigest, lib.compared p7 = some (si, content, messageDigest) →
    messageDigest.take 32 = (lib.digest si.mdNid content).getD [] →
    (∀ embed, lib.digestInfo content = some embed → fileMatch h embed) →
    p7.spcIndirectData.isSome ∧ (lib.digest si.mdNid content).isSome ∧
      messageDigest.length ≤ 32 ∧ (lib.digestInfo content).isSome

/-- An SpcIndirectDataContent is what is read. -/
theorem Pkcs7.asn1String_of_spcIndirectData {p7 : Pkcs7} {contents : List UInt8}
    (h : p7.spcIndirectData = some contents) : p7.asn1String = some contents := by
  unfold Pkcs7.spcIndirectData at h
  unfold Pkcs7.asn1String
  split at h
  · rename_i bytes hcontents
    rw [hcontents]
    exact h
  · cases h

/-- What the checks compare is put together from the signer and the string read. -/
theorem KeylessLibrary.compared_eq_some {lib : KeylessLibrary} {p7 : Pkcs7} {si : SignerInfo}
    {content messageDigest : List UInt8}
    (h : lib.compared p7 = some (si, content, messageDigest)) :
    p7.signerInfo = some si ∧ si.messageDigest = some messageDigest ∧
      ∃ contents, p7.asn1String = some contents ∧ lib.seqContent contents = some content := by
  unfold KeylessLibrary.compared at h
  by_cases hsigned : p7.typeIsSigned = true
  · simp only [hsigned, not_true_eq_false, if_false] at h
    obtain ⟨si', hsi, h⟩ := Option.bind_eq_some_iff.mp h
    obtain ⟨contents, hstring, h⟩ := Option.bind_eq_some_iff.mp h
    by_cases hnil : contents = []
    · rw [if_pos hnil] at h
      cases h
    · rw [if_neg hnil] at h
      obtain ⟨content', hseq, h⟩ := Option.bind_eq_some_iff.mp h
      obtain ⟨messageDigest', hattr, h⟩ := Option.bind_eq_some_iff.mp h
      obtain ⟨rfl, rfl, rfl⟩ := h
      exact ⟨hsi, hattr, contents, hstring, hseq⟩
  · simp [hsigned] at h

/-- `extract_verification_data` accepts bound signatures only, exactly if what it accepts is
checked in full. -/
theorem extract_bound_iff (lib : KeylessLibrary) (p7 : Pkcs7) (h : Digests) :
    ((lib.extractVerificationData p7 h).isSome → BoundToImage lib p7 h) ↔
      CheckedInFull lib p7 h := by
  constructor
  · intro hbound si content messageDigest hcompared hmd hfile
    obtain ⟨hsi, hattr, contents, hstring, hseq⟩ := KeylessLibrary.compared_eq_some hcompared
    obtain ⟨si', contents', content', messageDigest', hsi', hspc, hseq', hattr', hdigest, octets,
      hinfo, -⟩ := hbound ((KeylessLibrary.extractVerificationData_isSome hcompared).mpr ⟨hmd, hfile⟩)
    -- the parts are those compared
    obtain rfl := Option.some.inj (hsi.symm.trans hsi')
    obtain rfl := Option.some.inj (hattr.symm.trans hattr')
    obtain rfl := Option.some.inj
      (hstring.symm.trans (Pkcs7.asn1String_of_spcIndirectData hspc))
    obtain rfl := Option.some.inj (hseq.symm.trans hseq')
    exact ⟨by simp [hspc], by simp [hdigest], KeylessLibrary.length_digest_le hdigest,
      by simp [hinfo]⟩
  · intro hfull hsome
    rcases hcompared : lib.compared p7 with _ | ⟨si, content, messageDigest⟩
    · simp [KeylessLibrary.extractVerificationData, hcompared] at hsome
    · obtain ⟨hsi, hattr, contents, hstring, hseq⟩ := KeylessLibrary.compared_eq_some hcompared
      obtain ⟨hmd, hfile⟩ := (KeylessLibrary.extractVerificationData_isSome hcompared).mp hsome
      obtain ⟨hspc, hsupported, hlength, hpresent⟩ :=
        hfull si content messageDigest hcompared hmd hfile
      obtain ⟨contents', hspc⟩ := Option.isSome_iff_exists.mp hspc
      obtain rfl := Option.some.inj
        (hstring.symm.trans (Pkcs7.asn1String_of_spcIndirectData hspc))
      obtain ⟨md, hdigest⟩ := Option.isSome_iff_exists.mp hsupported
      obtain ⟨embed, hinfo⟩ := Option.isSome_iff_exists.mp hpresent
      obtain ⟨octets, rfl, hoctets⟩ := fileMatch_spec (hfile embed hinfo)
      rw [List.take_of_length_le hlength, hdigest, Option.getD_some] at hmd
      exact ⟨si, contents, content, messageDigest, hsi, hspc, hseq, hattr, hmd ▸ hdigest, octets,
        hinfo, hoctets⟩

/-- A library whose `ASN1_get_object` reads one tag byte and one length byte, as it does for short
objects, with digests that are constant and no `X509_SIG` to be found. -/
def shortObjects : KeylessLibrary where
  asn1GetObject := fun bytes =>
    match bytes with
    | tag :: len :: rest => ⟨2, len.toNat, tag.toNat % 32, rest.length < len.toNat⟩
    | _ => ⟨0, 0, 0, true⟩
  d2iX509Sig := fun _ => none
  sha256 := fun _ => List.replicate 32 0
  sha1 := fun _ => List.replicate 20 0
  b64Encode := fun bytes => some bytes
  length_sha256 := fun _ => List.length_replicate
  length_sha1 := fun _ => List.length_replicate

/-- A signer with an unsupported digest algorithm (SHA-384) and an empty messageDigest, over a
content that is a SEQUENCE of one NULL. -/
def emptyDigest : Pkcs7 where
  typeIsSigned := true
  signerInfo := some ⟨673, some [], none, none⟩
  contents := some (.other (.string [0x30, 0x02, 0x05, 0x00]))
  strayString := none
  signerCert := none

/-- It is accepted for an image whatever its hashes are, and bound to none. -/
theorem not_extract_bound_empty :
    ¬ ((shortObjects.extractVerificationData emptyDigest
        ⟨List.replicate 32 1, List.replicate 20 1⟩).isSome →
      BoundToImage shortObjects emptyDigest ⟨List.replicate 32 1, List.replicate 20 1⟩) := by
  intro hbound
  obtain ⟨si, contents, content, messageDigest, hsi, -, -, -, hdigest, -⟩ := hbound rfl
  obtain rfl := Option.some.inj (hsi.symm.trans rfl)
  -- there is no digest under SHA-384
  exact absurd hdigest (by simp [KeylessLibrary.digest, nidSha256, nidSha1])

end Shim
