import Shim.Common.Ownership
import Shim.Efi.Status

/-! # Who frees the request of the keyless server

The payload, the signature and the certificate are allocated by `extract_verification_data`, and
pass through `osign_parse_pkcs7` to its two callers, which pass them on to `osign_http_request`.
What the calls on the way answer is given; a pointer counts by whether it is NULL.
-/

namespace Shim

open Ownership

/-- The strings in base64 that go to the server. -/
inductive Blob
  | payload
  | signature
  | certificate
  deriving DecidableEq

/-- The pointers that are not NULL. -/
abbrev BlobPointers := Blob → Bool

/-- What the calls on one path answer. -/
structure KeylessCalls where
  /-- `osign_extract_data`. -/
  osignExtractData : EfiStatus
  /-- The certificate table ends in the file. -/
  tableInFile : Bool
  generateHash : EfiStatus
  /-- There is a PKCS#7 record in the table. -/
  findsRecord : Bool
  /-- `d2i_PKCS7` gives signed data. -/
  d2iPkcs7 : Bool
  /-- Nothing that `extract_verification_data` compares differs or is missing. -/
  passesChecks : Bool
  /-- The blob is there, and there is memory for it in base64. -/
  encodes : Blob → Bool
  /-- There is memory for `tx_body_json`. -/
  allocatesBody : Bool
  sendHttpGetRequest : EfiStatus
  /-- `ret_efi_status` of `verify_buffer_authenticode`. -/
  retEfiStatus : EfiStatus

namespace KeylessCalls

variable (c : KeylessCalls)

/-- `extract_verification_data`. It has no way to FALSE behind the first allocation. -/
def extractVerificationData : List (Act Blob) × Bool × BlobPointers :=
  if ¬ c.passesChecks then ([], false, fun _ => false)
  else (each .allocate [.payload, .signature, .certificate] c.encodes, true, c.encodes)

/-- `osign_parse_pkcs7`. -/
def osignParsePkcs7 : List (Act Blob) × EfiStatus × BlobPointers :=
  if ¬ c.tableInFile then ([], .invalidParameter, fun _ => false)
  else if c.generateHash.isError then ([], c.generateHash, fun _ => false)
  else if ¬ c.findsRecord then ([], .notFound, fun _ => false)
  else if ¬ c.d2iPkcs7 then ([], .compromisedData, fun _ => false)
  else
    let extracted := c.extractVerificationData
    (extracted.1, if extracted.2.1 then .success else .securityViolation, extracted.2.2)

/-- `osign_http_request`. The lengths are taken before the body is allocated; what was sent is freed
whether it arrived or not. -/
def osignHttpRequest (blobs : BlobPointers) : List (Act Blob) × EfiStatus :=
  let lengths := each .use [.certificate, .payload, .signature] blobs
  if ¬ c.allocatesBody then (lengths, .httpError)
  else
    let printed := each .use [.certificate, .payload, .signature] blobs
    let freed := each .release [.payload, .signature, .certificate] blobs
    (lengths ++ printed ++ freed, c.sendHttpGetRequest)

/-- `osign_verify`. -/
def osignVerify : List (Act Blob) × Bool :=
  if c.osignExtractData.isError then ([], false)
  else
    let parsed := c.osignParsePkcs7
    if parsed.2.1.isError then (parsed.1, false)
    else
      let requested := c.osignHttpRequest parsed.2.2
      if requested.2.isError then
        (parsed.1 ++ requested.1 ++
          each .release [.payload, .signature, .certificate] parsed.2.2, false)
      else (parsed.1 ++ requested.1, true)

/-- `verify_buffer_authenticode`, behind its loop over the signatures. -/
def verifyBufferAuthenticode : List (Act Blob) × EfiStatus :=
  let parsed := c.osignParsePkcs7
  if parsed.2.1.isError then (parsed.1, c.retEfiStatus)
  else
    let requested := c.osignHttpRequest parsed.2.2
    if requested.2.isError then (parsed.1 ++ requested.1, c.retEfiStatus)
    else (parsed.1 ++ requested.1, requested.2)

/-! ## What becomes of the blobs -/

/-- Nothing stands in the way of the first allocation. -/
structure Parses : Prop where
  tableInFile : c.tableInFile
  generateHash : c.generateHash.isError = false
  findsRecord : c.findsRecord
  d2iPkcs7 : c.d2iPkcs7
  passesChecks : c.passesChecks

/-- Some blob becomes live. -/
def MakesBlob : Prop := c.Parses ∧ ∃ b, c.encodes b

variable {c}

/-- `osign_parse_pkcs7` allocates exactly the blobs that it answers pointers to. -/
theorem osignParsePkcs7_of_parses (h : c.Parses) : c.osignParsePkcs7 =
    (each .allocate [.payload, .signature, .certificate] c.encodes, .success, c.encodes) := by
  simp [osignParsePkcs7, extractVerificationData, h.tableInFile, h.generateHash, h.findsRecord,
    h.d2iPkcs7, h.passesChecks]

/-- Where it fails nothing has been allocated. -/
theorem osignParsePkcs7_of_not_parses (h : ¬ c.Parses) :
    c.osignParsePkcs7.1 = [] ∧ c.osignParsePkcs7.2.1.isError = true := by
  unfold osignParsePkcs7 extractVerificationData
  cases htable : c.tableInFile with
  | false => exact ⟨rfl, rfl⟩
  | true =>
  cases hhash : c.generateHash.isError with
  | true => exact ⟨rfl, hhash⟩
  | false =>
  cases hrecord : c.findsRecord with
  | false => exact ⟨rfl, rfl⟩
  | true =>
  cases hparsed : c.d2iPkcs7 with
  | false => exact ⟨rfl, rfl⟩
  | true =>
  cases hchecks : c.passesChecks with
  | false => exact ⟨rfl, rfl⟩
  | true => exact absurd ⟨htable, hhash, hrecord, hparsed, hchecks⟩ h

/-- The deeds on a blob of `osign_http_request`, if its pointer is not NULL. -/
def requestDeeds : List Deed := if c.allocatesBody then [.use, .use, .release] else [.use]

/-- The request deals with the blobs that are there. -/
theorem deeds_osignHttpRequest (blobs : BlobPointers) (b : Blob) :
    deeds b (c.osignHttpRequest blobs).1 = if blobs b then c.requestDeeds else [] := by
  have hfree : b ∈ [Blob.payload, .signature, .certificate] := by cases b <;> decide
  have huse : b ∈ [Blob.certificate, .payload, .signature] := by cases b <;> decide
  unfold osignHttpRequest requestDeeds
  cases hbody : c.allocatesBody
  · simp [deeds_each _ (by decide) huse]
  · simp only [not_true_eq_false, if_false, if_true, deeds_append, deeds_each _ (by decide) huse,
      deeds_each _ (by decide) hfree]
    cases blobs b <;> rfl

/-- The request fails: there is no memory for the body, or it is not sent. -/
theorem osignHttpRequest_isError (blobs : BlobPointers) :
    (c.osignHttpRequest blobs).2.isError = (!c.allocatesBody || c.sendHttpGetRequest.isError) := by
  unfold osignHttpRequest
  cases c.allocatesBody <;> rfl

/-- The direct path allocates a blob before the request. -/
theorem deeds_verifyBufferAuthenticode (h : c.Parses) (b : Blob) :
    deeds b c.verifyBufferAuthenticode.1 =
      if c.encodes b then .allocate :: c.requestDeeds else [] := by
  have hmade : b ∈ [Blob.payload, .signature, .certificate] := by cases b <;> decide
  have hacts : c.verifyBufferAuthenticode.1 =
      each .allocate [.payload, .signature, .certificate] c.encodes ++
        (c.osignHttpRequest c.encodes).1 := by
    simp only [verifyBufferAuthenticode, osignParsePkcs7_of_parses h, EfiStatus.isError_success,
      Bool.false_eq_true, if_false]
    split <;> rfl
  rw [hacts, deeds_append, deeds_each _ (by decide) hmade, deeds_osignHttpRequest]
  cases c.encodes b <;> rfl

/-- `osign_verify` frees once more what the failed request had. -/
theorem deeds_osignVerify (h : c.Parses) (hdata : c.osignExtractData.isError = false) (b : Blob) :
    deeds b c.osignVerify.1 =
      if c.encodes b then
        .allocate :: c.requestDeeds ++
          if !c.allocatesBody || c.sendHttpGetRequest.isError then [.release] else []
      else [] := by
  have hmade : b ∈ [Blob.payload, .signature, .certificate] := by cases b <;> decide
  have hacts : c.osignVerify.1 =
      each .allocate [.payload, .signature, .certificate] c.encodes ++
        (c.osignHttpRequest c.encodes).1 ++
          if !c.allocatesBody || c.sendHttpGetRequest.isError then
            each .release [.payload, .signature, .certificate] c.encodes else [] := by
    simp only [osignVerify, osignParsePkcs7_of_parses h, EfiStatus.isError_success, hdata,
      Bool.false_eq_true, if_false, osignHttpRequest_isError]
    split <;> simp
  rw [hacts, deeds_append, deeds_append, deeds_each _ (by decide) hmade, deeds_osignHttpRequest]
  split_ifs <;> simp [deeds_each _ (by decide : [Blob.payload, .signature, .certificate].Nodup), *]

/-- A caller that frees nothing itself leaves the blobs live where there is no memory for the
body. -/
theorem allSettled_verifyBufferAuthenticode_iff :
    AllSettled c.verifyBufferAuthenticode.1 ↔ (c.MakesBlob → c.allocatesBody) := by
  by_cases h : c.Parses
  · constructor
    · rintro hsettled ⟨-, b, hb⟩
      have hdeeds := hsettled b
      rw [deeds_verifyBufferAuthenticode h, if_pos hb, requestDeeds] at hdeeds
      by_contra hbody
      rw [if_neg hbody] at hdeeds
      exact absurd hdeeds (by decide)
    · intro hbody b
      rw [deeds_verifyBufferAuthenticode h]
      split_ifs with hb
      · rw [requestDeeds, if_pos (hbody ⟨h, b, hb⟩)]
        decide
      · decide
  · obtain ⟨hacts, herror⟩ := osignParsePkcs7_of_not_parses h
    have hempty : c.verifyBufferAuthenticode.1 = [] := by
      simp [verifyBufferAuthenticode, hacts, herror]
    rw [hempty]
    exact iff_of_true allSettled_nil fun hmakes => absurd hmakes.1 h

/-- A caller that frees the blobs on every error does so again where `osign_http_request` has freed
them. -/
theorem allSettled_osignVerify_iff (hdata : c.osignExtractData.isError = false) :
    AllSettled c.osignVerify.1 ↔
      (c.MakesBlob → c.allocatesBody → c.sendHttpGetRequest.isError = false) := by
  by_cases h : c.Parses
  · constructor
    · rintro hsettled ⟨-, b, hb⟩ hbody
      -- a failed request frees the blobs a second time
      have hdeeds := hsettled b
      rw [deeds_osignVerify h hdata, if_pos hb, requestDeeds, if_pos hbody, hbody] at hdeeds
      by_contra hsent
      rw [Bool.not_eq_false] at hsent
      rw [hsent] at hdeeds
      exact absurd hdeeds (by decide)
    · intro hsent b
      rw [deeds_osignVerify h hdata]
      split_ifs with hb hfail
      · rw [requestDeeds]
        cases hbody : c.allocatesBody
        · decide
        · simp [hbody, hsent ⟨h, b, hb⟩ hbody] at hfail
      · rw [requestDeeds]
        cases hbody : c.allocatesBody
        · simp [hbody] at hfail
        · decide
      · decide
  · obtain ⟨hacts, herror⟩ := osignParsePkcs7_of_not_parses h
    -- nothing was parsed, so there is nothing to free
    have hempty : c.osignVerify.1 = [] := by
      simp [osignVerify, hacts, herror]
    rw [hempty]
    exact iff_of_true allSettled_nil fun hmakes => absurd hmakes.1 h

end KeylessCalls

/-- The two that ask the server. -/
inductive KeylessCaller
  | verifyBufferAuthenticode
  | osignVerify
  deriving DecidableEq

/-- What the caller does to the blobs, with the functions it calls. -/
def KeylessCaller.run : KeylessCaller → KeylessCalls → List (Act Blob)
  | .verifyBufferAuthenticode, c => c.verifyBufferAuthenticode.1
  | .osignVerify, c => c.osignVerify.1

/-- The paths on which the caller and `osign_http_request` agree on who frees: no blob is made, or
for `verify_buffer_authenticode` there is memory for the body, and for `osign_verify` there is none
or the request is sent. -/
def KeylessCaller.Agrees : KeylessCaller → KeylessCalls → Prop
  | .verifyBufferAuthenticode, c => c.MakesBlob → c.allocatesBody
  | .osignVerify, c => c.osignExtractData.isError = false → c.MakesBlob → c.allocatesBody →
    c.sendHttpGetRequest.isError = false

/-- **Ownership of the blobs.** Each one that is made is released once and not used after that,
exactly on the paths on which caller and callee agree. -/
theorem KeylessCaller.allSettled_iff (caller : KeylessCaller) (c : KeylessCalls) :
    AllSettled (caller.run c) ↔ caller.Agrees c := by
  cases caller with
  | verifyBufferAuthenticode => exact KeylessCalls.allSettled_verifyBufferAuthenticode_iff
  | osignVerify =>
    cases hdata : c.osignExtractData.isError with
    | false =>
      refine KeylessCalls.allSettled_osignVerify_iff hdata |>.trans ?_
      exact ⟨fun h _ => h, fun h => h hdata⟩
    | true =>
      have hempty : KeylessCaller.osignVerify.run c = [] := by
        simp [KeylessCaller.run, KeylessCalls.osignVerify, hdata]
      rw [hempty]
      exact iff_of_true allSettled_nil fun hok => absurd hok (by simp [hdata])

/-- A path with a blob of each kind. -/
def keylessPath (allocatesBody : Bool) (sendHttpGetRequest : EfiStatus) : KeylessCalls where
  osignExtractData := .success
  tableInFile := true
  generateHash := .success
  findsRecord := true
  d2iPkcs7 := true
  passesChecks := true
  encodes := fun _ => true
  allocatesBody := allocatesBody
  sendHttpGetRequest := sendHttpGetRequest
  retEfiStatus := .success

/-- The blobs are freed twice where `osign_verify` cannot send them, and not at all where
`verify_buffer_authenticode` gets no memory for the body. -/
theorem not_allSettled_keylessPath :
    ¬ AllSettled (KeylessCaller.osignVerify.run (keylessPath true .notFound)) ∧
      ¬ AllSettled (KeylessCaller.verifyBufferAuthenticode.run (keylessPath false .success)) := by
  constructor
  · exact fun h => absurd (h .payload) (by decide)
  · exact fun h => absurd (h .payload) (by decide)

end Shim
