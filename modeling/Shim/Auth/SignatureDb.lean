import Shim.Common.Bytes
import Shim.Common.Region
import Mathlib.Data.List.Basic

/-! # Signature databases

A database is a chain of `EFI_SIGNATURE_LIST`s. `check_db_cert_in_ram` and `check_db_hash_in_ram`
(shim.c) walk the chain with the same loop. The loop answers `none` where the C does not come
back: a list of size nought is never left, and a signature of size nought is divided by.
-/

namespace Shim

open Bytes (sub64)

/-- `CHECK_STATUS`. -/
inductive CheckStatus
  | dataFound
  | dataNotFound
  | varNotFound
  deriving DecidableEq

/-- `EFI_CERT_TYPE_X509_GUID`. -/
def certTypeX509Guid : List UInt8 :=
  [0xa1, 0x59, 0xc0, 0xa5, 0xe4, 0x94, 0xa7, 0x4a, 0x87, 0xb5, 0xab, 0x15, 0x5c, 0x2b, 0xf0, 0x72]

theorem length_certTypeX509Guid : certTypeX509Guid.length = 16 := rfl

/-- `EFI_CERT_SHA256_GUID`. -/
def certSha256Guid : List UInt8 :=
  [0x26, 0x16, 0xc4, 0xc1, 0x4c, 0x50, 0x92, 0x40, 0xac, 0xa9, 0x41, 0xf9, 0x36, 0x93, 0x43, 0x28]

theorem length_certSha256Guid : certSha256Guid.length = 16 := rfl

/-- `EFI_CERT_SHA1_GUID`. -/
def certSha1Guid : List UInt8 :=
  [0x12, 0xa5, 0x6c, 0x82, 0x10, 0xcf, 0xc9, 0x4a, 0xb1, 0x87, 0xbe, 0x01, 0x49, 0x66, 0x31, 0xbd]

/-- `SHIM_LOCK_GUID`. -/
def shimLockGuid : List UInt8 :=
  [0x50, 0xab, 0x5d, 0x60, 0x46, 0xe0, 0x00, 0x43, 0xab, 0xb6, 0x3d, 0xd8, 0x10, 0xdd, 0x8b, 0x23]

/-! ## One list

The fields of the list at offset `o` of the database `d`.
-/

section Fields

variable (d : Region) (o : ℕ)

def signatureType : List UInt8 := d.bytes o 16

def signatureListSize : ℕ := d.u32 (o + 16)

def signatureHeaderSize : ℕ := d.u32 (o + 20)

def signatureSize : ℕ := d.u32 (o + 24)

/-- `CertCount`, in `UINTN` arithmetic. -/
def certCount : ℕ :=
  sub64 (sub64 (signatureListSize d o) 28) (signatureHeaderSize d o) / signatureSize d o

/-- Where the `Index`-th `EFI_SIGNATURE_DATA` of the list starts. -/
def signatureAt (index : ℕ) : ℕ :=
  o + 28 + signatureHeaderSize d o + index * signatureSize d o

end Fields

/-! ## The walk -/

/-- The loop of the two checks, from the list at `o` with `dbsize` bytes to go; `hit` is its body.
A turn that goes on takes at least one byte off `dbsize`, which bounds the fuel. -/
def scanDb (hit : ℕ → Option Bool) (d : Region) :
    (fuel o dbsize : ℕ) → Option CheckStatus
  | 0, _, _ => some .dataNotFound
  | fuel + 1, o, dbsize =>
    if 0 < dbsize ∧ signatureListSize d o ≤ dbsize then
      match hit o with
      | none => none
      | some true => some .dataFound
      | some false =>
        if signatureListSize d o = 0 then none
        else scanDb hit d fuel (o + signatureListSize d o) (dbsize - signatureListSize d o)
    else some .dataNotFound

/-- The signature lists of a database: those the chain of `SignatureListSize` leads to. -/
def signatureListsFrom (d : Region) : (fuel o dbsize : ℕ) → List ℕ
  | 0, _, _ => []
  | fuel + 1, o, dbsize =>
    if 0 < dbsize ∧ signatureListSize d o ≤ dbsize then
      o :: signatureListsFrom d fuel (o + signatureListSize d o) (dbsize - signatureListSize d o)
    else []

/-- The offsets of the signature lists of `d`. -/
def signatureLists (d : Region) : List ℕ := signatureListsFrom d d.size 0 d.size

section Scan

variable {hit : ℕ → Option Bool} {d : Region} {fuel o dbsize : ℕ}

/-- A hit is in one of the lists. -/
theorem exists_of_scanDb_found (h : scanDb hit d fuel o dbsize = some .dataFound) :
    ∃ l ∈ signatureListsFrom d fuel o dbsize, hit l = some true := by
  induction fuel generalizing o dbsize with
  | zero => simp [scanDb] at h
  | succ fuel ih =>
    by_cases hin : 0 < dbsize ∧ signatureListSize d o ≤ dbsize
    · rw [scanDb, if_pos hin] at h
      rw [signatureListsFrom, if_pos hin]
      rcases hhit : hit o with _ | b
      · simp [hhit] at h
      · cases b with
        | true => exact ⟨o, List.mem_cons_self, hhit⟩
        | false =>
          simp only [hhit] at h
          by_cases hzero : signatureListSize d o = 0
          · simp [hzero] at h
          · rw [if_neg hzero] at h
            obtain ⟨l, hl, hl'⟩ := ih h
            exact ⟨l, List.mem_cons_of_mem _ hl, hl'⟩
    · simp [scanDb, if_neg hin] at h

/-- A search that comes to its end has missed every list. -/
theorem forall_of_scanDb_missed {s : CheckStatus} (h : scanDb hit d fuel o dbsize = some s)
    (hs : s ≠ .dataFound) : ∀ l ∈ signatureListsFrom d fuel o dbsize, hit l = some false := by
  induction fuel generalizing o dbsize with
  | zero => simp [signatureListsFrom]
  | succ fuel ih =>
    by_cases hin : 0 < dbsize ∧ signatureListSize d o ≤ dbsize
    · rw [scanDb, if_pos hin] at h
      rw [signatureListsFrom, if_pos hin]
      rcases hhit : hit o with _ | b
      · simp [hhit] at h
      · cases b with
        | true =>
          simp only [hhit, Option.some.injEq] at h
          exact absurd h.symm hs
        | false =>
          simp only [hhit] at h
          by_cases hzero : signatureListSize d o = 0
          · simp [hzero] at h
          · rw [if_neg hzero] at h
            intro l hl
            rcases List.mem_cons.mp hl with rfl | hl
            · exact hhit
            · exact ih h l hl
    · simp [signatureListsFrom, if_neg hin]

end Scan

/-! ## Hashes -/

/-- The body of the loop of `check_db_hash_in_ram`. -/
def hashHit (type hash : List UInt8) (d : Region) (o : ℕ) : Option Bool :=
  if signatureSize d o = 0 then none
  else some (signatureType d o = type ∧ (List.range (certCount d o)).any fun index =>
    d.bytes (signatureAt d o index + 16) hash.length = hash)

/-- `check_db_hash_in_ram`; the length of the hash is its `SignatureSize`. -/
def checkDbHashInRam (d : Region) (hash type : List UInt8) : Option CheckStatus :=
  scanDb (hashHit type hash d) d d.size 0 d.size

/-- `check_db_hash`: the same for a variable, `none` if it cannot be read. -/
def checkDbHash (var : Option Region) (hash type : List UInt8) : Option CheckStatus :=
  match var with
  | none => some .varNotFound
  | some d => checkDbHashInRam d hash type

/-- The database lists the hash: some list of the type holds it at some index. -/
def HashListed (d : Region) (hash type : List UInt8) : Prop :=
  ∃ o ∈ signatureLists d, signatureType d o = type ∧
    ∃ index < certCount d o, d.bytes (signatureAt d o index + 16) hash.length = hash

/-- A hit in a list is a signature of the type with this hash. -/
theorem hashHit_eq_true {d : Region} {o : ℕ} {type hash : List UInt8}
    (h : hashHit type hash d o = some true) : signatureType d o = type ∧
      ∃ index < certCount d o, d.bytes (signatureAt d o index + 16) hash.length = hash := by
  unfold hashHit at h
  split at h
  · cases h
  · simpa [List.any_eq_true, List.mem_range] using h

/-- A list that is passed over has no such signature. -/
theorem hashHit_eq_false {d : Region} {o : ℕ} {type hash : List UInt8}
    (h : hashHit type hash d o = some false) : ¬ (signatureType d o = type ∧
      ∃ index < certCount d o, d.bytes (signatureAt d o index + 16) hash.length = hash) := by
  unfold hashHit at h
  split at h
  · cases h
  · simpa [List.any_eq_true, List.mem_range] using h

/-- The search for a hash is exact: it looks at every index of every list. -/
theorem checkDbHashInRam_found {d : Region} {hash type : List UInt8} {s : CheckStatus}
    (h : checkDbHashInRam d hash type = some s) : s = .dataFound ↔ HashListed d hash type := by
  constructor
  · rintro rfl
    obtain ⟨o, ho, hhit⟩ := exists_of_scanDb_found h
    exact ⟨o, ho, hashHit_eq_true hhit⟩
  · rintro ⟨o, ho, hlisted⟩
    by_contra hs
    exact hashHit_eq_false (forall_of_scanDb_missed h hs o ho) hlisted

/-! ## Certificates -/

/-- `verify_x509`: a DER sequence with two length bytes that say `CertSize - 4`. -/
def verifyX509 (d : Region) (cert certSize : ℕ) : Bool :=
  4 ≤ certSize ∧ d.byte cert = 0x30 ∧ d.byte (cert + 1) = 0x82 ∧
    256 * (d.byte (cert + 2)).toNat + (d.byte (cert + 3)).toNat = certSize - 4

/-- `CertSize`, in `UINTN` arithmetic. -/
def certSize (d : Region) (o : ℕ) : ℕ := sub64 (signatureSize d o) 16

/-- The certificate check of the loop of `check_db_cert_in_ram`, for the signature at `index`;
`verifies` is `verify_eku` and `AuthenticodeVerify` on the bytes of the certificate. -/
def certMatches (verifies : List UInt8 → Bool) (d : Region) (o index : ℕ) : Bool :=
  verifyX509 d (signatureAt d o index + 16) (certSize d o) &&
    verifies (d.bytes (signatureAt d o index + 16) (certSize d o))

/-- The body of the loop: it tries the first signature of an X.509 list. -/
def certHit (verifies : List UInt8 → Bool) (d : Region) (o : ℕ) : Option Bool :=
  some (signatureType d o = certTypeX509Guid ∧ certMatches verifies d o 0)

/-- `check_db_cert_in_ram`. -/
def checkDbCertInRam (verifies : List UInt8 → Bool) (d : Region) : Option CheckStatus :=
  scanDb (certHit verifies d) d d.size 0 d.size

/-- `check_db_cert`: the same for a variable, `none` if it cannot be read. -/
def checkDbCert (verifies : List UInt8 → Bool) (var : Option Region) : Option CheckStatus :=
  match var with
  | none => some .varNotFound
  | some d => checkDbCertInRam verifies d

/-- Some certificate of the database matches: at any index of any X.509 list. -/
def CertListed (verifies : List UInt8 → Bool) (d : Region) : Prop :=
  ∃ o ∈ signatureLists d, signatureType d o = certTypeX509Guid ∧
    ∃ index < certCount d o, certMatches verifies d o index

/-- The first signature of some X.509 list of the database matches. -/
def FirstCertListed (verifies : List UInt8 → Bool) (d : Region) : Prop :=
  ∃ o ∈ signatureLists d, signatureType d o = certTypeX509Guid ∧ certMatches verifies d o 0

section Decidable

variable (d : Region) (hash type : List UInt8) (verifies : List UInt8 → Bool)

instance : Decidable (HashListed d hash type) :=
  inferInstanceAs (Decidable (∃ o ∈ _, _ ∧ ∃ index < _, _))

instance : Decidable (CertListed verifies d) :=
  inferInstanceAs (Decidable (∃ o ∈ _, _ ∧ ∃ index < _, _))

instance : Decidable (FirstCertListed verifies d) := inferInstanceAs (Decidable (∃ o ∈ _, _))

end Decidable

/-- The search for a certificate looks at the first signature of every list and at no other. -/
theorem checkDbCertInRam_found {verifies : List UInt8 → Bool} {d : Region} {s : CheckStatus}
    (h : checkDbCertInRam verifies d = some s) :
    s = .dataFound ↔ FirstCertListed verifies d := by
  constructor
  · rintro rfl
    obtain ⟨o, ho, hhit⟩ := exists_of_scanDb_found h
    exact ⟨o, ho, by simpa [certHit] using hhit⟩
  · rintro ⟨o, ho, hlisted⟩
    by_contra hs
    have := forall_of_scanDb_missed h hs o ho
    simp [certHit, hlisted] at this

end Shim
