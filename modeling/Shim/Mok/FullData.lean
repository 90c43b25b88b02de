import Shim.Common.Cursor
import Shim.Efi.FillEsl
import Shim.Mok.Import
import Shim.Pe.Header

/-! # The buffer that is mirrored

How `mirror_one_mok_variable` (mok.c) comes by `FullData`: one pass adds up the sizes of the pieces,
a buffer of that size is allocated, or the existing data taken over if there is nothing else, and a
second pass writes the pieces behind a cursor. The two passes agree, whatever pieces there are.
-/

namespace Shim.Mok

open Bytes (sub64)

/-- An entry as `mirror_one_mok_variable` finds it, in either pass of `import_mok_state`: its row
and `v->data`. The sizes of the certificates are `UINT32`, and the data is an object in memory, of
which a null pointer has no bytes. -/
structure Entry where
  row : MokStateVariable
  data : List UInt8
  addend_lt : row.addend.length < 2 ^ 32
  buildCert_lt : row.buildCert.length < 2 ^ 32
  userCert_lt : row.userCert.length < 2 ^ 32
  data_lt : data.length < 2 ^ 63

/-- Which allocations succeed: of the buffer, of the signatures of the addend and of the build
certificate, and of the list and the signature of the dummy. -/
structure Pools where
  fullData : Bool
  addend : Bool
  buildCert : Bool
  dummyList : Bool
  dummySig : Bool

/-- `EFI_CERT_TYPE_X509_GUID`. -/
def x509Guid : Guid := ⟨certTypeX509Guid, length_certTypeX509Guid⟩

/-- `EFI_CERT_SHA256_GUID`. -/
def sha256Guid : Guid := ⟨certSha256Guid, length_certSha256Guid⟩

/-- `SHIM_LOCK_GUID`. -/
def lockGuid : Guid := ⟨shimLockGuid, rfl⟩

/-! ## The sizes -/

/-- What the first pass finds out, with the sums it makes. -/
structure Sizing where
  fullDataSize : ℕ
  addendEslSz : ℕ
  buildCertEslSz : ℕ
  sums : List (ℕ × ℕ)

/-- `FullDataSize += n` for `size_t`. -/
def Sizing.add (s : Sizing) (n : ℕ) : Sizing :=
  { s with fullDataSize := (s.fullDataSize + n) % 2 ^ 64, sums := s.sums ++ [(s.fullDataSize, n)] }

/-- `fill_esl_with_one_signature` without a buffer, which answers with the size of the list. -/
def queryEsl (cert : List UInt8) : Except EfiStatus ℕ :=
  let filled := Shim.fillEslWithOneSignature (.ofList 0 cert) cert.length (some x509Guid)
    (some lockGuid) none (some 0) true
  if filled.status ≠ .bufferTooSmall then .error filled.status else .ok (filled.outlen.getD 0)

/-- The size of a list that is made of a certificate. -/
def sizeEsl (cert : List UInt8) (s : Sizing) : Except (EfiStatus × Sizing) (ℕ × Sizing) :=
  match queryEsl cert with
  | .error status => .error (status, s)
  | .ok n => .ok (n, s.add n)

/-- The size of the addend. -/
def sizeAddend (row : MokStateVariable) (s : Sizing) : Except (EfiStatus × Sizing) Sizing :=
  match row.categorizeAddend with
  | .db => .ok (s.add row.addend.length)
  | .x509 => do
    let sized ← sizeEsl row.addend s
    return { sized.2 with addendEslSz := sized.1 }
  | .none => .ok s

/-- The size of the build certificate, if `should_mirror_build_cert`. -/
def sizeBuildCert (row : MokStateVariable) (s : Sizing) : Except (EfiStatus × Sizing) Sizing :=
  if row.buildCert = [] then .ok s
  else do
    let sized ← sizeEsl row.buildCert s
    return { sized.2 with buildCertEslSz := sized.1 }

/-- The size of what goes in front of the data of a key database. -/
def sizeVendor (row : MokStateVariable) (s : Sizing) : Except (EfiStatus × Sizing) Sizing :=
  if row.keydb then do
    let s ← sizeAddend row s
    let s ← sizeBuildCert row s
    return s.add row.userCert.length
  else .ok s

/-- The first pass. -/
def sizeFullData (e : Entry) : Except (EfiStatus × Sizing) Sizing := do
  let s ← sizeVendor e.row ⟨0, 0, 0, []⟩
  return if e.data = [] then s else s.add e.data.length

/-! ## The buffer -/

/-- The padding in `ALIGN_VALUE(value, 4096)`. -/
def pagePadding (value : ℕ) : ℕ := sub64 4096 value % 4096

/-- `allocsz`: room for a list header behind the data, in whole pages. -/
def allocSize (fullDataSize : ℕ) : ℕ :=
  let allocsz := (fullDataSize + 28) % 2 ^ 64
  let new := (allocsz + pagePadding allocsz) % 2 ^ 64
  if new = allocsz then (new + 4096) % 2 ^ 64 else new

/-- The sums made for `allocsz`. -/
def allocSums (fullDataSize : ℕ) : List (ℕ × ℕ) :=
  let allocsz := (fullDataSize + 28) % 2 ^ 64
  let new := (allocsz + pagePadding allocsz) % 2 ^ 64
  [(fullDataSize, 28), (allocsz, pagePadding allocsz)] ++
    if new = allocsz then [(new, 4096)] else []

/-- The buffer before it is filled. Existing data that is all there is becomes the buffer, and the
cursor stands at its end. -/
def openFullData (e : Entry) (pools : Pools) (s : Sizing) : Except EfiStatus (Cursor UInt8) :=
  if s.fullDataSize = 0 then .ok ⟨[], 0, []⟩
  else if s.fullDataSize = e.data.length then .ok ⟨e.data, s.fullDataSize, []⟩
  else if pools.fullData then .ok ⟨List.replicate (allocSize s.fullDataSize) 0, 0, []⟩
  else .error .outOfResources

/-! ## The writes -/

/-- `fill_esl_with_one_signature` at the cursor, with the size that the first pass left. -/
def fillEslAt (cert : List UInt8) (eslSz : ℕ) (alloc : Bool) (c : Cursor UInt8) :
    Except (EfiStatus × Cursor UInt8) (Cursor UInt8) :=
  let filled := Shim.fillEslWithOneSignature (.ofList 0 cert) cert.length (some x509Guid)
    (some lockGuid) (some (c.buffer.drop c.p)) (some eslSz) alloc
  if filled.status.isError then .error (filled.status, c)
  else .ok {
    buffer := c.buffer.take c.p ++ filled.out.getD []
    p := c.p + filled.outlen.getD 0
    writes := c.writes ++ [(c.p, filled.outlen.getD 0)] }

/-- The addend. -/
def fillAddend (row : MokStateVariable) (pools : Pools) (s : Sizing) (c : Cursor UInt8) :
    Except (EfiStatus × Cursor UInt8) (Cursor UInt8) :=
  match row.categorizeAddend with
  | .db => .ok (c.put row.addend)
  | .x509 => fillEslAt row.addend s.addendEslSz pools.addend c
  | .none => .ok c

/-- The build certificate, if `should_mirror_build_cert`. -/
def fillBuildCert (row : MokStateVariable) (pools : Pools) (s : Sizing) (c : Cursor UInt8) :
    Except (EfiStatus × Cursor UInt8) (Cursor UInt8) :=
  if row.buildCert = [] then .ok c else fillEslAt row.buildCert s.buildCertEslSz pools.buildCert c

/-- What goes in front of the data of a key database. -/
def fillVendor (row : MokStateVariable) (pools : Pools) (s : Sizing) (c : Cursor UInt8) :
    Except (EfiStatus × Cursor UInt8) (Cursor UInt8) :=
  if row.keydb then do
    let c ← fillAddend row pools s c
    let c ← fillBuildCert row pools s c
    return c.put row.userCert
  else .ok c

/-- The second pass. Data that became the buffer is there already. -/
def fillFullData (e : Entry) (pools : Pools) (s : Sizing) (c : Cursor UInt8) :
    Except (EfiStatus × Cursor UInt8) (Cursor UInt8) := do
  let c ← fillVendor e.row pools s c
  return if e.data.length = s.fullDataSize ∨ e.data = [] then c else c.put e.data

/-- `FullData` up to the dummy: the sums made, the size computed, whether the data was taken over,
the size of the buffer, the cursor at the end, and the status, which is an error where
`mirror_one_mok_variable` returns. -/
structure Assembly where
  sums : List (ℕ × ℕ)
  fullDataSize : ℕ
  reuse : Bool
  capacity : ℕ
  cursor : Cursor UInt8
  status : EfiStatus

/-- Both passes. -/
def Entry.assemble (e : Entry) (pools : Pools) : Assembly :=
  match sizeFullData e with
  | .error (status, s) => ⟨s.sums, s.fullDataSize, false, 0, ⟨[], 0, []⟩, status⟩
  | .ok s =>
    let reuse := decide (e.data.length = s.fullDataSize)
    let sums := s.sums ++ if reuse then [] else allocSums s.fullDataSize
    match openFullData e pools s with
    | .error status => ⟨sums, s.fullDataSize, reuse, 0, ⟨[], 0, []⟩, status⟩
    | .ok c =>
      match fillFullData e pools s c with
      | .error (status, c') => ⟨sums, s.fullDataSize, reuse, c.buffer.length, c', status⟩
      | .ok c' => ⟨sums, s.fullDataSize, reuse, c.buffer.length, c', .success⟩

/-- The dummy that an empty key database gets: `FullData`, `FullDataSize` and `p` in the end. -/
def Entry.addDummy (e : Entry) (pools : Pools) (a : Assembly) :
    Except EfiStatus (List UInt8 × ℕ × ℕ) :=
  if e.row.keydb ∧ a.fullDataSize = 0 then
    let made := Shim.variableCreateEslWithOneSignature (.ofList 0 (List.replicate 32 0)) 32
      (some sha256Guid) (some lockGuid) pools.dummyList pools.dummySig
    if made.status.isError then .error made.status
    else .ok (made.out.getD [], made.outlen.getD 0, made.outlen.getD 0)
  else .ok (a.cursor.buffer, a.fullDataSize, a.cursor.p)

/-- The sizes are those of what is written: no sum wraps, no write goes over the computed size,
which the buffer has room for, and the cursor ends there; existing data that was taken over is left
as it is. -/
structure Entry.SizesAgree (e : Entry) (pools : Pools) (a : Assembly) : Prop where
  sums : ∀ s ∈ a.sums, s.1 + s.2 < 2 ^ 64
  inside : ∀ w ∈ a.cursor.writes, w.1 + w.2 ≤ a.fullDataSize ∧ a.fullDataSize ≤ a.capacity
  capacity : a.cursor.buffer.length = a.capacity
  ends : a.status = .success → a.cursor.p = a.fullDataSize ∧ a.fullDataSize ≤ a.capacity
  written : a.status = .success → a.reuse = false → a.cursor.written = a.fullDataSize
  reused : a.reuse = true → a.cursor.buffer = e.data ∧ a.cursor.written = 0
  dummy : ∀ r, a.status = .success → e.addDummy pools a = .ok r →
    r.2.2 = r.2.1 ∧ r.2.1 ≤ r.1.length

/-! ## Lists of one certificate -/

section Esl

variable {cert : List UInt8}

/-- The list that a certificate is put into. -/
def certEsl (cert : List UInt8) : List UInt8 :=
  eslHeader certTypeX509Guid 1 (16 + cert.length) ++ (shimLockGuid ++ cert)

/-- A list with one certificate. -/
theorem length_certEsl (cert : List UInt8) : (certEsl cert).length = 44 + cert.length := by
  simp [certEsl, eslHeader, certTypeX509Guid, shimLockGuid]
  omega

/-- A certificate that is not too long makes a list. -/
theorem fillEslWithOneSignature_ok (h : cert.length ≤ 2 ^ 32 - 45) :
    fillEslWithOneSignature cert certTypeX509Guid shimLockGuid = .ok (certEsl cert) := by
  have hdiv : ¬ (2 ^ 32 - 1 - 28) / (16 + cert.length) < 1 := by
    rw [Nat.div_lt_one_iff (by omega)]
    omega
  rw [fillEslWithOneSignature, if_neg (by omega), fillEsl, if_neg (by omega), if_neg hdiv]
  rfl

/-- One that is too long is refused. -/
theorem fillEslWithOneSignature_error (h : 2 ^ 32 - 45 < cert.length) :
    fillEslWithOneSignature cert certTypeX509Guid shimLockGuid = .error .invalidParameter := by
  rw [fillEslWithOneSignature]
  split_ifs with hbig
  · rfl
  · have hdiv : (2 ^ 32 - 1 - 28) / (16 + cert.length) < 1 := by
      rw [Nat.div_lt_one_iff (by omega)]
      omega
    rw [fillEsl, if_neg (by omega), if_pos hdiv]

/-- The size that is asked for is that of the list. -/
theorem queryEsl_eq (cert : List UInt8) : queryEsl cert =
    (fillEslWithOneSignature cert certTypeX509Guid shimLockGuid).map List.length := by
  by_cases h : cert.length ≤ 2 ^ 32 - 45
  · have hquery : Shim.fillEslWithOneSignature (.ofList 0 cert) cert.length (some x509Guid)
        (some lockGuid) none (some 0) true =
          ⟨.bufferTooSmall, none, some (28 + 1 * (16 + cert.length))⟩ :=
      (fillEslWithOneSignature_eq x509Guid h _ _ true).trans
        (fillEsl_query x509Guid (eslFits_one h))
    rw [queryEsl, hquery, fillEslWithOneSignature_ok h, Except.map, length_certEsl]
    simp only [ne_eq, not_true_eq_false, if_false, Option.getD_some]
    congr 1
    omega
  · have hstatus : (Shim.fillEslWithOneSignature (.ofList 0 cert) cert.length (some x509Guid)
        (some lockGuid) none (some 0) true).status = .invalidParameter :=
      fillEslWithOneSignature_of_not_fits x509Guid (not_le.mp h) true
    rw [queryEsl, fillEslWithOneSignature_error (not_le.mp h)]
    simp only [hstatus]
    rfl

/-- The bytes of a certificate in memory. -/
theorem bytes_ofList (l : List UInt8) : (Region.ofList 0 l).bytes 0 l.length = l :=
  Region.holdsAt_ofList_zero 0 l

/-- The call with a buffer writes the list and leaves what is behind it. -/
theorem fillEsl_certEsl (h : cert.length ≤ 2 ^ 32 - 45) (buffer : List UInt8) :
    Shim.fillEsl (some (.ofList 0 (ownerBytes (some lockGuid) ++ cert))) 1 (some x509Guid)
        (16 + cert.length) (some buffer) (some (certEsl cert).length) =
      ⟨.success, some (certEsl cert ++ buffer.drop (certEsl cert).length),
        some (certEsl cert).length⟩ := by
  have hmod : 1 * (16 + cert.length) % 2 ^ 64 = 16 + cert.length := by omega
  have hzero : ¬ ((some buffer).isSome = true ∧
      (some (Region.ofList 0 (ownerBytes (some lockGuid) ++ cert))).isNone = true ∨ 1 = 0 ∨
        16 + cert.length = 0) := by
    rintro (⟨-, hnone⟩ | hone | hsize)
    · cases hnone
    · cases hone
    · omega
  have hlen : (certEsl cert).length = 28 + (16 + cert.length) := by
    rw [length_certEsl]
    omega
  have hsd : (Region.ofList 0 (ownerBytes (some lockGuid) ++ cert)).bytes 0 (16 + cert.length) =
      shimLockGuid ++ cert :=
    (Region.holdsAt_ofList_zero 0 _).bytes (by simp [length_ownerBytes])
  rw [Shim.fillEsl, hmod]
  dsimp only
  rw [if_neg hzero, if_neg (eslFits_one h).not_lt, if_neg (by omega), hsd, hlen, certEsl, eslHeader,
    Nat.one_mul, List.append_assoc]
  rfl

/-- A list is filled in at the cursor, or its signature not allocated. -/
theorem fillEslAt_eq (h : cert.length ≤ 2 ^ 32 - 45) (alloc : Bool) (c : Cursor UInt8) :
    fillEslAt cert (certEsl cert).length alloc c =
      if alloc then .ok (c.put (certEsl cert)) else .error (.outOfResources, c) := by
  rw [fillEslAt, fillEslWithOneSignature_eq x509Guid h, bytes_ofList]
  cases alloc
  · rfl
  · simp only [Option.isSome_some, if_true, fillEsl_certEsl h]
    rw [if_neg (by decide)]
    simp only [Option.getD_some, List.drop_drop, Cursor.put, List.append_assoc]

end Esl

/-! ## The first pass -/

section Sizes

variable {row : MokStateVariable} {s : Sizing} {n k : ℕ} {cert addend build vendor : List UInt8}

/-- The sums so far did not wrap, and come to `n`. -/
structure Sizing.Exact (s : Sizing) (n : ℕ) : Prop where
  size : s.fullDataSize = n
  sums : ∀ a ∈ s.sums, a.1 + a.2 < 2 ^ 64

/-- Adding a size keeps the sum exact, if it does not wrap. -/
theorem Sizing.Exact.add (hs : s.Exact n) (h : n + k < 2 ^ 64) : (s.add k).Exact (n + k) where
  size := by rw [Sizing.add, hs.size, Nat.mod_eq_of_lt h]
  sums := by
    intro a ha
    rcases List.mem_append.mp ha with ha | ha
    · exact hs.sums a ha
    · obtain rfl := List.mem_singleton.mp ha
      rwa [hs.size]

/-- The sum starts exact. -/
theorem sizing_start : Sizing.Exact ⟨0, 0, 0, []⟩ 0 := ⟨rfl, fun _ ha => absurd ha List.not_mem_nil⟩

/-- A list that was made has the bytes of `certEsl`. -/
theorem certEsl_of_ok
    (h : fillEslWithOneSignature cert certTypeX509Guid shimLockGuid = .ok addend) :
    cert.length ≤ 2 ^ 32 - 45 ∧ addend = certEsl cert := by
  by_cases hfits : cert.length ≤ 2 ^ 32 - 45
  · rw [fillEslWithOneSignature_ok hfits] at h
    exact ⟨hfits, (Except.ok.inj h).symm⟩
  · rw [fillEslWithOneSignature_error (not_le.mp hfits)] at h
    cases h

/-- Sizing a list gives its length. -/
theorem sizeEsl_ok (h : fillEslWithOneSignature cert certTypeX509Guid shimLockGuid = .ok addend)
    (s : Sizing) : sizeEsl cert s = .ok (addend.length, s.add addend.length) := by
  rw [sizeEsl, queryEsl_eq, h]
  rfl

/-- Sizing fails where filling does. -/
theorem sizeEsl_error {status : EfiStatus}
    (h : fillEslWithOneSignature cert certTypeX509Guid shimLockGuid = .error status) (s : Sizing) :
    sizeEsl cert s = .error (status, s) := by
  rw [sizeEsl, queryEsl_eq, h]
  rfl

/-- The first pass finds the size that a list will have for the addend. -/
def Sizing.KnowsAddend (s : Sizing) (row : MokStateVariable) (addend : List UInt8) : Prop :=
  row.categorizeAddend = .x509 → s.addendEslSz = addend.length

/-- The same for the build certificate. -/
def Sizing.KnowsBuildCert (s : Sizing) (row : MokStateVariable) (build : List UInt8) : Prop :=
  row.buildCert ≠ [] → s.buildCertEslSz = build.length

/-- The addend is sized as it will be filled in. -/
theorem sizeAddend_ok (hadd : addendData row = .ok addend) (hs : s.Exact n)
    (hn : n + addend.length < 2 ^ 64) : ∃ s', sizeAddend row s = .ok s' ∧
      s'.Exact (n + addend.length) ∧ s'.KnowsAddend row addend := by
  unfold addendData at hadd
  unfold sizeAddend Sizing.KnowsAddend
  cases hcat : row.categorizeAddend with
  | db =>
    rw [hcat] at hadd
    obtain rfl := Except.ok.inj hadd
    exact ⟨_, rfl, hs.add hn, fun h => by cases h⟩
  | x509 =>
    rw [hcat] at hadd
    refine ⟨{ s.add addend.length with addendEslSz := addend.length }, ?_, ?_, fun _ => rfl⟩
    · simp only [sizeEsl_ok hadd]
      rfl
    · have hexact := hs.add hn
      exact ⟨hexact.size, hexact.sums⟩
  | none =>
    rw [hcat] at hadd
    obtain rfl := Except.ok.inj hadd
    exact ⟨s, rfl, hs, fun h => by cases h⟩

/-- Where the addend cannot be made it cannot be sized. -/
theorem sizeAddend_error {status : EfiStatus} (hadd : addendData row = .error status) :
    sizeAddend row s = .error (status, s) := by
  unfold addendData at hadd
  unfold sizeAddend
  cases hcat : row.categorizeAddend with
  | x509 =>
    rw [hcat] at hadd
    simp only [sizeEsl_error hadd]
    rfl
  | _ =>
    rw [hcat] at hadd
    cases hadd

/-- The build certificate is sized as it will be filled in. -/
theorem sizeBuildCert_ok (hbuild : buildCertData row = .ok build) (hs : s.Exact n)
    (hn : n + build.length < 2 ^ 64) : ∃ s', sizeBuildCert row s = .ok s' ∧
      s'.Exact (n + build.length) ∧ s'.KnowsBuildCert row build ∧
        s'.addendEslSz = s.addendEslSz := by
  unfold buildCertData at hbuild
  unfold sizeBuildCert Sizing.KnowsBuildCert
  by_cases hnil : row.buildCert = []
  · rw [if_pos hnil] at hbuild
    obtain rfl := Except.ok.inj hbuild
    exact ⟨s, if_pos hnil, hs, fun h => absurd hnil h, rfl⟩
  · rw [if_neg hnil] at hbuild
    refine ⟨{ s.add build.length with buildCertEslSz := build.length }, ?_, ?_, fun _ => rfl, rfl⟩
    · simp only [if_neg hnil, sizeEsl_ok hbuild]
      rfl
    · have hexact := hs.add hn
      exact ⟨hexact.size, hexact.sums⟩

/-- Where it cannot be made it cannot be sized. -/
theorem sizeBuildCert_error {status : EfiStatus} (hbuild : buildCertData row = .error status) :
    sizeBuildCert row s = .error (status, s) := by
  unfold buildCertData at hbuild
  unfold sizeBuildCert
  by_cases hnil : row.buildCert = []
  · rw [if_pos hnil] at hbuild
    cases hbuild
  · rw [if_neg hnil] at hbuild
    simp only [if_neg hnil, sizeEsl_error hbuild]
    rfl

/-- No piece is too long for the sums. -/
theorem length_addendData (hadd : addendData row = .ok addend) :
    addend.length ≤ row.addend.length + 44 := by
  unfold addendData at hadd
  cases hcat : row.categorizeAddend with
  | db =>
    rw [hcat] at hadd
    obtain rfl := Except.ok.inj hadd
    omega
  | x509 =>
    rw [hcat] at hadd
    rw [(certEsl_of_ok hadd).2, length_certEsl]
    omega
  | none =>
    rw [hcat] at hadd
    obtain rfl := Except.ok.inj hadd
    exact Nat.zero_le _

/-- A build certificate gets a header of 44 bytes. -/
theorem length_buildCertData (hbuild : buildCertData row = .ok build) :
    build.length ≤ row.buildCert.length + 44 := by
  unfold buildCertData at hbuild
  split_ifs at hbuild
  · obtain rfl := Except.ok.inj hbuild
    exact Nat.zero_le _
  · rw [(certEsl_of_ok hbuild).2, length_certEsl]
    omega

/-- The pieces in front of the data of a key database. -/
theorem vendorData_pieces (hkeydb : row.keydb = true) (h : vendorData row = .ok vendor) :
    ∃ addend build, addendData row = .ok addend ∧ buildCertData row = .ok build ∧
      vendor = addend ++ build ++ row.userCert := by
  rw [vendorData, if_pos hkeydb] at h
  obtain ⟨addend, hadd, h⟩ := exists_of_bind_ok h
  obtain ⟨build, hbuild, h⟩ := exists_of_bind_ok h
  exact ⟨addend, build, hadd, hbuild, (Except.ok.inj h).symm⟩

/-- What the second pass relies on. -/
def Sizing.Knows (s : Sizing) (row : MokStateVariable) : Prop :=
  (∀ addend, addendData row = .ok addend → s.KnowsAddend row addend) ∧
    ∀ build, buildCertData row = .ok build → s.KnowsBuildCert row build

/-- The vendor's data are sized as they will be filled in. -/
theorem sizeVendor_ok (e : Entry) (h : vendorData e.row = .ok vendor) :
    ∃ s', sizeVendor e.row ⟨0, 0, 0, []⟩ = .ok s' ∧ s'.Exact vendor.length ∧
      vendor.length < 2 ^ 34 ∧ (e.row.keydb = true → s'.Knows e.row) := by
  cases hkeydb : e.row.keydb with
  | false =>
    rw [vendorData, hkeydb, if_neg Bool.false_ne_true] at h
    obtain rfl := Except.ok.inj h
    exact ⟨_, by rw [sizeVendor, hkeydb]; rfl, sizing_start, by decide, fun h => by cases h⟩
  | true =>
    obtain ⟨addend, build, hadd, hbuild, rfl⟩ := vendorData_pieces hkeydb h
    have haddlen := length_addendData hadd
    have hbuildlen := length_buildCertData hbuild
    have haddlt := e.addend_lt
    have hbuildlt := e.buildCert_lt
    have huserlt := e.userCert_lt
    -- the three parts are added one after the other, and no sum wraps
    obtain ⟨s₁, hs₁, hexact₁, hknows₁⟩ := sizeAddend_ok hadd sizing_start (by omega)
    obtain ⟨s₂, hs₂, hexact₂, hknows₂, hsame⟩ := sizeBuildCert_ok hbuild hexact₁ (by omega)
    have hexact := hexact₂.add (k := e.row.userCert.length) (by omega)
    refine ⟨s₂.add e.row.userCert.length, ?_, ?_, ?_, fun _ => ⟨fun addend' hadd' => ?_,
      fun build' hbuild' => ?_⟩⟩
    · rw [sizeVendor, hkeydb, if_pos rfl, hs₁]
      change (sizeBuildCert e.row s₁ >>= _) = _
      rw [hs₂]
      rfl
    · rw [List.length_append, List.length_append]
      rwa [Nat.zero_add] at hexact
    · rw [List.length_append, List.length_append]
      omega
    · obtain rfl := Except.ok.inj (hadd.symm.trans hadd')
      exact fun hcat => hsame.trans (hknows₁ hcat)
    · obtain rfl := Except.ok.inj (hbuild.symm.trans hbuild')
      exact hknows₂

/-- An addend or a build certificate that is too large ends the first pass. -/
theorem sizeVendor_error (e : Entry) {status : EfiStatus} (h : vendorData e.row = .error status) :
    ∃ s', sizeVendor e.row ⟨0, 0, 0, []⟩ = .error (status, s') ∧
      ∀ a ∈ s'.sums, a.1 + a.2 < 2 ^ 64 := by
  cases hkeydb : e.row.keydb with
  | false =>
    rw [vendorData, hkeydb, if_neg Bool.false_ne_true] at h
    cases h
  | true =>
    rw [vendorData, if_pos hkeydb] at h
    rw [sizeVendor, if_pos hkeydb]
    cases hadd : addendData e.row with
    | error status' =>
      rw [hadd] at h
      cases h
      exact ⟨_, by rw [sizeAddend_error hadd]; rfl, sizing_start.sums⟩
    | ok addend =>
      -- the addend was sized; the build certificate is the one refused
      have haddlen := length_addendData hadd
      have haddlt := e.addend_lt
      obtain ⟨s₁, hs₁, hexact₁, -⟩ := sizeAddend_ok hadd sizing_start (by omega)
      rw [hadd] at h
      cases hbuild : buildCertData e.row with
      | error status' =>
        change (buildCertData e.row >>= _) = _ at h
        rw [hbuild] at h
        cases h
        refine ⟨s₁, ?_, hexact₁.sums⟩
        rw [hs₁]
        change (sizeBuildCert e.row s₁ >>= _) = _
        rw [sizeBuildCert_error hbuild]
        rfl
      | ok build =>
        change (buildCertData e.row >>= _) = _ at h
        rw [hbuild] at h
        cases h

/-- **The first pass.** Its sum is the size of what is mirrored, if nothing is too large. -/
theorem sizeFullData_ok (e : Entry) (h : vendorData e.row = .ok vendor) :
    ∃ s, sizeFullData e = .ok s ∧ s.Exact (vendor ++ e.data).length ∧
      (vendor ++ e.data).length < 2 ^ 63 + 2 ^ 34 ∧ (e.row.keydb = true → s.Knows e.row) := by
  obtain ⟨s, hs, hexact, hlt, hknows⟩ := sizeVendor_ok e h
  have hdata := e.data_lt
  rw [sizeFullData, hs, List.length_append]
  by_cases hnil : e.data = []
  · refine ⟨s, by simp [hnil, Bind.bind, Except.bind, Pure.pure, Except.pure], ?_, by omega, hknows⟩
    rwa [hnil, List.length_nil, Nat.add_zero]
  · exact ⟨s.add e.data.length, by simp [hnil, Bind.bind, Except.bind, Pure.pure, Except.pure],
      hexact.add (by omega), by omega, hknows⟩

end Sizes

/-! ## The second pass -/

section Writes

open Cursor (Wrote wrote_refl wrote_put)

variable {row : MokStateVariable} {s : Sizing} {addend build vendor : List UInt8}

/-- A piece is written, or a signature not allocated. -/
def WrotePiece (c : Cursor UInt8) (piece : List UInt8) (pool : Bool)
    (r : Except (EfiStatus × Cursor UInt8) (Cursor UInt8)) : Prop :=
  (∃ c', r = .ok c' ∧ Wrote c c' piece) ∨
    (pool = false ∧ ∃ c' l, r = .error (.outOfResources, c') ∧ l <+: piece ∧ Wrote c c' l)

/-- A piece that is put there is written. -/
theorem wrotePiece_put (c : Cursor UInt8) (piece : List UInt8) (pool : Bool) :
    WrotePiece c piece pool (.ok (c.put piece)) := .inl ⟨_, rfl, wrote_put c piece⟩

/-- Nothing is written for an empty piece. -/
theorem wrotePiece_nil (c : Cursor UInt8) (pool : Bool) : WrotePiece c [] pool (.ok c) :=
  .inl ⟨c, rfl, wrote_refl c⟩

/-- A list of one certificate. -/
theorem wrotePiece_esl {cert piece : List UInt8} {eslSz : ℕ}
    (h : fillEslWithOneSignature cert certTypeX509Guid shimLockGuid = .ok piece)
    (hsize : eslSz = piece.length) (pool : Bool) (c : Cursor UInt8) :
    WrotePiece c piece pool (fillEslAt cert eslSz pool c) := by
  obtain ⟨hfits, rfl⟩ := certEsl_of_ok h
  rw [hsize, fillEslAt_eq hfits]
  cases pool
  · exact .inr ⟨rfl, c, [], rfl, List.nil_prefix, wrote_refl c⟩
  · exact wrotePiece_put c _ true

/-- The addend is written as it was sized. -/
theorem wrotePiece_fillAddend (hadd : addendData row = .ok addend)
    (hknows : s.KnowsAddend row addend) (pools : Pools) (c : Cursor UInt8) :
    WrotePiece c addend pools.addend (fillAddend row pools s c) := by
  unfold addendData at hadd
  unfold fillAddend
  cases hcat : row.categorizeAddend with
  | db =>
    rw [hcat] at hadd
    obtain rfl := Except.ok.inj hadd
    exact wrotePiece_put c _ _
  | x509 =>
    rw [hcat] at hadd
    exact wrotePiece_esl hadd (hknows hcat) _ c
  | none =>
    rw [hcat] at hadd
    obtain rfl := Except.ok.inj hadd
    exact wrotePiece_nil c _

/-- So is the build certificate. -/
theorem wrotePiece_fillBuildCert (hbuild : buildCertData row = .ok build)
    (hknows : s.KnowsBuildCert row build) (pools : Pools) (c : Cursor UInt8) :
    WrotePiece c build pools.buildCert (fillBuildCert row pools s c) := by
  unfold buildCertData at hbuild
  unfold fillBuildCert
  by_cases hnil : row.buildCert = []
  · rw [if_pos hnil] at hbuild ⊢
    obtain rfl := Except.ok.inj hbuild
    exact wrotePiece_nil c _
  · rw [if_neg hnil] at hbuild ⊢
    exact wrotePiece_esl hbuild (hknows hnil) _ c

/-- A piece behind the other. -/
theorem WrotePiece.bind {c : Cursor UInt8} {piece piece' : List UInt8} {pool pool' : Bool}
    {r : Except (EfiStatus × Cursor UInt8) (Cursor UInt8)}
    {f : Cursor UInt8 → Except (EfiStatus × Cursor UInt8) (Cursor UInt8)}
    (h : WrotePiece c piece pool r) (h' : ∀ c', WrotePiece c' piece' pool' (f c')) :
    WrotePiece c (piece ++ piece') (pool && pool') (r >>= f) := by
  rcases h with ⟨c', rfl, hwrote⟩ | ⟨hpool, c', l, rfl, hl, hwrote⟩
  · rcases h' c' with ⟨c'', hc'', hwrote'⟩ | ⟨hpool, c'', l, hc'', hl, hwrote'⟩
    · exact .inl ⟨c'', hc'', hwrote.trans hwrote'⟩
    · exact .inr ⟨by rw [hpool, Bool.and_false], c'', piece ++ l, hc'',
        List.prefix_append_right_inj piece |>.mpr hl, hwrote.trans hwrote'⟩
  · exact .inr ⟨by rw [hpool, Bool.false_and], c', l, rfl, hl.trans (List.prefix_append _ _),
      hwrote⟩

/-- What goes in front of the data. -/
theorem wrotePiece_fillVendor (h : vendorData row = .ok vendor)
    (hknows : row.keydb = true → s.Knows row) (pools : Pools) (c : Cursor UInt8) :
    WrotePiece c vendor (pools.addend && pools.buildCert) (fillVendor row pools s c) := by
  unfold fillVendor
  cases hkeydb : row.keydb with
  | false =>
    rw [vendorData, hkeydb, if_neg Bool.false_ne_true] at h
    obtain rfl := Except.ok.inj h
    exact wrotePiece_nil c _
  | true =>
    obtain ⟨addend, build, hadd, hbuild, rfl⟩ := vendorData_pieces hkeydb h
    have hlast : ∀ c', WrotePiece c' (build ++ row.userCert) (pools.buildCert && true)
        (fillBuildCert row pools s c' >>= fun c'' => .ok (c''.put row.userCert)) := fun c' =>
      (wrotePiece_fillBuildCert hbuild ((hknows hkeydb).2 _ hbuild) pools c').bind
        fun c'' => wrotePiece_put c'' row.userCert true
    have hboth := (wrotePiece_fillAddend hadd ((hknows hkeydb).1 _ hadd) pools c).bind hlast
    rw [Bool.and_true, ← List.append_assoc] at hboth
    rw [if_pos rfl]
    exact hboth

/-- **The second pass**, where the data was not taken over. -/
theorem wrotePiece_fillFullData (e : Entry) (h : vendorData e.row = .ok vendor)
    (hknows : e.row.keydb = true → s.Knows e.row) (hreuse : e.data.length ≠ s.fullDataSize)
    (pools : Pools) (c : Cursor UInt8) :
    WrotePiece c (vendor ++ e.data) (pools.addend && pools.buildCert)
      (fillFullData e pools s c) := by
  have hdata : ∀ c', WrotePiece c' e.data true
      (.ok (if e.data.length = s.fullDataSize ∨ e.data = [] then c' else c'.put e.data)) := by
    intro c'
    by_cases hnil : e.data = []
    · rw [if_pos (.inr hnil), hnil]
      exact wrotePiece_nil c' _
    · rw [if_neg (not_or.mpr ⟨hreuse, hnil⟩)]
      exact wrotePiece_put c' _ _
  have hpieces := (wrotePiece_fillVendor h hknows pools c).bind hdata
  rwa [Bool.and_true] at hpieces

/-- The second pass where it was: there is nothing to write. -/
theorem wrotePiece_reuse (e : Entry) (h : vendorData e.row = .ok [])
    (hknows : e.row.keydb = true → s.Knows e.row) (hreuse : e.data.length = s.fullDataSize)
    (pools : Pools) (c : Cursor UInt8) :
    WrotePiece c [] (pools.addend && pools.buildCert) (fillFullData e pools s c) := by
  have hdata : ∀ c', WrotePiece c' [] true
      (.ok (if e.data.length = s.fullDataSize ∨ e.data = [] then c' else c'.put e.data)) := by
    intro c'
    rw [if_pos (.inl hreuse)]
    exact wrotePiece_nil c' _
  have hpieces := (wrotePiece_fillVendor h hknows pools c).bind hdata
  rwa [Bool.and_true] at hpieces

end Writes

/-! ## The two passes agree -/

section Agree

open Cursor (Wrote)

variable {e : Entry} {pools : Pools} {sums : List (ℕ × ℕ)} {n size : ℕ} {c' : Cursor UInt8}
  {l : List UInt8} {status : EfiStatus}

/-- The padding is less than a page. -/
theorem pagePadding_lt (value : ℕ) : pagePadding value < 4096 := Nat.mod_lt _ (by decide)

/-- The allocation has room for the data, and its size does not wrap. -/
theorem allocSize_spec (h : n < 2 ^ 63 + 2 ^ 34) :
    n ≤ allocSize n ∧ ∀ a ∈ allocSums n, a.1 + a.2 < 2 ^ 64 := by
  have hpad := pagePadding_lt (n + 28)
  have hsum : (n + 28) % 2 ^ 64 = n + 28 := Nat.mod_eq_of_lt (by omega)
  have hnew : (n + 28 + pagePadding (n + 28)) % 2 ^ 64 = n + 28 + pagePadding (n + 28) :=
    Nat.mod_eq_of_lt (by omega)
  unfold allocSize allocSums
  dsimp only
  rw [hsum, hnew]
  constructor
  · split_ifs <;> omega
  · intro a ha
    simp only [List.mem_append, List.mem_cons, List.not_mem_nil, or_false] at ha
    rcases ha with (rfl | rfl) | ha
    · dsimp only
      omega
    · dsimp only
      omega
    · split_ifs at ha
      · obtain rfl := List.mem_singleton.mp ha
        dsimp only
        omega
      · exact absurd ha List.not_mem_nil

/-- Data that cannot be made are an invalid parameter. -/
theorem vendorData_error (h : vendorData e.row = .error status) : status = .invalidParameter := by
  -- a certificate is refused only for its size
  have hcert : ∀ {cert : List UInt8},
      fillEslWithOneSignature cert certTypeX509Guid shimLockGuid = .error status →
        status = .invalidParameter := by
    intro cert hfill
    by_cases hfits : cert.length ≤ 2 ^ 32 - 45
    · rw [fillEslWithOneSignature_ok hfits] at hfill
      cases hfill
    · rw [fillEslWithOneSignature_error (not_le.mp hfits)] at hfill
      exact (Except.error.inj hfill).symm
  rw [vendorData] at h
  split_ifs at h
  cases hadd : addendData e.row with
  | error status' =>
    rw [hadd] at h
    obtain rfl : status' = status := Except.error.inj h
    unfold addendData at hadd
    split at hadd
    · cases hadd
    · exact hcert hadd
    · cases hadd
  | ok addend =>
    rw [hadd] at h
    cases hbuild : buildCertData e.row with
    | error status' =>
      change (buildCertData e.row >>= _) = _ at h
      rw [hbuild] at h
      obtain rfl : status' = status := Except.error.inj h
      unfold buildCertData at hbuild
      split_ifs at hbuild
      exact hcert hbuild
    | ok build =>
      change (buildCertData e.row >>= _) = _ at h
      rw [hbuild] at h
      cases h

/-- The dummy, where both allocations succeed; else there is none. -/
theorem dummy_eq (allocList allocSig : Bool) :
    Shim.variableCreateEslWithOneSignature (.ofList 0 (List.replicate 32 0)) 32 (some sha256Guid)
        (some lockGuid) allocList allocSig = (
      if allocList && allocSig then
        ⟨.success, some (esl certSha256Guid 48 [shimLockGuid ++ List.replicate 32 0]), some 76⟩
      else ⟨.outOfResources, if allocList then some (List.replicate 76 0) else none, some 76⟩) := by
  have hfits : 32 ≤ 2 ^ 32 - 45 := by decide
  have hquery : Shim.fillEslWithOneSignature (.ofList 0 (List.replicate 32 0)) 32 (some sha256Guid)
      (some lockGuid) none (some 0) allocSig = ⟨.bufferTooSmall, none, some 76⟩ :=
    (fillEslWithOneSignature_eq sha256Guid hfits _ _ allocSig).trans
      (@fillEsl_query sha256Guid 1 48 0 none (eslFits_one hfits))
  cases allocList
  · simp only [Shim.variableCreateEslWithOneSignature, show 32 % 2 ^ 32 = 32 from rfl, hquery]
    rfl
  · cases allocSig
    · simp only [Shim.variableCreateEslWithOneSignature, show 32 % 2 ^ 32 = 32 from rfl, hquery]
      rw [fillEslWithOneSignature_eq sha256Guid hfits]
      rfl
    · have hbytes : (Region.ofList 0 (List.replicate 32 0)).bytes 0 32 = List.replicate 32 0 :=
        bytes_ofList (List.replicate 32 0)
      rw [(variableCreateEslWithOneSignature_eq sha256Guid (show 32 % 2 ^ 32 = 32 from rfl) hfits _
        (some lockGuid)).2, hbytes]
      rfl

/-- The dummy has the size that is recorded, and so has what is there without it. -/
theorem addDummy_sizes {a : Assembly} (hp : a.cursor.p = a.fullDataSize)
    (hfit : a.fullDataSize ≤ a.cursor.buffer.length) :
    ∀ r, e.addDummy pools a = .ok r → r.2.2 = r.2.1 ∧ r.2.1 ≤ r.1.length := by
  intro r hr
  unfold Entry.addDummy at hr
  split_ifs at hr with hdummy
  · rw [dummy_eq] at hr
    dsimp only at hr
    cases hpools : pools.dummyList && pools.dummySig with
    | false =>
      rw [hpools] at hr
      cases hr
    | true =>
      rw [hpools] at hr
      obtain rfl := Except.ok.inj hr
      have hlen : (esl certSha256Guid 48 [shimLockGuid ++ List.replicate 32 0]).length = 76 := by
        decide
      exact ⟨rfl, hlen.ge⟩
  · obtain rfl := Except.ok.inj hr
    exact ⟨hp, hfit⟩

/-- An end before there is a buffer. -/
theorem sizesAgree_stopped (hsums : ∀ s ∈ sums, s.1 + s.2 < 2 ^ 64) (h : status ≠ .success) :
    e.SizesAgree pools ⟨sums, n, false, 0, ⟨[], 0, []⟩, status⟩ where
  sums := hsums
  inside := fun _ hw => absurd hw List.not_mem_nil
  capacity := rfl
  ends := fun hstatus => absurd hstatus h
  written := fun hstatus => absurd hstatus h
  reused := fun hreuse => absurd hreuse Bool.false_ne_true
  dummy := fun _ hstatus => absurd hstatus h

/-- Data that was taken over. -/
theorem sizesAgree_reuse (hsums : ∀ s ∈ sums, s.1 + s.2 < 2 ^ 64)
    (hwrote : Wrote ⟨e.data, e.data.length, []⟩ c' []) :
    e.SizesAgree pools ⟨sums, e.data.length, true, e.data.length, c', status⟩ := by
  have hp : c'.p = e.data.length := hwrote.p
  have hbuffer : c'.buffer = e.data := by
    rw [hwrote.buffer le_rfl]
    simp
  exact {
    sums := hsums
    inside := fun w hw => by
      rcases hwrote.writes w hw with hw | hw
      · cases hw
      · exact ⟨by dsimp only; omega, le_rfl⟩
    capacity := congrArg List.length hbuffer
    ends := fun _ => ⟨hp, le_rfl⟩
    written := fun _ h => by cases h
    reused := fun _ => ⟨hbuffer, hwrote.written⟩
    dummy := fun r _ => addDummy_sizes hp (le_of_eq (congrArg List.length hbuffer).symm) r }

/-- A buffer that was allocated. -/
theorem sizesAgree_fresh (hsums : ∀ s ∈ sums, s.1 + s.2 < 2 ^ 64) (hroom : n ≤ size)
    (hwrote : Wrote ⟨List.replicate size 0, 0, []⟩ c' l) (hle : l.length ≤ n)
    (hall : status = .success → l.length = n) :
    e.SizesAgree pools ⟨sums, n, false, size, c', status⟩ := by
  have hp : c'.p = l.length := hwrote.p.trans (Nat.zero_add _)
  have hlen : c'.buffer.length = size := by
    rw [hwrote.length_buffer (by rw [List.length_replicate]; dsimp only; omega),
      List.length_replicate]
  exact {
    sums := hsums
    inside := fun w hw => by
      rcases hwrote.writes w hw with hw | hw
      · cases hw
      · exact ⟨by dsimp only; omega, hroom⟩
    capacity := hlen
    ends := fun h => ⟨hp.trans (hall h), hroom⟩
    written := fun h _ => by rw [hwrote.written, hall h]; exact Nat.zero_add _
    reused := fun h => by cases h
    dummy := fun r h => addDummy_sizes (hp.trans (hall h)) (by rw [hlen]; exact hroom) r }

/-- The buffer where there is nothing but the data, empty or not. -/
theorem openFullData_reuse {s : Sizing} (h : e.data.length = s.fullDataSize) :
    openFullData e pools s = .ok ⟨e.data, e.data.length, []⟩ := by
  unfold openFullData
  by_cases hzero : s.fullDataSize = 0
  · have hnil : e.data = [] := List.eq_nil_of_length_eq_zero (h.trans hzero)
    rw [if_pos hzero, hnil]
    rfl
  · rw [if_neg hzero, if_pos h.symm, h]

/-- Something in front of the data makes a buffer of its own. -/
theorem openFullData_fresh {s : Sizing} {vendor : List UInt8} (hne : vendor ≠ [])
    (hsize : s.fullDataSize = (vendor ++ e.data).length) :
    e.data.length ≠ s.fullDataSize ∧ openFullData e pools s =
      if pools.fullData then .ok ⟨List.replicate (allocSize s.fullDataSize) 0, 0, []⟩
      else .error .outOfResources := by
  have hpos := List.length_pos_iff.mpr hne
  rw [List.length_append] at hsize
  exact ⟨by omega, by rw [openFullData, if_neg (by omega), if_neg (by omega)]⟩

/-- **`FullData`.** Whatever pieces there are, the size that the first pass computes is that of what
the second pass writes. -/
theorem assemble_sizesAgree (e : Entry) (pools : Pools) :
    e.SizesAgree pools (e.assemble pools) := by
  cases hv : vendorData e.row with
  | error status =>
    obtain ⟨s, hs, hsums⟩ := sizeVendor_error e hv
    have hsize : sizeFullData e = .error (status, s) := by
      rw [sizeFullData, hs]
      rfl
    have hstatus : status ≠ .success := by
      rw [vendorData_error hv]
      decide
    rw [Entry.assemble, hsize]
    exact sizesAgree_stopped hsums hstatus
  | ok vendor =>
    obtain ⟨s, hs, hexact, hlt, hknows⟩ := sizeFullData_ok e hv
    rw [Entry.assemble, hs]
    by_cases hnil : vendor = []
    · subst hnil
      -- nothing of the vendor: the buffer of the variable is taken over
      have hreuse : e.data.length = s.fullDataSize := hexact.size.symm
      have hsums : ∀ a ∈ s.sums ++ ([] : List (ℕ × ℕ)), a.1 + a.2 < 2 ^ 64 := by
        rw [List.append_nil]
        exact hexact.sums
      simp only [openFullData_reuse hreuse, ← hreuse]
      rcases wrotePiece_reuse e hv hknows hreuse pools ⟨e.data, e.data.length, []⟩ with
        ⟨c', hc', hwrote⟩ | ⟨-, c', l, hc', hl, hwrote⟩
      · rw [hc']
        exact sizesAgree_reuse hsums hwrote
      · rw [hc']
        rw [List.prefix_nil.mp hl] at hwrote
        exact sizesAgree_reuse hsums hwrote
    -- a buffer of its own, of the size that was added up
    · obtain ⟨hreuse, hopen⟩ := @openFullData_fresh e pools s vendor hnil hexact.size
      have halloc := allocSize_spec (hexact.size ▸ hlt)
      have hsums : ∀ a ∈ s.sums ++ allocSums s.fullDataSize, a.1 + a.2 < 2 ^ 64 := fun a ha =>
        (List.mem_append.mp ha).elim (hexact.sums a) (halloc.2 a)
      simp only [decide_eq_false hreuse, Bool.false_eq_true, if_false, hopen]
      cases hpool : pools.fullData
      · exact sizesAgree_stopped hsums (by decide)
      · rw [if_pos rfl]
        dsimp only
        rw [List.length_replicate]
        rcases wrotePiece_fillFullData e hv hknows hreuse pools
          ⟨List.replicate (allocSize s.fullDataSize) 0, 0, []⟩ with
          ⟨c', hc', hwrote⟩ | ⟨-, c', l, hc', hl, hwrote⟩
        · rw [hc']
          exact sizesAgree_fresh hsums halloc.1 hwrote hexact.size.ge fun _ => hexact.size.symm
        · rw [hc']
          have hle := hl.length_le
          exact sizesAgree_fresh hsums halloc.1 hwrote (by rw [hexact.size]; exact hle)
            fun h => by cases h

end Agree

end Shim.Mok
