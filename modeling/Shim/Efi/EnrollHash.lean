import Shim.Efi.FillEsl
import Shim.Efi.Variables

/-! # Enrolling a hash

`variable_enroll_hash` with what it calls: `find_in_variable_esl`, `SetSecureVariable` and
`CreateTimeBasedPayload` (lib/variables.c). The list is built in a buffer on the stack, of which
nothing is known beforehand, and `SetVariable` appends it: firmware that carries the call out puts
the bytes behind those the variable holds.
-/

namespace Shim

/-! ## Constants -/

/-- `SIG_DB`. -/
def sigDbGuid : List UInt8 :=
  [0xcb, 0xb2, 0x19, 0xd7, 0x3a, 0x3d, 0x96, 0x45, 0xa3, 0xbc, 0xda, 0xd0, 0x0e, 0x67, 0x65, 0x6f]

/-- `EFI_CERT_TYPE_PKCS7_GUID`. -/
def certTypePkcs7Guid : List UInt8 :=
  [0x9d, 0xd2, 0xaf, 0x4a, 0xdf, 0x68, 0xee, 0x49, 0x8a, 0xa9, 0x34, 0x7d, 0x37, 0x56, 0x65, 0xa7]

/-- `EFI_VARIABLE_NON_VOLATILE | EFI_VARIABLE_BOOTSERVICE_ACCESS`. -/
def nonVolatileBootservice : ℕ := 0x3

/-- The two, with `EFI_VARIABLE_RUNTIME_ACCESS` and
`EFI_VARIABLE_TIME_BASED_AUTHENTICATED_WRITE_ACCESS`. -/
def secureAttributes : ℕ := 0x27

/-- A variable in its namespace. -/
structure OwnedName where
  var : List UInt16
  owner : Guid
  deriving DecidableEq

/-! ## Firmware -/

/-- `SetVariable` with `EFI_VARIABLE_APPEND_WRITE`, or without. -/
def appendVariable (vars : Variables OwnedName) (name : OwnedName) (append : Bool)
    (data : List UInt8) (attrs : ℕ) (fault : Fault) : EfiStatus × Variables OwnedName :=
  writeVariable vars name ((if append then contents vars name else []) ++ data) attrs fault

/-- The data behind an `EFI_VARIABLE_AUTHENTICATION_2`: a time, and a certificate that says how long
it is. -/
def authenticatedData (payload : List UInt8) : List UInt8 :=
  payload.drop (16 + (Region.ofList 0 payload).u32 16)

/-- What the calls of one `variable_enroll_hash` meet: faults of the size query and of the read,
`SetupMode` with 1 for a missing one, the time or the error of `GetTime`, whether memory for the
payload and for a list is there, and the fault of `SetVariable`. -/
structure EnrollEnv where
  size : Fault
  read : Fault
  setupMode : UInt8
  time : Except EfiError (List UInt8)
  alloc : Bool
  allocEsl : Bool × Bool
  set : Fault

/-! ## The functions -/

/-- `find_in_variable_esl`; `none` where it does not come back. -/
def findInVariableEsl (vars : Variables OwnedName) (name : OwnedName) (key : List UInt8)
    (size read : Fault) : Option EfiStatus :=
  match getVariableAttr vars name size read with
  | .error e => some e
  | .ok v => findInEsl v.data key

/-- `CreateTimeBasedPayload`. Of the time, the part up to the second is kept. -/
def createTimeBasedPayload (env : EnrollEnv) (data : List UInt8) : Except EfiStatus (List UInt8) :=
  if env.alloc then
    match env.time with
    | .error e => .error e.1
    | .ok time =>
      .ok (time.take 7 ++ List.replicate (16 - (time.take 7).length) 0 ++ Region.le32 24 ++
        [0x00, 0x02] ++ [0xf1, 0x0e] ++ certTypePkcs7Guid ++ data)
  else .error .outOfResources

/-- `SetSecureVariable`; `append` is `EFI_VARIABLE_APPEND_WRITE` among the options. -/
def setSecureVariable (vars : Variables OwnedName) (name : OwnedName) (data : List UInt8)
    (append createtimebased : Bool) (env : EnrollEnv) : EfiStatus × Variables OwnedName :=
  if env.setupMode = 0 then (.securityViolation, vars)
  else
    let cert : Except EfiStatus (List UInt8) :=
      if createtimebased then
        let made := variableCreateEslWithOneSignature (Region.ofList 0 data) data.length
          (some ⟨certTypeX509Guid, length_certTypeX509Guid⟩) none env.allocEsl.1 env.allocEsl.2
        if made.status.isError then .error made.status else .ok (made.out.getD [])
      else .ok data
    match cert.bind (createTimeBasedPayload env) with
    | .error e => (e, vars)
    | .ok payload =>
      appendVariable vars name append (authenticatedData payload) secureAttributes env.set

/-- Some bytes of a buffer are overwritten. -/
def putBytes (buffer : List UInt8) (o : ℕ) (bytes : List UInt8) : List UInt8 :=
  buffer.take o ++ bytes ++ buffer.drop (o + bytes.length)

/-- `sig`, by the writes to it: it is cleared, and `l` is at its start and `d` at 28. -/
def hashSig (stack hash : List UInt8) : List UInt8 :=
  let sig := putBytes stack 0 (List.replicate 76 0)
  let sig := putBytes sig 0 certSha256Guid
  let sig := putBytes sig 16 (Region.le32 76)
  let sig := putBytes sig 24 (Region.le32 (16 + 32))
  let sig := putBytes sig (28 + 16) hash
  putBytes sig 28 shimLockGuid

/-- `variable_enroll_hash`, with what the stack holds; `none` where it does not come back. -/
def variableEnrollHash (vars : Variables OwnedName) (name : OwnedName) (hash stack : List UInt8)
    (env : EnrollEnv) : Option (EfiStatus × Variables OwnedName) :=
  (findInVariableEsl vars name hash env.size env.read).map fun efiStatus =>
    if efiStatus.isError = false then (.alreadyStarted, vars)
    else
      let sig := hashSig stack hash
      if name.owner.1 = sigDbGuid then setSecureVariable vars name sig true false env
      else appendVariable vars name true sig nonVolatileBootservice env.set

/-! ## The list on the stack -/

/-- A SHA-256 digest. -/
abbrev Digest := {hash : List UInt8 // hash.length = 32}

/-- The list of one hash, owned by shim. -/
def enrolledList (hash : Digest) : SignatureList where
  type := certSha256Guid
  size := 48
  sigs := [⟨shimLockGuid, hash.1⟩]
  type_length := length_certSha256Guid
  size_gt := SignatureList.lt_sha256Size
  size_lt := SignatureList.sha256Size_lt
  uniform := by
    rintro s hs
    obtain rfl := List.mem_singleton.mp hs
    exact ⟨rfl, congrArg (16 + ·) hash.2⟩

/-- Overwriting a part of a buffer. -/
theorem putBytes_append (pre old post new : List UInt8) (h : new.length = old.length) :
    putBytes (pre ++ (old ++ post)) pre.length new = pre ++ (new ++ post) := by
  have hdrop : (pre ++ (old ++ post)).drop (pre.length + new.length) = post := by
    rw [h, ← List.append_assoc, ← List.length_append, List.drop_left]
  rw [putBytes, List.take_left, hdrop, List.append_assoc]

/-- Whatever the stack held, the buffer is the list of the hash. -/
theorem hashSig_eq (stack : List UInt8) (hstack : stack.length = 76) (hash : Digest) :
    hashSig stack hash.1 = (enrolledList hash).encode := by
  have hclear : putBytes stack 0 (List.replicate 76 0) = List.replicate 76 0 := by
    have hdrop : stack.drop (0 + (List.replicate 76 (0 : UInt8)).length) = [] :=
      List.drop_eq_nil_of_le (by rw [hstack, List.length_replicate])
    rw [putBytes, hdrop, List.take_zero, List.nil_append, List.append_nil]
  have htype : putBytes (List.replicate 76 0) 0 certSha256Guid =
      certSha256Guid ++ List.replicate 60 0 :=
    putBytes_append [] (List.replicate 16 0) (List.replicate 60 0) certSha256Guid rfl
  have hlist : putBytes (certSha256Guid ++ List.replicate 60 0) 16 (Region.le32 76) =
      certSha256Guid ++ Region.le32 76 ++ List.replicate 56 0 :=
    putBytes_append certSha256Guid (List.replicate 4 0) (List.replicate 56 0) (Region.le32 76) rfl
  have hsize : putBytes (certSha256Guid ++ Region.le32 76 ++ List.replicate 56 0) 24
      (Region.le32 (16 + 32)) = (enrolledList hash).header ++ List.replicate 48 0 :=
    putBytes_append (certSha256Guid ++ Region.le32 76 ++ Region.le32 0) (List.replicate 4 0)
      (List.replicate 48 0) (Region.le32 48) rfl
  have hdata : putBytes ((enrolledList hash).header ++ List.replicate 48 0) (28 + 16) hash.1 =
      (enrolledList hash).header ++ List.replicate 16 0 ++ (hash.1 ++ []) :=
    putBytes_append ((enrolledList hash).header ++ List.replicate 16 0) (List.replicate 32 0) [] hash.1
      hash.2
  have howner : putBytes ((enrolledList hash).header ++ List.replicate 16 0 ++ (hash.1 ++ [])) 28
      shimLockGuid = (enrolledList hash).header ++ (shimLockGuid ++ (hash.1 ++ [])) :=
    putBytes_append (enrolledList hash).header (List.replicate 16 0) (hash.1 ++ []) shimLockGuid rfl
  rw [hashSig, hclear, htype, hlist, hsize, hdata, howner, List.append_nil]
  exact congrArg ((enrolledList hash).header ++ ·) (List.append_nil _).symm

/-! ## What is appended -/

variable {vars : Variables OwnedName} {name : OwnedName}

/-- The firmware unwraps what `CreateTimeBasedPayload` wraps. -/
theorem authenticatedData_createTimeBasedPayload {env : EnrollEnv} {data payload : List UInt8}
    (h : createTimeBasedPayload env data = .ok payload) : authenticatedData payload = data := by
  unfold createTimeBasedPayload at h
  cases hmem : env.alloc with
  | false =>
    rw [hmem] at h
    cases h
  | true =>
    rw [hmem, if_pos rfl] at h
    cases htime : env.time with
    | error e =>
      rw [htime] at h
      cases h
    | ok time =>
      rw [htime] at h
      obtain rfl := Except.ok.inj h
      have hlen : (time.take 7 ++ List.replicate (16 - (time.take 7).length) (0 : UInt8)).length =
          16 := by
        simp
      generalize time.take 7 ++ List.replicate (16 - (time.take 7).length) (0 : UInt8) = stamp at hlen
      have hholds := Region.holdsAt_ofList 0 stamp (Region.le32 24)
        ([0x00, 0x02] ++ [0xf1, 0x0e] ++ certTypePkcs7Guid ++ data)
      rw [hlen] at hholds
      simp only [List.append_assoc] at hholds ⊢
      rw [authenticatedData, hholds.u32 (by decide), ← hlen,
        List.drop_length_add_append]
      rfl

/-- Appended data stands behind what was there, and nothing else changes. -/
theorem appendVariable_success {data : List UInt8} {attrs : ℕ} {fault : Fault}
    (h : (appendVariable vars name true data attrs fault).1 = .success) :
    contents (appendVariable vars name true data attrs fault).2 name = contents vars name ++ data ∧
      ∀ other, other ≠ name → (appendVariable vars name true data attrs fault).2 other = vars other := by
  refine ⟨?_, fun other hother => writeVariable_of_ne hother _ _ _⟩
  rcases writeVariable_cases vars name (contents vars name ++ data) attrs fault with ⟨herr, -⟩ | hok
  · exact absurd h (EfiStatus.ne_success_of_isError herr)
  · exact hok.2

/-- What keeps the payload from being made is an error. -/
theorem createTimeBasedPayload_ne_success (env : EnrollEnv) (data : List UInt8) :
    createTimeBasedPayload env data ≠ .error .success := by
  unfold createTimeBasedPayload
  cases env.alloc with
  | false => simp
  | true =>
    cases env.time with
    | error e => simpa using EfiStatus.ne_success_of_isError e.2
    | ok time => simp

/-- The same for `SetSecureVariable`, given a list that is there already. -/
theorem setSecureVariable_success {data : List UInt8} {env : EnrollEnv}
    (h : (setSecureVariable vars name data true false env).1 = .success) :
    contents (setSecureVariable vars name data true false env).2 name = contents vars name ++ data ∧
      ∀ other, other ≠ name →
        (setSecureVariable vars name data true false env).2 other = vars other := by
  unfold setSecureVariable at h ⊢
  by_cases hsetup : env.setupMode = 0
  · rw [if_pos hsetup] at h
    cases h
  · simp only [if_neg hsetup, Bool.false_eq_true, if_false, Except.bind] at h ⊢
    cases hpayload : createTimeBasedPayload env data with
    | error e =>
      rw [hpayload] at h
      simp only at h
      subst h
      exact absurd hpayload (createTimeBasedPayload_ne_success _ _)
    | ok payload =>
      simp only [hpayload, authenticatedData_createTimeBasedPayload hpayload] at h ⊢
      exact appendVariable_success h

/-- A variable of some lists is searched as those. -/
theorem findInVariableEsl_of_contents {ls : List SignatureList}
    (h : contents vars name = encodeDb ls) (key : List UInt8) {size read : Fault}
    (hne : ls ≠ []) (hsize : ¬ queryRefused size) (hread : read = none) :
    findInVariableEsl vars name key size read = findInEsl (encodeDb ls) key := by
  have hdata : contents vars name ≠ [] := fun hnil => hne (encodeDb_eq_nil_iff.mp (h ▸ hnil))
  cases hvar : vars name with
  | none => exact absurd (by rw [contents, hvar]) hdata
  | some v =>
    have hv : contents vars name = v.data := by rw [contents, hvar]
    have hget := getVariableAttr_of_some hvar (hv ▸ hdata) hsize hread
    rw [findInVariableEsl, hget]
    dsimp only
    rw [← hv, h]

/-- The search in a well-formed variable comes back. -/
theorem exists_findInVariableEsl {ls : List SignatureList} (h : contents vars name = encodeDb ls)
    (key : List UInt8) (size read : Fault) :
    ∃ status, findInVariableEsl vars name key size read = some status := by
  unfold findInVariableEsl
  cases hget : getVariableAttr vars name size read with
  | error e => exact ⟨e, rfl⟩
  | ok v =>
    have hdata : v.data = encodeDb ls := by
      rw [← h, contents, (getVariableAttr_eq_ok hget).1]
    have hlt : (encodeDb ls).length < 2 ^ 32 := by
      have := v.size_lt
      rw [hdata] at this
      omega
    exact ⟨_, (congrArg (findInEsl · key) hdata).trans (findInEsl_encodeDb hlt key)⟩

/-! ## A hash is enrolled once -/

/-- The hash has been put behind what the variable held, as a list of its own; it is found, and
enrolling it again does nothing, whenever the variable can be read. -/
structure EnrolledOnce (vars vars' : Variables OwnedName) (name : OwnedName) (hash : Digest)
    (sigs : List Signature) : Prop where
  appended : contents vars' name = contents vars name ++ (enrolledList hash).encode
  decodes : Decodes (contents vars' name) (sigs ++ [⟨certSha256Guid, shimLockGuid, hash.1⟩])
  others : ∀ other, other ≠ name → vars' other = vars other
  found : ∀ size read, ¬ queryRefused size → read = none →
    findInVariableEsl vars' name hash.1 size read = some .success
  again : ∀ (stack : List UInt8) (env : EnrollEnv), ¬ queryRefused env.size → env.read = none →
    variableEnrollHash vars' name hash.1 stack env = some (.alreadyStarted, vars')

/-- A hash that was put behind some lists is there. -/
theorem enrolledOnce_of_appended {vars' : Variables OwnedName} {hash : Digest}
    {ls : List SignatureList} (hold : contents vars name = encodeDb ls)
    (happended : contents vars' name = contents vars name ++ (enrolledList hash).encode)
    (hothers : ∀ other, other ≠ name → vars' other = vars other) :
    EnrolledOnce vars vars' name hash (entriesDb ls) := by
  have hnew : contents vars' name = encodeDb (ls ++ [enrolledList hash]) := by
    rw [happended, hold, encodeDb_append]
    exact congrArg (encodeDb ls ++ ·) (List.append_nil _).symm
  have hlt : (encodeDb (ls ++ [enrolledList hash])).length < 2 ^ 32 := by
    have := contents_lt vars' name
    rw [hnew] at this
    omega
  have hfound : ∀ size read, ¬ queryRefused size → read = none →
      findInVariableEsl vars' name hash.1 size read = some .success := by
    intro size read hsize hread
    have hentry : ∃ e ∈ entriesDb (ls ++ [enrolledList hash]), e.data = hash.1 :=
      ⟨⟨certSha256Guid, shimLockGuid, hash.1⟩, by simp [enrolledList, SignatureList.entries], rfl⟩
    rw [findInVariableEsl_of_contents hnew hash.1 (by simp) hsize hread,
      findInEsl_encodeDb hlt, if_pos hentry]
  refine ⟨happended, ⟨_, hnew, ?_⟩, hothers, hfound, fun stack env hsize hread => ?_⟩
  · rw [entriesDb_append]
    rfl
  · rw [variableEnrollHash, hfound _ _ hsize hread]
    rfl

/-- A call that succeeds enrols the hash once, whatever is on the stack and whatever well-formed
lists the variable holds. -/
theorem variableEnrollHash_once (vars : Variables OwnedName) (name : OwnedName) (hash : Digest)
    (stack : {stack : List UInt8 // stack.length = 76}) (env : EnrollEnv)
    (ls : List SignatureList) (hold : contents vars name = encodeDb ls) :
    ∃ status vars', variableEnrollHash vars name hash.1 stack.1 env = some (status, vars') ∧
      (status = .success → EnrolledOnce vars vars' name hash (entriesDb ls)) := by
  obtain ⟨efiStatus, hfind⟩ := exists_findInVariableEsl hold hash.1 env.size env.read
  rw [variableEnrollHash, hfind, Option.map_some, hashSig_eq stack.1 stack.2]
  by_cases hpresent : efiStatus.isError = false
  · refine ⟨.alreadyStarted, vars, by rw [if_pos hpresent], fun h => ?_⟩
    cases h
  · rw [if_neg hpresent]
    by_cases hdb : name.owner.1 = sigDbGuid
    · refine ⟨_, _, by rw [if_pos hdb], fun h => ?_⟩
      obtain ⟨happended, hothers⟩ := setSecureVariable_success h
      exact enrolledOnce_of_appended hold happended hothers
    · refine ⟨_, _, by rw [if_neg hdb], fun h => ?_⟩
      obtain ⟨happended, hothers⟩ := appendVariable_success h
      exact enrolledOnce_of_appended hold happended hothers

/-! ## A db with a hash -/

/-- `db` in setup mode. -/
def dbName : OwnedName := ⟨[0x64, 0x62], ⟨sigDbGuid, rfl⟩⟩

/-- Firmware that carries out every call. -/
def setupEnv : EnrollEnv where
  size := none
  read := none
  setupMode := 1
  time := .ok (List.replicate 16 1)
  alloc := true
  allocEsl := (true, true)
  set := none

/-- One hash fits into a variable. -/
theorem encodedHash_size_lt :
    (encodeDb [enrolledList ⟨List.replicate 32 5, List.length_replicate⟩]).length < 2 ^ 31 := by
  decide +kernel

/-- A `db` with one other hash. -/
def dbVars : Variables OwnedName := fun name =>
  if name = dbName then
    some ⟨encodeDb [enrolledList ⟨List.replicate 32 5, List.length_replicate⟩], 0x27,
      encodedHash_size_lt⟩
  else none

/-- A second hash is put behind the first one. -/
theorem variableEnrollHash_once_second :
    ∃ vars', variableEnrollHash dbVars dbName (List.replicate 32 7)
        (List.replicate 76 0xaa) setupEnv = some (.success, vars') ∧
      EnrolledOnce dbVars vars' dbName ⟨List.replicate 32 7, rfl⟩
        [⟨certSha256Guid, shimLockGuid, List.replicate 32 5⟩] := by
  obtain ⟨status, vars', hcall, honce⟩ := variableEnrollHash_once dbVars dbName
    ⟨List.replicate 32 7, rfl⟩ ⟨List.replicate 76 0xaa, rfl⟩ setupEnv
    [enrolledList ⟨List.replicate 32 5, List.length_replicate⟩] rfl
  have hstatus : status = .success := by
    have hfst : (variableEnrollHash dbVars dbName (List.replicate 32 7)
        (List.replicate 76 0xaa) setupEnv).map Prod.fst = some .success := by decide +kernel
    rw [hcall] at hfst
    exact Option.some.inj hfst
  subst hstatus
  exact ⟨vars', hcall, honce rfl⟩

end Shim
