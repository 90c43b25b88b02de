import Shim.MokManager.Search
import Shim.Efi.Variables

/-! # Changing the key lists

`match_password`, `write_db`, `store_keys`, `write_back_mok_list` and `delete_keys` (MokManager.c)
over the firmware's variables. One status variable runs through each of them, so what an exit
returns is whatever call came last.
-/

namespace Shim

/-- The variables that `store_keys` and `delete_keys` read and write. -/
inductive MokManagerVar
  | mokList
  | mokListX
  | mokAuth
  | mokXAuth
  | mokDelAuth
  | mokXDelAuth
  deriving DecidableEq, Repr

/-- `EFI_VARIABLE_NON_VOLATILE | EFI_VARIABLE_BOOTSERVICE_ACCESS`. -/
def nvBs : ℕ := 0x3

/-- `attributes & EFI_VARIABLE_RUNTIME_ACCESS`. -/
def runtimeAccess (attributes : ℕ) : Bool := attributes.testBit 2

/-! ## Passwords -/

/-- The hashes of the crypto library, and what its calls may answer instead. -/
structure Crypto where
  sha256 : List UInt8 → Option (List UInt8)
  crypt : (method : ℕ) → (password : List UInt8) → (pwCrypt : Region) →
    Except EfiStatus (List UInt8)

/-- `get_hash_size`. -/
def getHashSize : ℕ → ℕ
  | 0 => 13
  | 1 => 20
  | 2 => 16
  | 3 => 32
  | 4 => 64
  | 5 => 31
  | _ => 0

/-- `password_crypt`, on a `PASSWORD_CRYPT`: method, iterations, salt size, salt and hash. -/
def passwordCrypt (c : Crypto) (password : List UInt8) (pwCrypt : Region) :
    Except EfiStatus (List UInt8) :=
  match pwCrypt.u16 0 with
  | 0 | 1 => .error .unsupported
  | 2 | 3 | 4 => c.crypt (pwCrypt.u16 0) password pwCrypt
  | 5 =>
    if pwCrypt.u16 10 ≠ 7 + 22 + 1 then .error .invalidParameter
    else c.crypt 5 password pwCrypt
  | _ => .error .invalidParameter

/-- `compute_pw_hash`. -/
def computePwHash (c : Crypto) (data password : List UInt8) : Except EfiStatus (List UInt8) :=
  match c.sha256 (data ++ password) with
  | none => .error .outOfResources
  | some hash => .ok hash

/-- `(char)password[i]`. -/
def asciiBytes (password : List UInt16) : List UInt8 := password.map UInt16.toUInt8

/-- The memory of the password. -/
def char16Bytes (password : List UInt16) : List UInt8 :=
  password.flatMap fun (c : UInt16) => [c.toUInt8, (c >>> 8).toUInt8]

/-- A turn of the loop of `match_password` breaks out of it. -/
def acceptsPassword (hash : List UInt16 → Except EfiStatus (List UInt8)) (authHash : List UInt8)
    (password : List UInt16) : Bool :=
  if password.length < 1 ∨ 256 < password.length then false
  else
    match hash password with
    | .error _ => false
    | .ok h => h.take authHash.length = authHash

/-- The loop of `match_password`, with `left` attempts to go. -/
def passwordLoop (accepts : List UInt16 → Bool) (attempts : ℕ → List UInt16) :
    (left failCount : ℕ) → EfiStatus
  | 0, _ => .accessDenied
  | left + 1, failCount =>
    if accepts (attempts failCount) then .success
    else passwordLoop accepts attempts left (failCount + 1)

/-- The check of one password, against a `PASSWORD_CRYPT` or against a SHA-256 hash. -/
def acceptsFor (c : Crypto) (pwCrypt : Option (List UInt8)) (data auth : List UInt8) :
    List UInt16 → Bool :=
  match pwCrypt with
  | some pw =>
    let r := Region.ofList 0 pw
    acceptsPassword (fun p => passwordCrypt c (asciiBytes p) r)
      (r.bytes 44 (getHashSize (r.u16 0)))
  | none => acceptsPassword (fun p => computePwHash c data (char16Bytes p)) (auth.take 32)

/-- `match_password`; `attempts` are the passwords entered. -/
def matchPassword (c : Crypto) (pwCrypt : Option (List UInt8)) (data : List UInt8)
    (auth : Option (List UInt8)) (attempts : ℕ → List UInt16) : EfiStatus :=
  match pwCrypt, auth with
  | some pw, _ =>
    if getHashSize ((Region.ofList 0 pw).u16 0) = 0 then .invalidParameter
    else passwordLoop (acceptsFor c (some pw) data []) attempts 3 0
  | none, some auth => passwordLoop (acceptsFor c none data auth) attempts 3 0
  | none, none => .invalidParameter

/-! ## Authentication -/

/-- What the firmware and the memory of the machine answer to one run. -/
structure CommitAnswers where
  auth : Fault
  size : Fault
  read : Fault
  write : Fault
  erase : Fault
  /-- `AllocatePool` for the data, the nodes of the list and those of the request. -/
  allocData : Bool
  allocMok : Bool
  allocDel : Bool
  /-- What `attributes` holds before it is set. -/
  stack : ℕ
  /-- What lies behind the list that is read. -/
  heap : ℕ → UInt8

/-- `RT->GetVariable` of the Auth variable into a `PASSWORD_CRYPT`. -/
def readAuth (vars : Variables MokManagerVar) (authName : MokManagerVar) (fault : Fault) :
    Except EfiStatus (List UInt8) :=
  match fault, vars authName with
  | some e, _ => .error e.1
  | none, none => .error .notFound
  | none, some v => if 172 < v.data.length then .error .bufferTooSmall else .ok v.data

/-- The first part of `store_keys` and of `delete_keys`; an error is the status they return. -/
def authenticate (c : Crypto) (vars : Variables MokManagerVar) (authName : MokManagerVar)
    (data : List UInt8) (fault : Fault) (attempts : ℕ → List UInt16) : Except EfiStatus Unit :=
  match readAuth vars authName fault with
  | .error efiStatus => .error efiStatus
  | .ok auth =>
    -- the size is checked with the status, and the status is what is returned
    if auth.length ≠ 32 ∧ auth.length ≠ 172 then .error .success
    else
      let efiStatus :=
        if auth.length = 172 then matchPassword c (some auth) [] none attempts
        else matchPassword c none data (some auth) attempts
      if efiStatus.isError then .error .accessDenied else .ok ()

/-! ## Storing keys -/

/-- `write_db`. When the read is answered `EFI_NOT_FOUND` after its size query was not, `old_size`
is left set without `old_data`; `none` is the copy from the null pointer. -/
def writeDb (a : CommitAnswers) (vars : Variables MokManagerVar) (dbName : MokManagerVar)
    (mokNew : List UInt8) : Option (EfiStatus × Variables MokManagerVar) :=
  let write (old : List UInt8) :=
    if a.allocData then writeVariable vars dbName (old ++ mokNew) nvBs a.write
    else (.outOfResources, vars)
  match getVariableAttr vars dbName a.size a.read with
  | .ok v => some (write (if runtimeAccess v.attrs then [] else v.data))
  | .error efiStatus =>
    if efiStatus ≠ .notFound then some (efiStatus, vars)
    else if runtimeAccess a.stack then some (write [])
    else if querySize vars dbName a.size = .bufferTooSmall then
      if a.allocData then none else some (.outOfResources, vars)
    else some (write [])

/-- The database and the Auth variable of `store_keys`. -/
def storeNames (mokX : Bool) : MokManagerVar × MokManagerVar :=
  if mokX then (.mokListX, .mokXAuth) else (.mokList, .mokAuth)

/-- `store_keys`. -/
def storeKeys (c : Crypto) (a : CommitAnswers) (vars : Variables MokManagerVar)
    (mokNew : List UInt8) (auth mokX : Bool) (attempts : ℕ → List UInt16) :
    Option (EfiStatus × Variables MokManagerVar) :=
  let dbName := (storeNames mokX).1
  let authName := (storeNames mokX).2
  match if auth then authenticate c vars authName mokNew a.auth attempts else .ok () with
  | .error efiStatus => some (efiStatus, vars)
  | .ok () =>
    let r := if mokNew.length = 0 then some (writeVariable vars dbName [] nvBs a.write)
      else writeDb a vars dbName mokNew
    r.map fun r => if r.1.isError then r else (.success, r.2)

/-! ## Deleting keys -/

/-- The list as it is read into memory. -/
def listRegion (data : List UInt8) (heap : ℕ → UInt8) : Region :=
  ⟨0, data.length, fun i => if h : i < data.length then data[i] else heap i⟩

/-- `write_back_mok_list`. -/
def writeBackMokList (a : CommitAnswers) (vars : Variables MokManagerVar)
    (dbName : MokManagerVar) (s : Region × List MokListNode) :
    EfiStatus × Variables MokManagerVar :=
  let data := encodeNodes s
  if data.length = 0 then (.success, (writeVariable vars dbName data nvBs a.write).2)
  else if !a.allocData then (.outOfResources, vars)
  else
    let r := writeVariable vars dbName data nvBs a.write
    if r.1.isError then r else (.success, r.2)

/-- The part of `delete_keys` that reads the list; an error is what it returns. -/
def loadMokList (a : CommitAnswers) (vars : Variables MokManagerVar) (dbName : MokManagerVar) :
    Except (EfiStatus × Variables MokManagerVar) (Region × List MokListNode) :=
  match getVariableAttr vars dbName a.size a.read with
  | .error _ => .error (.aborted, vars)
  | .ok v =>
    if runtimeAccess v.attrs then
      .error (.accessDenied, (writeVariable vars dbName [] nvBs a.erase).2)
    else if v.data.length = 0 then .error (.success, vars)
    else if countKeys (listRegion v.data a.heap) = 0 then
      .error (.aborted, (writeVariable vars dbName [] nvBs a.erase).2)
    else if !a.allocMok then .error (.aborted, vars)
    else
      match buildMokList (listRegion v.data a.heap) with
      | none => .error (.aborted, vars)
      | some mok => .ok (listRegion v.data a.heap, mok)

/-- The part of `delete_keys` that reads the request. -/
def loadRequest (a : CommitAnswers) (vars : Variables MokManagerVar) (mokDel : Region) :
    Except (EfiStatus × Variables MokManagerVar) (List MokListNode) :=
  if countKeys mokDel = 0 then .error (.aborted, vars)
  else if !a.allocDel then .error (.aborted, vars)
  else
    match buildMokList mokDel with
    | none => .error (.aborted, vars)
    | some delKey => .ok delKey

/-- The database and the Auth variable of `delete_keys`. -/
def deleteNames (mokX : Bool) : MokManagerVar × MokManagerVar :=
  if mokX then (.mokListX, .mokXDelAuth) else (.mokList, .mokDelAuth)

/-- `delete_keys`. -/
def deleteKeys (c : Crypto) (a : CommitAnswers) (vars : Variables MokManagerVar) (mokDel : Region)
    (mokX : Bool) (attempts : ℕ → List UInt16) : EfiStatus × Variables MokManagerVar :=
  let dbName := (deleteNames mokX).1
  let authName := (deleteNames mokX).2
  match authenticate c vars authName (mokDel.bytes 0 mokDel.size) a.auth attempts with
  | .error efiStatus => (efiStatus, vars)
  | .ok () =>
    match loadMokList a vars dbName with
    | .error r => r
    | .ok s =>
      match loadRequest a vars mokDel with
      | .error r => r
      | .ok delKey => writeBackMokList a vars dbName (searchAndDestroy mokDel delKey s)

end Shim
