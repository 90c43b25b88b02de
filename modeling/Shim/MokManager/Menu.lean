import Shim.Efi.EnrollHash
import Shim.Fallback.LoadOption
import Shim.MokManager.Honest
import Shim.MokManager.Prompts

/-! # The menu of MokManager

`check_mok_request` (MokManager.c) takes the pending requests out of the firmware's variables, and
`enter_mok_menu` offers them until the user leaves. A turn of its loop looks for the Auth
variables, fills an array with the items to choose from and runs the prompt of the one chosen. The
size of the buffer the Auth variables are read into is set once, before the first turn.
-/

namespace Shim

/-- The variables of the requests for keys and passwords, and what `MokPW` asks to store. -/
inductive RequestVar
  | mokNew
  | mokXNew
  | mokDel
  | mokXDel
  | mokPW
  | mokPWStore
  | mokTimeout
  deriving DecidableEq, Repr

/-- The firmware's variables, by the prompts that use them. -/
structure MenuVars where
  keys : Variables MokManagerVar
  toggles : Variables ToggleVar
  requests : Variables RequestVar

/-- What the file chooser, the file and the libraries answer to an enrolment from disk. -/
structure DiskAnswers where
  /-- What `simple_file_selector` returns. -/
  fileName : Option (List UInt16)
  openFile : Fault
  /-- What `simple_file_read_all` reads. -/
  data : List UInt8
  locate : Fault
  alloc : Bool
  context : Fault
  hash : Except EfiError Digest
  x509Construct : List UInt8 → Bool

/-- What the firmware, the memory and the user answer in one turn of the menu. -/
structure TurnAnswers where
  /-- The `GetVariable` calls for the Auth variables. -/
  authRead : MokManagerVar → Fault
  allocStrings : Bool
  allocItems : Bool
  /-- `console_select` of the menu. -/
  choice : ℤ
  allocKeys : Bool
  allocKeyStrings : Bool
  /-- What the user selects in `list_keys`, one key after the other. -/
  viewed : List ℤ
  yes : Bool
  commit : CommitAnswers
  attempts : ℕ → List UInt16
  eraseRequest : Fault
  eraseAuth : Fault
  eraseList : Fault
  writePw : Fault
  toggle : PromptAnswers
  /-- How many turns the loop of a toggle prompt takes at most. -/
  toggleTurns : ℕ
  disk : DiskAnswers

/-! ## Key prompts -/

/-- `list_keys`, with the nodes it shows. -/
def listKeys (t : TurnAnswers) (keyList : Region) : EfiStatus × List MokListNode :=
  if keyList.size < 28 + 17 then (.notFound, [])
  else if countKeys keyList = 0 then (.aborted, [])
  else if !t.allocKeys then (.aborted, [])
  else
    match buildMokList keyList with
    | none => (.aborted, [])
    | some keys =>
      if !t.allocKeyStrings then (.outOfResources, [])
      else
        let viewed := t.viewed.takeWhile fun (key : ℤ) => 0 ≤ key ∧ key < countKeys keyList
        (.success, viewed.filterMap fun (key : ℤ) => keys[key.toNat]?)

/-- The request of `mok_enrollment_prompt`. -/
def newRequest (mokX : Bool) : RequestVar := if mokX then .mokXNew else .mokNew

/-- The request of `mok_deletion_prompt`. -/
def delRequest (mokX : Bool) : RequestVar := if mokX then .mokXDel else .mokDel

/-- `mok_enrollment_prompt`; `none` is the fault of `store_keys`. -/
def mokEnrollmentPrompt (c : Crypto) (t : TurnAnswers) (vars : MenuVars) (mokNew : Region)
    (auth mokX : Bool) : Option (EfiStatus × MenuVars) :=
  if (listKeys t mokNew).1.isError then some ((listKeys t mokNew).1, vars)
  else if !t.yes then some (.aborted, vars)
  else
    (storeKeys c t.commit vars.keys (mokNew.bytes 0 mokNew.size) auth mokX t.attempts).map fun r =>
      if r.1.isError then (r.1, { vars with keys := r.2 })
      else if auth then
        (.success,
          { vars with
            keys := (delVariable r.2 (storeNames mokX).2 t.eraseAuth).2
            requests := (delVariable vars.requests (newRequest mokX) t.eraseRequest).2 })
      else (.success, { vars with keys := r.2 })

/-- `mok_reset_prompt`. -/
def mokResetPrompt (c : Crypto) (t : TurnAnswers) (vars : MenuVars) (mokX : Bool) :
    Option (EfiStatus × MenuVars) :=
  if !t.yes then some (.aborted, vars)
  else
    (storeKeys c t.commit vars.keys [] true mokX t.attempts).map fun r =>
      if r.1.isError then (r.1, { vars with keys := r.2 })
      else
        let keys := (delVariable r.2 (storeNames mokX).2 t.eraseAuth).2
        (.success,
          { vars with
            keys := (delVariable keys (storeNames mokX).1 t.eraseList).2
            requests := (delVariable vars.requests (newRequest mokX) t.eraseRequest).2 })

/-- `mok_deletion_prompt`. -/
def mokDeletionPrompt (c : Crypto) (t : TurnAnswers) (vars : MenuVars) (mokDel : Region)
    (mokX : Bool) : EfiStatus × MenuVars :=
  if (listKeys t mokDel).1.isError then ((listKeys t mokDel).1, vars)
  else if !t.yes then (.aborted, vars)
  else
    let r := deleteKeys c t.commit vars.keys mokDel mokX t.attempts
    if r.1.isError then (r.1, { vars with keys := r.2 })
    else
      (.success,
        { vars with
          keys := (delVariable r.2 (deleteNames mokX).2 t.eraseAuth).2
          requests := (delVariable vars.requests (delRequest mokX) t.eraseRequest).2 })

/-- `mok_pw_prompt`. A hash of NULs asks to clear the password. -/
def mokPwPrompt (c : Crypto) (t : TurnAnswers) (vars : MenuVars) (mokPW : List UInt8) :
    EfiStatus × MenuVars :=
  if mokPW.length ≠ 32 ∧ mokPW.length ≠ 172 then (.invalidParameter, vars)
  else if mokPW = List.replicate mokPW.length 0 then
    if !t.yes then (.aborted, vars)
    else
      -- whether the stored password could be deleted is not looked at
      let requests := (writeVariable vars.requests .mokPWStore [] nvBs t.writePw).2
      (.success, { vars with requests := (delVariable requests .mokPW t.eraseRequest).2 })
  else
    let efiStatus :=
      if mokPW.length = 172 then matchPassword c (some mokPW) [] none t.attempts
      else matchPassword c none [] (some mokPW) t.attempts
    if efiStatus.isError then (efiStatus, vars)
    else if !t.yes then (.aborted, vars)
    else
      let set := writeVariable vars.requests .mokPWStore mokPW nvBs t.writePw
      if set.1.isError then (set.1, { vars with requests := set.2 })
      else (.success, { vars with requests := (delVariable set.2 .mokPW t.eraseRequest).2 })

/-! ## Enrolment from disk -/

/-- `StrLwr`, on the letters of ASCII. -/
def strLwr (s : List UInt16) : List UInt16 :=
  s.map fun ch => if 0x41 ≤ ch ∧ ch ≤ 0x5a then ch + 32 else ch

/-- `der_suffix`. -/
def derSuffix : List (List UInt16) := [wide ".cer", wide ".der", wide ".crt"]

/-- `check_der_suffix`. -/
def checkDerSuffix (fileName : List UInt16) : Bool :=
  4 < fileName.length && strLwr (fileName.drop (fileName.length - 4)) ∈ derSuffix

/-- `verify_certificate`. -/
def verifyCertificate (construct : List UInt8 → Bool) (cert : List UInt8) : Bool :=
  let r := Region.ofList 0 cert
  if cert.length < 4 then false
  else if r.byte 0 ≠ 0x30 ∨ r.byte 1 ≠ 0x82 then false
  else if 256 * (r.byte 2).toNat + (r.byte 3).toNat ≠ cert.length - 4 then false
  else construct cert

/-- The signature list that `enroll_file` fills a buffer with. -/
def fileList (type data : List UInt8) : List UInt8 :=
  type ++ Region.le32 (data.length + 44) ++ Region.le32 0 ++ Region.le32 (16 + data.length) ++
    shimLockGuid ++ data

/-- `enroll_file` up to its prompt: what it enrols, or what it returns without. -/
def fileRequest (d : DiskAnswers) (hash : Bool) : EfiStatus ⊕ List UInt8 :=
  if hash then
    match d.locate with
    | some e => .inl e.1
    | none =>
      if !d.alloc then .inl .success
      else
        match d.context, d.hash with
        | some e, _ => .inl e.1
        | none, .error e => .inl e.1
        | none, .ok sha256 => .inr (fileList certSha256Guid sha256.1)
  else if !d.alloc then .inl .success
  -- a file that is no certificate leaves the status at its initial success
  else if !verifyCertificate d.x509Construct d.data then .inl .success
  else .inr (fileList certTypeX509Guid d.data)

/-- `enroll_file`. -/
def enrollFile (c : Crypto) (t : TurnAnswers) (vars : MenuVars) (hash : Bool) :
    Option (EfiStatus × MenuVars) :=
  match fileRequest t.disk hash with
  | .inl efiStatus => some (efiStatus, vars)
  | .inr mokbuffer => mokEnrollmentPrompt c t vars (Region.ofList 0 mokbuffer) false false

/-- `mok_key_enroll` and `mok_hash_enroll`, of which the first looks at the name of the file. -/
def mokDiskEnroll (c : Crypto) (t : TurnAnswers) (vars : MenuVars) (hash : Bool) :
    Option (EfiStatus × MenuVars) :=
  match t.disk.fileName, t.disk.openFile with
  | none, _ => some (.invalidParameter, vars)
  | some fileName, openFile =>
    if !hash && !checkDerSuffix fileName then some (.unsupported, vars)
    else
      match openFile with
      | some e => some (e.1, vars)
      | none =>
        if t.disk.data.length = 0 then some (.badBufferSize, vars) else enrollFile c t vars hash

/-- `mok_key_enroll`. -/
def mokKeyEnroll (c : Crypto) (t : TurnAnswers) (vars : MenuVars) := mokDiskEnroll c t vars false

/-- `mok_hash_enroll`. -/
def mokHashEnroll (c : Crypto) (t : TurnAnswers) (vars : MenuVars) := mokDiskEnroll c t vars true

/-! ## The loop -/

/-- `mok_menu_item`. -/
inductive MokMenuItem
  | boot
  | resetMok
  | resetMokX
  | enrollMok
  | enrollMokX
  | deleteMok
  | deleteMokX
  | changeSb
  | setPw
  | changeDb
  | keyEnroll
  | hashEnroll
  | changeTml
  deriving DecidableEq, Repr

/-- The requests that `enter_mok_menu` holds, `none` for a null pointer. -/
structure MokRequests where
  mokNew : Option Region
  mokDel : Option Region
  mokSB : Option Region
  mokPW : Option (List UInt8)
  mokDB : Option Region
  mokXNew : Option Region
  mokXDel : Option Region
  mokTML : Option Region

/-- The local variables of the loop. -/
structure MenuState where
  vars : MenuVars
  requests : MokRequests
  authSize : ℕ
  mokChanged : Bool
  turn : ℕ

/-- What a `GetVariable` of the loop finds out: whether there is an Auth variable of one of the two
formats, what `auth_size` is left at, and how many bytes of `auth` are written. -/
structure AuthProbe where
  present : Bool
  authSize : ℕ
  written : ℕ

/-- `RT->GetVariable` of an Auth variable into `auth`, said to be `authSize` bytes long. -/
def authProbe (vars : Variables MokManagerVar) (fault : MokManagerVar → Fault)
    (authName : MokManagerVar) (authSize : ℕ) : AuthProbe :=
  match fault authName, vars authName with
  | some _, _ => ⟨false, authSize, 0⟩
  | none, none => ⟨false, authSize, 0⟩
  | none, some v =>
    if authSize < v.data.length then ⟨false, v.data.length, 0⟩
    else ⟨v.data.length = 32 ∨ v.data.length = 172, v.data.length, v.data.length⟩

/-- The four calls of a turn. -/
structure AuthProbes where
  mokAuth : AuthProbe
  mokDelAuth : AuthProbe
  mokXAuth : AuthProbe
  mokXDelAuth : AuthProbe

/-- The calls of a turn, each with the size that the one before has left. -/
def authProbes (vars : Variables MokManagerVar) (fault : MokManagerVar → Fault) (authSize : ℕ) :
    AuthProbes :=
  let mokAuth := authProbe vars fault .mokAuth authSize
  let mokDelAuth := authProbe vars fault .mokDelAuth mokAuth.authSize
  let mokXAuth := authProbe vars fault .mokXAuth mokDelAuth.authSize
  ⟨mokAuth, mokDelAuth, mokXAuth, authProbe vars fault .mokXDelAuth mokXAuth.authSize⟩

/-- `menucount`. -/
def menuCount (q : MokRequests) (p : AuthProbes) : ℕ :=
  3 + (if q.mokNew.isSome || p.mokAuth.present then 1 else 0) +
    (if q.mokDel.isSome || p.mokDelAuth.present then 1 else 0) +
    (if q.mokXNew.isSome || p.mokXAuth.present then 1 else 0) +
    (if q.mokXDel.isSome || p.mokXDelAuth.present then 1 else 0) +
    (if q.mokSB.isSome then 1 else 0) + (if q.mokPW.isSome then 1 else 0) +
    (if q.mokDB.isSome then 1 else 0) + (if q.mokTML.isSome then 1 else 0)

/-- `menu_item`, in the order it is filled. -/
def menuItems (q : MokRequests) (p : AuthProbes) : List MokMenuItem :=
  [.boot] ++
    (if q.mokNew.isSome || p.mokAuth.present then
      [if q.mokNew.isNone then .resetMok else .enrollMok] else []) ++
    (if q.mokDel.isSome || p.mokDelAuth.present then [.deleteMok] else []) ++
    (if q.mokXNew.isSome || p.mokXAuth.present then
      [if q.mokXNew.isNone then .resetMokX else .enrollMokX] else []) ++
    (if q.mokXDel.isSome || p.mokXDelAuth.present then [.deleteMokX] else []) ++
    (if q.mokSB.isSome then [.changeSb] else []) ++
    (if q.mokPW.isSome then [.setPw] else []) ++
    (if q.mokDB.isSome then [.changeDb] else []) ++
    (if q.mokTML.isSome then [.changeTml] else []) ++ [.keyEnroll, .hashEnroll]

/-- What comes of the item that is chosen: the prompt returns, the item has no request behind it,
or the prompt does not come back. -/
inductive ItemOutcome
  | done (efiStatus : EfiStatus) (vars : MenuVars) (requests : MokRequests)
  | internalError
  | lost

/-- A prompt returns, and its request is over if it returns no error. -/
def ItemOutcome.ofPrompt (requests cleared : MokRequests) :
    Option (EfiStatus × MenuVars) → ItemOutcome
  | none => .lost
  | some (efiStatus, vars) => .done efiStatus vars (if efiStatus.isError then requests else cleared)

/-- A toggle prompt on its part of the variables. -/
def togglePart (p : Toggle) (t : TurnAnswers) (vars : MenuVars) (request : Region) :
    Option (EfiStatus × MenuVars) :=
  (togglePrompt p request t.toggle vars.toggles t.toggleTurns).map fun r =>
    (r.1, { vars with toggles := r.2 })

/-- The `switch` of `enter_mok_menu`, for the items other than `MOK_BOOT`. -/
def menuSwitch (c : Crypto) (t : TurnAnswers) (vars : MenuVars) (q : MokRequests) :
    MokMenuItem → ItemOutcome
  | .boot => .done .success vars q
  | .resetMok => .ofPrompt q q (mokResetPrompt c t vars false)
  | .enrollMok =>
    match q.mokNew with
    | none => .internalError
    | some mokNew =>
      .ofPrompt q { q with mokNew := none } (mokEnrollmentPrompt c t vars mokNew true false)
  | .deleteMok =>
    match q.mokDel with
    | none => .internalError
    | some mokDel =>
      .ofPrompt q { q with mokDel := none } (some (mokDeletionPrompt c t vars mokDel false))
  | .resetMokX => .ofPrompt q q (mokResetPrompt c t vars true)
  | .enrollMokX =>
    match q.mokXNew with
    | none => .internalError
    | some mokXNew =>
      .ofPrompt q { q with mokXNew := none } (mokEnrollmentPrompt c t vars mokXNew true true)
  | .deleteMokX =>
    match q.mokXDel with
    | none => .internalError
    | some mokXDel =>
      .ofPrompt q { q with mokXDel := none } (some (mokDeletionPrompt c t vars mokXDel true))
  | .changeSb =>
    match q.mokSB with
    | none => .internalError
    | some mokSB => .ofPrompt q { q with mokSB := none } (togglePart mokSbToggle t vars mokSB)
  | .setPw =>
    match q.mokPW with
    | none => .internalError
    | some mokPW => .ofPrompt q { q with mokPW := none } (some (mokPwPrompt c t vars mokPW))
  | .changeDb =>
    match q.mokDB with
    | none => .internalError
    | some mokDB => .ofPrompt q { q with mokDB := none } (togglePart mokDbToggle t vars mokDB)
  | .keyEnroll => .ofPrompt q q (mokKeyEnroll c t vars)
  | .hashEnroll => .ofPrompt q q (mokHashEnroll c t vars)
  | .changeTml =>
    match q.mokTML with
    | none => .internalError
    | some mokTML => .ofPrompt q { q with mokTML := none } (togglePart mokTmlToggle t vars mokTML)

/-- How `enter_mok_menu` ends. -/
inductive MenuEnd
  | returned (efiStatus : EfiStatus) (vars : MenuVars)
  | reset (vars : MenuVars)
  | lost

/-- What a turn of the loop does: it looks for the Auth variables, and runs the prompt of an item. -/
structure MenuTurn where
  probes : AuthProbes
  item : Option MokMenuItem
  /-- What the prompt returns, if it does. -/
  status : Option EfiStatus

/-- What a prompt returns. -/
def ItemOutcome.status : ItemOutcome → Option EfiStatus
  | .done efiStatus _ _ => some efiStatus
  | .internalError => none
  | .lost => none

/-- The lines behind `out`. -/
def menuOut (s : MenuState) (ret : EfiStatus) : MenuEnd :=
  if s.mokChanged then .reset s.vars else .returned ret s.vars

/-- The state behind a prompt that returned. -/
def MenuState.after (s : MenuState) (efiStatus : EfiStatus) (vars : MenuVars)
    (requests : MokRequests) : MenuState :=
  { s with vars, requests, mokChanged := s.mokChanged || !efiStatus.isError }

/-- A turn of the loop of `enter_mok_menu`. -/
def menuTurn (c : Crypto) (answers : ℕ → TurnAnswers) (s : MenuState) :
    MenuTurn × (MenuState ⊕ MenuEnd) :=
  let t := answers s.turn
  let p := authProbes s.vars.keys t.authRead s.authSize
  let s' := { s with authSize := p.mokXDelAuth.authSize, turn := s.turn + 1 }
  if !t.allocStrings || !t.allocItems then (⟨p, none, none⟩, .inr (.returned .outOfResources s.vars))
  else if t.choice < 0 then (⟨p, none, none⟩, .inr (menuOut s .success))
  else
    match (menuItems s.requests p)[t.choice.toNat]? with
    | none => (⟨p, none, none⟩, .inr .lost)
    | some .boot => (⟨p, some .boot, none⟩, .inr (menuOut s .success))
    | some item =>
      let outcome := menuSwitch c t s.vars s.requests item
      (⟨p, some item, outcome.status⟩,
        match outcome with
        | .done efiStatus vars requests => .inl (s'.after efiStatus vars requests)
        | .internalError => .inr (menuOut s .aborted)
        | .lost => .inr .lost)

/-- `sizeof(PASSWORD_CRYPT)`. -/
def passwordCryptSize : ℕ := 172

/-- The state before the first turn. -/
def menuStart (vars : MenuVars) (requests : MokRequests) : MenuState :=
  ⟨vars, requests, passwordCryptSize, false, 0⟩

/-- The variables of the menu and what there is before it: the read of `MokPWStore`, the passwords
entered for it, and the countdown. -/
structure EntryAnswers where
  readPw : Fault
  attempts : ℕ → List UInt16
  timeoutSize : Fault
  timeoutRead : Fault
  eraseTimeout : Fault
  countdown : ℤ → ℤ

/-- `verify_pw`, with `protected`; `none` is `FALSE`. -/
def verifyPw (c : Crypto) (a : EntryAnswers) (vars : Variables RequestVar) : Option Bool :=
  match a.readPw, vars .mokPWStore with
  | some _, _ => some false
  | none, none => some false
  | none, some v =>
    if passwordCryptSize < v.data.length then some false
    else if v.data.length ≠ 32 ∧ v.data.length ≠ passwordCryptSize then some false
    else if runtimeAccess v.attrs then some false
    else
      let efiStatus :=
        if v.data.length = passwordCryptSize then
          matchPassword c (some v.data) [] none a.attempts
        else matchPassword c none [] (some v.data) a.attempts
      if efiStatus.isError then none else some true

/-- `draw_countdown`, with the variables it leaves. `Timeout` is read as an `int`. -/
def drawCountdown (a : EntryAnswers) (vars : Variables RequestVar) : ℤ × Variables RequestVar :=
  match getVariableAttr vars .mokTimeout a.timeoutSize a.timeoutRead with
  | .error _ => (a.countdown 10, vars)
  | .ok v =>
    let timeout := ((Region.ofList 0 v.data).u32 0 : ℤ).bmod (2 ^ 32)
    (if timeout < 0 then timeout else a.countdown timeout,
      (delVariable vars .mokTimeout a.eraseTimeout).2)

/-- `enter_mok_menu`: it comes to its loop, or it does not. -/
def enterMokMenu (c : Crypto) (a : EntryAnswers) (vars : MenuVars) (requests : MokRequests) :
    MenuState ⊕ MenuEnd :=
  match verifyPw c a vars.requests with
  | none => .inr (.returned .accessDenied vars)
  | some true => .inl (menuStart vars requests)
  | some false =>
    let r := drawCountdown a vars.requests
    let vars := { vars with requests := r.2 }
    if r.1 = 0 then .inr (menuOut (menuStart vars requests) .success)
    else .inl (menuStart vars requests)

/-! ## The requests -/

/-- What the firmware answers to `check_mok_request`, for each request, and the memory behind what
is read. -/
structure CheckAnswers where
  size : RequestVar ⊕ ToggleVar → Fault
  read : RequestVar ⊕ ToggleVar → Fault
  erase : RequestVar ⊕ ToggleVar → Fault
  heap : RequestVar ⊕ ToggleVar → ℕ → UInt8

/-- A request is read and deleted. -/
def takeRequest {Name : Type} [DecidableEq Name] (vars : Variables Name) (name : Name)
    (size read erase : Fault) : Option (List UInt8) × Variables Name :=
  match getVariableAttr vars name size read with
  | .error _ => (none, vars)
  | .ok v => (some v.data, (delVariable vars name erase).2)

/-- A request for keys or for a password. -/
def takeKeyRequest (a : CheckAnswers) (vars : MenuVars) (name : RequestVar) :
    Option (List UInt8) × MenuVars :=
  let r := takeRequest vars.requests name (a.size (.inl name)) (a.read (.inl name))
    (a.erase (.inl name))
  (r.1, { vars with requests := r.2 })

/-- A request of a toggle prompt. -/
def takeToggleRequest (a : CheckAnswers) (vars : MenuVars) (name : ToggleVar) :
    Option (List UInt8) × MenuVars :=
  let r := takeRequest vars.toggles name (a.size (.inr name)) (a.read (.inr name))
    (a.erase (.inr name))
  (r.1, { vars with toggles := r.2 })

/-- `check_mok_request`, up to the menu. -/
def checkMokRequest (a : CheckAnswers) (vars : MenuVars) : MokRequests × MenuVars :=
  let mokNew := takeKeyRequest a vars .mokNew
  let mokDel := takeKeyRequest a mokNew.2 .mokDel
  let mokSB := takeToggleRequest a mokDel.2 .mokSB
  let mokPW := takeKeyRequest a mokSB.2 .mokPW
  let mokDB := takeToggleRequest a mokPW.2 .mokDB
  let mokTML := takeToggleRequest a mokDB.2 .mokListTrustedNew
  let mokXNew := takeKeyRequest a mokTML.2 .mokXNew
  let mokXDel := takeKeyRequest a mokXNew.2 .mokXDel
  let region (name : RequestVar ⊕ ToggleVar) (data : List UInt8) := listRegion data (a.heap name)
  ({  mokNew := mokNew.1.map (region (.inl .mokNew))
      mokDel := mokDel.1.map (region (.inl .mokDel))
      mokSB := mokSB.1.map (region (.inr .mokSB))
      mokPW := mokPW.1
      mokDB := mokDB.1.map (region (.inr .mokDB))
      mokXNew := mokXNew.1.map (region (.inl .mokXNew))
      mokXDel := mokXDel.1.map (region (.inl .mokXDel))
      mokTML := mokTML.1.map (region (.inr .mokListTrustedNew)) },
    mokXDel.2)

/-- `check_mok_request` with the menu; `none` where `fuel` turns of it are not enough. -/
def mokManager (c : Crypto) (a : CheckAnswers) (entry : EntryAnswers) (answers : ℕ → TurnAnswers)
    (fuel : ℕ) (vars : MenuVars) : Option MenuEnd :=
  let r := checkMokRequest a vars
  match enterMokMenu c entry r.2 r.1 with
  | .inr e => some e
  | .inl s => (Loop.run (menuTurn c answers) fuel s).map Prod.snd

end Shim
