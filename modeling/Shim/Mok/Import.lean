import Shim.Mok.MirrorDb

/-! # Importing the MOK variables

`mirror_one_mok_variable`, `maybe_mirror_one_mok_variable`, `import_one_mok_state` and
`import_mok_state` (mok.c). Every entry is imported twice: the first pass sets the mirrors, builds
what goes into the configuration table and decides the status; the second one writes what is left
of large databases. MokManager, which is started last, resets the machine when it changes anything.
-/

namespace Shim.Mok

/-- What an import works on: the variables, `v->data` of each entry, and the bytes of state. -/
structure State where
  vars : Variables MokName
  data : MokVar → List UInt8
  mode : ModeByte → UInt8

/-- The state shim starts in. -/
def State.initial (vars : Variables MokName) : State := ⟨vars, fun _ => [], fun _ => 0⟩

/-! ## Mirroring one variable -/

/-- The bytes of the addend. -/
def addendData (row : MokStateVariable) : Except EfiStatus (List UInt8) :=
  match row.categorizeAddend with
  | .db => .ok row.addend
  | .x509 => fillEslWithOneSignature row.addend certTypeX509Guid shimLockGuid
  | .none => .ok []

/-- The bytes of the build certificate, if `should_mirror_build_cert`. -/
def buildCertData (row : MokStateVariable) : Except EfiStatus (List UInt8) :=
  if row.buildCert = [] then .ok []
  else fillEslWithOneSignature row.buildCert certTypeX509Guid shimLockGuid

/-- What goes in front of the data of a key database. -/
def vendorData (row : MokStateVariable) : Except EfiStatus (List UInt8) :=
  if row.keydb then do
    let addend ← addendData row
    let buildCert ← buildCertData row
    return addend ++ buildCert ++ row.userCert
  else .ok []

/-- The TPM calls of the first pass. A failing one ends `mirror_one_mok_variable`. The status of the
log goes to an `efi_status` of its own scope, so what was there before it is returned. -/
def measureAndLog (row : MokStateVariable) (a : Answers) (efiStatus : EfiStatus) :
    Except EfiStatus EfiStatus := do
  let efiStatus ← match row.measure, a.measure with
    | false, _ => .ok efiStatus
    | true, none => .ok .success
    | true, some e => .error e.1
  match row.log, a.log with
  | false, _ => .ok efiStatus
  | true, none => .ok efiStatus
  | true, some e => .error e.1

section Import

variable (g : Globals) (f : Firmware) (onlyFirst : Bool) (v : MokVar)

/-- The writes of `mirror_one_mok_variable`. -/
def mirrorData (fullData : List UInt8) (vars : Variables MokName) :
    EfiStatus × Variables MokName :=
  if (v.row g).keydb then mirrorMokDb f.major v (f.answers onlyFirst v) fullData onlyFirst vars
  else mirrorDirect v (f.answers onlyFirst v) fullData onlyFirst vars

/-- `mirror_one_mok_variable`. -/
def mirrorOneMokVariable (s : State) : EfiStatus × State :=
  match vendorData (v.row g) with
  | .error e => (e, s)
  | .ok vendor =>
    -- without vendor data the buffer is taken over, and given up when the mirroring fails
    let left := { s with data := Function.update s.data v (if vendor = [] then [] else s.data v) }
    let fullData :=
      if (v.row g).keydb ∧ vendor ++ s.data v = [] then nullSha256Esl else .ok (vendor ++ s.data v)
    match fullData with
    | .error e => (e, left)
    | .ok [] => (.success, left)
    | .ok (byte :: rest) =>
      let mirrored := mirrorData g f onlyFirst v (byte :: rest) s.vars
      let logged :=
        if onlyFirst then measureAndLog (v.row g) (f.answers onlyFirst v) mirrored.1
        else .ok mirrored.1
      match logged with
      | .error e => (e, { left with vars := mirrored.2 })
      | .ok efiStatus =>
        (efiStatus, { s with vars := mirrored.2, data := Function.update s.data v (byte :: rest) })

/-- The deletion of an old mirror. -/
def deleteFirst (s : State) : State :=
  if onlyFirst && (v.row g).deleteFirst then
    { s with vars := (delVariable s.vars (.rt v) (f.answers onlyFirst v).eraseRt).2 }
  else s

/-- `*v->state = v->data[0]` for data of one byte. -/
def takeState (s : State) : State :=
  match (v.row g).state, s.data v with
  | some byte, [b] => { s with mode := Function.update s.mode byte b }
  | _, _ => s

/-- `maybe_mirror_one_mok_variable`. -/
def maybeMirrorOneMokVariable (ret : EfiStatus) (s : State) : EfiStatus × State :=
  let mirrored := mirrorOneMokVariable g f onlyFirst v (deleteFirst g f onlyFirst v s)
  (if mirrored.1.isError && ret ≠ .securityViolation then mirrored.1 else ret,
    takeState g v mirrored.2)

/-- The check of a variable's attributes. -/
def badAttributes (row : MokStateVariable) (attrs : ℕ) : Bool :=
  attrs &&& row.yesAttr = 0 || attrs &&& row.noAttr ≠ 0

/-- What `import_one_mok_state` reads: the data it takes, and whether it is to delete the
variable. -/
def readMokState (s : State) : List UInt8 × Bool :=
  if s.data v ≠ [] then (s.data v, false)
  else match getVariableAttr s.vars (.stored v) (Refusal.fault (f.answers onlyFirst v).size)
      (Refusal.fault (f.answers onlyFirst v).read) with
    | .error .notFound => (if (v.row g).inverse then [1] else [], false)
    | .error _ => ([], true)
    | .ok stored =>
      (if (v.row g).inverse then [] else stored.data, badAttributes (v.row g) stored.attrs)

/-- `import_one_mok_state` up to the mirroring: its status and the state so far. -/
def takeMokState (s : State) : EfiStatus × State :=
  let read := readMokState g f onlyFirst v s
  if read.2 then
    let deleted := delVariable s.vars (.stored v) (f.answers onlyFirst v).erase
    (if deleted.1.isError then .securityViolation else .success,
      { s with vars := deleted.2, data := Function.update s.data v [] })
  else (.success, { s with data := Function.update s.data v read.1 })

/-- `import_one_mok_state`. -/
def importOneMokState (s : State) : EfiStatus × State :=
  let taken := takeMokState g f onlyFirst v s
  maybeMirrorOneMokVariable g f onlyFirst v taken.1 taken.2

end Import

/-! ## The passes -/

/-- `struct mok_variable_config_entry`. -/
structure MokVariableConfigEntry where
  name : String
  data : List UInt8
  deriving DecidableEq

section Run

variable (g : Globals) (f : Firmware)

/-- One entry of the first pass, with the status so far. -/
def firstPassStep (acc : EfiStatus × State) (v : MokVar) : EfiStatus × State :=
  let imported := importOneMokState g f true v acc.2
  (if imported.1.isError && acc.1 ≠ .securityViolation then imported.1 else acc.1, imported.2)

/-- The first pass. -/
def firstPass (s : State) : EfiStatus × State :=
  mokStateVariables.foldl (firstPassStep g f) (.success, s)

/-- The second pass, whose statuses nobody looks at. -/
def secondPass (s : State) : State :=
  mokStateVariables.foldl (fun s v => (importOneMokState g f false v s).2) s

/-- The configuration table: the entries with data, and an empty one. -/
def configTable (s : State) : Option (List MokVariableConfigEntry) :=
  let entries := mokStateVariables.filter fun v => s.data v ≠ []
  if entries ≠ [] ∧ f.configPages then
    some ((entries.map fun v => ⟨v.rtname, s.data v⟩) ++ [⟨"", []⟩])
  else none

/-- `check_mok_request`. -/
def checkMokRequest : EfiStatus :=
  if f.mokRequest ∧ f.startMokManager.isError then f.startMokManager else .success

/-- What `import_mok_state` leaves. -/
structure Imported where
  status : EfiStatus
  state : State
  configTable : Option (List MokVariableConfigEntry)

/-- The bytes of state that `import_mok_state` starts by clearing. -/
def clearModes (mode : ModeByte → UInt8) : ModeByte → UInt8
  | .mokPolicy => mode .mokPolicy
  | _ => 0

/-- `import_mok_state`. -/
def importMokState (s : State) : Imported where
  status :=
    let ret := (firstPass g f { s with mode := clearModes s.mode }).1
    if (checkMokRequest f).isError && ret ≠ .securityViolation then checkMokRequest f else ret
  state := secondPass g f (firstPass g f { s with mode := clearModes s.mode }).2
  configTable := configTable f (firstPass g f { s with mode := clearModes s.mode }).2

end Run

end Shim.Mok
