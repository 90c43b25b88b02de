import Shim.Efi.SignatureList
import Shim.Efi.Variables

/-! # The table of MOK variables

`mok_state_variable_data` (mok.c): the variables that `import_mok_state` reads, what each is checked
for, where it is mirrored to and which byte of shim's state it controls. An empty `data` stands for
`v->data == NULL`.
-/

namespace Shim.Mok

/-- The entries of `mok_state_variable_data`, in order. -/
inductive MokVar
  | mokList
  | mokListX
  | mokSBState
  | mokDBState
  | sbatLevel
  | mokListTrusted
  | mokPolicy
  deriving DecidableEq, Repr

/-- The entries in the order of the table. -/
def mokStateVariables : List MokVar :=
  [.mokList, .mokListX, .mokSBState, .mokDBState, .sbatLevel, .mokListTrusted, .mokPolicy]

/-- The bytes of shim's state that an entry may control. -/
inductive ModeByte
  | userInsecureMode
  | ignoreDb
  | trustMokList
  | mokPolicy
  deriving DecidableEq, Repr

/-- `vendor_addend_category_t`. -/
inductive VendorAddendCategory
  | db
  | x509
  | none
  deriving DecidableEq, Repr

/-- What shim is built with, and the certificates it has read. `buildCert` is empty in a build
without `ENABLE_SHIM_CERT`. -/
structure Globals where
  enableShimDevel : Bool
  vendorAuthorized : List UInt8
  vendorAuthorizedCategory : VendorAddendCategory
  vendorDeauthorized : List UInt8
  buildCert : List UInt8
  userCert : List UInt8

/-- A shim without vendor keys. -/
def Globals.plain : Globals := ⟨false, [], .none, [], [], []⟩

def bootserviceAccess : ℕ := 0x2

def runtimeAccess : ℕ := 0x4

/-- `EFI_VARIABLE_BOOTSERVICE_ACCESS | EFI_VARIABLE_NON_VOLATILE`. -/
def bootserviceNonVolatile : ℕ := 0x3

/-- `EFI_VARIABLE_BOOTSERVICE_ACCESS | EFI_VARIABLE_RUNTIME_ACCESS`. -/
def bootserviceRuntime : ℕ := 0x6

/-- `struct mok_state_variable`, without its names. -/
structure MokStateVariable where
  yesAttr : ℕ := bootserviceNonVolatile
  noAttr : ℕ := runtimeAccess
  keydb : Bool := false
  deleteFirst : Bool := false
  measure : Bool := false
  log : Bool := false
  inverse : Bool := false
  categorizeAddend : VendorAddendCategory := .none
  addend : List UInt8 := []
  buildCert : List UInt8 := []
  userCert : List UInt8 := []
  state : Option ModeByte := none

/-- `categorize_authorized`. -/
def categorizeAuthorized (g : Globals) : VendorAddendCategory :=
  if g.vendorAuthorized = [] then .none else g.vendorAuthorizedCategory

/-- `categorize_deauthorized`. -/
def categorizeDeauthorized (g : Globals) : VendorAddendCategory :=
  if g.vendorDeauthorized = [] then .none else .db

namespace MokVar

/-- The row of the table. -/
def row (g : Globals) : MokVar → MokStateVariable
  | mokList =>
    { categorizeAddend := categorizeAuthorized g, addend := g.vendorAuthorized,
      userCert := g.userCert, buildCert := g.buildCert,
      keydb := true, deleteFirst := true, log := true }
  | mokListX =>
    { categorizeAddend := categorizeDeauthorized g, addend := g.vendorDeauthorized,
      keydb := true, deleteFirst := true, log := true }
  | mokSBState =>
    { deleteFirst := true, measure := true, log := true, state := some .userInsecureMode }
  | mokDBState => { state := some .ignoreDb }
  | sbatLevel =>
    { noAttr := if g.enableShimDevel then 0 else runtimeAccess,
      deleteFirst := true, measure := true }
  | mokListTrusted =>
    { deleteFirst := true, inverse := true, log := true, state := some .trustMokList }
  | mokPolicy => { deleteFirst := true, log := true, state := some .mokPolicy }

def name : MokVar → String
  | mokList => "MokList"
  | mokListX => "MokListX"
  | mokSBState => "MokSBState"
  | mokDBState => "MokDBState"
  | sbatLevel => "SbatLevel"
  | mokListTrusted => "MokListTrusted"
  | mokPolicy => "MokPolicy"

def rtname : MokVar → String
  | mokList => "MokListRT"
  | mokListX => "MokListXRT"
  | mokSBState => "MokSBStateRT"
  | mokDBState => "MokIgnoreDB"
  | sbatLevel => "SbatLevelRT"
  | mokListTrusted => "MokListTrustedRT"
  | mokPolicy => "MokPolicyRT"

end MokVar

/-- The variables that `import_mok_state` reads or writes: the stored one of an entry, its mirror,
and the numbered ones that the mirror of a large database goes on in. -/
inductive MokName
  | stored (v : MokVar)
  | rt (v : MokVar)
  | rtNumbered (v : MokVar) (i : ℕ)
  deriving DecidableEq, Repr

/-- The text of a name. -/
def MokName.text : MokName → String
  | stored v => v.name
  | rt v => v.rtname
  | rtNumbered v i => v.rtname ++ toString i

/-- `(StrLen(name) + 1) * 2`: what the name takes up of a variable's storage. -/
def MokName.size (n : MokName) : ℕ := (n.text.length + 1) * 2

/-- Every variable is in the table. -/
theorem mem_mokStateVariables (v : MokVar) : v ∈ mokStateVariables := by
  cases v <;> decide

/-- No variable is there twice. -/
theorem nodup_mokStateVariables : mokStateVariables.Nodup := by decide

/-! ## The firmware -/

/-- An error that is no answer to what was asked: firmware says that a variable is not there, or
that the buffer is too small for it, only where this is so. -/
abbrev Refusal := {s : EfiStatus // s.isError = true ∧ s ≠ .notFound ∧ s ≠ .bufferTooSmall}

/-- A refused call, as the fault it is. -/
def Refusal.fault (refusal : Option Refusal) : Fault := refusal.map fun s => ⟨s.1, s.2.1⟩

/-- What is stored is read, or something else than its absence is reported. -/
theorem getVariableAttr_stored {vars : Variables MokName} {n : MokName} {x : Variable}
    (hx : vars n = some x) (size read : Option Refusal) :
    (∃ e, getVariableAttr vars n (Refusal.fault size) (Refusal.fault read) = .error e ∧
      e ≠ .notFound) ∨
    (getVariableAttr vars n (Refusal.fault size) (Refusal.fault read) = .ok x ∧ x.data ≠ []) := by
  rcases size with _ | ⟨e, he, hfound, hsmall⟩
  · by_cases hdata : x.data = []
    · exact .inl ⟨.protocolError, by simp [getVariableAttr, querySize, Refusal.fault, hx, hdata],
        by simp⟩
    · rcases read with _ | ⟨e, he, hfound, hsmall⟩
      · exact .inr ⟨by simp [getVariableAttr, querySize, Refusal.fault, hx, hdata], hdata⟩
      · exact .inl ⟨e, by simp [getVariableAttr, querySize, Refusal.fault, hx, hdata], hfound⟩
  · exact .inl ⟨e, by simp [getVariableAttr, querySize, Refusal.fault, hsmall, he], hfound⟩

/-- What `QueryVariableInfo` reports, as far as it is used. -/
structure VariableInfo where
  remaining : ℕ
  maxSize : ℕ

/-- What firmware and TPM do with the calls of one entry in one pass. The `SetVariable` calls go by
the number of the mirror variable, the `QueryVariableInfo` calls by their order. -/
structure Answers where
  size : Option Refusal
  read : Option Refusal
  erase : Fault
  eraseRt : Fault
  set : ℕ → Fault
  info : ℕ → Except EfiError VariableInfo
  measure : Fault
  log : Fault

/-- The firmware around a run of `import_mok_state`. -/
structure Firmware where
  /-- `EFI_MAJOR_VERSION(RT)`. -/
  major : ℕ
  /-- By pass, `only_first` or not, and by entry. -/
  answers : Bool → MokVar → Answers
  /-- `AllocatePages` for the configuration table succeeds. -/
  configPages : Bool
  /-- One of the variables that `check_mok_request` looks for is there. -/
  mokRequest : Bool
  /-- What starting MokManager then comes to. -/
  startMokManager : EfiStatus

end Shim.Mok
