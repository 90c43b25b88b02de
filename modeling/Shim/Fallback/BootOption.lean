import Shim.Common.Run
import Shim.Efi.Variables
import Shim.Fallback.LoadOption

/-! # Boot options

`find_boot_option`, `add_boot_option` and `add_to_boot_list` (fallback.c) over the firmware's
variables, which `GetNextVariableName` lists in an order of the firmware's own. The calls of the
firmware and the allocations succeed. The counter of `add_boot_option` is static: it starts over at
every boot, and so does the boot order in memory.
-/

namespace Shim

/-! ## Variables -/

/-- The name and the vendor of a variable. -/
structure VariableKey where
  name : List UInt16
  guid : List UInt8
  deriving DecidableEq

/-- `GV_GUID`, `EFI_GLOBAL_VARIABLE`. -/
def gvGuid : List UInt8 :=
  [0x61, 0xdf, 0xe4, 0x8b, 0xca, 0x93, 0xd2, 0x11, 0xaa, 0x0d, 0x00, 0xe0, 0x98, 0x03, 0x2b, 0x8c]

/-- The variables of the firmware, and a list of them. -/
structure VariableStore where
  vars : Variables VariableKey
  keys : List VariableKey
  mem_keys : ∀ k, k ∈ keys ↔ (vars k).isSome = true

/-- The list after a change of one variable. -/
def listAfter (keys : List VariableKey) (k : VariableKey) (stored : Bool) : List VariableKey :=
  if stored then if k ∈ keys then keys else keys ++ [k] else keys.filter (· ≠ k)

/-- Only the variable that changed is listed or not. -/
theorem mem_listAfter {keys : List VariableKey} {k j : VariableKey} {stored : Bool} :
    j ∈ listAfter keys k stored ↔ if j = k then stored = true else j ∈ keys := by
  unfold listAfter
  by_cases hjk : j = k
  · subst hjk
    cases stored with
    | false => simp
    | true => by_cases hmem : j ∈ keys <;> simp [hmem]
  · cases stored with
    | false => simp [hjk]
    | true => by_cases hmem : k ∈ keys <;> simp [hmem, hjk]

/-- `SetVariable`. -/
def VariableStore.set (s : VariableStore) (k : VariableKey) (data : List UInt8) (attrs : ℕ) :
    EfiStatus × VariableStore :=
  let r := writeVariable s.vars k data attrs none
  (r.1, {
    vars := r.2
    keys := listAfter s.keys k (r.2 k).isSome
    mem_keys := fun j => by
      rw [mem_listAfter]
      by_cases hjk : j = k
      · rw [if_pos hjk, hjk]
      · rw [if_neg hjk, s.mem_keys j, writeVariable_of_ne hjk] })

/-- An order the firmware lists its variables in. -/
structure Enumeration where
  order : List VariableKey → List VariableKey
  perm : ∀ keys, (order keys).Perm keys

/-! ## Names -/

/-- `isxdigit`. -/
def isxdigit (c : UInt16) : Prop :=
  48 ≤ c.toNat ∧ c.toNat ≤ 57 ∨ 97 ≤ c.toNat ∧ c.toNat ≤ 102 ∨ 65 ≤ c.toNat ∧ c.toNat ≤ 70

instance (c : UInt16) : Decidable (isxdigit c) := inferInstanceAs (Decidable (_ ∨ _))

/-- The name is that of a boot option. -/
def IsBootName (name : List UInt16) : Prop :=
  name.length = 8 ∧ name.take 4 = wide "Boot" ∧ ∀ c ∈ name.drop 4, isxdigit c

instance (name : List UInt16) : Decidable (IsBootName name) := inferInstanceAs (Decidable (_ ∧ _))

/-- A digit of `hexmap`. -/
def hexDigit (n : ℕ) : UInt16 := if n < 10 then UInt16.ofNat (48 + n) else UInt16.ofNat (55 + n)

/-- `varname` for the counter `i`. -/
def bootName (i : ℕ) : List UInt16 :=
  wide "Boot" ++ [hexDigit (i / 4096 % 16), hexDigit (i / 256 % 16), hexDigit (i / 16 % 16),
    hexDigit (i % 16)]

/-- The value of a hexadecimal digit. -/
def hexValue (c : UInt16) : ℕ :=
  if c.toNat ≤ 57 then c.toNat - 48 else if c.toNat ≤ 70 then c.toNat - 55 else c.toNat - 87

/-- `xtoi` of the number in a boot option's name. -/
def optionNumber (name : List UInt16) : ℕ :=
  (name.drop 4).foldl (fun n c => n * 16 + hexValue c) 0

/-! ## find_boot_option -/

/-- A variable of these contents is taken for the option `data`. -/
def isOption (data : List UInt8) (size : ℕ) (candidate : List UInt8) : Bool :=
  if calcMaskedBootOptionSize size < candidate.length then false
  else if candidate.length ≠ size then checkMaskedBootOption candidate data size
  else candidate = data

/-- The loop over the variables: `*optnum`. -/
def searchOptions (vars : Variables VariableKey) (data : List UInt8) (size : ℕ) :
    List VariableKey → Except EfiStatus ℕ
  | [] => .error .notFound
  | k :: keys =>
    if ¬ IsBootName k.name then searchOptions vars data size keys
    else
      -- the vendor of the name listed is not looked at
      match vars ⟨k.name, gvGuid⟩ with
      | none => searchOptions vars data size keys
      | some v =>
        if isOption data size v.data then .ok (optionNumber k.name)
        else searchOptions vars data size keys

/-- `find_boot_option`. -/
def findBootOption (s : VariableStore) (e : Enumeration) (dp : List DevicePathNode)
    (label arguments : CsvField) : Except EfiStatus ℕ :=
  searchOptions s.vars (expectedOption dp label arguments) (expectedSize dp label arguments)
    (e.order s.keys)

/-! ## add_boot_option -/

/-- What `fallback` keeps: the variables, the counter, `bootorder`, and `first_new_option` with its
arguments. -/
structure FallbackState where
  store : VariableStore
  counter : ℕ
  bootOrder : List ℕ
  firstNewOption : Option (List DevicePathNode × List UInt16)

/-- `EFI_VARIABLE_NON_VOLATILE`, `_BOOTSERVICE_ACCESS` and `_RUNTIME_ACCESS`. -/
def bootAttributes : ℕ := 7

/-- The loop over the counter: the first number no variable has. -/
def freeOption (vars : Variables VariableKey) (counter : ℕ) : Option ℕ :=
  (List.range' counter (2 ^ 16 - counter)).find? fun i => vars ⟨bootName i, gvGuid⟩ = none

/-- Keep the first option that was added or found. -/
def FallbackState.keepFirst (s : FallbackState) (full : List DevicePathNode)
    (arguments : CsvField) : FallbackState :=
  { s with firstNewOption := s.firstNewOption <|> some (full, arguments.text) }

/-- `add_boot_option`. -/
def addBootOption (s : FallbackState) (dp full : List DevicePathNode)
    (label arguments : CsvField) : EfiStatus × FallbackState :=
  match freeOption s.store.vars s.counter with
  | none => (.outOfResources, { s with counter := max s.counter (2 ^ 16) })
  | some i =>
    let s := { s with counter := i }
    -- a size that is no positive int asks for more memory than there is
    if 2 ^ 31 ≤ writtenSize dp label arguments % 2 ^ 32 then (.outOfResources, s)
    else
      let s := s.keepFirst full arguments
      let r := s.store.set ⟨bootName i, gvGuid⟩ (writtenOption dp label arguments) bootAttributes
      if r.1.isError then (r.1, { s with store := r.2 })
      else (.success, { s with store := r.2, bootOrder := i :: s.bootOrder })

/-! ## add_to_boot_list -/

/-- The arguments of `add_to_boot_list`. -/
structure BootEntry where
  dirname : List UInt16
  filename : List UInt16
  label : CsvField
  arguments : CsvField

/-- `make_full_path`. -/
def makeFullPath (dirname filename : List UInt16) : List UInt16 :=
  wide "\\EFI\\" ++ dirname ++ wide "\\" ++ filename

/-- Put an option first in the order. The index is a `UINT16`: in an order of more entries it never
gets to the end. -/
def putFirst (bootOrder : List ℕ) (option : ℕ) : Option (List ℕ) :=
  if option ∈ bootOrder.take (2 ^ 16) then some (option :: bootOrder.erase option)
  else if bootOrder.length < 2 ^ 16 then some (option :: bootOrder)
  else none

/-- `add_to_boot_list`, for the device path of a file; the status is missing where the call does not
return. -/
def addToBootList (fileDevicePath : List UInt16 → List DevicePathNode) (s : FallbackState)
    (e : Enumeration) (x : BootEntry) : Option EfiStatus × FallbackState :=
  let full := fileDevicePath (makeFullPath x.dirname x.filename)
  let dp := bootDevicePath full
  match findBootOption s.store e dp x.label x.arguments with
  | .error status => (some status, (addBootOption s dp full x.label x.arguments).2)
  | .ok option =>
    let s := s.keepFirst full x.arguments
    match putFirst s.bootOrder option with
    | none => (none, s)
    | some bootOrder => (some .success, { s with bootOrder })

/-! ## Boots -/

/-- `BootOrder`. -/
def bootOrderKey : VariableKey := ⟨wide "BootOrder", gvGuid⟩

/-- The numbers in the contents of `BootOrder`. -/
def bootOrderOf (data : List UInt8) : List ℕ :=
  (List.range (data.length / 2)).map fun i => (Region.ofList 0 data).u16 (2 * i)

/-- The state `fallback` starts with, after `set_boot_order`. -/
def FallbackState.boot (store : VariableStore) : FallbackState where
  store := store
  counter := 0
  bootOrder := ((store.vars bootOrderKey).map fun v => bootOrderOf v.data).getD []
  firstNewOption := none

/-- `update_boot_order`. -/
def updateBootOrder (s : FallbackState) : FallbackState :=
  let deleted := if (s.store.vars bootOrderKey).isSome then (s.store.set bootOrderKey [] 0).2
    else s.store
  { s with store := (deleted.set bootOrderKey (s.bootOrder.flatMap field16) bootAttributes).2 }

/-- What happens to the boot options: an entry is added to the list, the order is written, or the
machine is booted again. -/
inductive FallbackEvent
  | addToBootList (e : Enumeration) (x : BootEntry)
  | updateBootOrder
  | boot

/-- The state after an event. -/
def fallbackStep (fileDevicePath : List UInt16 → List DevicePathNode) (s : FallbackState) :
    FallbackEvent → FallbackState
  | .addToBootList e x => (addToBootList fileDevicePath s e x).2
  | .updateBootOrder => updateBootOrder s
  | .boot => .boot s.store

end Shim
