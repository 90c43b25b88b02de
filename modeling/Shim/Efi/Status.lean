import Mathlib.Algebra.GroupWithZero.Nat
import Mathlib.Tactic.Common
import Mathlib.Data.Nat.Notation

/-! # EFI status codes

The statuses the modelled code returns or compares by name; any other error or warning a firmware
service may answer is kept by its number.
-/

namespace Shim

/-- `EFI_STATUS`. -/
inductive EfiStatus
  | success
  | warning (n : ℕ)
  | invalidParameter
  | unsupported
  | badBufferSize
  | bufferTooSmall
  | notReady
  | outOfResources
  | notFound
  | accessDenied
  | aborted
  | loadError
  | protocolError
  | alreadyStarted
  | securityViolation
  | compromisedData
  | httpError
  | otherError (n : ℕ)
  deriving DecidableEq, Repr

/-- `EFI_ERROR(efi_status)`: warnings are not errors. -/
def EfiStatus.isError : EfiStatus → Bool
  | success => false
  | warning _ => false
  | _ => true

@[simp] theorem EfiStatus.isError_success : EfiStatus.success.isError = false := rfl

@[simp] theorem EfiStatus.isError_notFound : EfiStatus.notFound.isError = true := rfl

@[simp] theorem EfiStatus.isError_securityViolation :
    EfiStatus.securityViolation.isError = true := rfl

@[simp] theorem EfiStatus.isError_invalidParameter :
    EfiStatus.invalidParameter.isError = true := rfl

/-- An error is no success. -/
theorem EfiStatus.ne_success_of_isError {s : EfiStatus} (h : s.isError = true) : s ≠ .success := by
  rintro rfl
  exact absurd h (by decide)

/-- An error status, as a failing firmware call answers it. -/
abbrev EfiError := {s : EfiStatus // s.isError = true}

/-- What the firmware does with one call: answer an error, or carry the call out. -/
abbrev Fault := Option EfiError

end Shim
