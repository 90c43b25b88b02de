import Shim.Auth.Method

/-! # The hooked boot services

replacements.c, with the parts of shim.c that share its globals: `start_image` and `shim_verify`, in
secure mode. A slot of the boot services table holds the firmware's function or shim's replacement.
A second stage runs from a successful `start_image` to the next time shim's own code runs, and while
it runs it calls the services. The protocol interfaces that `replacement_start_image` removes and
puts back are left out: the images it starts may call `shim_verify` throughout.
-/

namespace Shim.Hooks

open VerificationMethod

/-- Whose function a slot holds. -/
inductive Provider
  | firmware
  | shim
  deriving DecidableEq

/-- The three slots of `systab->BootServices` that are hooked. -/
structure BootServices where
  loadImage : Provider
  startImage : Provider
  exitBootServices : Provider
  deriving DecidableEq

/-- The table as the firmware sets it up. -/
def ofFirmware : BootServices := ⟨.firmware, .firmware, .firmware⟩

/-- The table with all of shim's replacements in it. -/
def replacements : BootServices := ⟨.shim, .shim, .shim⟩

/-- The running second stage: whether it was authorised by its hash, and whether since it was
started `shim_verify` was called or an image loaded through the hooked `LoadImage` was started.
The code keeps neither. -/
structure Stage where
  byHash : Bool
  consulted : Bool
  deriving DecidableEq

/-- The boot services table, the globals of replacements.c and shim.c, and what is recorded next to
them: the running second stage, the handles that the hooked `LoadImage` gave out, and whether the
machine was reset, handed over to a kernel or stuck. -/
structure State where
  bootServices : BootServices
  system : BootServices
  lastLoadedImage : Option ℕ
  loaderIsParticipating : Bool
  verificationMethod : VerificationMethod
  stage : Option Stage
  loaded : List ℕ
  stopped : Bool

/-- A call of `shim_verify`: `ready` says that measuring and copying the buffer succeed. -/
structure VerifyCall where
  verifier : Verifier
  buffer : Region
  ready : Bool

/-- What happens, with what the firmware answers. `startChild` is a call of `StartImage`, `none` the
handle NULL; `calls` are the `shim_verify` calls made while the image runs, and `status` is what it
ends with. -/
inductive Event
  | verifyImage (verifier : Verifier) (image : Region)
  | startImage (verifier : Verifier) (image : Region) (loads : Bool)
  | shimVerify (call : VerifyCall)
  | loadImage (result : Except EfiError ℕ)
  | startChild (handle : Option ℕ) (calls : List VerifyCall) (status : EfiStatus)
  | exitBootServices (status : EfiStatus)

/-- `unhook_system_services`. -/
def State.unhook (s : State) : State := { s with bootServices := s.system }

/-- `hook_system_services`. -/
def State.hook (s : State) : State :=
  { s with system := s.bootServices, bootServices := replacements }

/-- `read_header` and `verify_buffer_authenticode`. -/
def verification (p : Platform) (v : Verifier) (image : Region) : Option Verdict :=
  match readHeader p image with
  | .error e => some (e, id)
  | .ok context => verifyBufferAuthenticode v image context

/-- The image is accepted by its hash. -/
def hashAuthorised (p : Platform) (v : Verifier) (image : Region) : Bool :=
  match readHeader p image with
  | .error _ => false
  | .ok context =>
    match generateHash image image.size context with
    | .error _ => false
    | .ok chunks =>
      v.checkDenylist none (v.digests image chunks) = some .success ∧
        (v.checkAllowlist none (v.digests image chunks)).map Prod.fst = some .success

/-- The state behind a verification; one that does not come back leaves the machine stuck. -/
def State.verified (s : State) (verdict : Option Verdict) : State :=
  match verdict with
  | none => { s with stopped := true }
  | some (_, change) => { s with verificationMethod := change s.verificationMethod }

/-- The running second stage consults shim. -/
def State.consult (s : State) : State :=
  { s with stage := s.stage.map fun g => { g with consulted := true } }

/-- `loader_is_participating = 1`. -/
def State.participate (s : State) : State := { s with loaderIsParticipating := true }

/-- `shim_verify`. -/
def State.shimVerify (p : Platform) (s : State) (call : VerifyCall) : State :=
  if s.stopped then s
  else if 2 ^ 31 ≤ call.buffer.size then s.consult
  else if call.ready then
    s.consult.participate.verified (verification p call.verifier call.buffer)
  else s.consult.participate

/-- `start_image`: `loads` says that SBAT and the loading part of `handle_image` are content. -/
def State.startImage (p : Platform) (s : State) (v : Verifier) (image : Region) (loads : Bool) :
    State :=
  let verdict := verification p v image
  let s := { s.verified verdict with stage := none }
  match verdict with
  | none => s
  | some (status, _) =>
    if ¬ status.isError ∧ loads then
      { s with loaderIsParticipating := false, stage := some ⟨hashAuthorised p v image, false⟩ }
    else s

/-- `load_image`. -/
def State.loadImage (s : State) (result : Except EfiError ℕ) : State :=
  let s := s.unhook.hook
  match result with
  | .error _ => { s with lastLoadedImage := none }
  | .ok handle => { s with lastLoadedImage := some handle, loaded := handle :: s.loaded }

/-- The image was loaded through the hooked `LoadImage`. -/
def State.isLoaded (s : State) (handle : Option ℕ) : Bool := handle.any fun h => h ∈ s.loaded

/-- `replacement_start_image` up to the call of the firmware's `StartImage`. -/
def State.beginChild (s : State) (handle : Option ℕ) : State :=
  let s := if s.isLoaded handle then s.consult else s
  if handle = s.lastLoadedImage then s.unhook.participate else s.unhook

/-- `replacement_start_image`: only after a failure are the services hooked again. -/
def State.replacementStartImage (p : Platform) (s : State) (handle : Option ℕ)
    (calls : List VerifyCall) (status : EfiStatus) : State :=
  let s := calls.foldl (State.shimVerify p) (s.beginChild handle)
  if status.isError then { s.hook with loaderIsParticipating := false } else s

section BeginChild

variable (s : State) (handle : Option ℕ)

/-- A child runs with the services of the system table. -/
@[simp] theorem State.beginChild_bootServices :
    (s.beginChild handle).bootServices = s.system := by
  unfold beginChild; dsimp only; split <;> split <;> rfl

/-- The system table is kept. -/
@[simp] theorem State.beginChild_system : (s.beginChild handle).system = s.system := by
  unfold beginChild; dsimp only; split <;> split <;> rfl

/-- So is the last image loaded. -/
@[simp] theorem State.beginChild_lastLoadedImage :
    (s.beginChild handle).lastLoadedImage = s.lastLoadedImage := by
  unfold beginChild; dsimp only; split <;> split <;> rfl

/-- So are the images that are loaded. -/
@[simp] theorem State.beginChild_loaded : (s.beginChild handle).loaded = s.loaded := by
  unfold beginChild; dsimp only; split <;> split <;> rfl

/-- So is whether the machine has stopped. -/
@[simp] theorem State.beginChild_stopped : (s.beginChild handle).stopped = s.stopped := by
  unfold beginChild; dsimp only; split <;> split <;> rfl

/-- So is the verification method. -/
@[simp] theorem State.beginChild_verificationMethod :
    (s.beginChild handle).verificationMethod = s.verificationMethod := by
  unfold beginChild; dsimp only; split <;> split <;> rfl

/-- The stage is looked at if the child was loaded by it. -/
theorem State.beginChild_stage : (s.beginChild handle).stage =
    if s.isLoaded handle then s.consult.stage else s.stage := by
  unfold beginChild; dsimp only; split <;> split <;> rfl

end BeginChild

/-- The gate of `exit_boot_services`. -/
def State.mayExit (s : State) : Bool :=
  s.loaderIsParticipating || s.verificationMethod = verifiedByHash

/-- The firmware's `ExitBootServices`, which does not come back from a success. -/
def State.firmwareExit (s : State) (status : EfiStatus) : State :=
  if status.isError then s else { s with stopped := true }

/-- `exit_boot_services`: behind a closed gate the machine is reset. -/
def State.exitBootServices (s : State) (status : EfiStatus) : State :=
  if s.mayExit then
    if status.isError then (s.unhook.firmwareExit status).hook else s.unhook.firmwareExit status
  else { s with stopped := true }

/-- One event. A call goes where the slot of the table says. -/
def step (p : Platform) (s : State) (event : Event) : State :=
  if s.stopped then s
  else match event with
  | .verifyImage v image => { s.verified (verification p v image) with stage := none }
  | .startImage v image loads => s.startImage p v image loads
  | .shimVerify call => s.shimVerify p call
  | .loadImage result =>
    match s.bootServices.loadImage with
    | .firmware => s
    | .shim => s.loadImage result
  | .startChild handle calls status =>
    match s.bootServices.startImage with
    | .firmware => calls.foldl (State.shimVerify p) s
    | .shim => s.replacementStartImage p handle calls status
  | .exitBootServices status =>
    match s.bootServices.exitBootServices with
    | .firmware => s.firmwareExit status
    | .shim => s.exitBootServices status

/-- The event is a call of `ExitBootServices` by the running second stage, and the call reaches the
firmware. -/
def Reaches (s : State) (event : Event) : Prop :=
  s.stopped = false ∧ s.stage.isSome ∧ (∃ status, event = .exitBootServices status) ∧
    (s.bootServices.exitBootServices = .firmware ∨
      s.mayExit ∧ s.system.exitBootServices = .firmware)

end Shim.Hooks
