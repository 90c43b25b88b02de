import Shim.Common.Run
import Shim.Hooks.Services

/-! # The gate before `ExitBootServices`

A second stage that was not authorised by its own hash has to consult shim before it may leave boot
services. The globals the gate looks at outlive the second stage they are about, and the hooks stay
off behind an image that was started with success, so the gate is closed only along runs that meet
`Cond`.
-/

namespace Shim.Hooks

open VerificationMethod
open Runs (run Along)

/-- A call of `ExitBootServices` reaches the firmware only if the second stage that makes it was
authorised by its hash or has consulted shim. -/
def GateHolds (s : State) (event : Event) : Prop :=
  Reaches s event → ∀ g, s.stage = some g → g.byHash ∨ g.consulted

/-- The condition on a step. A second stage not authorised by its hash is started with the services
hooked and with no authorisation by hash left over: `verification_method` does not say so before, or
the verification overwrites it. And an image started with success was loaded through the hooked
`LoadImage` or calls `shim_verify`, unless the second stage may leave anyway. -/
def Cond (p : Platform) (s : State) : Event → Prop
  | .startImage v image loads =>
    hashAuthorised p v image = false → ∀ status change,
      verification p v image = some (status, change) → status.isError = false → loads →
      s.bootServices = replacements ∧
        (s.verificationMethod = verifiedByHash → change verifiedByHash ≠ verifiedByHash)
  | .startChild handle calls status =>
    status.isError = false → s.isLoaded handle ∨ calls ≠ [] ∨
      ∀ g, s.stage = some g → g.byHash ∨ g.consulted
  | _ => True

/-! ## What the events leave alone -/

/-- Tables, loaded images and handles are the same. -/
structure SameServices (s t : State) : Prop where
  bootServices : t.bootServices = s.bootServices
  system : t.system = s.system
  lastLoadedImage : t.lastLoadedImage = s.lastLoadedImage
  loaded : t.loaded = s.loaded

theorem SameServices.refl (s : State) : SameServices s s := ⟨rfl, rfl, rfl, rfl⟩

/-- Services that are the same twice are the same. -/
theorem SameServices.trans {s t u : State} (h : SameServices s t) (h' : SameServices t u) :
    SameServices s u :=
  ⟨h'.bootServices.trans h.bootServices, h'.system.trans h.system,
    h'.lastLoadedImage.trans h.lastLoadedImage, h'.loaded.trans h.loaded⟩

/-- The gate is of no account: the machine has stopped, or the second stage has consulted shim. -/
def Settled (s : State) : Prop := s.stopped = true ∨ ∀ g, s.stage = some g → g.consulted = true

/-- A verdict does not touch the services. -/
theorem sameServices_verified (s : State) (verdict : Option Verdict) :
    SameServices s (s.verified verdict) := by
  cases verdict <;> exact ⟨rfl, rfl, rfl, rfl⟩

/-- A state behind a verification is settled. -/
theorem settled_consult (s : State) : Settled s.consult := by
  refine .inr fun g hg => ?_
  obtain ⟨g', -, rfl⟩ := Option.map_eq_some_iff.mp hg
  rfl

/-- It stays so behind another verdict. -/
theorem Settled.verified {s : State} (hs : Settled s) (verdict : Option Verdict) :
    Settled (s.verified verdict) := by
  cases verdict with
  | none => exact .inl rfl
  | some verdict => exact hs

section ShimVerify

variable {p : Platform} {s : State} {calls : List VerifyCall}

/-- `shim_verify` does not touch the services. -/
theorem sameServices_shimVerify (p : Platform) (s : State) (call : VerifyCall) :
    SameServices s (s.shimVerify p call) := by
  unfold State.shimVerify
  split
  · exact .refl s
  · split
    · exact ⟨rfl, rfl, rfl, rfl⟩
    · have hcalled : SameServices s s.consult.participate := ⟨rfl, rfl, rfl, rfl⟩
      split
      · exact hcalled.trans (sameServices_verified _ _)
      · exact hcalled

/-- A state behind `shim_verify` is settled. -/
theorem settled_shimVerify (p : Platform) (s : State) (call : VerifyCall) :
    Settled (s.shimVerify p call) := by
  unfold State.shimVerify
  split
  next hstopped => exact .inl hstopped
  next =>
    have hcalled : Settled s.consult.participate := settled_consult s
    split
    · exact settled_consult s
    · split
      · exact hcalled.verified _
      · exact hcalled

/-- Neither do many calls of it. -/
theorem sameServices_foldl : SameServices s (calls.foldl (State.shimVerify p) s) := by
  induction calls generalizing s with
  | nil => exact .refl s
  | cons call calls ih => exact (sameServices_shimVerify p s call).trans ih

/-- A settled state stays so behind many calls. -/
theorem Settled.foldl (hs : Settled s) : Settled (calls.foldl (State.shimVerify p) s) := by
  induction calls generalizing s with
  | nil => exact hs
  | cons call calls ih => exact ih (settled_shimVerify p s call)

/-- Behind at least one call the state is settled. -/
theorem settled_foldl (hcalls : calls ≠ []) : Settled (calls.foldl (State.shimVerify p) s) := by
  cases calls with
  | nil => exact absurd rfl hcalls
  | cons call calls => exact (settled_shimVerify p s call).foldl

end ShimVerify

/-! ## The invariant -/

/-- As long as the running second stage may not leave, the services are hooked and neither global
says that it may. -/
def Closed (s : State) : Prop :=
  s.stopped = false → ∀ g, s.stage = some g → g.byHash = false → g.consulted = false →
    s.bootServices = replacements ∧ s.loaderIsParticipating = false ∧
      s.verificationMethod ≠ verifiedByHash

/-- Shim's saved pointers are the firmware's, the last image loaded is among those loaded, and the
gate is closed. -/
structure Gated (s : State) : Prop where
  system : s.system = ofFirmware
  services : s.bootServices = ofFirmware ∨ s.bootServices = replacements
  last : ∀ handle, s.lastLoadedImage = some handle → handle ∈ s.loaded
  closed : Closed s

variable {p : Platform} {s t : State}

/-- A settled state has its gate closed, or was verified. -/
theorem Settled.closed (hs : Settled s) : Closed s := by
  intro hstopped g hg _ hconsulted
  rcases hs with hs | hs
  · simp [hstopped] at hs
  · simp [hs g hg] at hconsulted

/-- The gate holds where the services are the same. -/
theorem Gated.of_sameServices (hs : Gated s) (hsame : SameServices s t) (ht : Closed t) :
    Gated t where
  system := hsame.system.trans hs.system
  services := hsame.bootServices ▸ hs.services
  last := by
    rw [hsame.lastLoadedImage, hsame.loaded]
    exact hs.last
  closed := ht

/-- Without a stage there is nothing to let through. -/
theorem closed_of_noStage (hs : s.stage = none) : Closed s := by
  intro _ g hg
  simp [hs] at hg

/-- Without an authorisation by hash the verification keeps off `VERIFIED_BY_HASH`. -/
theorem keepsOffHash_verification {v : Verifier} {image : Region} {status : EfiStatus}
    {change : MethodChange} (hnot : hashAuthorised p v image = false)
    (hverdict : verification p v image = some (status, change)) : change.KeepsOffHash := by
  unfold verification at hverdict
  unfold hashAuthorised at hnot
  rcases hheader : readHeader p image with e | context
  · obtain ⟨-, rfl⟩ : e = status ∧ id = change := by simpa [hheader] using hverdict
    exact MethodChange.keepsOffHash_id
  · simp only [hheader] at hverdict hnot
    refine keepsOffHash_verifyBufferAuthenticode ?_ hverdict
    rintro ⟨chunks, method, hhash, hdenied, hallowed⟩
    simp [hhash, hdenied, hallowed] at hnot

/-- A second stage starts behind a closed gate. -/
theorem Gated.startImage {v : Verifier} {image : Region} {loads : Bool} (hs : Gated s)
    (hcond : Cond p s (.startImage v image loads)) : Gated (s.startImage p v image loads) := by
  unfold State.startImage
  rcases hverdict : verification p v image with _ | ⟨status, change⟩
  · exact hs.of_sameServices ⟨rfl, rfl, rfl, rfl⟩ (closed_of_noStage rfl)
  · dsimp only
    split
    next hstarts =>
      refine hs.of_sameServices ⟨rfl, rfl, rfl, rfl⟩ ?_
      intro _ g hg hhash _
      obtain rfl := Option.some.inj hg
      obtain ⟨hhooked, hleft⟩ := hcond hhash status change hverdict (by simpa using hstarts.1)
        hstarts.2
      refine ⟨hhooked, rfl, ?_⟩
      by_cases hmethod : s.verificationMethod = verifiedByHash
      · simpa [State.verified, hmethod] using hleft hmethod
      · exact keepsOffHash_verification hhash hverdict _ hmethod
    next => exact hs.of_sameServices ⟨rfl, rfl, rfl, rfl⟩ (closed_of_noStage rfl)

/-- Loading an image keeps the gate. -/
theorem Gated.loadImage {result : Except EfiError ℕ} (hs : Gated s) :
    Gated (s.loadImage result) := by
  have hclosed : Closed (s.loadImage result) := by
    intro hstopped g hg hhash hconsulted
    cases result <;> exact ⟨rfl, (hs.closed hstopped g hg hhash hconsulted).2⟩
  cases result with
  | error e => exact ⟨hs.system, .inr rfl, by rintro _ ⟨⟩, hclosed⟩
  | ok handle =>
    refine ⟨hs.system, .inr rfl, ?_, hclosed⟩
    rintro _ ⟨⟩
    exact List.mem_cons_self

/-- A child that was loaded starts with a settled state. -/
theorem settled_beginChild {handle : Option ℕ} (hloaded : s.isLoaded handle = true) :
    Settled (s.beginChild handle) := by
  refine .inr fun g hg => ?_
  rw [State.beginChild_stage, if_pos hloaded] at hg
  obtain ⟨g', -, rfl⟩ := Option.map_eq_some_iff.mp hg
  rfl

/-- The state in which a started image has ended: the table is the firmware's, the gate settled
unless the image was not one loaded through the hooked `LoadImage` and never called shim. -/
theorem afterChild (handle : Option ℕ) (calls : List VerifyCall) (hs : Gated s) :
    let t := calls.foldl (State.shimVerify p) (s.beginChild handle)
    t.bootServices = ofFirmware ∧ t.system = ofFirmware ∧
      (∀ h, t.lastLoadedImage = some h → h ∈ t.loaded) ∧
      (Settled t ∨ (calls = [] ∧ s.isLoaded handle = false)) := by
  have hsame : SameServices (s.beginChild handle)
      (calls.foldl (State.shimVerify p) (s.beginChild handle)) := sameServices_foldl
  refine ⟨by simp [hsame.bootServices, hs.system], by simp [hsame.system, hs.system], ?_, ?_⟩
  · simpa [hsame.lastLoadedImage, hsame.loaded] using hs.last
  · by_cases hcalls : calls = []
    · cases hloaded : s.isLoaded handle with
      | true => exact .inl (settled_beginChild hloaded).foldl
      | false => exact .inr ⟨hcalls, rfl⟩
    · exact .inl (settled_foldl hcalls)

/-- Hooked again after a failure, the gate is closed as before. -/
theorem closed_afterFailure {handle : Option ℕ} {calls : List VerifyCall} (hs : Gated s) :
    Closed { (calls.foldl (State.shimVerify p) (s.beginChild handle)).hook with
      loaderIsParticipating := false } := by
  rcases (afterChild (p := p) handle calls hs).2.2.2 with
    hsettled | ⟨rfl, hloaded⟩
  · exact Settled.closed hsettled
  · intro hstopped g hg hhash hconsulted
    have hstage : s.stage = some g := by
      simpa [State.hook, State.beginChild_stage, hloaded] using hg
    have hmethod := (hs.closed (by simpa [State.hook] using hstopped) g hstage hhash hconsulted).2.2
    exact ⟨rfl, rfl, by simpa [State.hook] using hmethod⟩

/-- After a success the hooks stay off, and the second stage may leave. -/
theorem closed_afterSuccess {handle : Option ℕ} {calls : List VerifyCall} (hs : Gated s)
    (hleave : s.isLoaded handle ∨ calls ≠ [] ∨ ∀ g, s.stage = some g → g.byHash ∨ g.consulted) :
    Closed (calls.foldl (State.shimVerify p) (s.beginChild handle)) := by
  rcases (afterChild (p := p) handle calls hs).2.2.2 with
    hsettled | ⟨rfl, hloaded⟩
  · exact hsettled.closed
  · intro _ g hg hhash hconsulted
    have hstage : s.stage = some g := by simpa [State.beginChild_stage, hloaded] using hg
    rcases hleave with hleave | hleave | hleave
    · simp [hloaded] at hleave
    · exact absurd rfl hleave
    · simpa [hhash, hconsulted] using hleave g hstage

/-- Starting a child keeps the gate, under the condition. -/
theorem Gated.replacementStartImage {handle : Option ℕ} {calls : List VerifyCall}
    {status : EfiStatus} (hs : Gated s) (hcond : Cond p s (.startChild handle calls status)) :
    Gated (s.replacementStartImage p handle calls status) := by
  obtain ⟨htable, hsystem, hlast, -⟩ := afterChild (p := p) handle calls hs
  unfold State.replacementStartImage
  cases hstatus : status.isError with
  | true => exact ⟨htable, .inr rfl, hlast, closed_afterFailure hs⟩
  | false => exact ⟨hsystem, .inl htable, hlast, closed_afterSuccess hs (hcond hstatus)⟩

/-- Behind a failure of the firmware's `ExitBootServices` everything is as before. -/
theorem Gated.exitBootServices {status : EfiStatus} (hs : Gated s)
    (hhooked : s.bootServices.exitBootServices = .shim) : Gated (s.exitBootServices status) := by
  have htable : s.bootServices = replacements := by
    rcases hs.services with h | h
    · simp [h, ofFirmware] at hhooked
    · exact h
  unfold State.exitBootServices State.firmwareExit
  cases s.mayExit <;> cases status.isError
  · exact hs.of_sameServices ⟨rfl, rfl, rfl, rfl⟩ (Settled.closed (.inl rfl))
  · exact hs.of_sameServices ⟨rfl, rfl, rfl, rfl⟩ (Settled.closed (.inl rfl))
  · exact ⟨hs.system, .inl hs.system, hs.last, Settled.closed (.inl rfl)⟩
  · exact hs.of_sameServices ⟨htable.symm, rfl, rfl, rfl⟩
      fun hstopped g hg hhash hconsulted => ⟨rfl, (hs.closed hstopped g hg hhash hconsulted).2⟩

/-- Every event that meets the condition keeps the gate. -/
theorem Gated.step {event : Event} (hs : Gated s) (hcond : Cond p s event) :
    Gated (step p s event) := by
  unfold Hooks.step
  -- nothing runs behind a stop of the machine
  split
  · exact hs
  · cases event with
    | verifyImage v image =>
      exact hs.of_sameServices ((sameServices_verified s _).trans ⟨rfl, rfl, rfl, rfl⟩)
        (closed_of_noStage rfl)
    | startImage v image loads => exact hs.startImage hcond
    | shimVerify call =>
      exact hs.of_sameServices (sameServices_shimVerify p s call)
        (settled_shimVerify p s call).closed
    | loadImage result =>
      dsimp only
      split
      · exact hs
      · exact hs.loadImage
    | startChild handle calls status =>
      dsimp only
      split
      next hfirmware =>
        by_cases hcalls : calls = []
        · exact hcalls ▸ hs
        · exact hs.of_sameServices sameServices_foldl (settled_foldl hcalls).closed
      next => exact hs.replacementStartImage hcond
    | exitBootServices status =>
      dsimp only
      split
      · unfold State.firmwareExit
        split
        · exact hs
        · exact hs.of_sameServices ⟨rfl, rfl, rfl, rfl⟩ (Settled.closed (.inl rfl))
      next hhooked => exact hs.exitBootServices hhooked

/-- Behind a closed gate no call of `ExitBootServices` gets through. -/
theorem Gated.gateHolds {event : Event} (hs : Gated s) : GateHolds s event := by
  rintro ⟨hstopped, -, -, hreaches⟩ g hg
  by_contra hnot
  rw [not_or, Bool.not_eq_true, Bool.not_eq_true] at hnot
  obtain ⟨htable, hparticipating, hmethod⟩ := hs.closed hstopped g hg hnot.1 hnot.2
  rcases hreaches with hfirmware | ⟨hmay, -⟩
  · simp [htable, replacements] at hfirmware
  · simp [State.mayExit, hparticipating, hmethod] at hmay

/-! ## The gate over a run -/

/-- The services hooked, and nothing started, loaded or verified yet. -/
def initial : State where
  bootServices := replacements
  system := ofFirmware
  lastLoadedImage := none
  loaderIsParticipating := false
  verificationMethod := verifiedByNothing
  stage := none
  loaded := []
  stopped := false

/-- The gate holds at first. -/
theorem gated_initial : Gated initial :=
  ⟨rfl, .inr rfl, by rintro _ ⟨⟩, closed_of_noStage rfl⟩

/-- Along every run whose steps meet the condition the gate holds. -/
theorem gate_along {events : List Event} (h : Along (step p) (Cond p) initial events) :
    Along (step p) GateHolds initial events :=
  Runs.along_of_invariant (fun _ _ hs hcond => hs.step hcond) (fun _ _ hs _ => hs.gateHolds)
    gated_initial h

/-! ## Runs with and without the condition -/

/-- A db that lists one SHA-256: 32 bytes that begin with those of `mokManager`. -/
def dbWithHash : Region := .ofFields 0x30000 76
  [(0, certSha256Guid), (16, [76]), (24, [48]), (44, [0x4d, 0x5a, 0x01])]

/-- An image that differs from `signedImage` in an unused byte of the MZ header. -/
def mokManager : Region :=
  { signedImage with byte := fun i => if i = 2 then 0x01 else signedImage.byte i }

/-- `mokManager` is in db by its hash; every signature verifies against the vendor certificate. The
digest of an image is a stretch of its first bytes, and there is no keyless server. -/
def hashThenVendor : Verifier where
  sha256 := fun bytes => bytes.take 32
  sha1 := fun bytes => bytes.take 20
  verifyEku := fun _ => true
  authenticodeVerify := fun _ cert _ => cert = [1]
  extractVerificationData := fun _ _ => .error ⟨.securityViolation, EfiStatus.isError_securityViolation⟩
  osignHttpRequest := fun _ => .httpError
  vendorDeauthorized := .ofFields 0 0 []
  vendorDb := none
  db := some dbWithHash
  dbx := none
  mokListRT := none
  mokListX := none
  ignoreDb := false
  buildCert := none
  vendorCert := some [1]

/-- A second stage that verifies what it boots before it leaves boot services. -/
theorem gate_along_verified :
    Along (step platformX64) GateHolds initial
      [.startImage hashThenVendor signedImage true,
       .shimVerify ⟨hashThenVendor, mokManager, true⟩, .exitBootServices .success] :=
  gate_along ⟨fun _ _ _ _ _ _ => ⟨rfl, fun h => nomatch h⟩, trivial, trivial, trivial⟩

/-- MokManager is authorised by its hash and returns; the second stage, authorised by the vendor
certificate, leaves boot services without having consulted shim. -/
theorem not_gate_along_leftover :
    ¬ Along (step platformX64) GateHolds initial
      [.startImage hashThenVendor mokManager true, .startImage hashThenVendor signedImage true,
       .exitBootServices .success] := by
  rintro ⟨-, -, hgate, -⟩
  have hstage : (step platformX64 (step platformX64 initial
      (.startImage hashThenVendor mokManager true))
      (.startImage hashThenVendor signedImage true)).stage = some ⟨false, false⟩ := by
    decide +kernel
  have hreaches : Reaches (step platformX64 (step platformX64 initial
      (.startImage hashThenVendor mokManager true))
      (.startImage hashThenVendor signedImage true)) (.exitBootServices .success) :=
    ⟨by decide +kernel, by decide +kernel, ⟨_, rfl⟩, .inr (by decide +kernel)⟩
  simpa using hgate hreaches _ hstage

end Shim.Hooks
