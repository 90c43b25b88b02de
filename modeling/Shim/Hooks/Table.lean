import Shim.Common.Run

/-! # The pointers of the boot services table

replacements.c with `shim_init` and `shim_fini` (shim.c), down to the stores: every event expands to
the hooking and unhooking functions it calls, and the property is asked behind each of them. A call
of `StartImage` is two events, since the image it starts makes calls of its own in between.
-/

namespace Shim.BootTable

open Runs (run Along)

/-- A function pointer: NULL, the firmware's function or shim's replacement. -/
inductive Pointer
  | null
  | firmware
  | shim
  deriving DecidableEq

/-- The slots that `hook_system_services` takes. -/
structure Services where
  loadImage : Pointer
  startImage : Pointer
  exitBootServices : Pointer
  deriving DecidableEq

/-- The three slots with one kind of pointer. -/
def Services.all (p : Pointer) : Services := ⟨p, p, p⟩

/-- `systab->BootServices`, the `system_*` globals of replacements.c, whether its `systab` is set,
and what is recorded next to them: the `StartImage` calls that have not returned, with `true` for
one that goes through `replacement_start_image`, and whether shim is out of the picture: the machine
was reset or handed over, or the call of a NULL pointer crashed it. -/
structure State where
  services : Services
  exit : Pointer
  systemServices : Services
  systemExit : Pointer
  systab : Bool
  pending : List Bool
  stopped : Bool
  deriving DecidableEq

/-- The functions that store into the table. -/
inductive Op
  | unhookSystemServices
  | hookSystemServices
  | unhookExit
  | hookExit

/-- What they do. -/
def State.apply (s : State) : Op → State
  | .unhookSystemServices => if s.systab then { s with services := s.systemServices } else s
  | .hookSystemServices =>
    { s with systab := true, systemServices := s.services, services := .all .shim }
  | .unhookExit => { s with exit := s.systemExit }
  | .hookExit => { s with systab := true, systemExit := s.exit, exit := .shim }

/-- `shim_init`: `vendorCert` says that one of the vendor sizes is not nought, `secondStage` that
`set_second_stage` succeeds. -/
def shimInit (vendorCert secure secondStage : Bool) : List Op :=
  if secondStage then (if secure && vendorCert then [.hookSystemServices] else []) ++ [.hookExit]
  else []

/-- `shim_fini`. -/
def shimFini (secure : Bool) : List Op :=
  (if secure then [.unhookSystemServices] else []) ++ [.unhookExit]

/-- How the `shim_init` behind a failed `Exit` goes: the answer of `secure_mode`, and whether
`set_second_stage` and `install_shim_protocols` succeed. -/
structure Reinit where
  secure : Bool
  secondStage : Bool
  protocols : Bool
  deriving DecidableEq

/-- What happens, with what is answered. `secure` is what `secure_mode` says; an `exit` with no
`Reinit` does not come back; `fini` is the end of `efi_main`. -/
inductive Event
  | loadImage
  | startImage
  | startReturn (error : Bool)
  | exitBootServices (allowed error : Bool)
  | exit (secure : Bool) (failed : Option Reinit)
  | fini (secure : Bool)

/-- The stores an event makes. A call goes where the slot of the table says. -/
def State.ops (vendorCert : Bool) (s : State) : Event → List Op
  | .loadImage =>
    if s.services.loadImage = .shim then [.unhookSystemServices, .hookSystemServices] else []
  | .startImage => if s.services.startImage = .shim then [.unhookSystemServices] else []
  | .startReturn error => if s.pending.head? = some true ∧ error then [.hookSystemServices] else []
  | .exitBootServices allowed error =>
    if s.services.exitBootServices = .shim ∧ allowed then
      .unhookSystemServices :: if error then [.hookSystemServices] else []
    else []
  | .exit secure failed =>
    if s.exit = .shim then
      shimFini secure ++
        failed.elim [] fun f => shimInit vendorCert f.secure f.secondStage
    else []
  | .fini secure => shimFini secure

/-- The calls that have not returned. -/
def State.pendingAfter (s : State) : Event → List Bool
  | .startImage => (s.services.startImage = .shim) :: s.pending
  | .startReturn _ => s.pending.tail
  | _ => s.pending

/-- Shim is out of the picture behind a closed gate, a success of `ExitBootServices`, a failed
`shim_init`, its own exit and the call of a NULL pointer. -/
def State.stops (s : State) : Event → Bool
  | .loadImage => s.services.loadImage = .null
  | .startImage => s.services.startImage = .null
  | .startReturn _ => false
  | .exitBootServices allowed error =>
    s.services.exitBootServices = .null || !error ||
      (s.services.exitBootServices = .shim && !allowed)
  | .exit _ failed =>
    s.exit = .null || (failed.isNone && s.pending.isEmpty) ||
      (s.exit = .shim && failed.any fun f => !(f.secondStage && f.protocols))
  | .fini _ => true

/-- One event. -/
def step (vendorCert : Bool) (s : State) (event : Event) : State :=
  if s.stopped then s
  else { run State.apply s (s.ops vendorCert event) with
    pending := s.pendingAfter event, stopped := s.stops event }

/-- The firmware's table, before `shim_init`. -/
def fresh : State where
  services := .all .firmware
  exit := .firmware
  systemServices := .all .null
  systemExit := .null
  systab := false
  pending := []
  stopped := false

/-- The table behind the `shim_init` of `efi_main`. -/
def initial (vendorCert secure : Bool) : State := run State.apply fresh (shimInit vendorCert secure true)

/-! ## The property -/

/-- No saved pointer is one of shim's, and no slot is NULL. -/
structure Sound (s : State) : Prop where
  loadImage : s.systemServices.loadImage ≠ .shim ∧ s.services.loadImage ≠ .null
  startImage : s.systemServices.startImage ≠ .shim ∧ s.services.startImage ≠ .null
  exitBootServices :
    s.systemServices.exitBootServices ≠ .shim ∧ s.services.exitBootServices ≠ .null
  exit : s.systemExit ≠ .shim ∧ s.exit ≠ .null

/-- The table is the firmware's. -/
def Restored (s : State) : Prop := s.services = .all .firmware ∧ s.exit = .firmware

/-- The event runs `shim_fini`, which is told this by `secure_mode`. -/
def State.finiSecure (s : State) : Event → Option Bool
  | .exit secure _ => if s.exit = .shim then some secure else none
  | .fini secure => some secure
  | _ => none

/-- The table is sound behind every store of the event, and restored behind its `shim_fini`. -/
def HooksUndone (vendorCert : Bool) (s : State) (event : Event) : Prop :=
  s.stopped = false →
    Along State.apply (fun t op => Sound (t.apply op)) s (s.ops vendorCert event) ∧
      ∀ secure ∈ s.finiSecure event, Restored (run State.apply s (shimFini secure))

/-- The condition on a step. When `shim_fini` unhooks the services they have been hooked before, and
when it does not they are not hooked; and an image whose `StartImage` fails comes back with the
services not hooked. -/
def Cond (s : State) (event : Event) : Prop :=
  s.stopped = false →
    (∀ secure ∈ s.finiSecure event,
      if secure then s.systemServices ≠ .all .null else s.services = .all .firmware) ∧
    (event = .startReturn true → s.pending.head? = some true → s.services = .all .firmware)

/-! ## The invariant -/

/-- The services are all hooked or all the firmware's, over saved pointers of the firmware's where
they are hooked or were when a `StartImage` still pending was called. -/
structure Inv (s : State) : Prop where
  systab : s.systab = true
  services : s.services = .all .firmware ∨ s.services = .all .shim
  systemServices : s.systemServices = .all .null ∨ s.systemServices = .all .firmware
  hooked : s.services = .all .shim → s.systemServices = .all .firmware
  pending : true ∈ s.pending → s.systemServices = .all .firmware
  exit : s.exit = .firmware ∨ s.exit = .shim
  systemExit : s.systemExit = .firmware

/-- A table whose pointers are all of one kind is sound. -/
theorem sound_of_pointers {s : State} (hservices : s.services = .all .firmware ∨ s.services = .all .shim)
    (hsystem : s.systemServices = .all .null ∨ s.systemServices = .all .firmware)
    (hexit : s.exit = .firmware ∨ s.exit = .shim)
    (hsystemExit : s.systemExit = .null ∨ s.systemExit = .firmware) : Sound s := by
  constructor
  all_goals
    rcases hservices with h | h <;> rcases hsystem with h' | h' <;> rcases hexit with he | he <;>
      rcases hsystemExit with he' | he' <;> simp [h, h', he, he', Services.all]

/-- The invariant makes the table sound. -/
theorem Inv.sound {s : State} (hs : Inv s) : Sound s :=
  sound_of_pointers hs.services hs.systemServices hs.exit (.inr hs.systemExit)

/-- What a store needs to keep the invariant. -/
def OpCond (s : State) : Op → Prop
  | .unhookSystemServices => s.systemServices = .all .firmware
  | .hookSystemServices => s.services = .all .firmware
  | .unhookExit => True
  | .hookExit => s.exit = .firmware

/-- An operation keeps the invariant, under its condition. -/
theorem Inv.apply {s : State} (hs : Inv s) {op : Op} (hop : OpCond s op) : Inv (s.apply op) := by
  cases op with
  | unhookSystemServices =>
    unfold State.apply
    dsimp only
    rw [if_pos hs.systab]
    exact { hs with services := .inl hop, hooked := fun _ => hop }
  | hookSystemServices =>
    exact ⟨rfl, .inr rfl, .inr hop, fun _ => hop, fun _ => hop, hs.exit, hs.systemExit⟩
  | unhookExit => exact { hs with exit := .inl hs.systemExit }
  | hookExit => exact { hs with systab := rfl, exit := .inr rfl, systemExit := hop }

/-- Pointers of the firmware's, once saved, stay saved. -/
theorem systemServices_apply {s : State} {op : Op} (hs : s.systemServices = .all .firmware)
    (hop : OpCond s op) : (s.apply op).systemServices = .all .firmware := by
  cases op with
  | unhookSystemServices =>
    unfold State.apply
    dsimp only
    split <;> exact hs
  | hookSystemServices => exact hop
  | unhookExit => exact hs
  | hookExit => exact hs

/-- Stores that keep the invariant leave the table sound. -/
theorem Inv.along_sound {s : State} (hs : Inv s) {ops : List Op} (hops : Along State.apply OpCond s ops) :
    Along State.apply (fun t op => Sound (t.apply op)) s ops :=
  Runs.along_of_invariant (fun _ _ ht hop => ht.apply hop) (fun _ _ ht hop => (ht.apply hop).sound)
    hs hops

section Step

variable {vendorCert : Bool} {s : State}

/-- A slot that holds shim's function is one of three. -/
theorem Inv.hooked_of_slot (hs : Inv s) (slot : Services → Pointer)
    (hslot : slot s.services = .shim) (hall : slot (.all .firmware) = .firmware) :
    s.systemServices = .all .firmware := by
  rcases hs.services with h | h
  · rw [h, hall] at hslot
    cases hslot
  · exact hs.hooked h

/-- Leaving shim restores the table, under its condition. -/
theorem Inv.shimFini (hs : Inv s) {secure : Bool}
    (hcond : if secure then s.systemServices ≠ .all .null else s.services = .all .firmware) :
    Along State.apply OpCond s (shimFini secure) ∧ Restored (run State.apply s (shimFini secure)) := by
  unfold BootTable.shimFini
  cases secure with
  | false => exact ⟨⟨trivial, trivial⟩, hcond, hs.systemExit⟩
  | true =>
    have hsystem : s.systemServices = .all .firmware := hs.systemServices.resolve_left hcond
    refine ⟨⟨hsystem, trivial, trivial⟩, ?_⟩
    simp [Restored, State.apply, hs.systab, hsystem, hs.systemExit]

/-- `shim_init` on a table that is the firmware's. -/
theorem along_shimInit (hs : Restored s) (secure secondStage : Bool) :
    Along State.apply OpCond s (shimInit vendorCert secure secondStage) := by
  unfold shimInit
  split
  · split
    · exact ⟨hs.1, hs.2, trivial⟩
    · exact ⟨hs.2, trivial⟩
  · trivial

/-- The stores of an event keep the invariant, under the condition. -/
theorem Inv.along_ops (hs : Inv s) {event : Event} (hstopped : s.stopped = false)
    (hcond : Cond s event) : Along State.apply OpCond s (s.ops vendorCert event) := by
  obtain ⟨hfini, hreturn⟩ := hcond hstopped
  -- an operation is made only where the slot of the table is shim's own
  cases event with
  | loadImage =>
    unfold State.ops
    dsimp only
    split
    · rename_i hslot
      have hsystem := hs.hooked_of_slot Services.loadImage hslot rfl
      refine ⟨hsystem, ?_, trivial⟩
      simp [OpCond, State.apply, hs.systab, hsystem]
    · trivial
  | startImage =>
    unfold State.ops
    dsimp only
    split
    · rename_i hslot
      exact ⟨hs.hooked_of_slot Services.startImage hslot rfl, trivial⟩
    · trivial
  | startReturn error =>
    unfold State.ops
    dsimp only
    split
    · rename_i hhead
      obtain rfl : error = true := hhead.2
      exact ⟨hreturn rfl hhead.1, trivial⟩
    · trivial
  | exitBootServices allowed error =>
    unfold State.ops
    dsimp only
    split
    · rename_i hslot
      have hsystem := hs.hooked_of_slot Services.exitBootServices hslot.1 rfl
      refine ⟨hsystem, ?_⟩
      split
      · refine ⟨?_, trivial⟩
        simp [OpCond, State.apply, hs.systab, hsystem]
      · trivial
    · trivial
  | exit secure failed =>
    unfold State.ops
    dsimp only
    split
    · rename_i hslot
      obtain ⟨halong, hrestored⟩ := hs.shimFini (hfini secure (by simp [State.finiSecure, hslot]))
      refine Runs.along_append.mpr ⟨halong, ?_⟩
      cases failed with
      | none => trivial
      | some f => exact along_shimInit hrestored f.secure f.secondStage
    · trivial
  | fini secure => exact (hs.shimFini (hfini secure rfl)).1

/-- What is still to be undone was hooked before. -/
theorem Inv.pendingAfter (hs : Inv s) {event : Event} (hmem : true ∈ s.pendingAfter event) :
    s.systemServices = .all .firmware := by
  cases event with
  | startImage =>
    rcases List.mem_cons.mp hmem with hslot | hmem
    · exact hs.hooked_of_slot Services.startImage (by simpa using hslot) rfl
    · exact hs.pending hmem
  | startReturn error => exact hs.pending (List.mem_of_mem_tail hmem)
  | loadImage | exitBootServices | exit | fini => exact hs.pending hmem

/-- One event keeps the invariant. -/
theorem Inv.step (hs : Inv s) {event : Event} (hcond : Cond s event) :
    Inv (step vendorCert s event) := by
  unfold BootTable.step
  by_cases hstopped : s.stopped = true
  · rw [if_pos hstopped]
    exact hs
  · rw [if_neg hstopped]
    have halong : Along State.apply OpCond s (s.ops vendorCert event) :=
      hs.along_ops (by simpa using hstopped) hcond
    have hrun : Inv (run State.apply s (s.ops vendorCert event)) :=
      Runs.run_invariant (fun _ _ ht hop => ht.apply hop) hs halong
    refine { hrun with pending := fun hmem => ?_ }
    have hkeep : ∀ t op, t.systemServices = .all .firmware → OpCond t op →
        (t.apply op).systemServices = .all .firmware := fun _ _ => systemServices_apply
    exact Runs.run_invariant hkeep (hs.pendingAfter hmem) halong

/-- The property at one event. -/
theorem Inv.hooksUndone (hs : Inv s) {event : Event} (hcond : Cond s event) :
    HooksUndone vendorCert s event := by
  intro hstopped
  refine ⟨hs.along_sound (hs.along_ops hstopped hcond), fun secure hfini => ?_⟩
  exact (hs.shimFini ((hcond hstopped).1 secure hfini)).2

end Step

/-- `shim_init` on the firmware's table establishes the invariant. -/
theorem inv_initial (vendorCert secure : Bool) : Inv (initial vendorCert secure) := by
  cases hboth : secure && vendorCert <;>
    · simp only [initial, shimInit, hboth]
      constructor <;> simp [fresh, State.apply, Services.all]

/-- Along every run whose steps meet the condition the hooks are undone. -/
theorem hooksUndone_along {vendorCert secure : Bool} {events : List Event}
    (h : Along (step vendorCert) Cond (initial vendorCert secure) events) :
    Along (step vendorCert) (HooksUndone vendorCert) (initial vendorCert secure) events :=
  Runs.along_of_invariant (fun _ _ hs hcond => hs.step hcond) (fun _ _ hs hcond => hs.hooksUndone hcond)
    (inv_initial vendorCert secure) h

/-! ## Runs with and without the condition -/

/-- A second stage that loads an image, starts it in vain and exits. -/
theorem hooksUndone_along_exit :
    Along (step true) (HooksUndone true) (initial true true)
      [.loadImage, .startImage, .startReturn true, .exit true none] := by
  refine hooksUndone_along ⟨?_, ?_, ?_, ?_, trivial⟩
  all_goals
    intro hstopped
    refine ⟨fun secure hsecure => ?_, fun hreturn hpending => ?_⟩
    all_goals simp_all [State.finiSecure, step, initial, fresh, shimInit, State.apply, State.ops,
      State.pendingAfter, Services.all, State.stops]

/-- In secure mode and without a vendor certificate, the services are not hooked, and `shim_fini`
stores NULL in their slots. -/
theorem not_hooksUndone_noVendorCert :
    ¬ Along (step false) (HooksUndone false) (initial false true) [.fini true] := by
  rintro ⟨h, -⟩
  exact (h rfl).1.1.loadImage.2 rfl

end Shim.BootTable
