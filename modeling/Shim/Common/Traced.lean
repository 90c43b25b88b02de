import Shim.Common.Event

/-! # Runs with their events

A run that may stop early, together with the events on its way there. `Meets size x P` is the
triple of such a run over a buffer of `size` bytes: nothing it does goes wrong, also where it stops
early, and a result satisfies `P`. What it computes is that of the run without events.
-/

/-- A run that may stop early with an `ε`, and its events. -/
structure Traced (ε α : Type) where
  events : List Event
  result : Except ε α

namespace Traced

open Event (Inside AllSound)

variable {ε α β : Type}

/-- First `x`, and on its result `f`. -/
def bind (x : Traced ε α) (f : α → Traced ε β) : Traced ε β :=
  match x.result with
  | .error e => ⟨x.events, .error e⟩
  | .ok a => ⟨x.events ++ (f a).events, (f a).result⟩

instance : Monad (Traced ε) where
  pure a := ⟨[], .ok a⟩
  bind := bind

/-- A single event. -/
def event (e : Event) : Traced ε Unit := ⟨[e], .ok ()⟩

/-- The `n` bytes at `o` are read. -/
def read (o n : ℕ) : Traced ε Unit := event (.read o n)

/-- An event if `c` holds. -/
def eventWhen (c : Prop) [Decidable c] (e : Event) : Traced ε Unit := if c then event e else pure ()

/-- The subtraction `a - b` is computed. -/
def subtract (a b : ℕ) : Traced ε Unit := event (.subtract a b)

/-- A step without events. -/
def lift (x : Except ε α) : Traced ε α := ⟨[], x⟩

/-! ## Results -/

@[simp] theorem result_pure (a : α) : (pure a : Traced ε α).result = .ok a := rfl

/-- The results go through both steps. -/
@[simp] theorem result_bind (x : Traced ε α) (f : α → Traced ε β) :
    (x >>= f).result = x.result >>= fun a => (f a).result := by
  change (bind x f).result = _
  unfold bind
  cases x.result <;> rfl

@[simp] theorem result_read (o n : ℕ) : (read o n : Traced ε Unit).result = .ok () := rfl

@[simp] theorem result_subtract (a b : ℕ) : (subtract a b : Traced ε Unit).result = .ok () := rfl

/-- An event gives nothing. -/
@[simp] theorem result_eventWhen (c : Prop) [Decidable c] (e : Event) :
    (eventWhen c e : Traced ε Unit).result = .ok () := by
  unfold eventWhen
  split <;> rfl

@[simp] theorem result_lift (x : Except ε α) : (lift x).result = x := rfl

/-! ## Events -/

section Events

variable {size : ℕ} {x : Traced ε α} {f : α → Traced ε β} {a : α}

/-- Where `x` gives a result, the run goes on with it. -/
theorem allSound_bind (h : x.result = .ok a) : AllSound size (x >>= f).events ↔
    AllSound size x.events ∧ AllSound size (f a).events := by
  change AllSound size (Traced.bind x f).events ↔ _
  unfold Traced.bind
  rw [h]
  exact Event.allSound_append

/-- An event in front is sound, and so is what follows. -/
theorem allSound_event_bind {e : Event} {f : Unit → Traced ε β} :
    AllSound size (event e >>= f).events ↔ e.Sound size ∧ AllSound size (f ()).events := by
  rw [allSound_bind (a := ()) rfl]
  simp [event]

/-- What a plain computation gives is gone on with. -/
theorem allSound_lift_bind {x : Except ε α} (h : x = .ok a) :
    AllSound size (lift x >>= f).events ↔ AllSound size (f a).events := by
  rw [allSound_bind (a := a) h]
  exact and_iff_right Event.allSound_nil

@[simp] theorem allSound_pure : AllSound size (pure a : Traced ε α).events := Event.allSound_nil

end Events

/-! ## Triples -/

/-- Nothing goes wrong on the way, and a result satisfies `P`. -/
structure Meets (size : ℕ) (x : Traced ε α) (P : α → Prop) : Prop where
  sound : AllSound size x.events
  result : ∀ a, x.result = .ok a → P a

variable {size : ℕ} {P : α → Prop} {Q : β → Prop}

/-- A value meets what holds of it. -/
theorem meets_pure {a : α} (h : P a) : Meets size (pure a : Traced ε α) P := by
  refine ⟨Event.allSound_nil, fun b hb => ?_⟩
  obtain rfl := Except.ok.inj hb
  exact h

/-- A second step may use what the first one meets. -/
theorem Meets.bind {x : Traced ε α} {f : α → Traced ε β} (hx : Meets size x P)
    (hf : ∀ a, P a → Meets size (f a) Q) : Meets size (x >>= f) Q := by
  change Meets size (Traced.bind x f) Q
  unfold Traced.bind
  cases hresult : x.result with
  | error e =>
    refine ⟨hx.sound, fun b hb => ?_⟩
    cases hb
  | ok a =>
    have ha := hf a (hx.result a hresult)
    exact ⟨Event.allSound_append.mpr ⟨hx.sound, ha.sound⟩, ha.result⟩

/-- A sound event meets anything. -/
theorem meets_event {e : Event} (h : e.Sound size) :
    Meets size (event e : Traced ε Unit) fun _ => True :=
  ⟨by simpa [event] using h, fun _ _ => trivial⟩

/-- A plain computation meets what holds of its result. -/
theorem meets_lift {x : Except ε α} (h : ∀ a, x = .ok a → P a) : Meets size (lift x) P :=
  ⟨Event.allSound_nil, h⟩

/-- A read inside is sound. -/
theorem meets_read {o n : ℕ} (h : o + n ≤ size) :
    Meets size (read o n : Traced ε Unit) fun _ => True :=
  meets_event (Event.sound_read.mpr (.inr h))

/-- A read in front of the rest. -/
theorem meets_read_bind {o n : ℕ} {f : Unit → Traced ε β} (h : o + n ≤ size)
    (hf : Meets size (f ()) Q) : Meets size (read o n >>= f) Q :=
  (meets_read h).bind fun _ _ => hf

/-- An event that may be left out is sound when it is not. -/
theorem meets_eventWhen_bind {c : Prop} [Decidable c] {e : Event} {f : Unit → Traced ε β}
    (h : c → e.Sound size) (hf : Meets size (f ()) Q) : Meets size (eventWhen c e >>= f) Q := by
  unfold eventWhen
  split
  · exact (meets_event (h ‹_›)).bind fun _ _ => hf
  · exact (meets_pure trivial).bind fun _ (_ : True) => hf

/-- A subtraction that does not wrap is sound. -/
theorem meets_subtract_bind {a b : ℕ} {f : Unit → Traced ε β} (h : b ≤ a)
    (hf : Meets size (f ()) Q) : Meets size (subtract a b >>= f) Q :=
  (meets_event (Event.sound_subtract.mpr h)).bind fun _ _ => hf

end Traced
