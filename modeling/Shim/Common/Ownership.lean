import Mathlib.Algebra.GroupWithZero.Nat
import Mathlib.Data.List.Nodup
import Mathlib.Tactic.Common
import Mathlib.Data.Nat.Notation

/-! # Ownership of allocations

What is done to an allocation brings it from one stage to the next; a deed that its stage does not
allow (a second release, a use after it) leads nowhere. A run over several allocations is judged by
the deeds on each of them.
-/

namespace Ownership

/-- The stages of an allocation. -/
inductive Stage
  | unallocated
  | live
  | released
  deriving DecidableEq

/-- What a program does to an allocation. -/
inductive Deed
  | allocate
  | use
  | release
  deriving DecidableEq

/-- The stage after a deed, if the stage before allows it. -/
def Deed.step : Stage → Deed → Option Stage
  | .unallocated, .allocate => some .live
  | .live, .use => some .live
  | .live, .release => some .released
  | _, _ => none

/-- A deed, and the allocation it is done to. -/
structure Act (β : Type*) where
  deed : Deed
  subject : β
  deriving DecidableEq

variable {β : Type*} [DecidableEq β]

/-- The deeds on one allocation, in their order. -/
def deeds (b : β) (acts : List (Act β)) : List Deed :=
  (acts.filter fun a => a.subject = b).map Act.deed

/-- The deeds are allowed one after the other, and leave nothing live. -/
def Settled (l : List Deed) : Prop :=
  l.foldlM Deed.step .unallocated = some .unallocated ∨
    l.foldlM Deed.step .unallocated = some .released

instance : DecidablePred Settled := fun _ => inferInstanceAs (Decidable (_ ∨ _))

/-- Every allocation that becomes live is released once, and not used after that. -/
def AllSettled (acts : List (Act β)) : Prop := ∀ b, Settled (deeds b acts)

/-- Where nothing is done, everything is settled. -/
theorem allSettled_nil : AllSettled ([] : List (Act β)) := fun _ => .inl rfl

/-- The same deed on some of the allocations, one after the other. -/
def each (d : Deed) (l : List β) (p : β → Bool) : List (Act β) := (l.filter p).map (Act.mk d)

variable {b : β} {l : List β} {p : β → Bool}

@[simp] theorem deeds_nil : deeds b [] = [] := rfl

/-- What is done to a block, one part behind the other. -/
@[simp] theorem deeds_append (acts acts' : List (Act β)) :
    deeds b (acts ++ acts') = deeds b acts ++ deeds b acts' := by
  simp [deeds]

/-- On one allocation the deed is done once, if it is among them. -/
theorem deeds_each (d : Deed) (hl : l.Nodup) (hb : b ∈ l) :
    deeds b (each d l p) = if p b then [d] else [] := by
  have hcount : (l.filter p).count b = if p b then 1 else 0 := by
    rw [(hl.filter p).count]
    simp [hb]
  have hdeeds : deeds b (each d l p) = List.replicate ((l.filter p).count b) d := by
    rw [deeds, each, List.filter_map, List.map_map]
    change ((l.filter p).filter fun c => c = b).map (fun _ => d) = _
    rw [List.filter_eq, List.map_replicate]
  rw [hdeeds, hcount]
  split <;> rfl

end Ownership
