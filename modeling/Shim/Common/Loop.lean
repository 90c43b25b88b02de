import Mathlib.Algebra.GroupWithZero.Nat
import Mathlib.Logic.Relation
import Mathlib.Data.Nat.Notation
import Mathlib.Tactic.Common

/-! # Loops that keep a record

A loop is given by its turn: the record of the turn, and the state to go on with or the result. All
turns of a run meet a condition exactly if the turns at all the states it comes to do; that the run
ends follows where turns that meet the condition make a measure smaller.
-/

namespace Loop

open Relation (ReflTransGen)

variable {σ τ ρ : Type*}

/-- The turns from `s` on and the result; `none` where `fuel` turns are not enough. -/
def run (turn : σ → τ × (σ ⊕ ρ)) : (fuel : ℕ) → σ → Option (List τ × ρ)
  | 0, _ => none
  | fuel + 1, s =>
    match (turn s).2 with
    | .inr r => some ([(turn s).1], r)
    | .inl s' => (run turn fuel s').map fun rest => ((turn s).1 :: rest.1, rest.2)

/-- The loop goes on from `s` with `s'`. -/
def Next (turn : σ → τ × (σ ⊕ ρ)) (s s' : σ) : Prop := (turn s).2 = .inl s'

/-- The loop comes from `s` to `s'`. -/
def Reaches (turn : σ → τ × (σ ⊕ ρ)) : σ → σ → Prop := ReflTransGen (Next turn)

/-- The loop ends, and every turn meets `P`. -/
def EndsWith (turn : σ → τ × (σ ⊕ ρ)) (P : τ → Prop) (s : σ) : Prop :=
  ∃ fuel turns r, run turn fuel s = some (turns, r) ∧ ∀ t ∈ turns, P t

variable {turn : σ → τ × (σ ⊕ ρ)} {P : τ → Prop} {Inv : σ → Prop} {s s' : σ}

/-- A turn that stops ends the run. -/
theorem run_stop {r : ρ} (h : (turn s).2 = .inr r) (fuel : ℕ) :
    run turn (fuel + 1) s = some ([(turn s).1], r) := by
  rw [run, h]

/-- A turn that goes on is in front of the run from the next state. -/
theorem run_next (h : Next turn s s') (fuel : ℕ) :
    run turn (fuel + 1) s =
      (run turn fuel s').map fun rest => ((turn s).1 :: rest.1, rest.2) := by
  rw [run, h]

/-- A run takes the turns of the states it comes to. -/
theorem EndsWith.at_reached (h : EndsWith turn P s) (hreaches : Reaches turn s s') :
    P (turn s').1 := by
  obtain ⟨fuel, turns, r, hrun, hall⟩ := h
  induction fuel generalizing s turns with
  | zero => cases hrun
  | succ fuel ih =>
    rcases hreaches.cases_head with rfl | ⟨s'', hnext, hrest⟩
    · cases hturn : (turn s).2 with
      | inr r' =>
        rw [run_stop hturn] at hrun
        obtain ⟨rfl, -⟩ := Prod.mk.inj (Option.some.inj hrun)
        exact hall _ List.mem_cons_self
      | inl s' =>
        rw [run_next hturn, Option.map_eq_some_iff] at hrun
        obtain ⟨rest, -, heq⟩ := hrun
        obtain ⟨rfl, -⟩ := Prod.mk.inj heq
        exact hall _ List.mem_cons_self
    · rw [run_next hnext, Option.map_eq_some_iff] at hrun
      obtain ⟨rest, hrun, heq⟩ := hrun
      obtain ⟨rfl, rfl⟩ := Prod.mk.inj heq
      exact ih hrest rest.1 hrun fun t ht => hall t (List.mem_cons_of_mem _ ht)

/-- A run ends with the result of a state it comes to. -/
theorem exists_reaches_stop {fuel : ℕ} {turns : List τ} {r : ρ}
    (hrun : run turn fuel s = some (turns, r)) :
    ∃ s', Reaches turn s s' ∧ (turn s').2 = .inr r := by
  induction fuel generalizing s turns with
  | zero => cases hrun
  | succ fuel ih =>
    cases hturn : (turn s).2 with
    | inr r' =>
      rw [run_stop hturn] at hrun
      obtain ⟨-, rfl⟩ := Prod.mk.inj (Option.some.inj hrun)
      exact ⟨s, .refl, hturn⟩
    | inl s'' =>
      rw [run_next hturn, Option.map_eq_some_iff] at hrun
      obtain ⟨rest, hrun, heq⟩ := hrun
      obtain ⟨-, rfl⟩ := Prod.mk.inj heq
      obtain ⟨s', hreaches, hstop⟩ := ih hrun
      exact ⟨s', hreaches.head hturn, hstop⟩

/-- There is one state only where a loop stops. -/
theorem Reaches.stop_unique {s₁ s₂ : σ} {r₁ r₂ : ρ} (h₁ : Reaches turn s s₁)
    (hr₁ : (turn s₁).2 = .inr r₁) (h₂ : Reaches turn s s₂) (hr₂ : (turn s₂).2 = .inr r₂) :
    s₁ = s₂ := by
  induction h₁ using ReflTransGen.head_induction_on with
  | refl =>
    rcases h₂.cases_head with rfl | ⟨s'', hnext, -⟩
    · rfl
    · cases hr₁.symm.trans hnext
  | head hnext _ ih =>
    rcases h₂.cases_head with rfl | ⟨s'', hnext', h₂⟩
    · cases hr₂.symm.trans hnext
    · cases hnext.symm.trans hnext'
      exact ih h₂

/-- An invariant that turns keep holds wherever the loop comes to. -/
theorem Reaches.invariant (hreaches : Reaches turn s s') (hs : Inv s)
    (hnext : ∀ s₁ s₂, Reaches turn s s₁ → Inv s₁ → Next turn s₁ s₂ → Inv s₂) : Inv s' := by
  induction hreaches with
  | refl => exact hs
  | tail hreaches hstep ih => exact hnext _ _ hreaches ih hstep

/-- A loop whose turns make a measure smaller ends before that many turns, with the turns of the
states it comes to. -/
theorem exists_run_of_measure (measure : σ → ℕ)
    (hturn : ∀ s', Reaches turn s s' → P (turn s').1)
    (hless : ∀ s₁ s₂, Reaches turn s s₁ → Next turn s₁ s₂ → measure s₂ < measure s₁) {fuel : ℕ}
    (hfuel : measure s < fuel) :
    ∃ turns r, run turn fuel s = some (turns, r) ∧ ∀ t ∈ turns, P t := by
  induction fuel generalizing s with
  | zero => exact absurd hfuel (Nat.not_lt_zero _)
  | succ fuel ih =>
    cases hresult : (turn s).2 with
    | inr r => exact ⟨_, r, run_stop hresult fuel, by simpa using hturn s .refl⟩
    | inl s' =>
      have hnext : Next turn s s' := hresult
      obtain ⟨turns, r, hrun, hall⟩ := ih (fun s₁ h => hturn s₁ (h.head hnext))
        (fun s₁ s₂ h => hless s₁ s₂ (h.head hnext))
        (Nat.lt_of_lt_of_le (hless s s' .refl hnext) (Nat.le_of_lt_succ hfuel))
      refine ⟨(turn s).1 :: turns, r, ?_, ?_⟩
      · rw [run_next hnext, hrun, Option.map_some]
      · exact List.forall_mem_cons.mpr ⟨hturn s .refl, hall⟩

/-- A loop whose measure falls in every turn ends, with the same property of each turn. -/
theorem endsWith_of_measure (measure : σ → ℕ)
    (hturn : ∀ s', Reaches turn s s' → P (turn s').1)
    (hless : ∀ s₁ s₂, Reaches turn s s₁ → Next turn s₁ s₂ → measure s₂ < measure s₁) :
    EndsWith turn P s :=
  ⟨measure s + 1, exists_run_of_measure measure hturn hless (Nat.lt_succ_self _)⟩

section AtMostOnce

variable {p : τ → Bool} (Pending : σ → Prop) {fuel : ℕ} {turns : List τ} {r : ρ}

/-- What is no longer pending is not done in any turn. -/
theorem countP_eq_zero {Pending : σ → Prop} (hpending : ∀ s, p (turn s).1 = true → Pending s)
    (hstays : ∀ s s', Next turn s s' → ¬ Pending s → ¬ Pending s') (hs : ¬ Pending s)
    (hrun : run turn fuel s = some (turns, r)) : turns.countP p = 0 := by
  have hfirst : ¬ p (turn s).1 = true := fun h => hs (hpending s h)
  induction fuel generalizing s turns with
  | zero => cases hrun
  | succ fuel ih =>
    cases hturn : (turn s).2 with
    | inr r' =>
      rw [run_stop hturn] at hrun
      obtain ⟨rfl, -⟩ := Prod.mk.inj (Option.some.inj hrun)
      simp [hfirst]
    | inl s' =>
      rw [run_next hturn, Option.map_eq_some_iff] at hrun
      obtain ⟨rest, hrun, heq⟩ := hrun
      obtain ⟨rfl, rfl⟩ := Prod.mk.inj heq
      have hs' := hstays s s' hturn hs
      rw [List.countP_cons_of_neg hfirst]
      exact ih hs' hrun fun h => hs' (hpending s' h)

/-- A turn that needs something pending, and leaves it over for good, is taken at most once. -/
theorem countP_le_one (hpending : ∀ s, p (turn s).1 = true → Pending s)
    (hover : ∀ s s', Next turn s s' → p (turn s).1 = true → ¬ Pending s')
    (hstays : ∀ s s', Next turn s s' → ¬ Pending s → ¬ Pending s')
    (hrun : run turn fuel s = some (turns, r)) : turns.countP p ≤ 1 := by
  induction fuel generalizing s turns with
  | zero => cases hrun
  | succ fuel ih =>
    cases hturn : (turn s).2 with
    | inr r' =>
      rw [run_stop hturn] at hrun
      obtain ⟨rfl, -⟩ := Prod.mk.inj (Option.some.inj hrun)
      exact List.countP_le_length
    | inl s' =>
      rw [run_next hturn, Option.map_eq_some_iff] at hrun
      obtain ⟨rest, hrun, heq⟩ := hrun
      obtain ⟨rfl, rfl⟩ := Prod.mk.inj heq
      by_cases hp : p (turn s).1 = true
      · have hrest := countP_eq_zero hpending hstays (hover s s' hturn hp) hrun
        rw [List.countP_cons_of_pos hp]
        omega
      · rw [List.countP_cons_of_neg hp]
        exact ih hrun

end AtMostOnce

end Loop
