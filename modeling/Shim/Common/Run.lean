import Mathlib.Algebra.GroupWithZero.Nat
import Mathlib.Tactic.Common
import Mathlib.Data.Nat.Notation

/-! # Runs of a deterministic machine

A machine is a step function on states; a run folds it over a list of events. `Along step C s es`
says that every step the run takes from `s` meets the condition `C`, in the state it is taken in.
Statements about every run have the shape "`Along` one condition implies `Along` another", and are
proved from what a single step preserves.
-/

namespace Runs

variable {σ ε : Type*}

/-- The state reached from `s` by the events `es`, in order. -/
def run (step : σ → ε → σ) (s : σ) (es : List ε) : σ :=
  es.foldl step s

/-- Every step of the run of `es` from `s` satisfies `C` in the state it starts from. -/
def Along (step : σ → ε → σ) (C : σ → ε → Prop) : σ → List ε → Prop
  | _, [] => True
  | s, e :: es => C s e ∧ Along step C (step s e) es

variable {step : σ → ε → σ} {C D : σ → ε → Prop} {Inv : σ → Prop} {s : σ} {e : ε} {es fs : List ε}

@[simp] theorem run_nil : run step s [] = s := rfl

/-- The first event is the first step. -/
@[simp] theorem run_cons : run step s (e :: es) = run step (step s e) es := rfl

@[simp] theorem along_nil : Along step C s [] := trivial

/-- The first step meets the condition, and the rest of the run does from there. -/
@[simp] theorem along_cons :
    Along step C s (e :: es) ↔ C s e ∧ Along step C (step s e) es := Iff.rfl

/-- A run in two parts: the second starts where the first one ends. -/
@[simp] theorem along_append :
    Along step C s (es ++ fs) ↔ Along step C s es ∧ Along step C (run step s es) fs := by
  induction es generalizing s with
  | nil => simp
  | cons e es ih => simp only [List.cons_append, along_cons, ih, run_cons, and_assoc]

/-- `Along` speaks about every step: the one taken after each proper prefix of the run. -/
theorem along_iff :
    Along step C s es ↔
      ∀ pre e post, es = pre ++ e :: post → C (run step s pre) e := by
  constructor
  · rintro h pre e post rfl
    rw [along_append, along_cons] at h
    exact h.2.1
  · intro h
    induction es generalizing s with
    | nil => trivial
    | cons e es ih =>
      refine ⟨h [] e es rfl, ih fun pre e' post hes => ?_⟩
      subst hes
      exact h (e :: pre) e' post rfl

/-- An invariant kept by every step that meets `C` holds at the end of a run along `C`. -/
theorem run_invariant (hstep : ∀ s e, Inv s → C s e → Inv (step s e))
    (hs : Inv s) (h : Along step C s es) : Inv (run step s es) := by
  induction es generalizing s with
  | nil => exact hs
  | cons e es ih => exact ih (hstep s e hs h.1) h.2

/-- A step condition carried by an invariant holds along the whole run. -/
theorem along_of_invariant (hstep : ∀ s e, Inv s → C s e → Inv (step s e))
    (hgood : ∀ s e, Inv s → C s e → D s e)
    (hs : Inv s) (h : Along step C s es) : Along step D s es := by
  induction es generalizing s with
  | nil => trivial
  | cons e es ih => exact ⟨hgood s e hs h.1, ih (hstep s e hs h.1) h.2⟩

/-- Conditions that agree under an invariant that they keep agree along a run. -/
theorem along_iff_of_invariant (hstep : ∀ s e, Inv s → C s e → Inv (step s e))
    (hiff : ∀ s e, Inv s → (D s e ↔ C s e)) (hs : Inv s) :
    Along step D s es ↔ Along step C s es := by
  induction es generalizing s with
  | nil => exact Iff.rfl
  | cons e es ih =>
    rw [along_cons, along_cons, hiff s e hs]
    exact and_congr_right fun h => ih (hstep s e hs h)

end Runs
