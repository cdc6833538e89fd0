import Mathlib.Order.WellFounded

/-! # Loops with a measure

A loop is a step function that either stops with a result or continues with a
new state. A measure into a well-founded relation that every continuing step
decreases makes the loop a total function, and one rule proves properties of it:
a relation between state and result that holds where the loop stops and is
passed back through a step holds of every run.
-/

namespace Mandarin.Loop

inductive Outcome (σ ρ : Type) where
  | again (s : σ)
  | done (r : ρ)
  deriving DecidableEq, Repr

variable {σ ρ β : Type} [WellFoundedRelation β]

def Decreases (step : σ → Outcome σ ρ) (measure : σ → β) : Prop :=
  ∀ s s', step s = .again s' → WellFoundedRelation.rel (measure s') (measure s)

def run (step : σ → Outcome σ ρ) (measure : σ → β) (h : Decreases step measure) (s : σ) : ρ :=
  match _hs : step s with
  | .done r => r
  | .again s' => run step measure h s'
termination_by measure s
decreasing_by exact h s s' ‹_›

variable {step : σ → Outcome σ ρ} {measure : σ → β} {h : Decreases step measure}

theorem run_done {s : σ} {r : ρ} (hs : step s = .done r) : run step measure h s = r := by
  rw [run]
  split
  · rename_i r' hr'
    rw [hs] at hr'
    cases hr'
    rfl
  · rename_i s' hs'
    rw [hs] at hs'
    cases hs'

theorem run_again {s s' : σ} (hs : step s = .again s') :
    run step measure h s = run step measure h s' := by
  rw [run]
  split
  · rename_i r hr
    rw [hs] at hr
    cases hr
  · rename_i t ht
    rw [hs] at ht
    cases ht
    rfl

/-- A relation that holds where the loop stops and passes back through its steps
relates every state to its result. -/
theorem run_rel {R : σ → ρ → Prop} (hdone : ∀ s r, step s = .done r → R s r)
    (hagain : ∀ s s' r, step s = .again s' → R s' r → R s r) (s : σ) :
    R s (run step measure h s) := by
  cases hs : step s with
  | done r =>
      rw [run_done hs]
      exact hdone s r hs
  | again s' =>
      rw [run_again hs]
      exact hagain s s' _ hs (run_rel hdone hagain s')
termination_by measure s
decreasing_by exact h s s' ‹_›

/-- An invariant of the steps holds where the loop stops. -/
theorem run_inv {I : σ → Prop} {post : ρ → Prop} (hdone : ∀ s r, I s → step s = .done r → post r)
    (hagain : ∀ s s', I s → step s = .again s' → I s') {s : σ} (hs : I s) :
    post (run step measure h s) := by
  have hrel : I s → post (run step measure h s) := by
    apply @run_rel σ ρ β _ step measure h (fun s r => I s → post r)
    · intro s r hdone' hI
      exact hdone s r hI hdone'
    · intro s s' r hs' hpost hI
      exact hpost (hagain s s' hI hs')
  exact hrel hs

end Mandarin.Loop
