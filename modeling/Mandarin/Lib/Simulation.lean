import Mathlib.Logic.Relation

/-! # Forward simulation with traces

A labelled transition system runs along a list of events. One system simulates
another when every step from related states is answered by a run whose events
match the event of the step and which ends in related states again. Runs are then
matched event by event, and simulations compose.
-/

namespace Mandarin.Simulation

variable {σ σ' σ'' ε ε' ε'' : Type}

/-! ## Runs -/

inductive Run (step : σ → ε → σ → Prop) : σ → List ε → σ → Prop where
  | nil {s : σ} : Run step s [] s
  | cons {s t u : σ} {e : ε} {es : List ε} (first : step s e t) (rest : Run step t es u) :
      Run step s (e :: es) u

variable {step : σ → ε → σ → Prop} {step' : σ' → ε' → σ' → Prop} {step'' : σ'' → ε'' → σ'' → Prop}

theorem Run.single {s t : σ} {e : ε} (h : step s e t) : Run step s [e] t := .cons h .nil

theorem Run.append {s t u : σ} {es fs : List ε} (h : Run step s es t) (h' : Run step t fs u) :
    Run step s (es ++ fs) u := by
  induction h with
  | nil => exact h'
  | cons first _ ih => exact .cons first (ih h')

/-! ## Matching traces -/

/-- Every event of the first trace is matched, in order, by events of the second. -/
inductive Matches (M : ε → List ε' → Prop) : List ε → List ε' → Prop where
  | nil : Matches M [] []
  | cons {e : ε} {es : List ε} {es' rest' : List ε'} (first : M e es')
      (rest : Matches M es rest') : Matches M (e :: es) (es' ++ rest')

variable {M : ε → List ε' → Prop} {M' : ε' → List ε'' → Prop}

theorem Matches.cons_inv {e : ε} {es : List ε} {es' : List ε'} (h : Matches M (e :: es) es') :
    ∃ first rest, es' = first ++ rest ∧ M e first ∧ Matches M es rest := by
  cases h with
  | cons first rest => exact ⟨_, _, rfl, first, rest⟩

theorem Matches.nil_inv {es' : List ε'} (h : Matches M [] es') : es' = [] := by
  cases h
  rfl

theorem Matches.single_inv {e : ε} {es' : List ε'} (h : Matches M [e] es') : M e es' := by
  rcases h.cons_inv with ⟨first, rest, rfl, hfirst, hrest⟩
  rw [hrest.nil_inv, List.append_nil]
  exact hfirst

theorem Matches.append_inv {es fs : List ε} {es' : List ε'} (h : Matches M (es ++ fs) es') :
    ∃ first rest, es' = first ++ rest ∧ Matches M es first ∧ Matches M fs rest := by
  induction es generalizing es' with
  | nil => exact ⟨[], es', rfl, .nil, h⟩
  | cons e es ih =>
      rcases h.cons_inv with ⟨first, rest, rfl, hfirst, hrest⟩
      rcases ih hrest with ⟨mid, last, rfl, hmid, hlast⟩
      exact ⟨first ++ mid, last, (List.append_assoc ..).symm, .cons hfirst hmid, hlast⟩

/-- What holds of all events that match an event holds of a whole matching trace. -/
theorem Matches.forall_mem {P : ε → Prop} {Q : ε' → Prop} (h : ∀ e es', P e → M e es' → ∀ e' ∈ es', Q e')
    {es : List ε} {es' : List ε'} (hes : ∀ e ∈ es, P e) (hmatch : Matches M es es') :
    ∀ e' ∈ es', Q e' := by
  induction hmatch with
  | nil => exact fun _ he' => nomatch he'
  | cons first _ ih =>
      intro e' he'
      rcases List.mem_append.mp he' with he' | he'
      · exact h _ _ (hes _ List.mem_cons_self) first e' he'
      · exact ih (fun e he => hes e (List.mem_cons_of_mem _ he)) e' he'

/-- What holds of the whole second trace can be told of each match. -/
theorem Matches.and {Q : ε' → Prop} {es : List ε} {es' : List ε'} (h : Matches M es es')
    (hQ : ∀ e' ∈ es', Q e') : Matches (fun e es' => M e es' ∧ ∀ e' ∈ es', Q e') es es' := by
  induction h with
  | nil => exact .nil
  | cons first _ ih =>
      have hfirst := fun e' he' => hQ e' (List.mem_append_left _ he')
      exact .cons ⟨first, hfirst⟩ (ih fun e' he' => hQ e' (List.mem_append_right _ he'))

theorem Matches.mono {N : ε → List ε' → Prop} (hle : ∀ e es', M e es' → N e es') {es : List ε}
    {es' : List ε'} (h : Matches M es es') : Matches N es es' := by
  induction h with
  | nil => exact .nil
  | cons first _ ih => exact .cons (hle _ _ first) ih

/-! ## Simulations -/

def Simulates (step : σ → ε → σ → Prop) (step' : σ' → ε' → σ' → Prop) (R : σ → σ' → Prop)
    (M : ε → List ε' → Prop) : Prop :=
  ∀ s s' e t, R s s' → step s e t → ∃ es' t', Run step' s' es' t' ∧ M e es' ∧ R t t'

variable {R : σ → σ' → Prop} {R' : σ' → σ'' → Prop}

/-- Runs are matched event by event. -/
theorem Simulates.run (h : Simulates step step' R M) {s t : σ} {s' : σ'} {es : List ε}
    (hs : R s s') (hrun : Run step s es t) :
    ∃ es' t', Run step' s' es' t' ∧ Matches M es es' ∧ R t t' := by
  induction hrun generalizing s' with
  | nil => exact ⟨[], s', .nil, .nil, hs⟩
  | cons first _ ih =>
      rcases h _ _ _ _ hs first with ⟨es', m', hfirst, hM, hm⟩
      rcases ih hm with ⟨rest', t', hrest, hmatch, ht⟩
      exact ⟨es' ++ rest', t', hfirst.append hrest, .cons hM hmatch, ht⟩

/-- Events pass through both simulations. -/
theorem Simulates.comp (h : Simulates step step' R M) (h' : Simulates step' step'' R' M') :
    Simulates step step'' (Relation.Comp R R')
      (fun e es'' => ∃ es', M e es' ∧ Matches M' es' es'') := by
  rintro s s'' e t ⟨s', hs, hs'⟩ hstep
  rcases h s s' e t hs hstep with ⟨es', t', hrun, hM, ht⟩
  rcases h'.run hs' hrun with ⟨es'', t'', hrun', hmatch, ht'⟩
  exact ⟨es'', t'', hrun', ⟨es', hM, hmatch⟩, t', ht, ht'⟩

theorem Simulates.mono {N : ε → List ε' → Prop} (h : Simulates step step' R M)
    (hle : ∀ e es', M e es' → N e es') : Simulates step step' R N := by
  intro s s' e t hs hstep
  rcases h s s' e t hs hstep with ⟨es', t', hrun, hM, ht⟩
  exact ⟨es', t', hrun, hle _ _ hM, ht⟩

theorem Simulates.refl {M : ε → List ε → Prop} (hM : ∀ e, M e [e]) : Simulates step step Eq M := by
  rintro s s' e t rfl hstep
  exact ⟨[e], t, .single hstep, hM e, rfl⟩

end Mandarin.Simulation
