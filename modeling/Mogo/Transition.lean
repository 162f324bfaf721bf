import Mathlib.Data.List.Basic
import Mathlib.Data.List.Induction

/-!
# Transition Systems

A system with a partial step function: `step s e` is what the event `e` makes of the state `s`, if
it can happen there. Runs are lists of events. `Reach` follows the runs all of whose steps meet a
condition.

## Main results

* `Reach.invariant`: what allowed steps keep holds in every state they lead to.
* `run_invariant`: the same along one run.
* `run_history`: the same for what depends on the run so far, such as a state it has passed.
* `run_filter`: an observer who does not see some of the events of a run sees what the run without
  them would have shown.
-/

namespace Mogo

namespace Transition

variable {σ ε : Type} (step : σ → ε → Option σ)

/-- What a list of events makes of a state, if they can happen one after the other. -/
def run (s : σ) (es : List ε) : Option σ := es.foldlM step s

/-- The states that runs from `s₀` lead to whose steps are all allowed. -/
inductive Reach (allowed : σ → ε → Prop) (s₀ : σ) : σ → Prop
  | start : Reach allowed s₀ s₀
  | step {s s' : σ} {e : ε} (h : Reach allowed s₀ s) (hallowed : allowed s e)
      (hstep : step s e = some s') : Reach allowed s₀ s'

variable {step} {allowed allowed' : σ → ε → Prop} {s₀ s s' : σ}

/-- What holds at the start and is kept by every allowed step holds in every state they lead to. -/
theorem Reach.invariant {I : σ → Prop} (h : Reach step allowed s₀ s) (hstart : I s₀)
    (hkeep : ∀ s e s', allowed s e → I s → step s e = some s' → I s') : I s := by
  induction h with
  | start => exact hstart
  | step _ hallowed hstep ih => exact hkeep _ _ _ hallowed ih hstep

/-- What is reached by steps of one kind is reached by steps of any wider kind. -/
theorem Reach.mono (h : Reach step allowed s₀ s) (hsub : ∀ s e, allowed s e → allowed' s e) :
    Reach step allowed' s₀ s := by
  induction h with
  | start => exact .start
  | step _ hallowed hstep ih => exact .step ih (hsub _ _ hallowed) hstep

/-- A run takes its first step, and the rest of the run from there. -/
theorem run_cons (s : σ) (e : ε) (es : List ε) :
    run step s (e :: es) = (step s e).bind fun s' => run step s' es := rfl

/-- A run is made one part after the other. -/
theorem run_append (s : σ) (es es' : List ε) :
    run step s (es ++ es') = (run step s es).bind fun s' => run step s' es' :=
  List.foldlM_append

/-- What every event of a run keeps is kept by the run. -/
theorem run_invariant {I : σ → Prop} {es : List ε}
    (hkeep : ∀ e ∈ es, ∀ s s', I s → step s e = some s' → I s') (hs : I s)
    (hrun : run step s es = some s') : I s' := by
  induction es generalizing s with
  | nil => exact Option.some.inj hrun ▸ hs
  | cons e es ih =>
      rw [run_cons] at hrun
      obtain ⟨s₁, hstep, hrest⟩ := Option.bind_eq_some_iff.mp hrun
      exact ih (fun e' he' => hkeep e' (List.mem_cons_of_mem e he'))
        (hkeep e List.mem_cons_self _ _ hs hstep) hrest

/-- A run whose steps are all allowed leads to a state that is reached. -/
theorem Reach.run {es : List ε} (h : Reach step allowed s₀ s)
    (hallowed : ∀ s, ∀ e ∈ es, allowed s e) (hrun : Transition.run step s es = some s') :
    Reach step allowed s₀ s' :=
  run_invariant (I := Reach step allowed s₀)
    (fun e he s _ hs hstep => hs.step (hallowed s e he) hstep) h hrun

/-- What holds of no events, and is kept from event to event, holds of the events of a run and of
the state they lead to. -/
theorem run_history {I : List ε → σ → Prop} {es : List ε} (hstart : I [] s₀)
    (hkeep : ∀ es s e s', run step s₀ es = some s → I es s → step s e = some s' →
      I (es ++ [e]) s')
    (hrun : run step s₀ es = some s) : I es s := by
  induction es using List.reverseRecOn generalizing s with
  | nil => exact Option.some.inj hrun ▸ hstart
  | append_singleton es e ih =>
      rw [run_append] at hrun
      obtain ⟨s₁, hbefore, hlast⟩ := Option.bind_eq_some_iff.mp hrun
      rw [run_cons] at hlast
      obtain ⟨s₂, hstep, hend⟩ := Option.bind_eq_some_iff.mp hlast
      obtain rfl := Option.some.inj hend
      exact hkeep es s₁ e s₂ hbefore (ih hbefore) hstep

variable (step) in
/-- On its way, the run from `s₀` along `es` has passed a state that satisfies `P`. -/
def Passes (P : σ → Prop) (s₀ : σ) (es : List ε) : Prop :=
  ∃ es₁ es₂ s, es = es₁ ++ es₂ ∧ run step s₀ es₁ = some s ∧ P s

/-- A run that has passed a state has passed it, however it goes on. -/
theorem Passes.append {P : σ → Prop} {es : List ε} (h : Passes step P s₀ es) (es' : List ε) :
    Passes step P s₀ (es ++ es') := by
  obtain ⟨es₁, es₂, s, rfl, hrun, hs⟩ := h
  exact ⟨es₁, es₂ ++ es', s, List.append_assoc _ _ _, hrun, hs⟩

/-- A run passes the state it comes to, so what holds there holds somewhere on the way. -/
theorem Passes.of_last {P : σ → Prop} {es : List ε} (hrun : run step s₀ es = some s) (hs : P s) :
    Passes step P s₀ es :=
  ⟨es, [], s, (List.append_nil es).symm, hrun, hs⟩

/-- **A run without its hidden events.** If a hidden step leaves a state related to what it was
related to, and a visible step can be followed from a related state, then the run can be followed
by its p events alone. -/
theorem run_filter {R : σ → σ → Prop} {p : ε → Bool} {t : σ} {es : List ε}
    (hhidden : ∀ e ∈ es, ¬ p e = true → ∀ s s' t, R s t → step s e = some s' → R s' t)
    (hvisible : ∀ e ∈ es, p e = true → ∀ s s' t, R s t → step s e = some s' →
      ∃ t', step t e = some t' ∧ R s' t')
    (hst : R s t) (hrun : run step s es = some s') :
    ∃ t', run step t (es.filter p) = some t' ∧ R s' t' := by
  induction es generalizing s t with
  | nil => exact ⟨t, rfl, Option.some.inj hrun ▸ hst⟩
  | cons e es ih =>
      rw [run_cons] at hrun
      obtain ⟨s₁, hstep, hrest⟩ := Option.bind_eq_some_iff.mp hrun
      have hih := fun t₁ (h₁ : R s₁ t₁) =>
        ih (t := t₁) (fun e' he' => hhidden e' (List.mem_cons_of_mem e he'))
          (fun e' he' => hvisible e' (List.mem_cons_of_mem e he')) h₁ hrest
      by_cases he : p e = true
      · obtain ⟨t₁, htstep, h₁⟩ := hvisible e List.mem_cons_self he s s₁ t hst hstep
        obtain ⟨t', htrun, h'⟩ := hih t₁ h₁
        refine ⟨t', ?_, h'⟩
        rw [List.filter_cons_of_pos he, run_cons, htstep]
        exact htrun
      · rw [List.filter_cons_of_neg he]
        exact hih t (hhidden e List.mem_cons_self he s s₁ t hst hstep)

end Transition

end Mogo
