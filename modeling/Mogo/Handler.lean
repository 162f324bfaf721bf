import Mathlib

/-!
# Handlers That May Throw

A handler runs to completion on a state, and either returns or throws; what it has done to the
state before it throws stays done. In Lean this is `EStateM`.

`Moves R m` says that every run of `m`, whether it returns or throws, leads from a state to one
that `R` relates it to. For a reflexive and transitive `R` the judgement follows the program text.

`Returns P m` says that `P` holds of every value that `m` returns, from whatever state.

`Respects R m` is about two runs: from states that `R` relates, both end in the same way, in states
that `R` relates. So `m` does not depend on what `R` leaves open.

## Main results

* `Moves.bind`, `Moves.tryCatch`, `Moves.of_modify`: the rules of `Moves`.
* `Returns.bind`, `Returns.tryCatch`: those of `Returns`.
* `Respects.bind`, `Respects.tryCatch`, `Respects.get_bind`: those of `Respects`.
-/

namespace Mogo

namespace Handler

variable {ε σ α β : Type}

/-- The state a handler ends in, whether it returns or throws. -/
def final (m : EStateM ε σ α) (s : σ) : σ :=
  match m s with
  | .ok _ s' => s'
  | .error _ s' => s'

/-- Every run of the handler follows the relation. -/
def Moves (R : σ → σ → Prop) (m : EStateM ε σ α) : Prop := ∀ s, R s (final m s)

/-- A handler that returns leaves the state it has returned with. -/
theorem final_of_ok {m : EStateM ε σ α} {s s' : σ} {a : α} (h : m s = .ok a s') :
    final m s = s' := by
  rw [final, h]

/-- A handler that throws leaves the state in which it has thrown. -/
theorem final_of_error {m : EStateM ε σ α} {s s' : σ} {e : ε} (h : m s = .error e s') :
    final m s = s' := by
  rw [final, h]

/-- Sequencing after a run that returned. -/
theorem bind_of_ok {m : EStateM ε σ α} {f : α → EStateM ε σ β} {s s' : σ} {a : α}
    (h : m s = .ok a s') : (m >>= f) s = f a s' := by
  change EStateM.bind m f s = _
  rw [EStateM.bind, h]

/-- Nothing runs after a throw: the sequence throws what its first part threw, in the same state. -/
theorem bind_of_error {m : EStateM ε σ α} {f : α → EStateM ε σ β} {s s' : σ} {e : ε}
    (h : m s = .error e s') : (m >>= f) s = .error e s' := by
  change EStateM.bind m f s = _
  rw [EStateM.bind, h]

/-- A handler that begins by looking at the state. -/
theorem get_bind (f : σ → EStateM ε σ α) (s : σ) : (get >>= f) s = f s s := rfl

/-- A run that returns is not caught, and its handler does not run. -/
theorem tryCatch_of_ok {m : EStateM ε σ α} {h : ε → EStateM ε σ α} {s s' : σ} {a : α}
    (hm : m s = .ok a s') : (tryCatch m h) s = .ok a s' := by
  change EStateM.tryCatch m h s = _
  rw [EStateM.tryCatch, hm]

/-- A throw is caught in the state it has left. -/
theorem tryCatch_of_error {m : EStateM ε σ α} {h : ε → EStateM ε σ α} {s s' : σ} {e : ε}
    (hm : m s = .error e s') : (tryCatch m h) s = h e s' := by
  change EStateM.tryCatch m h s = _
  rw [EStateM.tryCatch, hm]
  rfl

namespace Moves

variable {R S : σ → σ → Prop}

/-- A handler that moves within a relation moves within every larger one. -/
theorem mono {m : EStateM ε σ α} (h : Moves R m) (hRS : ∀ s s', R s s' → S s s') : Moves S m :=
  fun s => hRS s _ (h s)

/-- A change of the state that does not depend on anything. -/
theorem of_modify {f : σ → σ} (h : ∀ s, R s (f s)) :
    Moves R (modify f : EStateM ε σ PUnit) := h

/-- A branch moves within a relation when both sides do. -/
theorem ite {p : Prop} [Decidable p] {m m' : EStateM ε σ α} (h : Moves R m) (h' : Moves R m') :
    Moves R (if p then m else m') := by
  split
  · exact h
  · exact h'

/-- A handler that does nothing moves within every reflexive relation. -/
theorem pure [Std.Refl R] (a : α) : Moves R (Pure.pure a : EStateM ε σ α) := fun s => refl_of R s

/-- A handler that throws moves within every reflexive relation: the state is kept. -/
theorem throw [Std.Refl R] (e : ε) : Moves R (MonadExcept.throw e : EStateM ε σ α) :=
  fun s => refl_of R s

variable [IsTrans σ R]

/-- Both parts of a sequence move within a transitive relation, so the sequence does. -/
theorem bind {m : EStateM ε σ α} {f : α → EStateM ε σ β} (hm : Moves R m)
    (hf : ∀ a, Moves R (f a)) : Moves R (m >>= f) := by
  intro s
  have h := hm s
  cases hrun : m s with
  | ok a s' =>
      rw [final_of_ok hrun] at h
      rw [final, bind_of_ok hrun]
      exact trans_of R h (hf a s')
  | error e s' =>
      rw [final_of_error hrun] at h
      rwa [final_of_error (bind_of_error hrun)]

/-- A catch moves within the relation when its body and its handler do. -/
theorem tryCatch {m : EStateM ε σ α} {h : ε → EStateM ε σ α} (hm : Moves R m)
    (hh : ∀ e, Moves R (h e)) : Moves R (MonadExcept.tryCatch m h) := by
  intro s
  have hfinal := hm s
  cases hrun : m s with
  | ok a s' =>
      rw [final_of_ok hrun] at hfinal
      rwa [final_of_ok (tryCatch_of_ok hrun)]
  | error e s' =>
      rw [final_of_error hrun] at hfinal
      rw [final, tryCatch_of_error hrun]
      exact trans_of R hfinal (hh e s')

end Moves

/-- Every value the handler returns satisfies the predicate. -/
def Returns (P : α → Prop) (m : EStateM ε σ α) : Prop := ∀ s a s', m s = .ok a s' → P a

namespace Returns

variable {P : α → Prop}

/-- A value that is returned at once has its property. -/
theorem pure {a : α} (h : P a) : Returns P (Pure.pure a : EStateM ε σ α) := by
  intro s b s' hrun
  obtain ⟨rfl, -⟩ := EStateM.Result.ok.inj hrun
  exact h

/-- A handler that throws returns nothing, so nothing is asked of it. -/
theorem throw (e : ε) : Returns P (MonadExcept.throw e : EStateM ε σ α) :=
  fun _ _ _ hrun => nomatch hrun

/-- Sequencing: the last handler decides. -/
theorem bind {m : EStateM ε σ β} {f : β → EStateM ε σ α} (hf : ∀ b, Returns P (f b)) :
    Returns P (m >>= f) := by
  intro s a s' hrun
  cases hm : m s with
  | ok b s₁ =>
      rw [bind_of_ok hm] at hrun
      exact hf b s₁ a s' hrun
  | error e s₁ =>
      rw [bind_of_error hm] at hrun
      cases hrun

/-- Sequencing, where the last handler may count on what the first returns. -/
theorem bind_of {Q : β → Prop} {m : EStateM ε σ β} {f : β → EStateM ε σ α} (hm : Returns Q m)
    (hf : ∀ b, Q b → Returns P (f b)) : Returns P (m >>= f) := by
  intro s a s' hrun
  cases hstep : m s with
  | ok b s₁ =>
      rw [bind_of_ok hstep] at hrun
      exact hf b (hm s b s₁ hstep) s₁ a s' hrun
  | error e s₁ =>
      rw [bind_of_error hstep] at hrun
      cases hrun

/-- A branch returns what both sides return. -/
theorem ite {p : Prop} [Decidable p] {m m' : EStateM ε σ α} (h : Returns P m)
    (h' : Returns P m') : Returns P (if p then m else m') := by
  split
  · exact h
  · exact h'

/-- Catching: the body returns, or what catches its throw does. -/
theorem tryCatch {m : EStateM ε σ α} {h : ε → EStateM ε σ α} (hm : Returns P m)
    (hh : ∀ e, Returns P (h e)) : Returns P (MonadExcept.tryCatch m h) := by
  intro s a s' hrun
  cases hbody : m s with
  | ok b s₁ =>
      rw [tryCatch_of_ok hbody] at hrun
      exact hm s a s' (hbody.trans hrun)
  | error e s₁ =>
      rw [tryCatch_of_error hbody] at hrun
      exact hh e s₁ a s' hrun

end Returns

/-- Two runs end in the same way, in related states. -/
inductive Alike (R : σ → σ → Prop) :
    EStateM.Result ε σ α → EStateM.Result ε σ α → Prop
  | ok (a : α) {s t : σ} (h : R s t) : Alike R (.ok a s) (.ok a t)
  | error (e : ε) {s t : σ} (h : R s t) : Alike R (.error e s) (.error e t)

/-- Runs from related states are alike. -/
def Respects (R : σ → σ → Prop) (m : EStateM ε σ α) : Prop :=
  ∀ ⦃s t⦄, R s t → Alike R (m s) (m t)

namespace Respects

variable {R : σ → σ → Prop}

/-- A handler that does nothing respects every relation. -/
theorem pure (a : α) : Respects R (Pure.pure a : EStateM ε σ α) := fun _ _ hst => .ok a hst

/-- A handler that throws in every state respects every relation. -/
theorem throw (e : ε) : Respects R (MonadExcept.throw e : EStateM ε σ α) :=
  fun _ _ hst => .error e hst

/-- A change of the state that keeps related states related. -/
theorem of_modify {f : σ → σ} (h : ∀ s t, R s t → R (f s) (f t)) :
    Respects R (modify f : EStateM ε σ PUnit) := by
  intro s t hst
  change Alike R (.ok PUnit.unit (f s)) (.ok PUnit.unit (f t))
  exact .ok _ (h s t hst)

/-- A branch on a condition that does not depend on the state respects what both sides do. -/
theorem ite {p : Prop} [Decidable p] {m m' : EStateM ε σ α} (h : Respects R m)
    (h' : Respects R m') : Respects R (if p then m else m') := by
  split
  · exact h
  · exact h'

/-- A sequence respects the relation when both of its parts do. -/
theorem bind {m : EStateM ε σ β} {f : β → EStateM ε σ α} (hm : Respects R m)
    (hf : ∀ b, Respects R (f b)) : Respects R (m >>= f) := by
  intro s t hst
  have halike := hm hst
  cases hs : m s with
  | ok b s' =>
      cases ht : m t with
      | ok b' t' =>
          rw [hs, ht] at halike
          cases halike with
          | ok _ hst' =>
              rw [bind_of_ok hs, bind_of_ok ht]
              exact hf b hst'
      | error e t' =>
          rw [hs, ht] at halike
          cases halike
  | error e s' =>
      cases ht : m t with
      | ok b t' =>
          rw [hs, ht] at halike
          cases halike
      | error e' t' =>
          rw [hs, ht] at halike
          cases halike with
          | error _ hst' =>
              rw [bind_of_error hs, bind_of_error ht]
              exact .error e hst'

/-- A handler that begins by looking at the state. -/
theorem get_bind {f : σ → EStateM ε σ α} (h : ∀ s t, R s t → Alike R (f s s) (f t t)) :
    Respects R (get >>= f) := h

/-- A catch respects the relation when its body and its handler do. -/
theorem tryCatch {m : EStateM ε σ α} {h : ε → EStateM ε σ α} (hm : Respects R m)
    (hh : ∀ e, Respects R (h e)) : Respects R (MonadExcept.tryCatch m h) := by
  intro s t hst
  have halike := hm hst
  cases hs : m s with
  | ok a s' =>
      cases ht : m t with
      | ok a' t' =>
          rw [hs, ht] at halike
          rwa [tryCatch_of_ok hs, tryCatch_of_ok ht]
      | error e t' =>
          rw [hs, ht] at halike
          cases halike
  | error e s' =>
      cases ht : m t with
      | ok a t' =>
          rw [hs, ht] at halike
          cases halike
      | error e' t' =>
          rw [hs, ht] at halike
          cases halike with
          | error _ hst' =>
              rw [tryCatch_of_error hs, tryCatch_of_error ht]
              exact hh e hst'

end Respects

end Handler

end Mogo
