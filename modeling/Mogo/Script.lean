import Mathlib.Data.List.Basic

/-!
# Scripts Against a Fallible Service

A `Script σ α` is a program that works on a remote state of type `σ` by single calls. A
call may be answered, may fail without any effect, or may never return because the process
running the script has died; in the last case the rest of the script is lost and the state
stays as it was. `none` in the first component of a result records exactly that.

The logic is a Hoare logic with two postconditions: `Triple P m Q C` says that a run of `m`
from a state satisfying `P` ends in `Q` when it returns, and in `C` when the process died on
the way. Invariants that must survive every crash point are the case where `C` is the
invariant itself.

## Main results

* `Triple.bind`, `Triple.consequence`, `Triple.call`: the rules for sequencing, for weakening
  and for one call.
* `Triple.forEach`: the rule for a loop over a list, whose invariant may speak about the
  elements that are still to come.
* `forEach_append`: a loop over a concatenation is two loops.
-/

namespace Mogo

/-- What becomes of one call: it is answered, it fails and changes nothing, or the process
making it dies before it takes effect. -/
inductive Fate where
  | ok
  | fail
  | crash
  deriving DecidableEq, Repr

/-- A program over the state `σ`. The first component of a result is `none` when the process
died before the program returned. -/
def Script (σ α : Type) : Type := σ → Option α × σ

namespace Script

variable {σ α β γ : Type}

/-- The script that returns at once. -/
protected def pure (a : α) : Script σ α := fun s => (some a, s)

/-- Run `m`, then what `f` makes of its result; a dead process runs nothing further. -/
protected def bind (m : Script σ α) (f : α → Script σ β) : Script σ β := fun s =>
  match m s with
  | (some a, s') => f a s'
  | (none, s') => (none, s')

instance : Monad (Script σ) where
  pure := Script.pure
  bind := Script.bind

/-- One call under the fate `fate`. `act` is the effect of an answered call on the state, and
is `none` where the service itself rejects the call. The script sees `none` for a call that
failed or was rejected. -/
def call (fate : Fate) (act : σ → Option (α × σ)) : Script σ (Option α) := fun s =>
  match fate with
  | .crash => (none, s)
  | .fail => (some none, s)
  | .ok =>
    match act s with
    | some (a, s') => (some (some a), s')
    | none => (some none, s)

/-- A loop over a list that carries a value from one iteration to the next. -/
def forEach : List α → β → (α → β → Script σ β) → Script σ β
  | [], b, _ => pure b
  | a :: l, b, f => do
      let b' ← f a b
      forEach l b' f

/-- A script that is chosen by the state it starts in. A loop that ends for a reason outside the
script, such as a server that has run out of pages, takes its budget from there. -/
def withState (f : σ → Script σ α) : Script σ α := fun s => f s s

/-! ### Running -/

/-- The second part of a script runs when the first has come back, in the state it has left. -/
theorem bind_run (m : Script σ α) (f : α → Script σ β) (s : σ) :
    (m >>= f) s =
      match m s with
      | (some a, s') => f a s'
      | (none, s') => (none, s') := rfl

/-- Sequencing after a run that returned. -/
theorem bind_run_of_eq {m : Script σ α} {f : α → Script σ β} {s s' : σ} {a : α}
    (h : m s = (some a, s')) : (m >>= f) s = f a s' := by
  rw [bind_run, h]

/-- The service sees nothing of a failed call, and the script sees no answer. -/
@[simp] theorem call_fail_run (act : σ → Option (α × σ)) (s : σ) :
    call .fail act s = (some none, s) := rfl

/-- An answered call returns the answer and leaves its effect. -/
theorem call_ok_run {act : σ → Option (α × σ)} {s s' : σ} {a : α} (h : act s = some (a, s')) :
    call .ok act s = (some (some a), s') := by
  rw [call, h]

/-- A script that reads the state runs on the state it has read. -/
@[simp] theorem withState_run (f : σ → Script σ α) (s : σ) : withState f s = f s s := rfl

/-- One turn of a loop whose body returned. -/
theorem forEach_cons_run {f : α → β → Script σ β} {a : α} {l : List α} {b b' : β} {s s' : σ}
    (h : f a b s = (some b', s')) : forEach (a :: l) b f s = forEach l b' f s' := by
  rw [forEach, bind_run_of_eq h]

/-- A loop over a concatenation runs the loop over the first list and goes on with the
second. -/
theorem forEach_append (l₁ l₂ : List α) (b : β) (f : α → β → Script σ β) (s : σ) :
    forEach (l₁ ++ l₂) b f s = (forEach l₁ b f >>= fun b' => forEach l₂ b' f) s := by
  induction l₁ generalizing b s with
  | nil => rfl
  | cons a l ih =>
      simp only [List.cons_append, forEach, bind_run]
      rcases f a b s with ⟨- | b', s'⟩
      · rfl
      · exact ih b' s'

/-! ### Scripts that return -/

/-- No run of the script is cut off. -/
def Returns (m : Script σ α) : Prop := ∀ s, ∃ a s', m s = (some a, s')

namespace Returns

/-- A script that does nothing comes back. -/
theorem pure (a : α) : Returns (Pure.pure a : Script σ α) := fun s => ⟨a, s, rfl⟩

/-- A call returns unless the process dies in it. -/
theorem call {fate : Fate} (h : fate ≠ .crash) (act : σ → Option (α × σ)) :
    Returns (Script.call fate act) := by
  intro s
  cases fate with
  | crash => exact absurd rfl h
  | fail => exact ⟨none, s, rfl⟩
  | ok =>
      simp only [Script.call]
      rcases act s with - | ⟨a, s'⟩
      · exact ⟨none, s, rfl⟩
      · exact ⟨some a, s', rfl⟩

/-- A script comes back when both of its parts do. -/
theorem bind {m : Script σ α} {f : α → Script σ β} (hm : Returns m) (hf : ∀ a, Returns (f a)) :
    Returns (m >>= f) := by
  intro s
  obtain ⟨a, s', hms⟩ := hm s
  rw [bind_run_of_eq hms]
  exact hf a s'

/-- A script that reads the state comes back when it does for every state. -/
theorem withState {f : σ → Script σ α} (h : ∀ s, Returns (f s)) :
    Returns (Script.withState f) :=
  fun s => h s s

/-- A loop comes back when its body does for every element. -/
theorem forEach {f : α → β → Script σ β} (hf : ∀ a b, Returns (f a b)) (l : List α) (b : β) :
    Returns (Script.forEach l b f) := by
  induction l generalizing b with
  | nil => exact pure b
  | cons a l ih => exact (hf a b).bind ih

end Returns

/-! ### Triples -/

/-- The Hoare triple of a script: from `P`, a run that returns ends in `Q`, and a run that
dies leaves the state in `C`. -/
def Triple (P : σ → Prop) (m : Script σ α) (Q : α → σ → Prop) (C : σ → Prop) : Prop :=
  ∀ s, P s →
    match m s with
    | (some a, s') => Q a s'
    | (none, s') => C s'

namespace Triple

variable {P P' C C' : σ → Prop} {Q Q' : α → σ → Prop} {R : β → σ → Prop}

/-- A run that returned satisfies the postcondition. -/
theorem of_returned {m : Script σ α} (h : Triple P m Q C) {s s' : σ} {a : α} (hP : P s)
    (hm : m s = (some a, s')) : Q a s' := by
  have := h s hP
  rwa [hm] at this

/-- A script that cannot die where it starts returns, and satisfies the postcondition. -/
theorem returns {m : Script σ α} (h : Triple P m Q fun _ => False) {s : σ} (hP : P s) :
    ∃ a s', m s = (some a, s') ∧ Q a s' := by
  have hQ := h s hP
  rcases hm : m s with ⟨- | a, s'⟩ <;> rw [hm] at hQ
  · exact hQ.elim
  · exact ⟨a, s', rfl, hQ⟩

/-- A postcondition that holds of every answer and of every crash holds of the final state. -/
theorem final {I : σ → Prop} {m : Script σ α} (h : Triple P m (fun _ => I) I) {s : σ}
    (hP : P s) : I (m s).2 := by
  have := h s hP
  rcases hm : m s with ⟨- | a, s'⟩ <;> rw [hm] at this <;> exact this

/-- Strengthen the precondition and weaken both postconditions. -/
theorem consequence {m : Script σ α} (h : Triple P m Q C) (hP : ∀ s, P' s → P s)
    (hQ : ∀ a s, Q a s → Q' a s) (hC : ∀ s, C s → C' s) : Triple P' m Q' C' := by
  intro s hs
  have := h s (hP s hs)
  rcases hm : m s with ⟨- | a, s'⟩ <;> rw [hm] at this
  · exact hC s' this
  · exact hQ a s' this

/-- Weaken the postcondition of a returning run. -/
theorem weaken {m : Script σ α} (h : Triple P m Q C) (hQ : ∀ a s, Q a s → Q' a s) :
    Triple P m Q' C :=
  h.consequence (fun _ hs => hs) hQ (fun _ hs => hs)

/-- Returning at once needs the postcondition now. -/
theorem pure {a : α} (h : ∀ s, P s → Q a s) : Triple P (Pure.pure a : Script σ α) Q C :=
  fun s hs => h s hs

/-- The rule of sequence: the second part starts from what the first one promises for its result. -/
theorem bind {m : Script σ α} {f : α → Script σ β} (hm : Triple P m Q C)
    (hf : ∀ a, Triple (Q a) (f a) R C) : Triple P (m >>= f) R C := by
  intro s hs
  have h := hm s hs
  rw [bind_run]
  rcases hms : m s with ⟨- | a, s'⟩ <;> rw [hms] at h
  · exact h
  · exact hf a s' h

/-- One call: the answered case must reach the postcondition with the answer, the failed and
the rejected case with no answer, and the crash leaves the state as it was. -/
theorem call {fate : Fate} {act : σ → Option (α × σ)} {Q : Option α → σ → Prop}
    (hok : ∀ s a s', P s → act s = some (a, s') → Q (some a) s')
    (hfail : ∀ s, P s → Q none s) (hcrash : ∀ s, P s → C s) :
    Triple P (Script.call fate act) Q C := by
  intro s hs
  cases fate with
  | crash => exact hcrash s hs
  | fail => exact hfail s hs
  | ok =>
      simp only [Script.call]
      rcases ha : act s with - | ⟨a, s'⟩
      · exact hfail s hs
      · exact hok s a s' hs ha

/-- The state a script is chosen by is the state it starts in. -/
theorem withState {f : σ → Script σ α} (h : ∀ s₀, Triple (fun s => s = s₀ ∧ P s) (f s₀) Q C) :
    Triple P (Script.withState f) Q C :=
  fun s hs => h s s ⟨rfl, hs⟩

/-- The loop rule. The invariant `I` speaks about the elements still to come, the carried
value and the state; one iteration consumes one element. -/
theorem forEach {I : List α → β → σ → Prop} {f : α → β → Script σ β}
    (hstep : ∀ a l b, Triple (I (a :: l) b) (f a b) (fun b' s => I l b' s) C)
    (l : List α) (b : β) :
    Triple (I l b) (Script.forEach l b f) (fun b' s => I [] b' s) C := by
  induction l generalizing b with
  | nil => exact Triple.pure fun _ hs => hs
  | cons a l ih => exact (hstep a l b).bind fun b' => ih b'

/-- The loop rule for an invariant that every iteration keeps. -/
theorem forEach_invariant {I : σ → Prop} {f : α → β → Script σ β} {l : List α}
    (hstep : ∀ a ∈ l, ∀ b, Triple I (f a b) (fun _ => I) C) (b : β) :
    Triple I (Script.forEach l b f) (fun _ => I) C := by
  induction l generalizing b with
  | nil => exact Triple.pure fun _ hs => hs
  | cons a l ih =>
      exact (hstep a List.mem_cons_self b).bind fun b' =>
        ih (fun a' ha' => hstep a' (List.mem_cons_of_mem a ha')) b'

end Triple

/-! ### Reachable states -/

/-- The states that runs of some scripts, one after the other, lead to. A run may die anywhere;
the next one starts where it stopped. -/
inductive Reachable (start : σ → Prop) (runs : Script σ Unit → Prop) : σ → Prop
  | start {s : σ} (h : start s) : Reachable start runs s
  | run {s : σ} {m : Script σ Unit} (h : Reachable start runs s) (hm : runs m) :
      Reachable start runs (m s).2

/-- What holds at the start and is kept by every run holds in every reachable state. -/
theorem Reachable.invariant {start I : σ → Prop} {runs : Script σ Unit → Prop}
    (hstart : ∀ s, start s → I s) (hrun : ∀ m, runs m → Triple I m (fun _ => I) I) {s : σ}
    (h : Reachable start runs s) : I s := by
  induction h with
  | start h => exact hstart _ h
  | run _ hm ih => exact (hrun _ hm).final ih

end Script

end Mogo
