import Mathlib.Data.Finset.Card
import Mathlib.Data.List.Nodup
import Mathlib.Logic.Function.Basic

/-!
# The Search for a Fresh Name

A name allocator walks through candidates `cand 0`, `cand 1`, … and takes the first one that
is not in use yet. The walk is unbounded in the program; here it carries a budget, and
`freshFrom_notMem` shows that a budget equal to the number of names in use always reaches a
fresh candidate, because the candidates are pairwise distinct.

## Main results

* `freshFrom_notMem`: the name found is not in use.
* `freshFrom_eq_cand`: the name found is one of the candidates, and those before it are in use.
* `freshFrom_le`: a larger budget finds the same name, so the budget stands for no budget.
-/

namespace Mogo

variable {α : Type} [DecidableEq α]

/-- The first candidate from `cand n` on that is not in `used`, looking at most `budget` steps
ahead. -/
def freshFrom (cand : ℕ → α) (used : List α) : (budget : ℕ) → (n : ℕ) → α
  | 0, n => cand n
  | budget + 1, n => if cand n ∈ used then freshFrom cand used budget (n + 1) else cand n

/-- The name found is one of the candidates within the budget, and those before it are in use. -/
theorem freshFrom_eq_cand (cand : ℕ → α) (used : List α) (budget n : ℕ) :
    ∃ k, n ≤ k ∧ k ≤ n + budget ∧ (∀ j, n ≤ j → j < k → cand j ∈ used) ∧
      freshFrom cand used budget n = cand k := by
  induction budget generalizing n with
  | zero => exact ⟨n, le_rfl, le_rfl, fun j h1 h2 => by omega, rfl⟩
  | succ budget ih =>
      rw [freshFrom]
      split
      next hn =>
        obtain ⟨k, hk, hbudget, hall, he⟩ := ih (n + 1)
        refine ⟨k, by omega, by omega, fun j h1 h2 => ?_, he⟩
        rcases Nat.eq_or_lt_of_le h1 with rfl | h1
        · exact hn
        · exact hall j h1 h2
      next => exact ⟨n, le_rfl, by omega, fun j h1 h2 => by omega, rfl⟩

/-- A walk that ends on a name in use has passed only names in use. -/
theorem cand_mem_of_freshFrom_mem {cand : ℕ → α} {used : List α} {budget n : ℕ}
    (h : freshFrom cand used budget n ∈ used) : ∀ k, n ≤ k → k ≤ n + budget → cand k ∈ used := by
  induction budget generalizing n with
  | zero =>
      intro k h1 h2
      obtain rfl : k = n := by omega
      exact h
  | succ budget ih =>
      rw [freshFrom] at h
      split at h
      next hn =>
        intro k h1 h2
        rcases Nat.eq_or_lt_of_le h1 with rfl | h1
        · exact hn
        · exact ih h k (by omega) (by omega)
      next hn => exact absurd h hn

/-- **The search succeeds.** Among `used.length + 1` distinct candidates one is not in use, so
a budget of `used.length` always finds a fresh name. -/
theorem freshFrom_notMem {cand : ℕ → α} (hinj : Function.Injective cand) (used : List α)
    {budget : ℕ} (hb : used.length ≤ budget) (n : ℕ) :
    freshFrom cand used budget n ∉ used := by
  intro h
  have hall := cand_mem_of_freshFrom_mem h
  have hsub : (Finset.range (budget + 1)).image (fun k => cand (n + k)) ⊆ used.toFinset := by
    intro a ha
    obtain ⟨k, hk, rfl⟩ := Finset.mem_image.mp ha
    have hk' : k < budget + 1 := Finset.mem_range.mp hk
    exact List.mem_toFinset.mpr (hall (n + k) (by omega) (by omega))
  have hcard : ((Finset.range (budget + 1)).image (fun k => cand (n + k))).card = budget + 1 := by
    rw [Finset.card_image_of_injective _ fun a b hab => by
      have := hinj hab
      omega, Finset.card_range]
  have h1 := Finset.card_le_card hsub
  have h2 := List.toFinset_card_le used
  omega

/-- A walk that has found a fresh name is not changed by a larger budget. -/
theorem freshFrom_stable {cand : ℕ → α} {used : List α} {budget budget' n : ℕ}
    (h : freshFrom cand used budget n ∉ used) (hb : budget ≤ budget') :
    freshFrom cand used budget' n = freshFrom cand used budget n := by
  induction budget generalizing budget' n with
  | zero =>
      rw [freshFrom] at h ⊢
      cases budget' with
      | zero => rfl
      | succ budget' => rw [freshFrom, if_neg h]
  | succ budget ih =>
      obtain ⟨budget', rfl⟩ : ∃ b, budget' = b + 1 := ⟨budget' - 1, by omega⟩
      rw [freshFrom] at h ⊢
      rw [freshFrom]
      by_cases hmem : cand n ∈ used
      · rw [if_pos hmem] at h ⊢
        rw [if_pos hmem]
        exact ih h (by omega)
      · rw [if_neg hmem, if_neg hmem]

/-- **The budget does not matter**: every budget that covers the names in use finds the name
the unbounded walk finds. -/
theorem freshFrom_le {cand : ℕ → α} (hinj : Function.Injective cand) (used : List α)
    {budget budget' : ℕ} (hb : used.length ≤ budget) (hb' : budget ≤ budget') (n : ℕ) :
    freshFrom cand used budget' n = freshFrom cand used budget n :=
  freshFrom_stable (freshFrom_notMem hinj used hb n) hb'

end Mogo
