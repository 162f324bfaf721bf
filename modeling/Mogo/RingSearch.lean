import Mathlib.Data.List.Basic
import Mathlib.Data.Nat.Init

/-!
# Searching a Ring for a Free Run

Places `0, …, size - 1` are free or taken, and `n` free ones in a row are wanted. The search begins
anywhere; it goes past the first taken place of the window it looks at, begins again at the front
when the window does not fit, and gives up after as many places as there are.

## Main results

* `of_search`: what is found is free.
* `search_ahead`: what is found lies not behind a free run ahead.
* `search_isSome_iff`: a free run is found, if there is one.
-/

namespace Mogo

namespace RingSearch

variable (free : ℕ → Bool) (size n : ℕ)

/-- The first of the next `n` places that is taken. -/
def firstTaken (head : ℕ) : Option ℕ := (List.range n).find? fun i => !free (head + i)

/-- The search, with the number of places it has gone past. -/
def search : (fuel head tested : ℕ) → Option ℕ
  | 0, _, _ => none
  | fuel + 1, head, tested =>
    if size < head + n then search fuel 0 (tested + (size - head))
    else
      match firstTaken free n head with
      | none => some head
      | some i =>
        if size ≤ tested + (i + 1) then none else search fuel (head + i + 1) (tested + (i + 1))

variable {free size n} {a head start tested fuel i : ℕ}

/-- The place that is found is within the stretch, and it is taken. -/
theorem of_firstTaken (h : firstTaken free n head = some i) :
    i < n ∧ free (head + i) = false :=
  ⟨List.mem_range.mp (List.mem_of_find?_eq_some h), by simpa using List.find?_some h⟩

/-- No place is found exactly when the whole stretch is free. -/
theorem firstTaken_eq_none : firstTaken free n head = none ↔ ∀ i < n, free (head + i) = true := by
  simp [firstTaken, List.find?_eq_none]

/-- **What is found** is a run of free cells that ends within the ring. -/
theorem of_search (h : search free size n fuel head tested = some a) :
    a + n ≤ size ∧ ∀ i < n, free (a + i) = true := by
  induction fuel generalizing head tested with
  | zero => cases h
  | succ fuel ih =>
      rw [search] at h
      split at h
      next => exact ih h
      next hfits =>
        split at h
        next hnone =>
          obtain rfl := Option.some.inj h
          exact ⟨Nat.not_lt.mp hfits, firstTaken_eq_none.mp hnone⟩
        next =>
          split at h
          next => cases h
          next => exact ih h

section Complete

variable (hrun : a + n ≤ size) (hfree : ∀ i < n, free (a + i) = true)

include hrun hfree

/-- A run that lies ahead is not gone past. -/
theorem search_ahead (hle : head ≤ a) (htested : tested + (a - head) < size)
    (hfuel : a - head < fuel) : ∃ h ≤ a, search free size n fuel head tested = some h := by
  induction fuel generalizing head tested with
  | zero => exact absurd hfuel (Nat.not_lt_zero _)
  | succ fuel ih =>
      rw [search, if_neg (by omega)]
      split
      next => exact ⟨_, hle, rfl⟩
      next i hi =>
        obtain ⟨hlt, htaken⟩ := of_firstTaken hi
        -- The taken place is not in the run, so it is before it.
        have hbefore : head + i < a := by
          by_contra hge
          have := hfree (head + i - a) (by omega)
          rw [Nat.add_sub_cancel' (by omega), htaken] at this
          cases this
        rw [if_neg (by omega)]
        exact ih (by omega) (by omega) (by omega)

/-- A run that lies behind the start is come to from the front. -/
theorem search_behind (hlt : a < start) (htested : tested + start = head) (hhead : head ≤ size)
    (hfuel : size - head + a + 1 < fuel) : ∃ h, search free size n fuel head tested = some h := by
  induction fuel generalizing head tested with
  | zero => exact absurd hfuel (Nat.not_lt_zero _)
  | succ fuel ih =>
      rw [search]
      split
      next =>
        exact (search_ahead hrun hfree (Nat.zero_le a) (by omega) (by omega)).imp fun _ h => h.2
      next hfits =>
        split
        next => exact ⟨_, rfl⟩
        next i hi =>
          have := (of_firstTaken hi).1
          rw [if_neg (by omega)]
          exact ih (by omega) (by omega) (by omega)

end Complete

/-- **A free run is found** from anywhere, if there is one. -/
theorem search_isSome_iff (hn : 0 < n) (hhead : head ≤ size) :
    (search free size n (2 * size + 2) head 0).isSome = true ↔
      ∃ a, a + n ≤ size ∧ ∀ i < n, free (a + i) = true := by
  rw [Option.isSome_iff_exists]
  constructor
  · rintro ⟨a, ha⟩
    exact ⟨a, of_search ha⟩
  · rintro ⟨a, hrun, hfree⟩
    rcases Nat.lt_or_ge a head with hlt | hge
    · exact search_behind hrun hfree hlt (Nat.zero_add head) hhead (by omega)
    · exact (search_ahead hrun hfree hge (by omega) (by omega)).imp fun _ h => h.2

end RingSearch

end Mogo
