import Mathlib.Data.List.Basic

/-!
# Reading a List in Pages

A server hands out a list in pages of `size` elements, numbered from `1`, and tells how many
pages there are. A client asks for page after page and stops after the last one, or at the
first page it cannot get. This module says what such a client has seen.

## Main results

* `page_append_drop`: a page and what follows it make up what stood before it.
* `readPages_eq_drop`: a client that gets every page sees the whole list.
* `readPages_prefix`: a client that loses a page has seen a prefix of the list.
-/

namespace Mogo

variable {α β : Type}

/-- Page `p` (counted from `1`) of a list, with `size` elements to a page. -/
def page (size p : ℕ) (l : List α) : List α := (l.drop ((p - 1) * size)).take size

/-- The number of pages of a list of `n` elements. -/
def totalPages (size n : ℕ) : ℕ := (n + size - 1) / size

/-- A page is a part of the list, in its order. -/
theorem page_sublist (size p : ℕ) (l : List α) : (page size p l).Sublist l :=
  (List.take_sublist _ _).trans (List.drop_sublist _ _)

/-- A page and what lies behind it make up the rest of the list from the page on. -/
theorem page_append_drop (size p : ℕ) (l : List α) :
    page size (p + 1) l ++ l.drop ((p + 1) * size) = l.drop (p * size) := by
  rw [page, Nat.add_sub_cancel, Nat.succ_mul, ← List.drop_drop, List.take_append_drop]

/-- What precedes a page makes up, with the page, what precedes the next. -/
theorem take_append_page (size p : ℕ) (l : List α) :
    l.take (p * size) ++ page size (p + 1) l = l.take ((p + 1) * size) := by
  rw [page, Nat.add_sub_cancel, Nat.succ_mul, List.take_add]

/-- Nothing stands behind the last page. -/
theorem drop_eq_nil_of_totalPages_le {size p : ℕ} {l : List α} (hs : 0 < size)
    (h : totalPages size l.length ≤ p) : l.drop (p * size) = [] := by
  refine List.drop_eq_nil_of_le ?_
  have h1 : l.length + size - 1 < (p + 1) * size := by
    have := (Nat.div_lt_iff_lt_mul hs).mp (Nat.lt_succ_of_le h)
    exact this
  rw [Nat.succ_mul] at h1
  omega

/-- What a client sees that asks for the pages from `p` on, where `ok p` says whether page `p`
could be had: it stops after the last page and at the first page it does not get. -/
def readPages (size : ℕ) (ok : ℕ → Bool) (l : List α) : (fuel : ℕ) → (p : ℕ) → List α
  | 0, _ => []
  | fuel + 1, p =>
    if ok p then
      page size p l ++
        if totalPages size l.length ≤ p then [] else readPages size ok l fuel (p + 1)
    else []

/-- A client that gets every page from `p + 1` on sees everything behind the first `p`
pages. -/
theorem readPages_eq_drop {size : ℕ} (hs : 0 < size) {ok : ℕ → Bool} {l : List α} {fuel p : ℕ}
    (hok : ∀ q, p < q → q ≤ max 1 (totalPages size l.length) → ok q = true)
    (hp : p < max 1 (totalPages size l.length))
    (hf : max 1 (totalPages size l.length) ≤ p + fuel) :
    readPages size ok l fuel (p + 1) = l.drop (p * size) := by
  induction fuel generalizing p with
  | zero => omega
  | succ fuel ih =>
      rw [readPages, if_pos (hok (p + 1) (by omega) (by omega))]
      by_cases hlast : totalPages size l.length ≤ p + 1
      · rw [if_pos hlast, ← page_append_drop size p l, drop_eq_nil_of_totalPages_le hs hlast]
      · rw [if_neg hlast, ih (fun q h1 h2 => hok q (by omega) h2) (by omega) (by omega),
          page_append_drop]

/-- A client that gets every page sees the whole list. -/
theorem readPages_all {size : ℕ} (hs : 0 < size) (l : List α) :
    readPages size (fun _ => true) l (max 1 (totalPages size l.length)) 1 = l := by
  have h : readPages size (fun _ => true) l (max 1 (totalPages size l.length)) (0 + 1) =
      l.drop (0 * size) :=
    readPages_eq_drop hs (fun _ _ _ => rfl) (by omega) (by omega)
  rw [h, Nat.zero_mul, List.drop_zero]

/-- Whatever pages are lost, the client has seen a prefix of what it asked for. -/
theorem readPages_prefix (size : ℕ) (ok : ℕ → Bool) (l : List α) (fuel p : ℕ) :
    readPages size ok l fuel (p + 1) <+: l.drop (p * size) := by
  induction fuel generalizing p with
  | zero => exact List.nil_prefix
  | succ fuel ih =>
      rw [readPages]
      split
      · rw [← page_append_drop size p l, List.prefix_append_right_inj]
        split
        · exact List.nil_prefix
        · exact ih (p + 1)
      · exact List.nil_prefix

end Mogo
