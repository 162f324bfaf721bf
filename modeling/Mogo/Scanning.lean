import Mathlib.Data.List.Infix

/-!
# Searching a Text in Pieces

A pattern of a fixed length is a list of conditions, one for every letter it takes. A text that
arrives in pieces, each searched on its own, yields nothing that is not in the text, and yields it
in order; what lies within one piece is found.

## Main results

* `firstMatches_sublist`: the first matches of the pieces are occurrences in the text.
* `occurrences_separator`: a letter that the pattern takes nowhere cuts the text in two.
* `firstMatch_ne_none`: what lies within a piece is found.
-/

namespace Mogo

namespace Scanning

variable {α : Type*}

/-- The text begins with the pattern. -/
def matchesAt : List (α → Bool) → List α → Bool
  | [], _ => true
  | _ :: _, [] => false
  | p :: pattern, a :: text => p a && matchesAt pattern text

/-- The occurrences of the pattern, as they stand in the text. -/
def occurrences (pattern : List (α → Bool)) : List α → List (List α)
  | [] => []
  | a :: text =>
    if matchesAt pattern (a :: text) then
      (a :: text).take pattern.length :: occurrences pattern text
    else occurrences pattern text

/-- The first occurrence of the pattern. -/
def firstMatch (pattern : List (α → Bool)) : List α → Option (List α)
  | [] => none
  | a :: text =>
    if matchesAt pattern (a :: text) then some ((a :: text).take pattern.length)
    else firstMatch pattern text

section Matching

variable {p : α → Bool} {pattern pattern' : List (α → Bool)} {a : α} {text text' : List α}

/-- A pattern is matched symbol by symbol. -/
theorem matchesAt_cons_cons :
    matchesAt (p :: pattern) (a :: text) = (p a && matchesAt pattern text) := rfl

/-- A text that matches is at least as long as the pattern. -/
theorem length_le_of_matchesAt (h : matchesAt pattern text = true) :
    pattern.length ≤ text.length := by
  induction pattern generalizing text with
  | nil => exact Nat.zero_le _
  | cons p pattern ih =>
      cases text with
      | nil => cases h
      | cons a text =>
          rw [matchesAt_cons_cons, Bool.and_eq_true] at h
          exact Nat.succ_le_succ (ih h.2)

/-- A match does not look beyond the pattern. -/
theorem matchesAt_append_right (text' : List α) (h : matchesAt pattern text = true) :
    matchesAt pattern (text ++ text') = true := by
  induction pattern generalizing text with
  | nil => rfl
  | cons p pattern ih =>
      cases text with
      | nil => cases h
      | cons a text =>
          rw [matchesAt_cons_cons, Bool.and_eq_true] at h
          rw [List.cons_append, matchesAt_cons_cons, Bool.and_eq_true]
          exact ⟨h.1, ih h.2⟩

/-- No match reaches over a letter that the pattern takes nowhere. -/
theorem matchesAt_separator (ha : ∀ q ∈ pattern, q a = false) :
    matchesAt pattern (text ++ a :: text') = matchesAt pattern text := by
  induction pattern generalizing text with
  | nil => rfl
  | cons p pattern ih =>
      cases text with
      | nil =>
          rw [List.nil_append, matchesAt_cons_cons, ha p List.mem_cons_self]
          rfl
      | cons b text =>
          rw [List.cons_append, matchesAt_cons_cons, matchesAt_cons_cons,
            ih fun q hq => ha q (List.mem_cons_of_mem p hq)]

end Matching

/-- The text matches the pattern, to its end. -/
structure Fits (pattern : List (α → Bool)) (text : List α) : Prop where
  length : pattern.length = text.length
  begins : matchesAt pattern text = true

namespace Fits

variable {p : α → Bool} {pattern pattern' : List (α → Bool)} {a : α} {text text' : List α}

/-- The empty text fits the empty pattern. -/
theorem nil : Fits ([] : List (α → Bool)) [] := ⟨rfl, rfl⟩

/-- A text that fits goes on fitting when a symbol that fits is put before it. -/
theorem cons (ha : p a = true) (h : Fits pattern text) : Fits (p :: pattern) (a :: text) :=
  ⟨congrArg Nat.succ h.length, by rw [matchesAt_cons_cons, ha, h.begins]; rfl⟩

/-- Texts that fit two patterns fit them one after another. -/
theorem append (h : Fits pattern text) (h' : Fits pattern' text') :
    Fits (pattern ++ pattern') (text ++ text') := by
  induction pattern generalizing text with
  | nil => rwa [List.length_eq_zero_iff.mp h.length.symm]
  | cons p pattern ih =>
      obtain ⟨hlength, hmatches⟩ := h
      cases text with
      | nil => cases hlength
      | cons a text =>
          rw [matchesAt_cons_cons, Bool.and_eq_true] at hmatches
          exact cons hmatches.1 (ih ⟨Nat.succ.inj hlength, hmatches.2⟩)

/-- A text whose letters all meet a condition fits the pattern that repeats it. -/
theorem replicate (h : ∀ a ∈ text, p a = true) : Fits (List.replicate text.length p) text := by
  induction text with
  | nil => exact nil
  | cons a text ih =>
      exact cons (h a List.mem_cons_self) (ih fun b hb => h b (List.mem_cons_of_mem a hb))

end Fits

section Occurrences

variable {p : α → Bool} {pattern : List (α → Bool)} {a : α} {text text' : List α}

/-- Where the pattern matches there is an occurrence. -/
theorem occurrences_of_matchesAt (h : matchesAt pattern (a :: text) = true) :
    occurrences pattern (a :: text) =
      (a :: text).take pattern.length :: occurrences pattern text := by
  rw [occurrences, if_pos h]

/-- Where the pattern does not match there is no occurrence. -/
theorem occurrences_of_not_matchesAt (h : matchesAt pattern (a :: text) = false) :
    occurrences pattern (a :: text) = occurrences pattern text := by
  rw [occurrences, if_neg (by rw [h]; exact Bool.false_ne_true)]

/-- An occurrence does not depend on what follows it. -/
theorem occurrences_cons_append (text' : List α) (h : matchesAt pattern (a :: text) = true) :
    occurrences pattern (a :: (text ++ text')) =
      (a :: text).take pattern.length :: occurrences pattern (text ++ text') := by
  have hwhole : matchesAt pattern (a :: (text ++ text')) = true := matchesAt_append_right text' h
  rw [occurrences_of_matchesAt hwhole, ← List.cons_append,
    List.take_append_of_le_length (length_le_of_matchesAt h)]

/-- A text that begins with an occurrence. -/
theorem occurrences_of_fits (text' : List α) (h : Fits pattern (a :: text)) :
    occurrences pattern (a :: (text ++ text')) =
      (a :: text) :: occurrences pattern (text ++ text') := by
  rw [occurrences_cons_append text' h.begins, h.length, List.take_length]

/-- The first match is the first occurrence. -/
theorem firstMatch_eq_head? : firstMatch pattern text = (occurrences pattern text).head? := by
  induction text with
  | nil => rfl
  | cons a text ih =>
      rw [firstMatch]
      split
      next h => rw [occurrences_of_matchesAt h, List.head?_cons]
      next h => rw [occurrences_of_not_matchesAt (Bool.eq_false_iff.mpr h), ih]

/-- There is no first match exactly when there is no occurrence. -/
theorem firstMatch_eq_none : firstMatch pattern text = none ↔ occurrences pattern text = [] := by
  rw [firstMatch_eq_head?, List.head?_eq_none_iff]

/-- What is found in two pieces is found in the whole. -/
theorem occurrences_append (pattern : List (α → Bool)) (text text' : List α) :
    (occurrences pattern text ++ occurrences pattern text').Sublist
      (occurrences pattern (text ++ text')) := by
  induction text with
  | nil => exact List.Sublist.refl _
  | cons a text ih =>
      cases h : matchesAt pattern (a :: text) with
      | true =>
          rw [occurrences_of_matchesAt h, List.cons_append, List.cons_append,
            occurrences_cons_append text' h]
          exact ih.cons_cons _
      | false =>
          rw [occurrences_of_not_matchesAt h, List.cons_append]
          cases hwhole : matchesAt pattern (a :: (text ++ text')) with
          | true =>
              rw [occurrences_of_matchesAt hwhole]
              exact ih.cons _
          | false => rwa [occurrences_of_not_matchesAt hwhole]

/-- The occurrences in the beginning of a text are occurrences in the text, in the same order. -/
theorem occurrences_sublist (h : text <+: text') :
    (occurrences pattern text).Sublist (occurrences pattern text') := by
  obtain ⟨rest, rfl⟩ := h
  exact (List.sublist_append_left _ _).trans (occurrences_append pattern text rest)

/-- **The first matches of the pieces** are occurrences in the text, in its order. -/
theorem firstMatches_sublist (pattern : List (α → Bool)) (pieces : List (List α)) :
    (pieces.filterMap (firstMatch pattern)).Sublist (occurrences pattern pieces.flatten) := by
  induction pieces with
  | nil => exact List.Sublist.refl _
  | cons piece pieces ih =>
      refine List.Sublist.trans ?_ (occurrences_append pattern piece pieces.flatten)
      rw [List.filterMap_cons, firstMatch_eq_head?]
      cases occurrences pattern piece with
      | nil => exact ih
      | cons m ms => exact (ih.trans (List.sublist_append_right ms _)).cons_cons m

/-- Letters that cannot begin the pattern are passed over. -/
theorem occurrences_skip (h : ∀ a ∈ text, p a = false) :
    occurrences (p :: pattern) (text ++ text') = occurrences (p :: pattern) text' := by
  induction text with
  | nil => rfl
  | cons a text ih =>
      have hno : matchesAt (p :: pattern) (a :: (text ++ text')) = false := by
        rw [matchesAt_cons_cons, h a List.mem_cons_self]
        rfl
      rw [List.cons_append, occurrences_of_not_matchesAt hno,
        ih fun b hb => h b (List.mem_cons_of_mem a hb)]

/-- **A letter that the pattern takes nowhere** cuts the text in two. -/
theorem occurrences_separator (hne : pattern ≠ []) (ha : ∀ q ∈ pattern, q a = false) :
    occurrences pattern (text ++ a :: text') =
      occurrences pattern text ++ occurrences pattern text' := by
  induction text with
  | nil =>
      have hno : matchesAt pattern (a :: text') = false := by
        obtain ⟨p, rest, rfl⟩ := List.exists_cons_of_ne_nil hne
        rw [matchesAt_cons_cons, ha p List.mem_cons_self]
        rfl
      rw [List.nil_append, occurrences_of_not_matchesAt hno]
      rfl
  | cons b text ih =>
      cases h : matchesAt pattern (b :: text) with
      | true =>
          rw [List.cons_append, occurrences_cons_append (a :: text') h,
            occurrences_of_matchesAt h, ih, List.cons_append]
      | false =>
          have hwhole : matchesAt pattern (b :: text ++ a :: text') = false :=
            (matchesAt_separator ha).trans h
          rw [List.cons_append] at hwhole ⊢
          rw [occurrences_of_not_matchesAt hwhole, occurrences_of_not_matchesAt h, ih]

/-- **What lies within a piece is found.** -/
theorem firstMatch_ne_none (ha : matchesAt pattern (a :: text) = true) {piece : List α}
    (h : a :: text <:+: piece) : firstMatch pattern piece ≠ none := by
  obtain ⟨before, after, rfl⟩ := h
  intro hnone
  have hsub := (List.sublist_append_right _ _).trans
    (occurrences_append pattern before (a :: (text ++ after)))
  rw [List.append_assoc] at hnone
  rw [← List.cons_append, firstMatch_eq_none.mp hnone, List.cons_append,
    occurrences_cons_append after ha] at hsub
  cases hsub

end Occurrences

end Scanning

end Mogo
