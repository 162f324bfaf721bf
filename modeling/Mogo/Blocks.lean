import Mathlib.Data.List.TakeWhile

/-!
# Texts in Blocks

A text is a list of lines. A line of one kind is a header and begins a block, whatever stands
before it; the block goes on to the next blank line or header. Lines outside a block are passed
over, and so is a block whose header makes no sense.

## Main results

* `readBlocks_append_blank`: a blank line cuts the text in two.
* `readBlocks_cons_of_parse`: a header that makes sense begins a block.
* `sublist_flatMap_cons`: the blocks of the first headers are among those of the whole text.
-/

namespace Mogo

namespace Blocks

variable {α β : Type*} (isHeader isBlank : α → Bool) (parse : α → Option β)

/-- The blocks of a text, from within a block or from outside. -/
def readBlocks (current : Option (β × List α)) : List α → List (β × List α)
  | [] => current.toList
  | line :: lines =>
    if isHeader line then current.toList ++ readBlocks ((parse line).map fun b => (b, [])) lines
    else if isBlank line then current.toList ++ readBlocks none lines
    else readBlocks (current.map fun block => (block.1, block.2 ++ [line])) lines

/-- A line of the body of a block. -/
def isBody (line : α) : Bool := !isHeader line && !isBlank line

variable {isHeader isBlank} {parse : α → Option β} {line : α}

/-- **A blank line** ends a block, and cuts the text in two. -/
theorem readBlocks_append_blank (hheader : isHeader line = false) (hblank : isBlank line = true)
    (current : Option (β × List α)) (lines lines' : List α) :
    readBlocks isHeader isBlank parse current (lines ++ line :: lines') =
      readBlocks isHeader isBlank parse current lines ++
        readBlocks isHeader isBlank parse none lines' := by
  induction lines generalizing current with
  | nil => simp [readBlocks, hheader, hblank]
  | cons l lines ih =>
      rw [List.cons_append, readBlocks, readBlocks]
      split
      · rw [ih, List.append_assoc]
      · split
        · rw [ih, List.append_assoc]
        · exact ih _

/-- A block takes the lines of its body, and leaves the rest to what follows. -/
theorem readBlocks_some (b : β) (body lines : List α) :
    readBlocks isHeader isBlank parse (some (b, body)) lines =
      (b, body ++ lines.takeWhile (isBody isHeader isBlank)) ::
        readBlocks isHeader isBlank parse none
          (lines.dropWhile (isBody isHeader isBlank)) := by
  induction lines generalizing body with
  | nil => simp [readBlocks]
  | cons l lines ih =>
      cases hheader : isHeader l
      · cases hblank : isBlank l
        · have hbody : isBody isHeader isBlank l = true := by simp [isBody, hheader, hblank]
          rw [List.takeWhile_cons_of_pos hbody, List.dropWhile_cons_of_pos hbody, readBlocks]
          simp [hheader, hblank, ih]
        · have hbody : ¬ isBody isHeader isBlank l = true := by simp [isBody, hblank]
          rw [List.takeWhile_cons_of_neg hbody, List.dropWhile_cons_of_neg hbody]
          simp [readBlocks, hheader, hblank]
      · have hbody : ¬ isBody isHeader isBlank l = true := by simp [isBody, hheader]
        rw [List.takeWhile_cons_of_neg hbody, List.dropWhile_cons_of_neg hbody]
        simp [readBlocks, hheader]

/-- **A header** that makes sense begins a block. -/
theorem readBlocks_cons_of_parse (hheader : isHeader line = true) {b : β}
    (hparse : parse line = some b) (lines : List α) :
    readBlocks isHeader isBlank parse none (line :: lines) =
      (b, lines.takeWhile (isBody isHeader isBlank)) ::
        readBlocks isHeader isBlank parse none
          (lines.dropWhile (isBody isHeader isBlank)) := by
  rw [readBlocks, if_pos hheader, hparse]
  exact readBlocks_some b [] lines

/-- Without a header there are no blocks. -/
theorem readBlocks_none_of_noHeader {lines : List α} (h : ∀ l ∈ lines, isHeader l = false) :
    readBlocks isHeader isBlank parse none lines = [] := by
  induction lines with
  | nil => rfl
  | cons l lines ih =>
      have hlines := ih fun l' hl' => h l' (List.mem_cons_of_mem l hl')
      rw [readBlocks, h l List.mem_cons_self]
      simp [hlines]

/-- The pieces of a split text are pieces of it, without what it was split at. -/
theorem of_mem_splitOn [DecidableEq α] {a : α} {text piece : List α}
    (h : piece ∈ text.splitOn a) : a ∉ piece ∧ ∀ x ∈ piece, x ∈ text := by
  induction text generalizing piece with
  | nil =>
      obtain rfl := List.mem_singleton.mp (List.splitOn_nil a ▸ h)
      exact ⟨List.not_mem_nil, fun x hx => hx⟩
  | cons y text ih =>
      have hkeep : ∀ {piece'}, piece' ∈ text.splitOn a → a ∉ piece' ∧ ∀ x ∈ piece', x ∈ y :: text :=
        fun hpiece => ⟨(ih hpiece).1, fun x hx => List.mem_cons_of_mem y ((ih hpiece).2 x hx)⟩
      rw [List.splitOn_cons_eq_if_modifyHead] at h
      split at h
      next =>
        rcases List.mem_cons.mp h with rfl | h
        · exact ⟨List.not_mem_nil, by rintro x ⟨⟩⟩
        · exact hkeep h
      next hy =>
        obtain ⟨p, pieces, hp⟩ := List.exists_cons_of_ne_nil (List.splitOn_ne_nil a text)
        rw [hp] at h hkeep
        rcases List.mem_cons.mp h with rfl | h
        · obtain ⟨hnot, hmem⟩ := hkeep List.mem_cons_self
          refine ⟨fun ha => ?_, fun x hx => ?_⟩
          · rcases List.mem_cons.mp ha with rfl | ha
            · exact hy (beq_self_eq_true a)
            · exact hnot ha
          · rcases List.mem_cons.mp hx with rfl | hx
            · exact List.mem_cons_self
            · exact hmem x hx
        · exact hkeep (List.mem_cons_of_mem p h)

/-- What stands in joined pieces stands in one of them, or joins them. -/
theorem of_mem_intercalate {a x : α} {pieces : List (List α)} (h : x ∈ [a].intercalate pieces) :
    x = a ∨ ∃ piece ∈ pieces, x ∈ piece := by
  induction pieces with
  | nil => cases h
  | cons piece pieces ih =>
      cases pieces with
      | nil =>
          rw [List.intercalate_singleton] at h
          exact Or.inr ⟨piece, List.mem_cons_self, h⟩
      | cons piece' pieces =>
          rw [List.intercalate_cons_cons, List.mem_append, List.mem_append] at h
          rcases h with (h | h) | h
          · exact Or.inr ⟨piece, List.mem_cons_self, h⟩
          · exact Or.inl (List.mem_singleton.mp h)
          · exact (ih h).imp id fun ⟨p, hp, hx⟩ => ⟨p, List.mem_cons_of_mem _ hp, hx⟩

/-- The heads of some lists come in order in the whole. -/
theorem sublist_flatMap_cons {γ δ : Type*} (head : γ → δ) (tail : γ → List δ) (l : List γ) :
    (l.map head).Sublist (l.flatMap fun c => head c :: tail c) := by
  induction l with
  | nil => exact .slnil
  | cons c l ih =>
      rw [List.map_cons, List.flatMap_cons, List.cons_append]
      exact (ih.trans (List.sublist_append_right _ _)).cons_cons _

end Blocks

end Mogo
