import Mathlib.Data.List.Induction
import Mathlib.Data.List.Nodup
import Mathlib.Logic.Function.Basic

/-!
# Lists of Identified, Keyed Records

A table that grows at its end and is edited in place, seen as a list of records. Every record
has an identity `ident`, which the table keeps distinct, and perhaps a key `key`, which it does
not: several records may carry one key. An *index* maps a key to the identity of the last
record that carries it; `modifyAt` edits the record of a given identity.

## Main results

* `indexInto_eq_some`: an entry of an index is the identity of a record with that key.
* `indexOf_isSome_iff`: a complete index knows exactly the keys of the list.
* `indexInto_congr`: an index depends on identities and keys only.
* `indexOf_map`: the index of a list with renamed identities.
* `modifyAt_split`: an edit of a list of distinct identities touches one element.
-/

namespace Mogo

variable {ρ κ ι : Type}

/-! ### The index of a list -/

section Index

variable [DecidableEq κ] (key : ρ → Option κ) (ident : ρ → ι)

/-- Enter the records of a list into an index, one after the other; a later record replaces an
earlier one with its key. -/
def indexInto (m : κ → Option ι) (l : List ρ) : κ → Option ι :=
  l.foldl (fun m r =>
    match key r with
    | none => m
    | some k => Function.update m k (some (ident r))) m

/-- The index of a list: each key leads to the last entry that has it. -/
def indexOf (l : List ρ) : κ → Option ι := indexInto key ident (fun _ => none) l

variable {key ident}

/-- An empty list leaves an index as it is. -/
@[simp] theorem indexInto_nil (m : κ → Option ι) : indexInto key ident m [] = m := rfl

/-- A list is indexed one part after the other. -/
theorem indexInto_append (m : κ → Option ι) (l₁ l₂ : List ρ) :
    indexInto key ident m (l₁ ++ l₂) = indexInto key ident (indexInto key ident m l₁) l₂ :=
  List.foldl_append

/-- Entering a record without a key changes nothing. -/
theorem indexInto_cons_none {r : ρ} (h : key r = none) (m : κ → Option ι) (l : List ρ) :
    indexInto key ident m (r :: l) = indexInto key ident m l := by
  simp only [indexInto, List.foldl_cons, h]

/-- Entering a record with a key replaces the entry of that key. -/
theorem indexInto_cons_some {r : ρ} {k : κ} (h : key r = some k) (m : κ → Option ι)
    (l : List ρ) :
    indexInto key ident m (r :: l) =
      indexInto key ident (Function.update m k (some (ident r))) l := by
  simp only [indexInto, List.foldl_cons, h]

/-- A key that no record of the list carries keeps its entry. -/
theorem indexInto_of_forall_ne {l : List ρ} {k : κ} (h : ∀ r ∈ l, key r ≠ some k)
    (m : κ → Option ι) : indexInto key ident m l k = m k := by
  induction l generalizing m with
  | nil => rfl
  | cons r l ih =>
      have hl := ih fun r' hr' => h r' (List.mem_cons_of_mem r hr')
      rcases hr : key r with - | k'
      · rw [indexInto_cons_none hr, hl]
      · have hne : k ≠ k' := by
          rintro rfl
          exact h r List.mem_cons_self hr
        rw [indexInto_cons_some hr, hl, Function.update_of_ne hne]

/-- An entry of an index was there before, or is the identity of a record with that key. -/
theorem indexInto_eq_some {m : κ → Option ι} {l : List ρ} {k : κ} {i : ι}
    (h : indexInto key ident m l k = some i) :
    m k = some i ∨ ∃ r ∈ l, key r = some k ∧ ident r = i := by
  induction l generalizing m with
  | nil => exact Or.inl h
  | cons r l ih =>
      rcases hr : key r with - | k'
      · rw [indexInto_cons_none hr] at h
        rcases ih h with h | ⟨r', hr', hk⟩
        · exact Or.inl h
        · exact Or.inr ⟨r', List.mem_cons_of_mem r hr', hk⟩
      · rw [indexInto_cons_some hr] at h
        rcases ih h with h | ⟨r', hr', hk⟩
        · by_cases hkk : k = k'
          · subst hkk
            rw [Function.update_self] at h
            exact Or.inr ⟨r, List.mem_cons_self, hr, Option.some.inj h⟩
          · rw [Function.update_of_ne hkk] at h
            exact Or.inl h
        · exact Or.inr ⟨r', List.mem_cons_of_mem r hr', hk⟩

/-- The key of a record that was entered has an entry. -/
theorem indexInto_isSome_of_mem {m : κ → Option ι} {l : List ρ} {r : ρ} {k : κ} (hr : r ∈ l)
    (hk : key r = some k) : (indexInto key ident m l k).isSome = true := by
  induction l generalizing m r with
  | nil => exact absurd hr List.not_mem_nil
  | cons r₀ l ih =>
      by_cases hlater : ∃ r' ∈ l, key r' = some k
      · obtain ⟨r', hr', hk'⟩ := hlater
        rcases h₀ : key r₀ with - | k₀
        · rw [indexInto_cons_none h₀]
          exact ih hr' hk'
        · rw [indexInto_cons_some h₀]
          exact ih hr' hk'
      · have hne : ∀ r' ∈ l, key r' ≠ some k := fun r' hr' hk' => hlater ⟨r', hr', hk'⟩
        obtain rfl : r = r₀ := (List.mem_cons.mp hr).resolve_right fun h => hne r h hk
        rw [indexInto_cons_some hk, indexInto_of_forall_ne hne, Function.update_self]
        rfl

/-- An entry of the index of a list is the identity of a record with that key. -/
theorem exists_of_indexOf_eq_some {l : List ρ} {k : κ} {i : ι}
    (h : indexOf key ident l k = some i) : ∃ r ∈ l, key r = some k ∧ ident r = i := by
  rcases indexInto_eq_some h with h | h
  · exact absurd h (by simp)
  · exact h

/-- The index of a list knows exactly the keys of its records. -/
theorem indexOf_isSome_iff {l : List ρ} {k : κ} :
    (indexOf key ident l k).isSome = true ↔ ∃ r ∈ l, key r = some k := by
  constructor
  · intro h
    obtain ⟨i, hi⟩ := Option.isSome_iff_exists.mp h
    obtain ⟨r, hr, hk, -⟩ := exists_of_indexOf_eq_some hi
    exact ⟨r, hr, hk⟩
  · rintro ⟨r, hr, hk⟩
    exact indexInto_isSome_of_mem hr hk

/-- The index has no entry for a key that no record carries. -/
theorem indexOf_eq_none_iff {l : List ρ} {k : κ} :
    indexOf key ident l k = none ↔ ∀ r ∈ l, key r ≠ some k := by
  rw [← Option.not_isSome_iff_eq_none, indexOf_isSome_iff]
  simp only [not_exists, not_and, ne_eq]

/-- The entry of a key that only one record carries. -/
theorem indexOf_of_nodup {l : List ρ} (hnodup : (l.map key).Nodup) {r : ρ} (hr : r ∈ l) {k : κ}
    (hk : key r = some k) : indexOf key ident l k = some (ident r) := by
  have hsome : (indexOf key ident l k).isSome = true := indexOf_isSome_iff.mpr ⟨r, hr, hk⟩
  obtain ⟨i, hi⟩ := Option.isSome_iff_exists.mp hsome
  obtain ⟨r', hr', hk', rfl⟩ := exists_of_indexOf_eq_some hi
  rw [hi, List.inj_on_of_nodup_map hnodup hr' hr (hk'.trans hk.symm)]

/-- The index of a list with one more record leads the record's key to it, and is otherwise the
same. -/
theorem indexOf_append_singleton {l : List ρ} {r : ρ} {k : κ} (h : key r = some k) :
    indexOf key ident (l ++ [r]) =
      Function.update (indexOf key ident l) k (some (ident r)) := by
  rw [indexOf, indexInto_append, indexInto_cons_some h, indexInto_nil]
  rfl

/-- An index sees nothing of a record but its identity and its key. -/
theorem indexInto_congr {l l' : List ρ}
    (h : l.map (fun r => (ident r, key r)) = l'.map (fun r => (ident r, key r)))
    (m : κ → Option ι) : indexInto key ident m l = indexInto key ident m l' := by
  induction l generalizing l' m with
  | nil =>
      obtain rfl : l' = [] := List.map_eq_nil_iff.mp h.symm
      rfl
  | cons r l ih =>
      obtain ⟨r', t', rfl, hr, ht⟩ := List.map_eq_cons_iff.mp h.symm
      have hid : ident r' = ident r := congrArg Prod.fst hr
      have hkey : key r' = key r := congrArg Prod.snd hr
      rcases hk : key r with - | k
      · rw [indexInto_cons_none hk, indexInto_cons_none (hkey.trans hk)]
        exact ih ht.symm m
      · rw [indexInto_cons_some hk, indexInto_cons_some (hkey.trans hk), hid]
        exact ih ht.symm _

/-- The index of a list whose identities have been renamed. -/
theorem indexOf_map {f : ρ → ρ} {σ : ι → ι} (hkey : ∀ r, key (f r) = key r)
    (hident : ∀ r, ident (f r) = σ (ident r)) (l : List ρ) (k : κ) :
    indexOf key ident (l.map f) k = (indexOf key ident l k).map σ := by
  induction l using List.reverseRecOn with
  | nil => rfl
  | append_singleton l r ih =>
      rw [List.map_append, List.map_singleton]
      cases hr : key r with
      | none =>
          rw [indexOf, indexInto_append, indexInto_cons_none ((hkey r).trans hr), indexInto_nil,
            indexOf, indexInto_append, indexInto_cons_none hr, indexInto_nil]
          exact ih
      | some k' =>
          rw [indexOf_append_singleton ((hkey r).trans hr), indexOf_append_singleton hr]
          by_cases hk : k = k'
          · rw [hk, Function.update_self, Function.update_self, hident]
            rfl
          · rw [Function.update_of_ne hk, Function.update_of_ne hk, ih]

end Index

/-! ### Editing one record -/

section Edit

variable [DecidableEq ι] (ident : ρ → ι)

/-- Edit the record of identity `i`. -/
def modifyAt (i : ι) (f : ρ → ρ) (l : List ρ) : List ρ :=
  l.map fun r => if ident r = i then f r else r

variable {ident}

/-- A change in place keeps the length of the list. -/
@[simp] theorem length_modifyAt (i : ι) (f : ρ → ρ) (l : List ρ) :
    (modifyAt ident i f l).length = l.length := List.length_map _

/-- A change in place is made in both parts of a list. -/
theorem modifyAt_append (i : ι) (f : ρ → ρ) (l₁ l₂ : List ρ) :
    modifyAt ident i f (l₁ ++ l₂) = modifyAt ident i f l₁ ++ modifyAt ident i f l₂ :=
  List.map_append

/-- An edit that changes no record changes nothing. -/
theorem modifyAt_id (i : ι) (l : List ρ) : modifyAt ident i id l = l := by
  refine (List.map_congr_left fun r _ => ?_).trans (List.map_id l)
  rw [id, ite_self]

/-- An edit of an identity that does not occur changes nothing. -/
theorem modifyAt_of_notMem {i : ι} {f : ρ → ρ} {l : List ρ} (h : ∀ r ∈ l, ident r ≠ i) :
    modifyAt ident i f l = l := by
  refine (List.map_congr_left fun r hr => ?_).trans (List.map_id l)
  rw [if_neg (h r hr), id]

/-- Every record of an edited list is an old one, or the edited one. -/
theorem mem_modifyAt {i : ι} {f : ρ → ρ} {l : List ρ} {r' : ρ} :
    r' ∈ modifyAt ident i f l ↔
      (r' ∈ l ∧ ident r' ≠ i) ∨ ∃ r ∈ l, ident r = i ∧ r' = f r := by
  constructor
  · intro h
    obtain ⟨r, hr, rfl⟩ := List.mem_map.mp h
    by_cases hi : ident r = i
    · exact Or.inr ⟨r, hr, hi, if_pos hi⟩
    · rw [if_neg hi]
      exact Or.inl ⟨hr, hi⟩
  · rintro (⟨hr, hi⟩ | ⟨r, hr, hi, rfl⟩)
    · exact List.mem_map.mpr ⟨r', hr, if_neg hi⟩
    · exact List.mem_map.mpr ⟨r, hr, if_pos hi⟩

/-- An edit that keeps a projection of the record it edits keeps that projection of the whole
list. -/
theorem map_modifyAt {δ : Type} {i : ι} {f : ρ → ρ} {l : List ρ} {g : ρ → δ}
    (h : ∀ r ∈ l, ident r = i → g (f r) = g r) :
    (modifyAt ident i f l).map g = l.map g := by
  rw [modifyAt, List.map_map]
  refine List.map_congr_left fun r hr => ?_
  by_cases hi : ident r = i
  · rw [Function.comp, if_pos hi, h r hr hi]
  · rw [Function.comp, if_neg hi]

/-- An edit that keeps the key of the record it edits keeps the keys of the whole list. -/
theorem filterMap_modifyAt {δ : Type} {i : ι} {f : ρ → ρ} {l : List ρ} {g : ρ → Option δ}
    (h : ∀ r ∈ l, ident r = i → g (f r) = g r) :
    (modifyAt ident i f l).filterMap g = l.filterMap g := by
  rw [modifyAt, List.filterMap_map]
  refine List.filterMap_congr fun r hr => ?_
  by_cases hi : ident r = i
  · rw [Function.comp, if_pos hi, h r hr hi]
  · rw [Function.comp, if_neg hi]

/-- An edit of a list whose identities have been renamed. -/
theorem modifyAt_map {f g : ρ → ρ} {σ : ι → ι} {i : ι} {l : List ρ}
    (hident : ∀ r, ident (g r) = σ (ident r)) (hf : ∀ r, f (g r) = g (f r))
    (hinj : ∀ r ∈ l, σ (ident r) = σ i → ident r = i) :
    modifyAt ident (σ i) f (l.map g) = (modifyAt ident i f l).map g := by
  rw [modifyAt, modifyAt, List.map_map, List.map_map]
  refine List.map_congr_left fun r hr => ?_
  rw [Function.comp, Function.comp, hident]
  by_cases hi : ident r = i
  · rw [if_pos hi, if_pos (congrArg σ hi), hf]
  · rw [if_neg hi, if_neg fun h => hi (hinj r hr h)]

/-- In a list of distinct identities an edit touches one element. -/
theorem modifyAt_split {l₁ l₂ : List ρ} {r : ρ} (h : ((l₁ ++ r :: l₂).map ident).Nodup)
    (f : ρ → ρ) : modifyAt ident (ident r) f (l₁ ++ r :: l₂) = l₁ ++ f r :: l₂ := by
  rw [List.map_append, List.map_cons, List.nodup_middle, List.nodup_cons] at h
  have hne : ∀ r' ∈ l₁ ++ l₂, ident r' ≠ ident r := by
    intro r' hr' he
    refine h.1 ?_
    rw [← he, ← List.map_append]
    exact List.mem_map_of_mem hr'
  have h₁ : ∀ r' ∈ l₁, ident r' ≠ ident r := fun r' hr' => hne r' (List.mem_append_left l₂ hr')
  have h₂ : ∀ r' ∈ l₂, ident r' ≠ ident r := fun r' hr' => hne r' (List.mem_append_right l₁ hr')
  have hcons : modifyAt ident (ident r) f (r :: l₂) = f r :: modifyAt ident (ident r) f l₂ := by
    rw [modifyAt, List.map_cons, if_pos rfl]
    rfl
  rw [modifyAt_append, hcons, modifyAt_of_notMem h₁, modifyAt_of_notMem h₂]

end Edit

/-- Two records of a list of distinct identities with one identity are one record. -/
theorem eq_of_ident_eq {ident : ρ → ι} {l : List ρ} (h : (l.map ident).Nodup) {r r' : ρ}
    (hr : r ∈ l)
    (hr' : r' ∈ l) (he : ident r = ident r') : r = r' :=
  List.inj_on_of_nodup_map h hr hr' he

end Mogo
