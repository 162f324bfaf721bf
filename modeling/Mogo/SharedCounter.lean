import Mathlib.Logic.Equiv.Basic
import Mogo.Upsert

/-!
# Tables That Share a Counter

Several tables take the identities of their new records from one counter. A program works through
them one after the other. Each step sees one table and the counter, and treats identities as
tokens: it carries every renaming of the identities along (`Draws`).

Then the order of the steps matters for the identities only.

## Main results

* `Tables.runAll_rename`: a run from a renamed state is the renamed run.
* `Tables.step_comm`: two steps on different tables commute, up to a renaming.
* `Tables.runAll_perm`: runs in two orders agree, up to a renaming of the new identities.
* `Upsert.draws`: an upsert through the index of its table is such a step.
-/

namespace Mogo

/-- How records carry their identity: it can be read and replaced. -/
structure Identity (ρ : Type) where
  get : ρ → ℕ
  set : ℕ → ρ → ρ
  get_set : ∀ i r, get (set i r) = i
  set_get : ∀ r, set (get r) r = r
  set_set : ∀ i j r, set i (set j r) = set i r

namespace Identity

variable {ρ : Type} (I : Identity ρ)

/-- A record under its new identity. -/
def rename (σ : ℕ → ℕ) (r : ρ) : ρ := I.set (σ (I.get r)) r

variable {I}

/-- The id of a renamed row is the renamed id. -/
@[simp] theorem get_rename (σ : ℕ → ℕ) (r : ρ) : I.get (I.rename σ r) = σ (I.get r) :=
  I.get_set _ _

/-- Two renamings in a row are one by their composition. -/
theorem rename_rename (σ τ : ℕ → ℕ) (r : ρ) : I.rename τ (I.rename σ r) = I.rename (τ ∘ σ) r := by
  rw [rename, get_rename, rename, I.set_set]
  rfl

/-- A renaming that keeps the identity of a record. -/
theorem rename_eq_self {σ : ℕ → ℕ} {r : ρ} (h : σ (I.get r) = I.get r) : I.rename σ r = r := by
  rw [rename, h, I.set_get]

/-- Renamings that agree on the identities of a list. -/
theorem map_rename_congr {σ τ : ℕ → ℕ} {l : List ρ} (h : ∀ r ∈ l, σ (I.get r) = τ (I.get r)) :
    l.map (I.rename σ) = l.map (I.rename τ) :=
  List.map_congr_left fun r hr => by rw [rename, rename, h r hr]

/-- A renaming that fixes the ids of a table leaves the table as it is. -/
theorem map_rename_eq_self {σ : ℕ → ℕ} {l : List ρ} (h : ∀ r ∈ l, σ (I.get r) = I.get r) :
    l.map (I.rename σ) = l :=
  (List.map_congr_left fun r hr => rename_eq_self (h r hr)).trans (List.map_id l)

/-- A step on a table and the counter. -/
abbrev Op (ρ : Type) := List ρ → ℕ → List ρ × ℕ

/-- The identities of a table have been handed out. -/
def Below (I : Identity ρ) (l : List ρ) (n : ℕ) : Prop := ∀ r ∈ l, I.get r < n

/-- A step that takes new identities from the counter, and treats all of them as tokens: where a
renaming takes the counter `n` to `n'` and tells the identities apart, it takes the step along. -/
structure Draws (I : Identity ρ) (f : Op ρ) : Prop where
  next_le : ∀ l n, n ≤ (f l n).2
  below : ∀ l n, I.Below l n → I.Below (f l n).1 (f l n).2
  rename : ∀ l n n' σ, Set.InjOn σ {i | i ∈ l.map I.get ∨ n ≤ i} → (∀ i, σ (n + i) = n' + i) →
    f (l.map (I.rename σ)) n' = ((f l n).1.map (I.rename σ), σ (f l n).2)

end Identity

/-! ### Renamings -/

/-- The renaming that moves the counter on by `k`. -/
def shiftFrom (n k i : ℕ) : ℕ := if i < n then i else i + k

/-- The renaming that exchanges the block of `a` numbers from `n` on with the block of `b` numbers
behind it. -/
def swapBlocks (n a b : ℕ) : Equiv.Perm ℕ where
  toFun i := if i < n then i else if i < n + a then i + b else if i < n + a + b then i - a else i
  invFun i := if i < n then i else if i < n + b then i + a else if i < n + b + a then i - b else i
  left_inv i := by
    dsimp only
    split_ifs <;> omega
  right_inv i := by
    dsimp only
    split_ifs <;> omega

/-- The two blocks of ids behind `n` change places, and all others stay. -/
theorem swapBlocks_apply (n a b i : ℕ) : swapBlocks n a b i =
    if i < n then i else if i < n + a then i + b else if i < n + a + b then i - a else i := rfl

/-! ### The tables -/

/-- The tables by name, and the counter. -/
@[ext] structure Tables (ι ρ : Type) where
  tables : ι → List ρ
  next : ℕ

namespace Tables

variable {ι ρ π : Type} {I : Identity ρ} {s : Tables ι ρ}

/-- The tables with other identities, under the same counter. -/
def rename (I : Identity ρ) (σ : ℕ → ℕ) (s : Tables ι ρ) : Tables ι ρ :=
  ⟨fun t => (s.tables t).map (I.rename σ), s.next⟩

/-- Renaming a state renames the rows of its tables. -/
@[simp] theorem rename_tables (σ : ℕ → ℕ) (t : ι) :
    (s.rename I σ).tables t = (s.tables t).map (I.rename σ) := rfl

/-- Renaming a state leaves its counter. -/
@[simp] theorem rename_next (σ : ℕ → ℕ) : (s.rename I σ).next = s.next := rfl

/-- All identities have been handed out. -/
def Below (I : Identity ρ) (s : Tables ι ρ) : Prop := ∀ t, I.Below (s.tables t) s.next

variable [DecidableEq ι] (name : π → ι) (op : π → Identity.Op ρ)

/-- One step, on the table it names. -/
def step (s : Tables ι ρ) (p : π) : Tables ι ρ :=
  ⟨Function.update s.tables (name p) (op p (s.tables (name p)) s.next).1,
    (op p (s.tables (name p)) s.next).2⟩

/-- All steps, one after the other. -/
def runAll (ps : List π) (s : Tables ι ρ) : Tables ι ρ := ps.foldl (step name op) s

variable {name op}

/-- A step works on its own table, with the counter it finds. -/
theorem step_tables_self (p : π) :
    (step name op s p).tables (name p) = (op p (s.tables (name p)) s.next).1 :=
  Function.update_self ..

/-- A step leaves the other tables as they are. -/
theorem step_tables_of_ne {p : π} {t : ι} (h : t ≠ name p) :
    (step name op s p).tables t = s.tables t :=
  Function.update_of_ne h ..

/-- A step moves the counter as far as its operation does. -/
theorem step_next (p : π) :
    (step name op s p).next = (op p (s.tables (name p)) s.next).2 := rfl

/-- A run takes one step after the other. -/
@[simp] theorem runAll_cons (p : π) (ps : List π) :
    runAll name op (p :: ps) s = runAll name op ps (step name op s p) := rfl

/-- What every step keeps of the records holds of all records after a run. -/
theorem runAll_forall {P : ρ → Prop} (hop : ∀ p l n, (∀ r ∈ l, P r) → ∀ r ∈ (op p l n).1, P r)
    (ps : List π) (hs : ∀ t, ∀ r ∈ s.tables t, P r) :
    ∀ t, ∀ r ∈ (runAll name op ps s).tables t, P r := by
  induction ps generalizing s with
  | nil => exact hs
  | cons p ps ih =>
      refine ih fun t => ?_
      by_cases ht : t = name p
      · rw [ht, step_tables_self]
        exact hop p _ _ (hs (name p))
      · rw [step_tables_of_ne ht]
        exact hs t

/-! ### Renamed runs -/

section Draws

variable (hdraws : ∀ p, I.Draws (op p))
include hdraws

/-- No step turns the shared counter back. -/
theorem next_le_step (p : π) : s.next ≤ (step name op s p).next := (hdraws p).next_le _ _

/-- After a step all ids are still below the counter. -/
theorem Below.step (h : s.Below I) (p : π) : (step name op s p).Below I := by
  intro t
  by_cases ht : t = name p
  · rw [ht, step_tables_self]
    exact (hdraws p).below _ _ (h (name p))
  · rw [step_tables_of_ne ht]
    exact fun r hr => (h t r hr).trans_le (next_le_step hdraws p)

/-- A renaming that leaves the numbers not yet handed out alone goes through a step. -/
theorem step_rename {σ : Equiv.Perm ℕ} (hσ : ∀ i, s.next ≤ i → σ i = i) (p : π) :
    step name op (s.rename I σ) p = (step name op s p).rename I σ := by
  have hop := (hdraws p).rename (s.tables (name p)) s.next s.next σ σ.injective.injOn
    fun i => hσ _ (Nat.le_add_right _ _)
  rw [hσ _ ((hdraws p).next_le _ _)] at hop
  ext1
  · funext t
    by_cases ht : t = name p
    · rw [ht, step_tables_self, rename_tables, rename_tables, step_tables_self, rename_next, hop]
    · rw [step_tables_of_ne ht, rename_tables, rename_tables, step_tables_of_ne ht]
  · rw [step_next, rename_tables, rename_next, hop, rename_next, step_next]

/-- **Renamed runs**: a renaming that leaves the ids from the counter on alone commutes with every
run. -/
theorem runAll_rename {σ : Equiv.Perm ℕ} (hσ : ∀ i, s.next ≤ i → σ i = i) (ps : List π) :
    runAll name op ps (s.rename I σ) = (runAll name op ps s).rename I σ := by
  induction ps generalizing s with
  | nil => rfl
  | cons p ps ih =>
      rw [runAll_cons, runAll_cons, step_rename hdraws hσ]
      exact ih fun i hi => hσ i ((next_le_step hdraws p).trans hi)

/-- A step that finds the counter moved on by `k`. -/
theorem op_shift (p : π) {l : List ρ} {n : ℕ} (hl : I.Below l n) (k : ℕ) :
    op p l (n + k) = ((op p l n).1.map (I.rename (shiftFrom n k)), (op p l n).2 + k) := by
  have hnext : shiftFrom n k (op p l n).2 = (op p l n).2 + k :=
    if_neg (Nat.not_lt.mpr ((hdraws p).next_le l n))
  have hkeep : l.map (I.rename (shiftFrom n k)) = l :=
    Identity.map_rename_eq_self fun r hr => if_pos (hl r hr)
  have hinj : Function.Injective (shiftFrom n k) := by
    intro i j hij
    simp only [shiftFrom] at hij
    split_ifs at hij <;> omega
  have hop := (hdraws p).rename l n (n + k) (shiftFrom n k) hinj.injOn fun i => by
    rw [shiftFrom, if_neg (by omega)]
    omega
  rwa [hkeep, hnext] at hop

/-- **Two steps on different tables** commute, up to an exchange of the identities they made. -/
theorem step_comm (hs : s.Below I) {p q : π} (hne : name p ≠ name q) :
    ∃ σ : Equiv.Perm ℕ, (∀ i, i < s.next → σ i = i) ∧
      (∀ i, (step name op (step name op s p) q).next ≤ i → σ i = i) ∧
      step name op (step name op s q) p = (step name op (step name op s p) q).rename I σ := by
  obtain ⟨a, ha⟩ := Nat.exists_eq_add_of_le ((hdraws p).next_le (s.tables (name p)) s.next)
  obtain ⟨b, hb⟩ := Nat.exists_eq_add_of_le ((hdraws q).next_le (s.tables (name q)) s.next)
  have hp := op_shift hdraws p (hs (name p)) b
  have hq := op_shift hdraws q (hs (name q)) a
  have hpbelow := (hdraws p).below _ _ (hs (name p))
  have hqbelow := (hdraws q).below _ _ (hs (name q))
  rw [ha] at hp hpbelow
  rw [hb] at hq hqbelow
  have hpq : (step name op (step name op s p) q).next = s.next + b + a := by
    rw [step_next, step_tables_of_ne hne.symm, step_next, ha, hq]
  have hqp : (step name op (step name op s q) p).next = s.next + a + b := by
    rw [step_next, step_tables_of_ne hne, step_next, hb, hp]
  refine ⟨swapBlocks s.next a b, fun i hi => ?_, fun i hi => ?_, ?_⟩
  · rw [swapBlocks_apply, if_pos hi]
  · rw [hpq] at hi
    rw [swapBlocks_apply, if_neg (by omega), if_neg (by omega), if_neg (by omega)]
  · ext1
    · funext t
      rw [rename_tables]
      by_cases htp : t = name p
      · -- the records of `p` move behind the block of `q`
        rw [htp, step_tables_self, step_tables_of_ne hne, step_tables_of_ne hne, step_tables_self,
          step_next, hb, hp]
        refine Identity.map_rename_congr fun r hr => ?_
        have hlt := hpbelow r hr
        rw [swapBlocks_apply, shiftFrom]
        split_ifs <;> omega
      · by_cases htq : t = name q
        · rw [htq, step_tables_of_ne hne.symm, step_tables_self, step_tables_self,
            step_tables_of_ne hne.symm, step_next, ha, hq, List.map_map]
          refine (Eq.trans (List.map_congr_left fun r hr => ?_) (List.map_id _)).symm
          have hlt := hqbelow r hr
          rw [Function.comp_apply, Identity.rename_rename, Identity.rename_eq_self, id]
          rw [Function.comp_apply, swapBlocks_apply, shiftFrom]
          split_ifs <;> omega
        · rw [step_tables_of_ne htp, step_tables_of_ne htq, step_tables_of_ne htq,
            step_tables_of_ne htp]
          refine (Identity.map_rename_eq_self fun r hr => ?_).symm
          rw [swapBlocks_apply, if_pos (hs t r hr)]
    · rw [hqp, rename_next, hpq]
      omega

/-- **The order of the steps** matters for the new identities only. The induction is on the
permutation; an exchange of two steps is `step_comm`, and the steps behind it follow the
renaming. -/
theorem runAll_perm {ps qs : List π} (h : ps.Perm qs) (hnodup : (ps.map name).Nodup)
    (hs : s.Below I) : ∃ σ : Equiv.Perm ℕ, (∀ i, i < s.next → σ i = i) ∧
      runAll name op qs s = (runAll name op ps s).rename I σ := by
  induction h generalizing s with
  | nil =>
      refine ⟨Equiv.refl ℕ, fun _ _ => rfl, ?_⟩
      ext1
      · funext t
        exact (Identity.map_rename_eq_self fun _ _ => rfl).symm
      · rfl
  | cons p _ ih =>
      obtain ⟨σ, hfix, hrun⟩ := ih (List.nodup_cons.mp hnodup).2 (hs.step hdraws p)
      exact ⟨σ, fun i hi => hfix i (hi.trans_le (next_le_step hdraws p)), hrun⟩
  | swap p q l =>
      have hne : name q ≠ name p := by
        intro he
        rw [List.map_cons, List.map_cons, he] at hnodup
        exact (List.nodup_cons.mp hnodup).1 List.mem_cons_self
      obtain ⟨σ, hfix, hlater, hcomm⟩ := step_comm hdraws hs hne
      refine ⟨σ, hfix, ?_⟩
      rw [runAll_cons, runAll_cons, hcomm]
      exact runAll_rename hdraws hlater l
  | trans h _ ih₁ ih₂ =>
      obtain ⟨σ, hfix, hrun⟩ := ih₁ hnodup hs
      obtain ⟨τ, hfix', hrun'⟩ := ih₂ ((h.map name).nodup_iff.mp hnodup) hs
      refine ⟨σ.trans τ, fun i hi => ?_, ?_⟩
      · rw [Equiv.trans_apply, hfix i hi, hfix' i hi]
      · rw [hrun', hrun]
        ext1
        · funext t
          rw [rename_tables, rename_tables, rename_tables, List.map_map]
          exact List.map_congr_left fun r _ => Identity.rename_rename σ τ r
        · rfl

end Draws

end Tables

/-! ### Upserts as steps -/

namespace Upsert

variable {ρ κ α : Type} [DecidableEq κ] {u : Upsert ρ κ α} {ok : α → Bool}

variable (u ok) in
/-- The upsert of a list of items through the index of the table. -/
def op (items : List α) : Identity.Op ρ := fun l n =>
  let s := u.upsertAll ok items ⟨l, indexOf u.key u.ident l, n⟩
  (s.table, s.next)

/-- A run of upserts never turns the counter back. -/
theorem next_le_upsertAll (items : List α) (s : UpsertState ρ κ) :
    s.next ≤ (u.upsertAll ok items s).next := by
  induction items generalizing s with
  | nil => exact le_rfl
  | cons a items ih =>
      refine le_trans ?_ (ih (u.upsert ok a s))
      cases hok : ok a with
      | false => rw [upsert_of_not_ok hok]
      | true =>
          cases hi : s.index (u.itemKey a) with
          | some i => rw [upsert_of_some hok hi]
          | none =>
              rw [upsert_of_none hok hi]
              exact Nat.le_succ _

/-- The counter stays ahead of the identities. -/
theorem upsertAll_below {s : UpsertState ρ κ} (hs : ∀ r ∈ s.table, u.ident r < s.next)
    (items : List α) :
    ∀ r ∈ (u.upsertAll ok items s).table, u.ident r < (u.upsertAll ok items s).next := by
  induction items generalizing s with
  | nil => exact hs
  | cons a items ih =>
      refine ih ?_
      dsimp only
      cases hok : ok a with
      | false => rwa [upsert_of_not_ok hok]
      | true =>
          cases hi : s.index (u.itemKey a) with
          | some i =>
              rw [upsert_of_some hok hi]
              intro r hr
              rcases mem_modifyAt.mp hr with ⟨hr, -⟩ | ⟨r₀, hr₀, -, rfl⟩
              · exact hs r hr
              · rw [u.ident_edit]
                exact hs r₀ hr₀
          | none =>
              rw [upsert_of_none hok hi]
              intro r hr
              rcases List.mem_append.mp hr with hr | hr
              · exact (hs r hr).trans (Nat.lt_succ_self _)
              · rw [List.mem_singleton.mp hr, u.ident_make]
                exact Nat.lt_succ_self _

/-- **An upsert draws.** It does so if neither its keys nor its records depend on identities. -/
theorem draws (I : Identity ρ) (hget : ∀ r, u.ident r = I.get r)
    (hkey : ∀ i r, u.key (I.set i r) = u.key r)
    (hedit : ∀ a i r, u.edit a (I.set i r) = I.set i (u.edit a r))
    (hmake : ∀ a i n, I.set i (u.make a n) = u.make a i) (items : List α) :
    I.Draws (u.op ok items) where
  next_le l n := next_le_upsertAll items ⟨l, indexOf u.key u.ident l, n⟩
  below l n hl := by
    intro r hr
    rw [← hget]
    exact upsertAll_below (fun r hr => (hget r).trans_lt (hl r hr)) items r hr
  rename l n n' σ hinj hnext := by
    have hident : ∀ r, u.ident (I.rename σ r) = σ (u.ident r) := fun r => by
      rw [hget, hget, Identity.get_rename]
    have hstart : u.Renamed σ (I.rename σ) ⟨l, indexOf u.key u.ident l, n⟩
        ⟨l.map (I.rename σ), indexOf u.key u.ident (l.map (I.rename σ)), n'⟩ := by
      refine ⟨rfl, indexOf_map (fun r => hkey _ r) hident l, hnext, fun k i hi => ?_, ?_⟩
      · obtain ⟨r, hr, -, rfl⟩ := exists_of_indexOf_eq_some hi
        exact List.mem_map_of_mem hr
      · rw [show u.ident = I.get from funext hget]
        exact hinj
    have hrun : u.Renamed σ (I.rename σ) (u.upsertAll ok items _) (u.upsertAll ok items _) :=
      hstart.upsertAll hident
        (fun a r => by rw [Identity.rename, hedit, Identity.rename, ← hget, ← hget, u.ident_edit])
        (fun a n => by rw [Identity.rename, hmake, ← hget, u.ident_make]) items
    exact Prod.ext hrun.table (hrun.next 0).symm

end Upsert

end Mogo
