import Mogo.Pass1Run

/-!
# Rows That Become Records

What the first pass leaves of a table when every call is answered: the upsert of all rows that are
written, and, into an empty collection and with distinct keys, one record for each row, in the
order of the rows.

## Main results

* `migrateTablePass1_allOk`: the closed form of the pass.
* `migrateTablePass1_fresh`: a pass into an empty collection makes one record of each row.
-/

namespace Mogo

open Script

variable [LetterCase]

/-! ### The rows of a table -/

/-- The rows of a table that are written, as items. -/
def keyedRows (plan : TablePlan) (rows : List Row) : List (KeyedRow plan) :=
  rows.zipIdx.filterMap (keyedRow? plan)

/-- A record that was made of a row: the fields the collection has hold what the payload of the
row says, and the others are empty. -/
def StoredRow (plan : TablePlan) (accepts : String → Bool) (row : Row) (r : Record) : Prop :=
  ∃ k, rowKey plan row = some k ∧ ∀ n, r.fields n =
    if accepts n then ((rowPayload plan row k).get? n).getD .empty else .empty

/-- A record that was made of a row is found under the key of the row. -/
theorem StoredRow.key_eq {plan : TablePlan} {accepts : String → Bool} {row : Row} {r : Record}
    (h : StoredRow plan accepts row r) (hold : accepts "old_id" = true) :
    r.key = normalizeOldId (row.get plan.primaryKey) := by
  obtain ⟨k, hk, hfields⟩ := h
  have hid := hfields "old_id"
  rw [if_pos hold, rowPayload_old_id, Option.getD_some] at hid
  rw [Record.key, hid, (rowKey_eq_some_iff.mp hk).1]
  exact normalizeOldId_normalized (rowKey_eq_some_iff.mp hk).1

/-- Records that are found under the keys of some rows, one each. -/
theorem map_key_eq {R : Row → Record → Prop} {plan : TablePlan}
    (hR : ∀ row r, R row r → r.key = normalizeOldId (row.get plan.primaryKey)) {rows : List Row}
    {l : List Record} (h : List.Forall₂ R rows l) :
    l.map Record.key = rows.map fun row => normalizeOldId (row.get plan.primaryKey) := by
  induction h with
  | nil => rfl
  | cons hrow _ ih => rw [List.map_cons, List.map_cons, hR _ _ hrow, ih]

/-- The keys under which rows are written that convert. -/
theorem map_rowKey_of_converts {plan : TablePlan} {rows : List Row}
    (h : ∀ row ∈ rows, RowConverts plan row) :
    rows.map (rowKey plan) = rows.map fun row => normalizeOldId (row.get plan.primaryKey) :=
  List.map_congr_left fun row hrow => rowKey_of_converts (h row hrow)

/-- The keys of rows that are all written. -/
theorem map_oldId_keyedRows {plan : TablePlan} {rows : List Row}
    (hkeys : ∀ row ∈ rows, (rowKey plan row).isSome = true) :
    (keyedRows plan rows).map (fun a => some a.oldId) = rows.map (rowKey plan) := by
  have hoffset : ∀ offset, ((rows.zipIdx offset).filterMap (keyedRow? plan)).map
      (fun a => some a.oldId) = rows.map (rowKey plan) := by
    induction rows with
    | nil => exact fun _ => rfl
    | cons row rows ih =>
        intro offset
        obtain ⟨k, hk⟩ := Option.isSome_iff_exists.mp (hkeys row List.mem_cons_self)
        have hrest := ih (fun r hr => hkeys r (List.mem_cons_of_mem row hr)) (offset + 1)
        rw [List.zipIdx_cons, List.filterMap_cons, keyedRow?_of_some (x := (row, offset)) hk,
          List.map_cons, List.map_cons, hrest, hk]
  exact hoffset 0

/-- With every call answered and a source that honours the batch size, the delivered rows are the
rows of the table. -/
theorem deliveredRows_allOk {cfg : Config} {src : SourceTable}
    (hbatch : cfg.batchSize ≤ src.maxRows) (plan : TablePlan) :
    deliveredRows allOk cfg src plan = keyedRows plan src.rows := by
  rw [deliveredRows, delivered_allOk hbatch plan (by omega), List.drop_zero]
  rfl

omit [LetterCase] in
/-- With every call answered, the map of a pass knows every record. -/
theorem readRecords_allOk (cfg : Config) (table name label : String) (w : World) :
    readRecords allOk cfg table name label w = w.records name :=
  readPages_all cfg.pageSize_pos _

/-- The records made of rows that are all written, in order. -/
theorem forall₂_make {plan : TablePlan} {accepts : String → Bool}
    (hold : accepts "old_id" = true) {rows : List Row}
    (hkeys : ∀ row ∈ rows, (rowKey plan row).isSome = true) (offset next : ℕ) :
    List.Forall₂ (StoredRow plan accepts) rows
      ((((rows.zipIdx offset).filterMap (keyedRow? plan)).zipIdx next).map fun x =>
        (rowUpsert plan hold).make x.1 x.2) := by
  induction rows generalizing offset next with
  | nil => exact List.Forall₂.nil
  | cons row rows ih =>
      obtain ⟨k, hk⟩ := Option.isSome_iff_exists.mp (hkeys row List.mem_cons_self)
      rw [List.zipIdx_cons, List.filterMap_cons, keyedRow?_of_some (x := (row, offset)) hk]
      refine List.Forall₂.cons ⟨k, hk, fun n => ?_⟩
        (ih (fun r hr => hkeys r (List.mem_cons_of_mem row hr)) (offset + 1) (next + 1))
      refine (congrArg (Option.getD · Cell.empty) (KeyedRow.stored_get? _ n)).trans ?_
      split
      · rfl
      · rfl

section AllOk

variable {plan : TablePlan} {accepts : String → Bool} (hold : accepts "old_id" = true) {w : World}
  (hacc : w.pb.hasField plan.pbCollection = accepts)
include hold hacc

/-- With every call answered, a pass is the upsert of the delivered rows through the index of the
collection. -/
theorem migrateTablePass1_allOk (cfg : Config) (src : SourceTable) :
    ∃ map' w', migrateTablePass1 allOk cfg src plan w = (some (), w') ∧
      RecordStep plan.pbCollection w w' ∧
      w'.view plan.pbCollection map' = (rowUpsert plan hold).upsertAll (rowOk allOk plan)
        (deliveredRows allOk cfg src plan)
        (w.view plan.pbCollection
          (indexOf Record.key Record.id (w.records plan.pbCollection))) := by
  have hrun := migrateTablePass1_run allOk_uninterrupted hold hacc cfg src
  rwa [readRecords_allOk] at hrun

/-- **Rows with distinct keys.** A pass into an empty collection with every call answered makes
one record of each row, in order. -/
theorem migrateTablePass1_fresh (hempty : w.records plan.pbCollection = []) {cfg : Config}
    {src : SourceTable} (hbatch : cfg.batchSize ≤ src.maxRows)
    (hkeys : ∀ row ∈ src.rows, (rowKey plan row).isSome = true)
    (hnodup : (src.rows.map (rowKey plan)).Nodup) :
    ∃ w', migrateTablePass1 allOk cfg src plan w = (some (), w') ∧
      RecordStep plan.pbCollection w w' ∧
      List.Forall₂ (StoredRow plan accepts) src.rows (w'.records plan.pbCollection) := by
  obtain ⟨map', w', hrun, hstep, hview⟩ := migrateTablePass1_allOk hold hacc cfg src
  refine ⟨w', hrun, hstep, ?_⟩
  have hitems : ((keyedRows plan src.rows).map KeyedRow.oldId).Nodup := by
    rw [← map_oldId_keyedRows hkeys, ← Function.comp_def some, ← List.map_map] at hnodup
    exact hnodup.of_map _
  have htable : w'.records plan.pbCollection = _ := congrArg UpsertState.table hview
  rw [deliveredRows_allOk hbatch, Upsert.upsertAll_fresh hitems] at htable
  · rw [htable, World.view, hempty, List.nil_append]
    exact forall₂_make hold hkeys 0 _
  · intro a _
    rw [World.view, hempty]
    rfl
  · exact fun _ _ => rfl

end AllOk

end Mogo
