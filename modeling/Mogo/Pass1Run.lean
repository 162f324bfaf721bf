import Mogo.Pass1
import Mogo.Upsert

/-!
# Runs of the First Pass

A run of the first pass that is not interrupted has a closed form: it is the upsert of the rows
that were delivered, through an index of the records on the pages that could be read, where the
write of a row counts if its call is answered.

## Main results

* `rowUpsert`: the rows of a table as items of an upsert.
* `migrateTablePass1_run`: the closed form.
* `delivered_ordered`: where the ordered queries are answered, all rows of the table are delivered.
-/

namespace Mogo

open Script

variable [LetterCase]

/-! ### Writing a payload -/

omit [LetterCase] in
/-- A payload that names all keys of an earlier one leaves nothing of it. -/
theorem Record.write_write {p q : Payload}
    (h : ∀ n, (p.get? n).isSome = true → (q.get? n).isSome = true) (r : Record) :
    (r.write p).write q = r.write q := by
  simp only [Record.write]
  congr 1
  funext n
  rcases hq : q.get? n with - | c
  · have hp : p.get? n = none := by
      refine Option.not_isSome_iff_eq_none.mp fun hsome => ?_
      exact absurd (h n hsome) (by rw [hq]; exact Bool.false_ne_true)
    rw [hp, Option.getD_none, Option.getD_none]
  · rw [Option.getD_some, Option.getD_some]

/-- A row with the key under which the pass writes it. -/
structure KeyedRow (plan : TablePlan) where
  row : Row
  index : ℕ
  oldId : String
  oldId_eq : rowKey plan row = some oldId

/-- A delivered row, if it is written. -/
def keyedRow? (plan : TablePlan) (x : Row × ℕ) : Option (KeyedRow plan) :=
  match h : rowKey plan x.1 with
  | none => none
  | some oldId => some ⟨x.1, x.2, oldId, h⟩

/-- A row without a key is skipped, so it is no item of the upsert. -/
theorem keyedRow?_of_none {plan : TablePlan} {x : Row × ℕ} (h : rowKey plan x.1 = none) :
    keyedRow? plan x = none := by
  rw [keyedRow?]
  split
  · rfl
  next oldId hk => exact absurd (h.symm.trans hk) (by simp)

/-- A row with a key is one under that key. -/
theorem keyedRow?_of_some {plan : TablePlan} {oldId : String} {x : Row × ℕ}
    (h : rowKey plan x.1 = some oldId) : keyedRow? plan x = some ⟨x.1, x.2, oldId, h⟩ := by
  rw [keyedRow?]
  split
  next hk => exact absurd (h.symm.trans hk) (by simp)
  next oldId' hk =>
    obtain rfl : oldId = oldId' := Option.some.inj (h.symm.trans hk)
    rfl

/-- What a collection that accepts the fields `accepts` stores of a row. -/
def KeyedRow.stored (plan : TablePlan) (accepts : String → Bool) (a : KeyedRow plan) : Payload :=
  (rowPayload plan a.row a.oldId).filter fun x => accepts x.1

section RowUpsert

variable {plan : TablePlan} {accepts : String → Bool}

/-- Of the payload of a row the server stores what it accepts. -/
theorem KeyedRow.stored_get? (a : KeyedRow plan) (n : String) :
    (a.stored plan accepts).get? n =
      if accepts n then (rowPayload plan a.row a.oldId).get? n else none :=
  Payload.get?_filter accepts _ n

/-- A record that a row was written to is found under the key of the row. -/
theorem KeyedRow.key_write (hold : accepts "old_id" = true) (a : KeyedRow plan)
    (r : Record) : (r.write (a.stored plan accepts)).key = some a.oldId := by
  have hget : (a.stored plan accepts).get? "old_id" = some (.value (.string a.oldId)) := by
    rw [a.stored_get?, if_pos hold, rowPayload_old_id]
  rw [Record.key, Record.write_fields_of_some hget]
  exact normalizeOldId_normalized (rowKey_eq_some_iff.mp a.oldId_eq).1

/-- Two rows of a table name the same fields, so that the second one written overwrites the
first. -/
theorem KeyedRow.write_write (a b : KeyedRow plan) (r : Record) :
    (r.write (b.stored plan accepts)).write (a.stored plan accepts) =
      r.write (a.stored plan accepts) := by
  refine Record.write_write (fun n hn => ?_) r
  rw [KeyedRow.stored_get?] at hn ⊢
  split at hn
  next hacc =>
    rw [if_pos hacc]
    exact (rowPayload_isSome_iff a.oldId_eq).mpr ((rowPayload_isSome_iff b.oldId_eq).mp hn)
  · exact absurd hn (by simp)

variable (plan) in
/-- The rows of a table as items of an upsert. -/
def rowUpsert (hold : accepts "old_id" = true) :
    Upsert Record String (KeyedRow plan) where
  key := Record.key
  ident := Record.id
  itemKey := KeyedRow.oldId
  edit := fun a r => r.write (a.stored plan accepts)
  make := fun a n => (⟨n, fun _ => .empty⟩ : Record).write (a.stored plan accepts)
  ident_edit := fun _ _ => rfl
  key_edit := fun a r => a.key_write hold r
  ident_make := fun _ _ => rfl
  key_make := fun a _ => a.key_write hold _
  edit_edit := fun a b r => a.write_write b r
  edit_make := fun a b _ => a.write_write b _

end RowUpsert

/-! ### Runs that are not interrupted -/

/-- What the first pass sees of a collection. -/
def World.view (name : String) (map : String → Option RecordId) (w : World) :
    UpsertState Record String :=
  ⟨w.records name, map, w.pb.nextId⟩

/-- Only the records of one collection have changed. -/
structure RecordStep (name : String) (w w' : World) : Prop where
  server : w'.pb.server = w.pb.server
  collections : w'.pb.collections = w.pb.collections
  records : ∀ n, n ≠ name → w'.records n = w.records n

namespace RecordStep

omit [LetterCase]

variable {name : String} {w w₁ w₂ : World}

/-- A step that does nothing is a step on the records of every collection. -/
@[refl] theorem refl (name : String) (w : World) : RecordStep name w w :=
  ⟨rfl, rfl, fun _ _ => rfl⟩

/-- Two steps on the records of one collection are one step on them. -/
theorem trans (h₁ : RecordStep name w w₁) (h₂ : RecordStep name w₁ w₂) :
    RecordStep name w w₂ :=
  ⟨h₂.server.trans h₁.server, h₂.collections.trans h₁.collections, fun n hn =>
    (h₂.records n hn).trans (h₁.records n hn)⟩

/-- A step on records leaves the fields of every collection. -/
theorem hasField (h : RecordStep name w w₁) (n : String) :
    w₁.pb.hasField n = w.pb.hasField n :=
  PocketBase.hasField_of_collections h.collections n

end RecordStep

/-- The rows of a batch, `none` where both queries fail. -/
def fetched (o : Oracle) (src : SourceTable) (table primaryKey : String) (start stop : ℕ) :
    Option (List Row) :=
  if o (.fetchOrdered table start) = .ok then
    some (src.range (firstOrder src primaryKey start) start stop)
  else if o (.fetchUnordered table start) = .ok then
    some (src.range (src.unordered start) start stop)
  else none

/-- The rows the batches from `offset` on deliver, with their positions. -/
def delivered (o : Oracle) (cfg : Config) (src : SourceTable) (plan : TablePlan) :
    (fuel : ℕ) → (offset : ℕ) → List (Row × ℕ)
  | 0, _ => []
  | fuel + 1, offset =>
    match fetched o src plan.table plan.primaryKey offset (offset + cfg.batchSize - 1) with
    | none => []
    | some rows =>
      if rows = [] then []
      else
        rows.zipIdx offset ++
          if rows.length < cfg.batchSize then []
          else delivered o cfg src plan fuel (offset + cfg.batchSize)

/-- The rows a whole pass delivers and writes. -/
def deliveredRows (o : Oracle) (cfg : Config) (src : SourceTable) (plan : TablePlan) :
    List (KeyedRow plan) :=
  (delivered o cfg src plan (src.rows.length + 1) 0).filterMap (keyedRow? plan)

/-- Whether the write of a row is answered. -/
def rowOk (o : Oracle) (plan : TablePlan) (a : KeyedRow plan) : Bool :=
  o (.writeRow plan.table a.index) = .ok

/-- The records whose old ids get into a map. -/
def readRecords (o : Oracle) (cfg : Config) (table name label : String) (w : World) :
    List Record :=
  readPages cfg.pageSize (fun p => o (.mapPage table label p) = .ok) (w.records name)
    (max 1 (totalPages cfg.pageSize (w.records name).length)) 1

/-- What the map of a pass says is true of the collection. -/
theorem view_sound (plan : TablePlan) {accepts : String → Bool}
    (hold : accepts "old_id" = true) (o : Oracle) (cfg : Config) (table label : String)
    (w : World) :
    (rowUpsert plan hold).Sound (w.view plan.pbCollection (indexOf Record.key Record.id
      (readRecords o cfg table plan.pbCollection label w))) := by
  refine ⟨w.pb.ids_nodup _, w.pb.ids_lt _, fun k i hi => ?_⟩
  obtain ⟨r, hr, hk, hid⟩ := exists_of_indexOf_eq_some hi
  have hprefix := readPages_prefix cfg.pageSize
    (fun p => o (.mapPage table label p) = .ok) (w.records plan.pbCollection)
    (max 1 (totalPages cfg.pageSize (w.records plan.pbCollection).length)) 0
  rw [Nat.zero_mul, List.drop_zero] at hprefix
  exact ⟨r, hprefix.subset hr, hid, hk⟩

section Runs

variable {o : Oracle} (ho : o.Uninterrupted) (cfg : Config) {w : World}
include ho

/-- The map of a collection is the index of the pages that have been read, up to the first that has
failed. -/
theorem mapFromPage_run {name : String} (hname : (w.pb.collection? name).isSome = true)
    (table label : String) (fuel p : ℕ) (map : String → Option RecordId) :
    mapFromPage o cfg table name label fuel p map w =
      (some (indexInto Record.key Record.id map (readPages cfg.pageSize
        (fun p => o (.mapPage table label p) = .ok) (w.records name) fuel p)), w) := by
  induction fuel generalizing p map with
  | zero => rfl
  | succ fuel ih =>
      rw [mapFromPage, readPages]
      have hget : w.getList name cfg.pageSize p = some (⟨page cfg.pageSize p (w.records name),
          totalPages cfg.pageSize (w.records name).length⟩, w) := if_pos hname
      rcases hfate : o (.mapPage table label p) with - | - | -
      · rw [bind_run_of_eq (call_ok_run hget), if_pos (decide_eq_true rfl), indexInto_append]
        dsimp only
        split
        · rfl
        · exact ih (p + 1) _
      · rw [if_neg (by simp)]
        rfl
      · exact absurd hfate (ho _)

/-- The map holds the old ids of the records on the pages that were read. -/
theorem buildOldIdToPocketIdMap_run {name : String}
    (hname : (w.pb.collection? name).isSome = true) (table label : String) :
    buildOldIdToPocketIdMap o cfg table name label w =
      (some (indexOf Record.key Record.id (readRecords o cfg table name label w)), w) := by
  rw [buildOldIdToPocketIdMap, withState_run, mapFromPage_run ho cfg hname]
  rfl

omit [LetterCase] in
/-- A batch that is fetched is the part of the source that the answers give, and the world stays as
it was. -/
theorem fetchSupabaseBatch_run (src : SourceTable) (table primaryKey : String)
    (start stop : ℕ) :
    fetchSupabaseBatch o src table primaryKey start stop w =
      (some (fetched o src table primaryKey start stop), w) := by
  rw [fetchSupabaseBatch, fetched]
  rcases hfate : o (.fetchOrdered table start) with - | - | -
  · rfl
  · rw [if_neg (by simp)]
    rcases hfate' : o (.fetchUnordered table start) with - | - | -
    · rfl
    · rfl
    · exact absurd hfate' (ho _)
  · exact absurd hfate (ho _)

variable {cfg} {plan : TablePlan} {accepts : String → Bool} (hold : accepts "old_id" = true)
  (hacc : w.pb.hasField plan.pbCollection = accepts)

include hold hacc in
/-- **One row.** A run of the row body writes the row as an item, if it has a key. -/
theorem migrateRow_run {map : String → Option RecordId}
    (hs : (rowUpsert plan hold).Sound (w.view plan.pbCollection map)) (row : Row) (index : ℕ) :
    ∃ map' w', migrateRow o plan row index map w = (some map', w') ∧
      RecordStep plan.pbCollection w w' ∧
      w'.view plan.pbCollection map' =
        match keyedRow? plan (row, index) with
        | none => w.view plan.pbCollection map
        | some a => (rowUpsert plan hold).upsert (rowOk o plan) a
            (w.view plan.pbCollection map) := by
  have hname : (w.pb.collection? plan.pbCollection).isSome = true :=
    PocketBase.collection?_isSome_of_hasField (congrFun hacc "old_id" ▸ hold)
  rw [migrateRow_eq]
  rcases hk : rowKey plan row with - | oldId
  · rw [keyedRow?_of_none hk]
    exact ⟨map, w, rfl, RecordStep.refl _ w, rfl⟩
  · rw [keyedRow?_of_some hk]
    dsimp only
    rw [writeRow]
    generalize ha : (⟨row, index, oldId, hk⟩ : KeyedRow plan) = a
    have hokeq : o (.writeRow plan.table index) = o (.writeRow plan.table a.index) := by rw [← ha]
    rcases hfate : o (.writeRow plan.table index) with - | - | -
    · have hok : rowOk o plan a = true := decide_eq_true (hokeq.symm.trans hfate)
      have hstored : w.pb.accepted plan.pbCollection (rowPayload plan row oldId) =
          a.stored plan accepts := by
        simp only [PocketBase.accepted, hacc, KeyedRow.stored, ← ha]
      have hkey : a.oldId = oldId := by rw [← ha]
      rcases hi : map oldId with - | id
      · have hrun : call .ok (World.createNoted plan.pbCollection (rowPayload plan row oldId)) w =
            (some (some w.pb.nextId), _) := call_ok_run (World.createNoted_eq hname _)
        have hnone : (w.view plan.pbCollection map).index ((rowUpsert plan hold).itemKey a) =
            none := (congrArg map hkey).trans hi
        refine ⟨_, _, bind_run_of_eq hrun,
          ⟨rfl, rfl, fun n hn => World.addRecord_records_of_ne hn _ w⟩, ?_⟩
        rw [Upsert.upsert_of_none hok hnone, World.view, World.noteWrite_records,
          World.addRecord_records_self, PocketBase.newRecord, hstored, ← hkey]
        rfl
      · obtain ⟨r, hr, hid, -⟩ := hs.entry oldId id hi
        have hrun : call .ok
            (World.updateNoted plan.pbCollection id (rowPayload plan row oldId)) w =
              (some (some ()), _) := call_ok_run (World.updateNoted_eq hname ⟨r, hr, hid⟩ _)
        have hsome : (w.view plan.pbCollection map).index ((rowUpsert plan hold).itemKey a) =
            some id := (congrArg map hkey).trans hi
        refine ⟨_, _, bind_run_of_eq hrun,
          ⟨rfl, rfl, fun n hn => World.editRecord_records_of_ne hn _ _ w⟩, ?_⟩
        rw [Upsert.upsert_of_some hok hsome, World.view, World.noteWrite_records,
          World.editRecord_records_self, hstored]
        rfl
    · have hok : rowOk o plan a = false := by simp [rowOk, ← hokeq, hfate]
      rw [Upsert.upsert_of_not_ok hok]
      rcases map oldId with - | id
      · exact ⟨map, w, rfl, RecordStep.refl _ w, rfl⟩
      · exact ⟨map, w, rfl, RecordStep.refl _ w, rfl⟩
    · exact absurd hfate (ho _)

include hold hacc in
/-- **The rows of a batch.** A run of the row loop is an upsert of the rows with a usable key. -/
theorem rowLoop_run {map : String → Option RecordId}
    (hs : (rowUpsert plan hold).Sound (w.view plan.pbCollection map)) (rows : List (Row × ℕ)) :
    ∃ map' w', forEach rows map (fun x map => migrateRow o plan x.1 x.2 map) w =
        (some map', w') ∧ RecordStep plan.pbCollection w w' ∧
      w'.view plan.pbCollection map' = (rowUpsert plan hold).upsertAll (rowOk o plan)
        (rows.filterMap (keyedRow? plan)) (w.view plan.pbCollection map) := by
  induction rows generalizing map w with
  | nil => exact ⟨map, w, rfl, RecordStep.refl _ w, rfl⟩
  | cons x rows ih =>
      obtain ⟨map₁, w₁, hrun, hstep, hview⟩ := migrateRow_run ho hold hacc hs x.1 x.2
      have hacc₁ : w₁.pb.hasField plan.pbCollection = accepts := (hstep.hasField _).trans hacc
      have hs₁ : (rowUpsert plan hold).Sound (w₁.view plan.pbCollection map₁) := by
        rw [hview]
        rcases keyedRow? plan (x.1, x.2) with - | a
        · exact hs
        · exact hs.upsert
      obtain ⟨map', w', hrun', hstep', hview'⟩ := ih hacc₁ hs₁
      refine ⟨map', w', ?_, hstep.trans hstep', ?_⟩
      · refine (forEach_cons_run ?_).trans hrun'
        exact hrun
      · rw [hview', hview, List.filterMap_cons]
        rcases keyedRow? plan x with - | a
        · rfl
        · rw [Upsert.upsertAll_cons]

include hold hacc in
/-- **The batches.** A run of the batch loop is an upsert of the delivered rows. -/
theorem migrateBatches_run {map : String → Option RecordId}
    (hs : (rowUpsert plan hold).Sound (w.view plan.pbCollection map)) (src : SourceTable)
    (fuel offset : ℕ) :
    ∃ map' w', migrateBatches o cfg src plan fuel offset map w = (some (), w') ∧
      RecordStep plan.pbCollection w w' ∧
      w'.view plan.pbCollection map' = (rowUpsert plan hold).upsertAll (rowOk o plan)
        ((delivered o cfg src plan fuel offset).filterMap (keyedRow? plan))
        (w.view plan.pbCollection map) := by
  induction fuel generalizing offset map w with
  | zero => exact ⟨map, w, rfl, RecordStep.refl _ w, rfl⟩
  | succ fuel ih =>
      rw [migrateBatches, delivered, bind_run_of_eq (fetchSupabaseBatch_run ho ..)]
      rcases fetched o src plan.table plan.primaryKey offset (offset + cfg.batchSize - 1)
        with - | rows
      · exact ⟨map, w, rfl, RecordStep.refl _ w, rfl⟩
      · dsimp only
        by_cases hrows : rows = []
        · rw [if_pos hrows, if_pos hrows]
          exact ⟨map, w, rfl, RecordStep.refl _ w, rfl⟩
        · obtain ⟨map₁, w₁, hrun, hstep, hview⟩ :=
            rowLoop_run ho hold hacc hs (rows.zipIdx offset)
          rw [if_neg hrows, if_neg hrows, bind_run_of_eq hrun]
          by_cases hlast : rows.length < cfg.batchSize
          · rw [if_pos hlast, if_pos hlast, List.append_nil]
            exact ⟨map₁, w₁, rfl, hstep, hview⟩
          · have hacc₁ : w₁.pb.hasField plan.pbCollection = accepts :=
              (hstep.hasField _).trans hacc
            obtain ⟨map', w', hrun', hstep', hview'⟩ :=
              ih hacc₁ (by rw [hview]; exact hs.upsertAll _) (offset + cfg.batchSize)
            rw [if_neg hlast, if_neg hlast, List.filterMap_append, Upsert.upsertAll_append,
              ← hview]
            exact ⟨map', w', hrun', hstep.trans hstep', hview'⟩

include hold hacc in
/-- **The first pass of a table.** A run that is not interrupted is an upsert of the delivered
rows, through an index of the records that could be read. -/
theorem migrateTablePass1_run (cfg : Config) (src : SourceTable) :
    ∃ map' w', migrateTablePass1 o cfg src plan w = (some (), w') ∧
      RecordStep plan.pbCollection w w' ∧
      w'.view plan.pbCollection map' = (rowUpsert plan hold).upsertAll (rowOk o plan)
        (deliveredRows o cfg src plan)
        (w.view plan.pbCollection (indexOf Record.key Record.id (readRecords o cfg plan.table
          plan.pbCollection ("PASS1/" ++ plan.pbCollection) w))) := by
  have hname : (w.pb.collection? plan.pbCollection).isSome = true :=
    PocketBase.collection?_isSome_of_hasField (congrFun hacc "old_id" ▸ hold)
  rw [migrateTablePass1, bind_run_of_eq (buildOldIdToPocketIdMap_run ho cfg hname _ _)]
  exact migrateBatches_run ho hold hacc (view_sound plan hold o cfg _ _ w) src _ _

end Runs

/-! ### All rows are delivered -/

section Delivery

omit [LetterCase]

variable {o : Oracle} {cfg : Config} {src : SourceTable} {plan : TablePlan}

/-- The order of the rows that the query for the range from `start` sees in the end. -/
def pageOrder (o : Oracle) (src : SourceTable) (table : String) (start : ℕ) : List Row :=
  if o (.fetchOrdered table start) = .ok then src.rows else src.unordered start

/-- In whatever order the source answers, it answers with its own rows. -/
theorem pageOrder_perm (o : Oracle) (src : SourceTable) (table : String) (start : ℕ) :
    (pageOrder o src table start).Perm src.rows := by
  rw [pageOrder]
  split
  · exact List.Perm.refl _
  · exact src.unordered_perm start

variable (cfg src) in
/-- A batch that can be fetched is a range of such an order. -/
theorem fetched_eq {start : ℕ} (h : o (.fetchOrdered plan.table start) = .ok ∨
      o (.fetchUnordered plan.table start) = .ok) :
    fetched o src plan.table plan.primaryKey start (start + cfg.batchSize - 1) =
      some (((pageOrder o src plan.table start).drop start).take
        (min cfg.batchSize src.maxRows)) := by
  have hpos := cfg.batchSize_pos
  have hsize : start + cfg.batchSize - 1 + 1 - start = cfg.batchSize := by omega
  rw [fetched, pageOrder]
  split
  · rw [firstOrder, if_neg plan.primaryKey_ne, SourceTable.range, hsize]
  next hfail => rw [if_pos (h.resolve_left hfail), SourceTable.range, hsize]

/-- Behind the last row nothing is delivered. -/
theorem delivered_behind {fuel offset : ℕ} (h : src.rows.length ≤ offset) :
    delivered o cfg src plan fuel offset = [] := by
  cases fuel with
  | zero => rfl
  | succ fuel =>
      have hrange : ∀ order : List Row, order.Perm src.rows →
          src.range order offset (offset + cfg.batchSize - 1) = [] := by
        intro order horder
        by_contra hne
        exact absurd ((SourceTable.range_spec horder _ _).2 hne) (by omega)
      rw [delivered, fetched, firstOrder, if_neg plan.primaryKey_ne,
        hrange _ (List.Perm.refl _), hrange _ (src.unordered_perm offset)]
      split_ifs <;> rfl

/-- **Complete delivery.** A source that honours the batch size and answers the ordered queries for
the ranges that start inside the table: the batches from `offset` on deliver the rows from `offset`
on. -/
theorem delivered_ordered (hbatch : cfg.batchSize ≤ src.maxRows) {fuel offset : ℕ}
    (hok : ∀ k, offset + k * cfg.batchSize < src.rows.length →
      o (.fetchOrdered plan.table (offset + k * cfg.batchSize)) = .ok)
    (h : src.rows.length < offset + fuel) :
    delivered o cfg src plan fuel offset = (src.rows.drop offset).zipIdx offset := by
  induction fuel generalizing offset with
  | zero => rw [delivered, List.drop_eq_nil_of_le (by omega), List.zipIdx_nil]
  | succ fuel ih =>
      have hpos := cfg.batchSize_pos
      by_cases hin : offset < src.rows.length
      · have hfirst := hok 0 (by omega)
        rw [Nat.zero_mul, Nat.add_zero] at hfirst
        have hfetched := fetched_eq cfg src (Or.inl hfirst)
        rw [pageOrder, if_pos hfirst, Nat.min_eq_left hbatch] at hfetched
        have hlength : ((src.rows.drop offset).take cfg.batchSize).length =
            min cfg.batchSize (src.rows.length - offset) := by
          rw [List.length_take, List.length_drop]
        have hnil : (src.rows.drop offset).take cfg.batchSize ≠ [] := by
          rw [← List.length_pos_iff]
          omega
        have hrest : ∀ k, offset + cfg.batchSize + k * cfg.batchSize < src.rows.length →
            o (.fetchOrdered plan.table (offset + cfg.batchSize + k * cfg.batchSize)) = .ok := by
          intro k hk
          have hnext := hok (k + 1)
          rw [Nat.succ_mul, Nat.add_comm (k * _), ← Nat.add_assoc] at hnext
          exact hnext hk
        rw [delivered, hfetched]
        dsimp only
        rw [if_neg hnil]
        by_cases hlast : ((src.rows.drop offset).take cfg.batchSize).length < cfg.batchSize
        · rw [if_pos hlast, List.append_nil, List.take_of_length_le]
          rw [List.length_drop]
          omega
        · rw [if_neg hlast, ih hrest (by omega), ← List.drop_drop]
          nth_rewrite 3 [← List.take_append_drop cfg.batchSize (src.rows.drop offset)]
          rw [List.zipIdx_append, hlength]
          congr 2
          omega
      · rw [delivered_behind (by omega), List.drop_eq_nil_of_le (by omega), List.zipIdx_nil]

/-- With every call answered and a source that honours the batch size, all rows are delivered. -/
theorem delivered_allOk (hbatch : cfg.batchSize ≤ src.maxRows) (plan : TablePlan)
    {fuel offset : ℕ} (h : src.rows.length < offset + fuel) :
    delivered allOk cfg src plan fuel offset = (src.rows.drop offset).zipIdx offset :=
  delivered_ordered hbatch (fun _ _ => rfl) h

end Delivery

end Mogo
