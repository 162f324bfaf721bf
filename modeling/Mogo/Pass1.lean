import Mogo.PocketBase

/-!
# The First Pass

For one table, the first pass reads the old ids of the collection into a map, fetches the rows in
batches and writes each row: a row whose normalised key is in the map overwrites that record, any
other row creates one. A foreign-key column writes nothing to its relation field and the
normalised key to its temporary field. A row without a key is skipped, and so is one with a value
whose conversion throws: the loop catches the error, logs it and goes on.

## Main results

* `exists_payload_iff`: the rows that have a payload.
* `buildPass1RecordPayload_plain`, `buildPass1RecordPayload_fk`: what a payload says about a
  column.
* `rowPayload_isSome_iff`: the keys of a payload are the fields of the plan.
* `migrateBatches_fuel`, `mapFromPage_fuel`: the loops end by themselves, within their budgets.
-/

namespace Mogo

open Script

variable [LetterCase]

/-! ### Payloads -/

/-- An old id as a value; a missing one is `null`. -/
def oldIdValue : Option String → Value
  | none => .null
  | some s => .string s

/-- One column of `buildPass1RecordPayload`; `none` where its conversion throws. -/
def setColumn (row : Row) (payload : Payload) (col : ColumnPlan) : Option Payload :=
  let rawValue := row.get col.sourceColumn
  if col.isForeignKey = false then
    (normalizeValueForPocketBase rawValue col.pbType).map fun value =>
      payload.set col.pbField (.ofValue value)
  else if textThrows rawValue then none
  else
    let oldId := Cell.ofValue (oldIdValue (normalizeOldId rawValue))
    match col.fkTempField with
    | some temp => some ((payload.set col.pbField .empty).set temp oldId)
    | none => some (payload.set col.pbField oldId)

/-- `buildPass1RecordPayload`; `none` where it throws. -/
def buildPass1RecordPayload (row : Row) (plan : TablePlan) : Option Payload :=
  plan.columnPlans.foldlM (setColumn row) []

/-- `payload.old_id = oldId`, the key by which the record is found again. -/
def Payload.setOldId (p : Payload) (oldId : String) : Payload :=
  p.set "old_id" (.value (.string oldId))

/-- The key under which a row is written. A row is not written without a usable key, nor when its
payload cannot be built. -/
def rowKey (plan : TablePlan) (row : Row) : Option String :=
  if (buildPass1RecordPayload row plan).isSome then normalizeOldId (row.get plan.primaryKey)
  else none

/-- The payload a row is written with, under its old id. -/
def rowPayload (plan : TablePlan) (row : Row) (oldId : String) : Payload :=
  ((buildPass1RecordPayload row plan).getD []).setOldId oldId

/-! ### The pass -/

/-- The page loop of `buildOldIdToPocketIdMap`. It stops at the first page it does not get. -/
def mapFromPage (o : Oracle) (cfg : Config) (table name label : String) :
    (fuel : ℕ) → (p : ℕ) → (String → Option RecordId) → Script World (String → Option RecordId)
  | 0, _, map => pure map
  | fuel + 1, p, map => do
      match ← call (o (.mapPage table label p)) (World.getList name cfg.pageSize p) with
      | none => pure map
      | some list =>
        let map := indexInto Record.key Record.id map list.items
        if list.totalPages ≤ p then pure map
        else mapFromPage o cfg table name label fuel (p + 1) map

/-- `buildOldIdToPocketIdMap`, for the collection `name`; `table` is the table being migrated. -/
def buildOldIdToPocketIdMap (o : Oracle) (cfg : Config) (table name label : String) :
    Script World (String → Option RecordId) :=
  withState fun w =>
    mapFromPage o cfg table name label (max 1 (totalPages cfg.pageSize (w.records name).length)) 1
      fun _ => none

/-- The order of the first query of `fetchSupabaseBatch`. -/
def firstOrder (src : SourceTable) (primaryKey : String) (start : ℕ) : List Row :=
  if primaryKey = "" then src.unordered start else src.rows

/-- `fetchSupabaseBatch`; `none` is an error. -/
def fetchSupabaseBatch (o : Oracle) (src : SourceTable) (table primaryKey : String)
    (start stop : ℕ) : Script World (Option (List Row)) := do
  match ← call (o (.fetchOrdered table start))
      (fun w => some (src.range (firstOrder src primaryKey start) start stop, w)) with
  | some rows => pure (some rows)
  | none =>
    call (o (.fetchUnordered table start))
      fun w => some (src.range (src.unordered start) start stop, w)

/-- An update of the first pass, with the history. -/
def World.updateNoted (name : String) (id : RecordId) (p : Payload) (w : World) :
    Option (Unit × World) :=
  (w.update name id p).map fun x => (x.1, x.2.noteWrite name id p)

/-- A create of the first pass, with the history. -/
def World.createNoted (name : String) (p : Payload) (w : World) : Option (RecordId × World) :=
  (w.create name p).map fun x => (x.1, x.2.noteWrite name x.1 p)

/-- The write of a row in the row loop of `migrateTablePass1`. -/
def writeRow (o : Oracle) (plan : TablePlan) (index : ℕ) (existingMap : String → Option RecordId)
    (oldId : String) (payload : Payload) : Script World (String → Option RecordId) := do
  match existingMap oldId with
  | some existingId =>
    let _ ← call (o (.writeRow plan.table index))
      (World.updateNoted plan.pbCollection existingId payload)
    pure existingMap
  | none =>
    match ← call (o (.writeRow plan.table index))
        (World.createNoted plan.pbCollection payload) with
    | some created => pure (Function.update existingMap oldId (some created))
    | none => pure existingMap

/-- The body of the row loop of `migrateTablePass1`. `index` is the position at which the row was
delivered. An error ends the turn of the row only. -/
def migrateRow (o : Oracle) (plan : TablePlan) (row : Row) (index : ℕ)
    (existingMap : String → Option RecordId) : Script World (String → Option RecordId) :=
  match normalizeOldId (row.get plan.primaryKey) with
  | none => pure existingMap
  | some oldId =>
    match buildPass1RecordPayload row plan with
    | none => pure existingMap
    | some payload => writeRow o plan index existingMap oldId (payload.setOldId oldId)

/-- The batch loop of `migrateTablePass1`. -/
def migrateBatches (o : Oracle) (cfg : Config) (src : SourceTable) (plan : TablePlan) :
    (fuel : ℕ) → (offset : ℕ) → (String → Option RecordId) → Script World Unit
  | 0, _, _ => pure ()
  | fuel + 1, offset, existingMap => do
      match ← fetchSupabaseBatch o src plan.table plan.primaryKey offset
          (offset + cfg.batchSize - 1) with
      | none => pure ()
      | some rows =>
        if rows = [] then pure ()
        else
          let existingMap ← forEach (rows.zipIdx offset) existingMap fun x existingMap =>
            migrateRow o plan x.1 x.2 existingMap
          if rows.length < cfg.batchSize then pure ()
          else migrateBatches o cfg src plan fuel (offset + cfg.batchSize) existingMap

/-- `migrateTablePass1`. A batch moves the offset on, so there is at most one batch for every row
and a last empty one. -/
def migrateTablePass1 (o : Oracle) (cfg : Config) (src : SourceTable) (plan : TablePlan) :
    Script World Unit := do
  let existingMap ← buildOldIdToPocketIdMap o cfg plan.table plan.pbCollection
    ("PASS1/" ++ plan.pbCollection)
  migrateBatches o cfg src plan (src.rows.length + 1) 0 existingMap

/-! ### What a payload says -/

section Payloads

/-- The conversion of the column asks for the text of a value that is no string. -/
def ColumnPlan.asksForText (col : ColumnPlan) : Bool := col.isForeignKey || col.pbType.asksForText

/-- Where the conversion of a column throws. -/
theorem setColumn_eq_none_iff {row : Row} {p : Payload} {col : ColumnPlan} :
    setColumn row p col = none ↔
      col.asksForText = true ∧ textThrows (row.get col.sourceColumn) = true := by
  rw [setColumn, ColumnPlan.asksForText]
  rcases hfk : col.isForeignKey with - | -
  · simp only [if_true, Option.map_eq_none_iff, normalizeValueForPocketBase_eq_none_iff,
      Bool.false_or]
  · rw [if_neg (by simp), Bool.true_or]
    dsimp only
    split
    next h => simp [h]
    next h =>
      rcases col.fkTempField with - | temp
      · simp [h]
      · simp [h]

/-- Nothing without a text stands in a column that asks for one. -/
def RowConverts (plan : TablePlan) (row : Row) : Prop :=
  ∀ col ∈ plan.columnPlans, col.asksForText = true → textThrows (row.get col.sourceColumn) = false

instance (plan : TablePlan) (row : Row) : Decidable (RowConverts plan row) :=
  inferInstanceAs (Decidable (∀ _ ∈ _, _ → _))

/-- A fold of columns throws where one of them does. -/
theorem foldlM_setColumn_eq_none_iff {row : Row} {cols : List ColumnPlan} {p : Payload} :
    cols.foldlM (setColumn row) p = none ↔ ∃ col ∈ cols,
      col.asksForText = true ∧ textThrows (row.get col.sourceColumn) = true := by
  induction cols generalizing p with
  | nil => simp [List.foldlM_nil]
  | cons col cols ih =>
      simp only [List.foldlM_cons, List.mem_cons, exists_eq_or_imp]
      rw [← setColumn_eq_none_iff (p := p)]
      rcases setColumn row p col with - | q
      · simp
      · exact ih.trans (by simp)

/-- **The rows with a payload** are those that convert. -/
theorem exists_payload_iff {row : Row} {plan : TablePlan} :
    (∃ p, buildPass1RecordPayload row plan = some p) ↔ RowConverts plan row := by
  rw [← Option.ne_none_iff_exists', ne_eq, buildPass1RecordPayload, foldlM_setColumn_eq_none_iff,
    RowConverts]
  push Not
  simp only [ne_eq, Bool.not_eq_true]

/-- A row that is written has a usable key, and converts. -/
theorem rowKey_eq_some_iff {plan : TablePlan} {row : Row} {k : String} :
    rowKey plan row = some k ↔ normalizeOldId (row.get plan.primaryKey) = some k ∧
      RowConverts plan row := by
  rw [rowKey, ← exists_payload_iff]
  rcases buildPass1RecordPayload row plan with - | p
  · simp
  · simp

/-- The key of a row that converts is the normalised value of its primary key. -/
theorem rowKey_of_converts {plan : TablePlan} {row : Row} (h : RowConverts plan row) :
    rowKey plan row = normalizeOldId (row.get plan.primaryKey) := by
  obtain ⟨p, hp⟩ := exists_payload_iff.mpr h
  rw [rowKey, hp, Option.isSome_some, if_pos rfl]

/-- The payload of a row that is written. -/
theorem exists_rowPayload_eq {plan : TablePlan} {row : Row} {k : String}
    (h : rowKey plan row = some k) :
    ∃ p, buildPass1RecordPayload row plan = some p ∧ rowPayload plan row k = p.setOldId k := by
  obtain ⟨p, hp⟩ := exists_payload_iff.mpr (rowKey_eq_some_iff.mp h).2
  exact ⟨p, hp, by rw [rowPayload, hp, Option.getD_some]⟩

/-- Every payload of the first pass sets `old_id` to the key of its row. -/
theorem rowPayload_old_id (plan : TablePlan) (row : Row) (oldId : String) :
    (rowPayload plan row oldId).get? "old_id" = some (.value (.string oldId)) :=
  Payload.get?_set_self ..

/-- **The row body** writes the payload of the row, if the row has a key. -/
theorem migrateRow_eq (o : Oracle) (plan : TablePlan) (row : Row) (index : ℕ)
    (existingMap : String → Option RecordId) :
    migrateRow o plan row index existingMap =
      match rowKey plan row with
      | none => pure existingMap
      | some oldId => writeRow o plan index existingMap oldId (rowPayload plan row oldId) := by
  rw [migrateRow]
  simp only [rowKey, rowPayload]
  rcases normalizeOldId (row.get plan.primaryKey) with - | oldId
  · rw [ite_self]
  · rcases buildPass1RecordPayload row plan with - | p
    · rfl
    · rfl

/-- A column leaves the keys of other fields alone. -/
theorem setColumn_of_notMem {row : Row} {p q : Payload} {col : ColumnPlan} {n : String}
    (hset : setColumn row p col = some q) (h : n ∉ col.fieldNames) : q.get? n = p.get? n := by
  rw [ColumnPlan.fieldNames, List.mem_cons, not_or] at h
  rw [setColumn] at hset
  dsimp only at hset
  split at hset
  · obtain ⟨v, -, rfl⟩ := Option.map_eq_some_iff.mp hset
    rw [Payload.get?_set, if_neg h.1]
  · split at hset
    · cases hset
    · rcases htemp : col.fkTempField with - | temp
      · rw [htemp] at hset
        cases hset
        rw [Payload.get?_set, if_neg h.1]
      · rw [htemp] at hset h
        cases hset
        rw [Option.toList_some, List.mem_singleton] at h
        rw [Payload.get?_set, Payload.get?_set, if_neg h.2, if_neg h.1]

/-- What a payload says about a column is what the column has set. -/
theorem buildPass1RecordPayload_get? {plan : TablePlan} {col : ColumnPlan}
    (hcol : col ∈ plan.columnPlans) {n : String} (hn : n ∈ col.fieldNames) {row : Row}
    {q : Payload} (hq : buildPass1RecordPayload row plan = some q) :
    ∃ p q', setColumn row p col = some q' ∧ q.get? n = q'.get? n := by
  have hstep : ∀ p col q n, setColumn row p col = some q → n ∉ col.fieldNames →
      q.get? n = p.get? n := fun _ _ _ _ hset h => setColumn_of_notMem hset h
  obtain ⟨p, q', hset, -, hget⟩ :=
    Payload.foldlM_of_mem hstep (List.nodup_cons.mp plan.names_nodup).2 hcol hn hq
  exact ⟨p, q', hset, hget⟩

/-- **Plain columns.** The payload holds the value, fitted to the type of the field. -/
theorem buildPass1RecordPayload_plain {plan : TablePlan} {col : ColumnPlan}
    (hcol : col ∈ plan.columnPlans) (hfk : col.fk = none) {row : Row} {q : Payload}
    (hq : buildPass1RecordPayload row plan = some q) :
    ∃ v, normalizeValueForPocketBase (row.get col.sourceColumn) col.pbType = some v ∧
      q.get? col.pbField = some (.ofValue v) := by
  obtain ⟨p, q', hset, hget⟩ :=
    buildPass1RecordPayload_get? hcol (n := col.pbField) List.mem_cons_self hq
  have hflag : col.isForeignKey = false := by rw [plan.isForeignKey_eq col hcol, hfk]; rfl
  rw [setColumn, if_pos hflag] at hset
  obtain ⟨v, hv, rfl⟩ := Option.map_eq_some_iff.mp hset
  exact ⟨v, hv, by rw [hget, Payload.get?_set_self]⟩

/-- **Foreign-key columns.** The payload empties the relation and puts the normalised key into the
temporary field. -/
theorem buildPass1RecordPayload_fk {plan : TablePlan} {col : ColumnPlan}
    (hcol : col ∈ plan.columnPlans) {temp : String} (ht : col.fkTempField = some temp)
    {row : Row} {q : Payload} (hq : buildPass1RecordPayload row plan = some q) :
    q.get? col.pbField = some .empty ∧
      q.get? temp = some (.ofValue (oldIdValue (normalizeOldId (row.get col.sourceColumn)))) := by
  have htmem := TablePlan.temp_mem_fieldNames ht
  have hflag : ¬ col.isForeignKey = false := by
    rw [plan.isForeignKey_eq col hcol, ← plan.fkTempField_isSome col hcol, ht]
    simp
  have hset : ∀ {p q' : Payload}, setColumn row p col = some q' →
      q' = (p.set col.pbField .empty).set temp
        (.ofValue (oldIdValue (normalizeOldId (row.get col.sourceColumn)))) := by
    intro p q' hset
    rw [setColumn, if_neg hflag, ht] at hset
    dsimp only at hset
    split at hset
    · cases hset
    · exact (Option.some.inj hset).symm
  obtain ⟨p, p', hp, hgetField⟩ :=
    buildPass1RecordPayload_get? hcol (n := col.pbField) List.mem_cons_self hq
  obtain ⟨p₁, p₁', hp₁, hgetTemp⟩ := buildPass1RecordPayload_get? hcol htmem hq
  rw [hgetField, hgetTemp, hset hp, hset hp₁,
    Payload.get?_set_of_ne _ (TablePlan.pbField_ne_temp hcol ht), Payload.get?_set_self,
    Payload.get?_set_self]
  exact ⟨rfl, rfl⟩

/-- A column that is set gives the payload a value for each of its own fields. -/
theorem setColumn_isSome {plan : TablePlan} {col : ColumnPlan} (hcol : col ∈ plan.columnPlans)
    {n : String} (hn : n ∈ col.fieldNames) {row : Row} {p q : Payload}
    (hset : setColumn row p col = some q) : (q.get? n).isSome = true := by
  have htemp := plan.fkTempField_isSome col hcol
  rw [← plan.isForeignKey_eq col hcol] at htemp
  rw [ColumnPlan.fieldNames, List.mem_cons, Option.mem_toList] at hn
  rw [setColumn] at hset
  rcases hf : col.isForeignKey with - | -
  · rw [hf] at htemp hset
    rw [if_pos rfl] at hset
    obtain ⟨v, -, rfl⟩ := Option.map_eq_some_iff.mp hset
    rcases hn with rfl | hn
    · rw [Payload.get?_set_self]
      rfl
    · rw [hn] at htemp
      exact absurd htemp (by simp)
  · obtain ⟨temp, ht⟩ := Option.isSome_iff_exists.mp (htemp.trans hf)
    rw [if_neg (by simp [hf]), ht] at hset
    dsimp only at hset
    split at hset
    · cases hset
    · cases hset
      rw [Payload.get?_set]
      split
      · rfl
      next hne =>
        rcases hn with rfl | hn
        · rw [Payload.get?_set_self]
          rfl
        · exact absurd (Option.some.inj (hn.symm.trans ht)) hne

/-- The keys of a payload are the fields of the planned columns. -/
theorem buildPass1RecordPayload_isSome_iff {plan : TablePlan} {row : Row} {q : Payload}
    (hq : buildPass1RecordPayload row plan = some q) {n : String} :
    (q.get? n).isSome = true ↔ n ∈ plan.columnPlans.flatMap ColumnPlan.fieldNames := by
  constructor
  · intro h
    by_contra hnot
    have hstep : ∀ p col q n, setColumn row p col = some q → n ∉ col.fieldNames →
        q.get? n = p.get? n := fun _ _ _ _ hset h => setColumn_of_notMem hset h
    rw [Payload.foldlM_of_notMem hstep hnot hq] at h
    exact absurd h (by simp)
  · intro h
    obtain ⟨col, hcol, hn⟩ := List.mem_flatMap.mp h
    obtain ⟨p, q', hset, hget⟩ := buildPass1RecordPayload_get? hcol hn hq
    rw [hget]
    exact setColumn_isSome hcol hn hset

/-- The keys of the payload of a row that is written are the fields of the plan. -/
theorem rowPayload_isSome_iff {plan : TablePlan} {row : Row} {oldId : String}
    (h : rowKey plan row = some oldId) {n : String} :
    ((rowPayload plan row oldId).get? n).isSome = true ↔ n ∈ plan.fieldNames := by
  obtain ⟨p, hp, hpayload⟩ := exists_rowPayload_eq h
  rw [hpayload, Payload.setOldId, Payload.get?_set, TablePlan.fieldNames, List.mem_cons]
  by_cases hn : n = "old_id"
  · simp [hn]
  · rw [if_neg hn, or_iff_right hn]
    exact buildPass1RecordPayload_isSome_iff hp

end Payloads

/-! ### The budgets are enough -/

section Budgets

omit [LetterCase]

variable (o : Oracle) (cfg : Config) (src : SourceTable)

/-- A range of an order of the rows holds rows of the table, and is empty behind the last one. -/
theorem SourceTable.range_spec {src : SourceTable} {order : List Row} (h : order.Perm src.rows)
    (start stop : ℕ) :
    (∀ row ∈ src.range order start stop, row ∈ src.rows) ∧
      (src.range order start stop ≠ [] → start < src.rows.length) := by
  constructor
  · intro row hrow
    exact h.mem_iff.mp (List.mem_of_mem_drop (List.mem_of_mem_take hrow))
  · intro hne
    by_contra hlt
    refine hne ?_
    rw [range, List.drop_eq_nil_of_le (by rw [h.length_eq]; omega), List.take_nil]

/-- A batch holds rows of the table, and is empty behind the last one. -/
theorem fetchSupabaseBatch_spec (table primaryKey : String) (start stop : ℕ) (w₀ : World) :
    Triple (fun w => w = w₀) (fetchSupabaseBatch o src table primaryKey start stop)
      (fun r w => w = w₀ ∧ ∀ rows, r = some rows →
        (∀ row ∈ rows, row ∈ src.rows) ∧ (rows ≠ [] → start < src.rows.length))
      (fun w => w = w₀) := by
  have hcall : ∀ fate (order : List Row), order.Perm src.rows → Triple (fun w => w = w₀)
      (call fate fun w => some (src.range order start stop, w))
      (fun r w => w = w₀ ∧ ∀ rows, r = some rows →
        (∀ row ∈ rows, row ∈ src.rows) ∧ (rows ≠ [] → start < src.rows.length))
      (fun w => w = w₀) := by
    intro fate order horder
    refine Triple.call ?_ (fun w hw => ⟨hw, fun _ h => absurd h (by simp)⟩) fun w hw => hw
    rintro w rows w' rfl h
    obtain ⟨rfl, rfl⟩ := Prod.mk.inj (Option.some.inj h)
    refine ⟨rfl, fun rows h => ?_⟩
    rw [← Option.some.inj h]
    exact SourceTable.range_spec horder start stop
  have hfirst : (firstOrder src primaryKey start).Perm src.rows := by
    rw [firstOrder]
    split
    · exact src.unordered_perm start
    · exact List.Perm.refl _
  refine (hcall _ _ hfirst).bind ?_
  rintro (- | rows)
  · exact (hcall _ _ (src.unordered_perm start)).consequence (fun w hw => hw.1) (fun _ _ h => h)
      fun _ h => h
  · exact Triple.pure fun w hw => hw

end Budgets

/-- The batch loop ends by itself: behind the last row a larger budget changes nothing. -/
theorem migrateBatches_fuel (o : Oracle) (cfg : Config) (src : SourceTable) (plan : TablePlan)
    {fuel offset : ℕ} (h : src.rows.length ≤ offset + fuel) (map : String → Option RecordId)
    (w : World) :
    migrateBatches o cfg src plan (fuel + 2) offset map w =
      migrateBatches o cfg src plan (fuel + 1) offset map w := by
  have hfetch := fetchSupabaseBatch_spec o src plan.table plan.primaryKey offset
    (offset + cfg.batchSize - 1) w w rfl
  induction fuel generalizing offset map w with
  | zero =>
      rw [migrateBatches, migrateBatches, bind_run, bind_run]
      rcases hrun : fetchSupabaseBatch o src plan.table plan.primaryKey offset
        (offset + cfg.batchSize - 1) w with ⟨- | - | rows, w₁⟩
      · rfl
      · rfl
      · rw [hrun] at hfetch
        have hrows : rows = [] := by
          by_contra hne
          have := (hfetch.2 rows rfl).2 hne
          omega
        simp only [if_pos hrows]
  | succ fuel ih =>
      rw [migrateBatches, migrateBatches, bind_run, bind_run]
      rcases fetchSupabaseBatch o src plan.table plan.primaryKey offset
        (offset + cfg.batchSize - 1) w with ⟨- | - | rows, w₁⟩
      · rfl
      · rfl
      · dsimp only
        by_cases hrows : rows = []
        · rw [if_pos hrows, if_pos hrows]
        · rw [if_neg hrows, if_neg hrows, bind_run, bind_run]
          rcases forEach (rows.zipIdx offset) map
            (fun x existingMap => migrateRow o plan x.1 x.2 existingMap) w₁ with ⟨- | map', w₂⟩
          · rfl
          · dsimp only
            by_cases hlast : rows.length < cfg.batchSize
            · rw [if_pos hlast, if_pos hlast]
            · rw [if_neg hlast, if_neg hlast]
              have hpos := cfg.batchSize_pos
              exact ih (by omega) map' w₂ (fetchSupabaseBatch_spec o src plan.table
                plan.primaryKey _ _ w₂ w₂ rfl)

/-- The page loop of a map ends by itself: behind the last page a larger budget changes
nothing. -/
theorem mapFromPage_fuel (o : Oracle) (cfg : Config) (table name label : String)
    {fuel p : ℕ} {w : World}
    (h : totalPages cfg.pageSize (w.records name).length ≤ p + fuel)
    (map : String → Option RecordId) :
    mapFromPage o cfg table name label (fuel + 2) p map w =
      mapFromPage o cfg table name label (fuel + 1) p map w := by
  induction fuel generalizing p map with
  | zero =>
      have hget := World.call_getList_spec (o (.mapPage table label p)) name cfg.pageSize p w w rfl
      rw [mapFromPage, mapFromPage, bind_run, bind_run]
      rcases hrun : call (o (.mapPage table label p)) (World.getList name cfg.pageSize p) w
        with ⟨- | - | list, w₁⟩
      · rfl
      · rfl
      · rw [hrun] at hget
        rw [Nat.add_zero] at h
        simp only [hget.2 list rfl, if_pos h]
  | succ fuel ih =>
      have hget := World.call_getList_spec (o (.mapPage table label p)) name cfg.pageSize p w w rfl
      rw [mapFromPage, mapFromPage, bind_run, bind_run]
      rcases hrun : call (o (.mapPage table label p)) (World.getList name cfg.pageSize p) w
        with ⟨- | - | list, w₁⟩
      · rfl
      · rfl
      · rw [hrun] at hget
        obtain ⟨rfl, hlist⟩ := hget
        dsimp only
        split
        · rfl
        · exact ih (by omega) _

/-! ### The writes of the pass -/

namespace World

omit [LetterCase]

variable {name : String} {w : World}

/-- In a collection that exists a record is created and its payload noted. -/
theorem createNoted_eq (hname : (w.pb.collection? name).isSome = true) (p : Payload) :
    w.createNoted name p =
      some (w.pb.nextId, (w.addRecord name p).noteWrite name w.pb.nextId p) := by
  rw [createNoted, create, if_pos hname]
  rfl

/-- In a collection that exists a record that is there is updated and its payload noted. -/
theorem updateNoted_eq (hname : (w.pb.collection? name).isSome = true) {id : RecordId}
    (hid : ∃ r ∈ w.records name, r.id = id) (p : Payload) :
    w.updateNoted name id p = some ((), (w.editRecord name id p).noteWrite name id p) := by
  rw [updateNoted, update, if_pos ⟨hname, hid⟩]
  rfl

/-- A create that is answered appends a record and is remembered. -/
theorem createNoted_spec {p : Payload} {id : RecordId} {w' : World}
    (h : w.createNoted name p = some (id, w')) :
    id = w.pb.nextId ∧ w' = (w.addRecord name p).noteWrite name w.pb.nextId p := by
  by_cases hname : (w.pb.collection? name).isSome = true
  · rw [createNoted_eq hname] at h
    obtain ⟨hid, hw⟩ := Prod.mk.inj (Option.some.inj h)
    exact ⟨hid.symm, hw.symm⟩
  · rw [createNoted, create, if_neg hname] at h
    exact absurd h (by simp)

/-- An update that is answered overwrites a record that is there and is remembered. -/
theorem updateNoted_spec {id : RecordId} {p : Payload} {u : Unit} {w' : World}
    (h : w.updateNoted name id p = some (u, w')) :
    (∃ r ∈ w.records name, r.id = id) ∧
      w' = (w.editRecord name id p).noteWrite name id p := by
  by_cases hcond : (w.pb.collection? name).isSome = true ∧ ∃ r ∈ w.records name, r.id = id
  · rw [updateNoted_eq hcond.1 hcond.2] at h
    exact ⟨hcond.2, (Prod.mk.inj (Option.some.inj h)).2.symm⟩
  · rw [updateNoted, update, if_neg hcond] at h
    exact absurd h (by simp)

end World

/-! ### Invariants of the pass -/

/-- A map whose entries are true of a collection. -/
def MapOf (name : String) (map : String → Option RecordId) (w : World) : Prop :=
  ∀ k id, map k = some id → ∃ r ∈ w.records name, r.id = id ∧ r.key = some k

/-- A map is built without changing anything, and its entries are true. -/
theorem buildOldIdToPocketIdMap_spec (o : Oracle) (cfg : Config) (table name label : String)
    (w₀ : World) :
    Triple (fun w => w = w₀) (buildOldIdToPocketIdMap o cfg table name label)
      (fun map w => w = w₀ ∧ MapOf name map w₀) (fun w => w = w₀) := by
  have hloop : ∀ fuel p map, MapOf name map w₀ → Triple (fun w => w = w₀)
      (mapFromPage o cfg table name label fuel p map)
      (fun map w => w = w₀ ∧ MapOf name map w₀) (fun w => w = w₀) := by
    intro fuel
    induction fuel with
    | zero => exact fun p map hmap => Triple.pure fun w hw => ⟨hw, hmap⟩
    | succ fuel ih =>
        intro p map hmap
        rw [mapFromPage]
        refine (World.call_getList_spec _ name cfg.pageSize p w₀).bind ?_
        rintro (- | list)
        · exact Triple.pure fun w hw => ⟨hw.1, hmap⟩
        · rintro w ⟨rfl, hlist⟩
          have hmap' : MapOf name (indexInto Record.key Record.id map list.items) w := by
            intro k id hk
            rcases indexInto_eq_some hk with hk | ⟨r, hr, hkey, hid⟩
            · exact hmap k id hk
            · rw [hlist list rfl] at hr
              exact ⟨r, List.mem_of_mem_drop (List.mem_of_mem_take hr), hid, hkey⟩
          dsimp only
          by_cases hlast : list.totalPages ≤ p
          · rw [if_pos hlast]
            exact ⟨rfl, hmap'⟩
          · rw [if_neg hlast]
            exact ih (p + 1) _ hmap' w rfl
  refine Triple.withState fun w₁ => ?_
  rintro w ⟨rfl, rfl⟩
  exact hloop _ 1 _ (fun k id h => absurd h (by simp)) w rfl

/-- The rule for one row: what a written row does to the invariant `J` of the map and the
world. -/
theorem migrateRow_rule {o : Oracle} {plan : TablePlan} {row : Row} {index : ℕ} {C : World → Prop}
    {J : (String → Option RecordId) → World → Prop} {map : String → Option RecordId}
    (hcreate : ∀ oldId w, rowKey plan row = some oldId → map oldId = none → J map w →
      J (Function.update map oldId (some w.pb.nextId))
        ((w.addRecord plan.pbCollection (rowPayload plan row oldId)).noteWrite
          plan.pbCollection w.pb.nextId (rowPayload plan row oldId)))
    (hupdate : ∀ oldId id w, rowKey plan row = some oldId → map oldId = some id → J map w →
      J map ((w.editRecord plan.pbCollection id (rowPayload plan row oldId)).noteWrite
        plan.pbCollection id (rowPayload plan row oldId)))
    (hJC : ∀ w, J map w → C w) : Triple (J map) (migrateRow o plan row index map) J C := by
  rw [migrateRow_eq]
  cases hkey : rowKey plan row with
  | none => exact Triple.pure fun w hw => hw
  | some oldId =>
      dsimp only
      rw [writeRow]
      cases hentry : map oldId with
      | none =>
          refine Triple.bind (Q := fun r w => match r with
            | some created => J (Function.update map oldId (some created)) w
            | none => J map w) (Triple.call ?_ (fun w hw => hw) hJC) ?_
          · intro w id w' hw h
            obtain ⟨rfl, rfl⟩ := World.createNoted_spec h
            exact hcreate oldId w hkey hentry hw
          · rintro (- | id)
            · exact Triple.pure fun w hw => hw
            · exact Triple.pure fun w hw => hw
      | some id =>
          refine Triple.bind (Q := fun _ => J map) (Triple.call ?_ (fun w hw => hw) hJC)
            fun _ => Triple.pure fun w hw => hw
          intro w u w' hw h
          obtain ⟨-, rfl⟩ := World.updateNoted_spec h
          exact hupdate oldId id w hkey hentry hw

/-- The rule for the first pass. `I` is what the pass keeps, `J` what it keeps while it holds a
map; the row body must keep `J` for every row of the table. -/
theorem migrateTablePass1_rule {o : Oracle} {cfg : Config} {src : SourceTable} {plan : TablePlan}
    {I C : World → Prop} {J : (String → Option RecordId) → World → Prop}
    (hmap : ∀ map w, I w → MapOf plan.pbCollection map w → J map w)
    (hrow : ∀ row ∈ src.rows, ∀ index map,
      Triple (J map) (migrateRow o plan row index map) J C)
    (hJI : ∀ map w, J map w → I w) (hIC : ∀ w, I w → C w) :
    Triple I (migrateTablePass1 o cfg src plan) (fun _ => I) C := by
  have hrows : ∀ (rows : List (Row × ℕ)) map, (∀ x ∈ rows, x.1 ∈ src.rows) →
      Triple (J map) (forEach rows map fun x map => migrateRow o plan x.1 x.2 map) J C := by
    intro rows
    induction rows with
    | nil => exact fun map _ => Triple.pure fun w hw => hw
    | cons x rows ih =>
        intro map hmem
        exact (hrow x.1 (hmem x List.mem_cons_self) x.2 map).bind fun map' =>
          ih map' fun y hy => hmem y (List.mem_cons_of_mem x hy)
  have hloop : ∀ fuel offset map,
      Triple (J map) (migrateBatches o cfg src plan fuel offset map) (fun _ => I) C := by
    intro fuel
    induction fuel with
    | zero => exact fun offset map => Triple.pure fun w hw => hJI map w hw
    | succ fuel ih =>
        intro offset map w₀ hw₀
        rw [migrateBatches]
        refine ((fetchSupabaseBatch_spec o src plan.table plan.primaryKey offset _ w₀).consequence
          (fun w hw => hw) (fun _ _ h => h) fun w hw => hw ▸ hIC w₀ (hJI map w₀ hw₀)).bind ?_ w₀ rfl
        rintro (- | rows)
        · exact Triple.pure fun w hw => hw.1 ▸ hJI map w₀ hw₀
        · rintro w ⟨rfl, hfetched⟩
          dsimp only
          by_cases hnil : rows = []
          · rw [if_pos hnil]
            exact hJI map w hw₀
          · rw [if_neg hnil]
            refine ((hrows (rows.zipIdx offset) map fun x hx => ?_).bind fun map' => ?_) w hw₀
            · exact (hfetched rows rfl).1 x.1 (List.fst_mem_of_mem_zipIdx hx)
            · split
              · exact Triple.pure fun w hw => hJI map' w hw
              · exact ih _ map'
  intro w₀ hw₀
  rw [migrateTablePass1]
  refine ((buildOldIdToPocketIdMap_spec o cfg plan.table plan.pbCollection _ w₀).consequence
    (fun w hw => hw) (fun _ _ h => h) fun w hw => hw ▸ hIC w₀ hw₀).bind (fun map => ?_) w₀ rfl
  exact (hloop _ 0 map).consequence (fun w hw => hw.1 ▸ hmap map w₀ hw₀ hw.2) (fun _ _ h => h)
    fun _ h => h

end Mogo
