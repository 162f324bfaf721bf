import Mogo.Conservation
import Mogo.SharedCounter

/-!
# The Order of the Tables

Where the foreign keys of the tables form a cycle, the migration falls back to the configured
order. That is harmless: with every call answered and the collections there, any two orders of the
tables, in the first pass and in the second, leave the same state, up to the ids of the records
that the run has created.

The first pass is a run of upserts that share the counter of PocketBase, and its payloads hold no
ids. The second pass reads the ids of the records as tokens.

## Main results

* `runTables_allOk`: the first pass as a run of steps that share a counter.
* `resolvedRecord_rename`: the second pass carries a renaming along.
* `order_irrelevant`: the two passes, in any two pairs of orders.
-/

namespace Mogo

open Script

/-! ### Renamed states -/

/-- A field under other ids: a relation points to the renamed record. -/
def Cell.rename (σ : RecordId → RecordId) : Cell → Cell
  | .empty => .empty
  | .value v => .value v
  | .relation id => .relation (σ id)

/-- A record under other ids, those it points to included. -/
def Record.rename (σ : RecordId → RecordId) (r : Record) : Record :=
  ⟨σ r.id, fun n => (r.fields n).rename σ⟩

/-- A payload under other ids, field by field. -/
def Payload.rename (σ : RecordId → RecordId) (p : Payload) : Payload :=
  p.map (Prod.map id (Cell.rename σ))

/-- The state `pb'` is `pb` under other ids of the records. -/
structure PocketBase.Renamed (σ : RecordId → RecordId) (pb pb' : PocketBase) : Prop where
  server : pb'.server = pb.server
  collections : pb'.collections = pb.collections
  nextId : pb'.nextId = pb.nextId
  records : ∀ name, pb'.records name = (pb.records name).map (Record.rename σ)

/-- A record points to ids below `n` only. -/
def Record.PointsBelow (n : ℕ) (r : Record) : Prop :=
  ∀ field id, r.fields field = .relation id → id < n

/-- No record points to an id that has not been handed out. -/
def PocketBase.Issued (pb : PocketBase) : Prop :=
  ∀ name, ∀ r ∈ pb.records name, r.PointsBelow pb.nextId

/-- Ids as the identities of records. -/
def recordIdentity : Identity Record where
  get := Record.id
  set id r := { r with id := id }
  get_set _ _ := rfl
  set_get _ := rfl
  set_set _ _ _ := rfl

section Rename

variable {σ : RecordId → RecordId} {n : ℕ}

/-- A renaming of later ids changes the id of a record only. -/
theorem Record.rename_of_pointsBelow (hσ : ∀ i, i < n → σ i = i) {r : Record}
    (hr : r.PointsBelow n) : r.rename σ = recordIdentity.rename σ r := by
  rw [Record.rename, Identity.rename]
  congr 1
  funext field
  cases hcell : r.fields field with
  | empty => rfl
  | value v => rfl
  | relation id => rw [Cell.rename, hσ id (hr field id hcell)]

/-- Renaming the records of a payload renames them field by field. -/
theorem Payload.get?_rename (p : Payload) (key : String) :
    (p.rename σ).get? key = (p.get? key).map (Cell.rename σ) := by
  induction p with
  | nil => rfl
  | cons x p ih =>
      obtain ⟨k, c⟩ := x
      rw [Payload.get?, Payload.rename] at ih ⊢
      rw [Payload.get?, List.map_cons, Prod.map_apply, id, List.lookup_cons, List.lookup_cons]
      split
      · rfl
      · exact ih

end Rename

/-! ### The passes in any order -/

section Defs

variable [LetterCase] (o : Oracle) (cfg : Config) (m : MigrationPlan) (source : Source)

/-- The two passes, with the tables of each in an order of their own. -/
def migrateRecordsIn (first second : List TablePlan) : Script World Unit := do
  forEach first () fun plan _ => migrateTablePass1 o cfg (source plan.table) plan
  forEach second () fun plan _ => resolveRelationsPass2 o cfg m plan

end Defs

/-! ### The first pass -/

/-- The records of PocketBase as tables that share its counter. -/
def World.tables (w : World) : Tables String Record := ⟨w.records, w.pb.nextId⟩

/-- The ids of a world have all been given out by its counter. -/
theorem World.tables_below (w : World) : w.tables.Below recordIdentity := w.pb.ids_lt

section Pass1

variable [LetterCase] {cfg : Config} {source : Source} {accepts : String → String → Bool}

/-- What the first pass makes of the records of a table and the counter. -/
def tableOp (cfg : Config) (source : Source) (accepts : String → String → Bool)
    (plan : TablePlan) : Identity.Op Record :=
  if hold : accepts plan.pbCollection "old_id" = true then
    (rowUpsert plan hold).op (rowOk allOk plan) (deliveredRows allOk cfg (source plan.table) plan)
  else fun l n => (l, n)

/-- The migration of a table draws its new ids from the counter, one after the other. -/
theorem tableOp_draws (plan : TablePlan) :
    recordIdentity.Draws (tableOp cfg source accepts plan) := by
  rw [tableOp]
  split
  · exact Upsert.draws recordIdentity (fun _ => rfl) (fun _ _ => rfl) (fun _ _ _ => rfl)
      (fun _ _ _ => rfl) _
  · exact ⟨fun _ _ => le_rfl, fun _ _ h => h, fun _ _ _ _ _ h => Prod.ext rfl (h 0).symm⟩

/-- A step of the first pass on the world. -/
theorem migrateTablePass1_step (cfg : Config) (source : Source) {plan : TablePlan} {w : World}
    (hacc : w.pb.hasField = accepts) (hold : accepts plan.pbCollection "old_id" = true) :
    ∃ w', migrateTablePass1 allOk cfg (source plan.table) plan w = (some (), w') ∧
      RecordStep plan.pbCollection w w' ∧
      w'.tables = w.tables.step TablePlan.pbCollection (tableOp cfg source accepts) plan := by
  obtain ⟨map', w', hrun, hstep, hview⟩ := migrateTablePass1_allOk hold
    (congrFun hacc plan.pbCollection) cfg (source plan.table)
  have hop : tableOp cfg source accepts plan (w.records plan.pbCollection) w.pb.nextId =
      (w'.records plan.pbCollection, w'.pb.nextId) := by
    rw [tableOp, dif_pos hold]
    exact Prod.ext (congrArg UpsertState.table hview).symm (congrArg UpsertState.next hview).symm
  refine ⟨w', hrun, hstep, ?_⟩
  ext1
  · funext name
    by_cases hname : name = plan.pbCollection
    · rw [hname, Tables.step_tables_self]
      exact (congrArg Prod.fst hop).symm
    · rw [Tables.step_tables_of_ne hname]
      exact hstep.records name hname
  · exact (congrArg Prod.snd hop).symm

/-- **The first pass**, over any list of tables. With every call answered, it is a run of steps that
share a counter. -/
theorem runTables_allOk (cfg : Config) (source : Source) {plans : List TablePlan} {w : World}
    (hacc : w.pb.hasField = accepts)
    (hold : ∀ plan ∈ plans, accepts plan.pbCollection "old_id" = true) :
    ∃ w', forEach plans () (fun plan _ => migrateTablePass1 allOk cfg (source plan.table) plan) w =
        (some (), w') ∧
      w'.pb.server = w.pb.server ∧ w'.pb.collections = w.pb.collections ∧
      w'.tables = Tables.runAll TablePlan.pbCollection (tableOp cfg source accepts) plans
        w.tables := by
  induction plans generalizing w with
  | nil => exact ⟨w, rfl, rfl, rfl, rfl⟩
  | cons plan plans ih =>
      obtain ⟨w₁, hrun₁, hstep, htables₁⟩ :=
        migrateTablePass1_step cfg source hacc (hold plan List.mem_cons_self)
      have hacc₁ : w₁.pb.hasField = accepts := by
        rw [← hacc]
        exact funext (PocketBase.hasField_of_collections hstep.collections)
      obtain ⟨w', hrun, hserver, hcoll, htables⟩ :=
        ih hacc₁ fun p hp => hold p (List.mem_cons_of_mem plan hp)
      refine ⟨w', (forEach_cons_run hrun₁).trans hrun, hserver.trans hstep.server,
        hcoll.trans hstep.collections, ?_⟩
      rw [htables, htables₁, Tables.runAll_cons]

/-- A payload without relations, as the first pass builds it. -/
def Payload.Values (p : Payload) : Prop := ∀ n c, p.get? n = some c → c.relation? = none

omit [LetterCase] in
/-- A payload of plain values stays one when another plain value is set. -/
theorem Payload.Values.set {p : Payload} (hp : p.Values) (key : String) {c : Cell}
    (hc : c.relation? = none) : (p.set key c).Values := by
  intro n c' h
  rw [Payload.get?_set] at h
  split at h
  · rwa [← Option.some.inj h]
  · exact hp n c' h

/-- Setting a column adds plain values to the payload, and no relation. -/
theorem Payload.Values.setColumn {row : Row} {p q : Payload} {col : ColumnPlan} (hp : p.Values)
    (h : Mogo.setColumn row p col = some q) : q.Values := by
  rw [Mogo.setColumn] at h
  dsimp only at h
  split at h
  · obtain ⟨v, -, rfl⟩ := Option.map_eq_some_iff.mp h
    exact hp.set _ (Cell.relation?_ofValue v)
  · split at h
    · cases h
    · rcases htemp : col.fkTempField with - | temp
      · rw [htemp] at h
        cases h
        exact hp.set _ (Cell.relation?_ofValue _)
      · rw [htemp] at h
        cases h
        exact (hp.set _ rfl).set _ (Cell.relation?_ofValue _)

/-- A payload that is built holds no ids. -/
theorem buildPass1RecordPayload_values {plan : TablePlan} {row : Row} {q : Payload}
    (hq : buildPass1RecordPayload row plan = some q) : q.Values := by
  have hcolumns : ∀ (cols : List ColumnPlan) (p : Payload), p.Values →
      cols.foldlM (setColumn row) p = some q → q.Values := by
    intro cols
    induction cols with
    | nil => exact fun p hp h => Option.some.inj h ▸ hp
    | cons col cols ih =>
        intro p hp h
        rw [List.foldlM_cons] at h
        obtain ⟨p', hset, hrest⟩ := Option.bind_eq_some_iff.mp h
        exact ih p' (hp.setColumn hset) hrest
  exact hcolumns plan.columnPlans [] (fun _ c h => absurd h.symm (Option.some_ne_none c)) hq

/-- The payload a row is written with holds no ids. -/
theorem rowPayload_values {plan : TablePlan} {row : Row} {oldId : String}
    (h : rowKey plan row = some oldId) : (rowPayload plan row oldId).Values := by
  obtain ⟨p, hp, hpayload⟩ := exists_rowPayload_eq h
  rw [hpayload]
  exact (buildPass1RecordPayload_values hp).set _ rfl

/-- The first pass sets no relation, so the relations of a table keep pointing below the old
counter. -/
theorem tableOp_pointsBelow {n₀ : ℕ} (plan : TablePlan) (l : List Record) (n : ℕ)
    (hl : ∀ r ∈ l, r.PointsBelow n₀) :
    ∀ r ∈ (tableOp cfg source accepts plan l n).1, r.PointsBelow n₀ := by
  have hwrite : ∀ (accepts : String → Bool) (a : KeyedRow plan) (r : Record),
      r.PointsBelow n₀ → (r.write (a.stored plan accepts)).PointsBelow n₀ := by
    intro accepts a r hr field id hid
    cases hget : (a.stored plan accepts).get? field with
    | none =>
        rw [Record.write_fields_of_none hget] at hid
        exact hr field id hid
    | some c =>
        rw [Record.write_fields_of_some hget] at hid
        rw [KeyedRow.stored_get?] at hget
        split at hget
        · have hvalue := rowPayload_values a.oldId_eq field c hget
          rw [hid] at hvalue
          exact nomatch hvalue
        · exact nomatch hget
  rw [tableOp]
  split
  · refine Upsert.upsertAll_forall (fun a r => hwrite _ a r) (fun a n => hwrite _ a _ ?_) _ hl
    intro field id hid
    exact nomatch (hid : Cell.empty = .relation id)
  · exact hl

end Pass1

/-! ### The second pass -/

section Pass2

variable [LetterCase] {σ : RecordId → RecordId} {maps : RelationMaps} {plan : TablePlan}
  {accepts : String → Bool}

omit [LetterCase] in
/-- The maps of old ids, under other ids. -/
def RelationMaps.rename (σ : RecordId → RecordId) (maps : RelationMaps) : RelationMaps :=
  fun t => (maps t).map fun map k => (map k).map σ

/-- Renaming the records commutes with the resolution of a relation. -/
theorem resolvedId_rename (maps : RelationMaps) (r : Record) (col : RelationColumn) :
    resolvedId (maps.rename σ) (recordIdentity.rename σ r) col = (resolvedId maps r col).map σ := by
  have hfields : (recordIdentity.rename σ r).fields = r.fields := rfl
  rw [resolvedId, resolvedId, hfields, RelationMaps.rename]
  split
  · rfl
  · cases maps col.referencedTable with
    | none => rfl
    | some map =>
        cases normalizeOldId (some (r.fields col.fkTempField).toValue) with
        | none => rfl
        | some k => rfl

/-- Renaming the records commutes with the patch of a row. -/
theorem patchFrom_rename (maps : RelationMaps) (r : Record) (cols : List RelationColumn)
    (p : Payload) :
    patchFrom (maps.rename σ) (recordIdentity.rename σ r) cols (p.rename σ) =
      (patchFrom maps r cols p).rename σ := by
  induction cols generalizing p with
  | nil => rfl
  | cons col cols ih =>
      have hset : setRelation (p.rename σ) col ((resolvedId maps r col).map σ) =
          (setRelation p col (resolvedId maps r col)).rename σ := by
        cases resolvedId maps r col with
        | none => rfl
        | some id => rfl
      rw [patchFrom, patchFrom, List.foldl_cons, List.foldl_cons, resolvedId_rename, hset]
      exact ih _

/-- **A renaming goes through the second pass**, if it leaves the ids alone that a record points to
before. -/
theorem resolvedRecord_rename {n : ℕ} (hσ : ∀ i, i < n → σ i = i) {r : Record}
    (hr : r.PointsBelow n) :
    resolvedRecord (maps.rename σ) plan accepts (recordIdentity.rename σ r) =
      (resolvedRecord maps plan accepts r).rename σ := by
  have hpatch : patchFrom (maps.rename σ) (recordIdentity.rename σ r) (fkColumns plan) [] =
      (patchFrom maps r (fkColumns plan) []).rename σ := patchFrom_rename maps r _ []
  have hcells : ∀ field, (r.fields field).rename σ = r.fields field := fun field =>
    congrFun (congrArg Record.fields (Record.rename_of_pointsBelow hσ hr)) field
  rw [resolvedRecord, hpatch, resolvedRecord, Record.write, Record.write, Record.rename]
  congr 1
  funext field
  dsimp only
  rw [Payload.get?_filter, Payload.get?_filter, Payload.get?_rename]
  split
  · cases (patchFrom maps r (fkColumns plan) []).get? field with
    | none => exact (hcells field).symm
    | some c => rfl
  · exact (hcells field).symm

/-- Renaming the records of every collection renames what the maps of the second pass lead to. -/
theorem targets_rename (m : MigrationPlan) {w w' : World}
    (h : ∀ name, w'.records name = (w.records name).map (recordIdentity.rename σ)) :
    targets m w' = (targets m w).rename σ := by
  funext t
  have hindex : ∀ (l : List Record) k, indexOf Record.key Record.id
      (l.map (recordIdentity.rename σ)) k = (indexOf Record.key Record.id l k).map σ :=
    indexOf_map (fun _ => rfl) fun _ => rfl
  rw [RelationMaps.rename, targets, targets, Option.map_map]
  congr 1
  funext q k
  rw [h, hindex]
  rfl

/-- The second pass creates nothing: the counter of the record ids stays where it was. -/
theorem resolveTables_nextId (o : Oracle) (cfg : Config) (m : MigrationPlan)
    (plans : List TablePlan) (n : ℕ) :
    Triple (fun w => w.pb.nextId = n)
      (forEach plans () fun plan _ => resolveRelationsPass2 o cfg m plan)
      (fun _ w => w.pb.nextId = n) (fun w => w.pb.nextId = n) :=
  Triple.forEach_invariant (fun _ _ _ =>
    resolveRelationsPass2_rule (fun _ _ _ h _ _ => h) fun _ h => h) ()

/-- The second pass over renamed records leaves renamed records. -/
theorem resolveTables_rename (cfg : Config) {m : MigrationPlan} {w₁ w₂ : World}
    {second second' : List TablePlan} (h : second.Perm m.plans) (h' : second'.Perm m.plans)
    (hexists : Ensured m w₁) {n : ℕ} (hσ : ∀ i, i < n → σ i = i)
    (hbelow : ∀ name, ∀ r ∈ w₁.records name, r.PointsBelow n)
    (hcoll : w₂.pb.collections = w₁.pb.collections)
    (hrecords : ∀ name, w₂.records name = (w₁.records name).map (recordIdentity.rename σ)) :
    ∃ w₁' w₂',
      forEach second () (fun plan _ => resolveRelationsPass2 allOk cfg m plan) w₁ =
        (some (), w₁') ∧
      forEach second' () (fun plan _ => resolveRelationsPass2 allOk cfg m plan) w₂ =
        (some (), w₂') ∧
      w₁'.pb.server = w₁.pb.server ∧ w₂'.pb.server = w₂.pb.server ∧
      w₁'.pb.collections = w₁.pb.collections ∧ w₂'.pb.collections = w₂.pb.collections ∧
      ∀ name, w₂'.records name = (w₁'.records name).map (Record.rename σ) := by
  obtain ⟨w₁', hrun₁, hstep₁, -, hres₁⟩ := resolveTables_allOk cfg hexists h
  obtain ⟨w₂', hrun₂, hstep₂, -, hres₂⟩ :=
    resolveTables_allOk cfg (hexists.of_collections hcoll) h'
  refine ⟨w₁', w₂', hrun₁, hrun₂, hstep₁.server, hstep₂.server, hstep₁.collections,
    hstep₂.collections, fun name => ?_⟩
  by_cases hname : ∃ plan ∈ m.plans, plan.pbCollection = name
  · obtain ⟨plan, hplan, rfl⟩ := hname
    rw [hres₂ plan hplan, hres₁ plan hplan, hrecords, targets_rename m hrecords,
      PocketBase.hasField_of_collections hcoll, List.map_map, List.map_map]
    exact List.map_congr_left fun r hr => resolvedRecord_rename hσ (hbelow _ r hr)
  · have hother : ∀ plans : List TablePlan, plans.Perm m.plans →
        name ∉ plans.map TablePlan.pbCollection := by
      intro plans hperm hmem
      obtain ⟨plan, hplan, he⟩ := List.mem_map.mp hmem
      exact hname ⟨plan, hperm.mem_iff.mp hplan, he⟩
    rw [hstep₂.records name (hother second' h'), hstep₁.records name (hother second h), hrecords]
    exact List.map_congr_left fun r hr =>
      (Record.rename_of_pointsBelow hσ (hbelow _ r hr)).symm

end Pass2

/-! ### Both passes -/

/-- **The order is irrelevant.** Take any state whose collections carry the plans. With every call
answered, the two passes leave the same state whatever the order of the tables in the first pass
and in the second, up to a renaming that keeps every id there was before. -/
theorem order_irrelevant [LetterCase] (cfg : Config) (m : MigrationPlan) (source : Source)
    (w : World) (hcarries : ∀ plan ∈ m.plans, w.pb.Carries plan) (hissued : w.pb.Issued)
    (first first' second second' : List TablePlan) (hfirst : first.Perm m.plans)
    (hfirst' : first'.Perm m.plans) (hsecond : second.Perm m.plans)
    (hsecond' : second'.Perm m.plans) :
    ∃ w₁ w₂, migrateRecordsIn allOk cfg m source first second w = (some (), w₁) ∧
      migrateRecordsIn allOk cfg m source first' second' w = (some (), w₂) ∧
      ∃ σ : Equiv.Perm RecordId, (∀ id, id < w.pb.nextId → σ id = id) ∧
        w₁.pb.Renamed σ w₂.pb := by
  have hold : ∀ plan ∈ m.plans, w.pb.hasField plan.pbCollection "old_id" = true :=
    fun plan hplan => hcarries plan hplan "old_id" List.mem_cons_self
  obtain ⟨v₁, hrun₁, hserver₁, hcoll₁, htables₁⟩ := runTables_allOk cfg source rfl
    fun plan hplan => hold plan (hfirst.mem_iff.mp hplan)
  obtain ⟨v₂, hrun₂, hserver₂, hcoll₂, htables₂⟩ := runTables_allOk cfg source rfl
    fun plan hplan => hold plan (hfirst'.mem_iff.mp hplan)
  have hnodup : (first.map TablePlan.pbCollection).Nodup :=
    (hfirst.map _).nodup_iff.mpr m.collections_nodup
  obtain ⟨σ, hσ, hrenamed⟩ := Tables.runAll_perm (fun plan => tableOp_draws plan)
    (hfirst.trans hfirst'.symm) hnodup w.tables_below
  rw [← htables₁, ← htables₂] at hrenamed
  have hbelow : ∀ name, ∀ r ∈ v₁.tables.tables name, r.PointsBelow w.pb.nextId := by
    rw [htables₁]
    exact Tables.runAll_forall (fun plan l n => tableOp_pointsBelow plan l n) first hissued
  have hexists : Ensured m v₁ :=
    Ensured.of_collections (fun plan hplan => (hcarries plan hplan).isSome) hcoll₁
  obtain ⟨w₁, w₂, hrun₁', hrun₂', hserver₁', hserver₂', hcoll₁', hcoll₂', hrecords⟩ :=
    resolveTables_rename cfg hsecond hsecond' hexists hσ hbelow (hcoll₂.trans hcoll₁.symm)
      fun name => congrFun (congrArg Tables.tables hrenamed) name
  have hnext₁ := (resolveTables_nextId allOk cfg m second _).of_returned rfl hrun₁'
  have hnext₂ := (resolveTables_nextId allOk cfg m second' _).of_returned rfl hrun₂'
  refine ⟨w₁, w₂, (bind_run_of_eq hrun₁).trans hrun₁', (bind_run_of_eq hrun₂).trans hrun₂', σ, hσ,
    ?_, ?_, ?_, hrecords⟩
  · rw [hserver₁', hserver₁, hserver₂', hserver₂]
  · rw [hcoll₁', hcoll₁, hcoll₂', hcoll₂]
  · rw [hnext₁, hnext₂]
    exact congrArg Tables.next hrenamed

section Example

attribute [local instance] asciiLetterCase

/-- The notes, in migration order and the other way round, so that the records of the first pass
get other ids. -/
theorem order_irrelevant_notes :
    ∃ w₁ w₂, migrateRecordsIn allOk notesConfig notesPlan notesSource notesPlan.orderedPlans
        notesPlan.plans notesCollections = (some (), w₁) ∧
      migrateRecordsIn allOk notesConfig notesPlan notesSource notesPlan.plans.reverse
        notesPlan.orderedPlans notesCollections = (some (), w₂) ∧
      ∃ σ : Equiv.Perm RecordId, (∀ id, id < notesCollections.pb.nextId → σ id = id) ∧
        w₁.pb.Renamed σ w₂.pb := by
  have hgrown : SchemaGrown (World.initial schemaServer) notesCollections :=
    (ensureCollections_spec allOk notesPlan.orderedPlans orderedPlans_collections_nodup
      (fun _ => none) (World.initial schemaServer) fun _ _ _ h => nomatch h).final rfl
  have hissued : notesCollections.pb.Issued := by
    rw [PocketBase.Issued, hgrown.records]
    exact fun _ _ h => absurd h List.not_mem_nil
  have hcarries : ∀ plan ∈ notesPlan.plans, notesCollections.pb.Carries plan := by
    simp only [PocketBase.Carries]
    decide +kernel
  exact order_irrelevant notesConfig notesPlan notesSource notesCollections hcarries hissued
    notesPlan.orderedPlans notesPlan.plans.reverse notesPlan.plans notesPlan.orderedPlans
    notesPlan.orderedPlans_perm (List.reverse_perm _) (List.Perm.refl _)
    notesPlan.orderedPlans_perm

end Example

end Mogo
