import Mogo.Migrate

/-!
# A Migration into an Empty PocketBase

What a whole run leaves behind that starts from an empty PocketBase, has every call answered and
meets tables with usable and distinct keys: one record for each row, in the order of the rows, with
the values of the row, and with relations that point to the records of the referenced rows.

## Main results

* `migrate_faithful`: the run is faithful when every foreign-key value is the key of a row of the
  referenced table.
* `followsConstraint`: for a single constraint, whatever becomes of the others.
* `not_followsConstraint_notes`: a constraint on the primary key, or to a column that is not the
  primary key, or on a column whose name suggests another table, is not followed.
-/

namespace Mogo

open Script

/-! ### What is assumed of the source -/

/-- The source answers with as many rows as a batch asks for. -/
def HonoursBatches (cfg : Config) (m : MigrationPlan) (source : Source) : Prop :=
  ∀ plan ∈ m.plans, cfg.batchSize ≤ (source plan.table).maxRows

/-- Every foreign-key column refers to a planned table. -/
def ReferencesPlanned (m : MigrationPlan) : Prop :=
  ∀ plan ∈ m.plans, ∀ col ∈ plan.columnPlans, ∀ fk ∈ col.fk,
    ∃ q ∈ m.plans, q.table = fk.references.table

/-- Every value of the column of a constraint is the value of the referenced column of a row. -/
def SatisfiesConstraint (source : Source) (plan q : TablePlan) (fk : ForeignKey) : Prop :=
  ∀ row ∈ (source plan.table).rows, ∀ v, row.get fk.column = some v → v ≠ .null →
    ∃ target ∈ (source q.table).rows, target.get fk.references.column = some v

/-- The record stands at the position of the row. -/
def MigratedFrom (source : Source) (w : World) (plan : TablePlan) (row : Row) (r : Record) :
    Prop :=
  (row, r) ∈ (source plan.table).rows.zip (w.records plan.pbCollection)

section Migration

variable [LetterCase]

/-- The keys of every table are usable and pairwise distinct. -/
def KeysDistinct (m : MigrationPlan) (source : Source) : Prop :=
  ∀ plan ∈ m.plans,
    (∀ row ∈ (source plan.table).rows,
      (normalizeOldId (row.get plan.primaryKey)).isSome = true) ∧
      ((source plan.table).rows.map fun row => normalizeOldId (row.get plan.primaryKey)).Nodup

omit [LetterCase] in
/-- No conversion throws on a row of the source. -/
def SourceConverts (m : MigrationPlan) (source : Source) : Prop :=
  ∀ plan ∈ m.plans, ∀ row ∈ (source plan.table).rows, RowConverts plan row

/-- Every foreign-key value is the key of a row of the referenced table. -/
def ReferencesSatisfied (m : MigrationPlan) (source : Source) : Prop :=
  ∀ plan ∈ m.plans, ∀ row ∈ (source plan.table).rows, ∀ col ∈ plan.columnPlans,
    ∀ fk ∈ col.fk, ∀ k ∈ normalizeOldId (row.get col.sourceColumn),
      ∀ q ∈ m.plans, q.table = fk.references.table →
        ∃ target ∈ (source q.table).rows, normalizeOldId (target.get q.primaryKey) = some k

/-! ### The first pass -/

section Run

variable {cfg : Config} {m : MigrationPlan} {source : Source} {w : World}

/-- **The first pass over all tables** makes one record of each row. -/
theorem pass1_fresh (hold : ∀ plan ∈ m.plans, w.pb.hasField plan.pbCollection "old_id" = true)
    (hempty : ∀ plan ∈ m.plans, w.records plan.pbCollection = [])
    (hbatch : HonoursBatches cfg m source) (hkeys : KeysDistinct m source)
    (hconverts : SourceConverts m source) :
    ∃ w', pass1 allOk cfg m source w = (some (), w') ∧
      w'.pb.collections = w.pb.collections ∧
      ∀ plan ∈ m.plans, List.Forall₂ (StoredRow plan (w.pb.hasField plan.pbCollection))
        (source plan.table).rows (w'.records plan.pbCollection) := by
  have hbody : ∀ plan ∈ m.orderedPlans, ∀ w₁, w₁.pb.collections = w.pb.collections →
      w₁.records plan.pbCollection = w.records plan.pbCollection →
      ∃ w₂, migrateTablePass1 allOk cfg (source plan.table) plan w₁ = (some (), w₂) ∧
        RecordStep plan.pbCollection w₁ w₂ ∧ w₂.pb.collections = w.pb.collections ∧
        List.Forall₂ (StoredRow plan (w.pb.hasField plan.pbCollection))
          (source plan.table).rows (w₂.records plan.pbCollection) := by
    intro plan hplan w₁ hcoll hsame
    have hplan := mem_orderedPlans.mp hplan
    obtain ⟨w₂, hrun, hstep, hrows⟩ := migrateTablePass1_fresh (hold plan hplan)
      (PocketBase.hasField_of_collections hcoll plan.pbCollection)
      (hsame.trans (hempty plan hplan)) (hbatch plan hplan)
      (fun row hrow => rowKey_of_converts (hconverts plan hplan row hrow) ▸
        (hkeys plan hplan).1 row hrow)
      (map_rowKey_of_converts (hconverts plan hplan) ▸ (hkeys plan hplan).2)
    exact ⟨w₂, hrun, hstep, hstep.collections.trans hcoll, hrows⟩
  obtain ⟨w', hrun, -, hcoll, hrows⟩ := tables_run
    (R := fun plan l => List.Forall₂ (StoredRow plan (w.pb.hasField plan.pbCollection))
      (source plan.table).rows l)
    orderedPlans_collections_nodup hbody rfl fun _ _ => rfl
  exact ⟨w', hrun, hcoll, fun plan hplan => hrows plan (mem_orderedPlans.mpr hplan)⟩

/-! ### The whole run -/

/-- A run from an empty PocketBase, between its passes and in the end. -/
structure FreshRun (m : MigrationPlan) (source : Source) (w₁ w' : World) : Prop where
  stored : ∀ plan ∈ m.plans, List.Forall₂ (StoredRow plan (w₁.pb.hasField plan.pbCollection))
    (source plan.table).rows (w₁.records plan.pbCollection)
  resolved : ∀ plan ∈ m.plans, w'.records plan.pbCollection =
    (w₁.records plan.pbCollection).map
      (resolvedRecord (targets m w₁) plan (w₁.pb.hasField plan.pbCollection))
  old_id : ∀ plan ∈ m.plans, w₁.pb.hasField plan.pbCollection "old_id" = true
  fields : ∀ plan ∈ m.plans, ∀ col ∈ plan.columnPlans,
    (∀ fk, col.fk = some fk → ∃ q ∈ m.plans, q.table = fk.references.table) →
      ∀ n ∈ col.fieldNames, w₁.pb.hasField plan.pbCollection n = true

/-- **The whole run** from an empty PocketBase: the schema step gives every column its fields whose
reference is planned, because parents come first. -/
theorem migrate_fresh (hacyclic : m.Acyclic) (hbatch : HonoursBatches cfg m source)
    (hkeys : KeysDistinct m source) (hconverts : SourceConverts m source) (hempty : w.pb.Empty) :
    ∃ w₁ w', migrate allOk cfg m source w = (some (), w') ∧ FreshRun m source w₁ w' := by
  rw [migrate]
  by_cases hnil : m.plans = []
  · rw [if_pos hnil]
    refine ⟨w, w, rfl, ?_, ?_, ?_, ?_⟩ <;> simp [hnil]
  rw [if_neg hnil]
  have hnames : getCollectionsByName allOk w = (some (some fun _ => none), w) := by
    have hrun : getCollectionsByName allOk w =
      (some (some (indexOf (fun c => some c.name) id w.pb.collections)), w) := rfl
    rw [hrun, hempty.collections]
    rfl
  obtain ⟨byName, w₀, hschema, hgrown, hfields⟩ :=
    ensureCollections_fields orderedPlans_collections_nodup (New.of_empty hempty m.orderedPlans)
  have hold : ∀ plan ∈ m.plans, w₀.pb.hasField plan.pbCollection "old_id" = true := by
    intro plan hplan
    obtain ⟨pre, post, hsplit⟩ := List.append_of_mem (mem_orderedPlans.mpr hplan)
    exact (hfields pre plan post hsplit).1
  obtain ⟨w₁, hrun₁, hcoll₁, hrows⟩ := pass1_fresh hold
    (fun plan _ => (congrFun hgrown.records _).trans (hempty.records _)) hbatch hkeys hconverts
  have hsame : ∀ n, w₁.pb.hasField n = w₀.pb.hasField n :=
    PocketBase.hasField_of_collections hcoll₁
  have hexists : Ensured m w₁ := fun plan hplan =>
    PocketBase.collection?_isSome_of_hasField ((congrFun (hsame _) _).trans (hold plan hplan))
  obtain ⟨w', hrun', -, -, hresolved⟩ := pass2_allOk cfg hexists
  refine ⟨w₁, w', ?_, ?_, hresolved, ?_, ?_⟩
  · rw [bind_run_of_eq hnames]
    dsimp only
    rw [bind_run_of_eq hschema, migrateRecords, bind_run_of_eq hrun₁, hrun']
  · intro plan hplan
    rw [hsame]
    exact hrows plan hplan
  · intro plan hplan
    rw [hsame]
    exact hold plan hplan
  · intro plan hplan col hcol hplanned n hn
    obtain ⟨pre, post, hsplit⟩ := List.append_of_mem (mem_orderedPlans.mpr hplan)
    rw [hsame]
    refine (hfields pre plan post hsplit).2 col hcol (fun fk hfk => Or.inr ?_) n hn
    obtain ⟨q, hq, ht⟩ := hplanned fk hfk
    have hmem := plan.fk_mem col hcol fk hfk
    exact ⟨q, MigrationPlan.orderedPlans_parents_first hacyclic hsplit hmem hq ht.symm,
      (m.reference_collection plan hplan fk hmem q hq ht).symm⟩

namespace FreshRun

variable {w₁ w' : World} (h : FreshRun m source w₁ w') {plan : TablePlan} (hplan : plan ∈ m.plans)
include h hplan

/-- Every record is what the second pass has made of a row. -/
theorem rows : List.Forall₂ (fun row r => ∃ r₁,
      StoredRow plan (w₁.pb.hasField plan.pbCollection) row r₁ ∧
      r = resolvedRecord (targets m w₁) plan (w₁.pb.hasField plan.pbCollection) r₁)
    (source plan.table).rows (w'.records plan.pbCollection) := by
  rw [h.resolved plan hplan, List.forall₂_map_right_iff]
  exact (h.stored plan hplan).imp fun _ r₁ hrow => ⟨r₁, hrow, rfl⟩

/-- The record of a row is the one its key is mapped to. -/
theorem target (hkeys : KeysDistinct m source) {row : Row} {r : Record}
    (hrow : MigratedFrom source w' plan row r) {k : String}
    (hk : normalizeOldId (row.get plan.primaryKey) = some k) :
    ∃ map, targets m w₁ plan.table = some map ∧ map k = some r.id := by
  have hkey : (w₁.records plan.pbCollection).map Record.key =
      (source plan.table).rows.map fun row => normalizeOldId (row.get plan.primaryKey) :=
    map_key_eq (fun _ _ hrow => StoredRow.key_eq hrow (h.old_id plan hplan)) (h.stored plan hplan)
  have hzip : (row, r) ∈ ((source plan.table).rows.zip (w₁.records plan.pbCollection)).map
      (Prod.map id
        (resolvedRecord (targets m w₁) plan (w₁.pb.hasField plan.pbCollection))) := by
    rw [← List.zip_map_right, ← h.resolved plan hplan]
    exact hrow
  obtain ⟨⟨row₁, r₁⟩, hmem, heq⟩ := List.mem_map.mp hzip
  obtain ⟨rfl, rfl⟩ := Prod.mk.inj heq
  refine ⟨indexOf Record.key Record.id (w₁.records plan.pbCollection), ?_, ?_⟩
  · rw [targets, MigrationPlan.plansByTable_of_mem hplan, Option.map_some]
  · refine indexOf_of_nodup (hkey ▸ (hkeys plan hplan).2) (List.of_mem_zip hmem).2 ?_
    rw [(List.forall₂_zip (h.stored plan hplan) hmem).key_eq (h.old_id plan hplan)]
    exact hk

/-- After the run every row of a planned table has a record that was migrated from it. -/
theorem exists_migratedFrom {row : Row} (hrow : row ∈ (source plan.table).rows) :
    ∃ r, MigratedFrom source w' plan row r := by
  obtain ⟨i, hi, rfl⟩ := List.mem_iff_getElem.mp hrow
  have hlen := (h.rows hplan).length_eq
  have hi' : i < ((source plan.table).rows.zip (w'.records plan.pbCollection)).length := by
    rw [List.length_zip]
    omega
  refine ⟨(w'.records plan.pbCollection)[i], ?_⟩
  rw [MigratedFrom, List.mem_iff_getElem]
  exact ⟨i, hi', List.getElem_zip ..⟩

/-- The old id of a record is the normalised key of its row. -/
theorem old_id_eq {row : Row} {r : Record} (hrow : MigratedFrom source w' plan row r) :
    ∃ k, normalizeOldId (row.get plan.primaryKey) = some k ∧
      r.fields "old_id" = .value (.string k) := by
  obtain ⟨r₁, ⟨k, hk, hfields⟩, rfl⟩ := List.forall₂_zip (h.rows hplan) hrow
  refine ⟨k, (rowKey_eq_some_iff.mp hk).1, ?_⟩
  rw [resolvedRecord_of_get?_eq_none (patchFrom_old_id _ r₁ plan), hfields,
    if_pos (h.old_id plan hplan), rowPayload_old_id, Option.getD_some]

variable {col : ColumnPlan} (hcol : col ∈ plan.columnPlans)
include hcol

omit h hplan in
/-- What a stored row says about a column is what the payload of the row says. -/
theorem stored_get? {accepts : String → Bool} {row : Row} {r₁ : Record}
    (hstored : StoredRow plan accepts row r₁) :
    ∃ p, buildPass1RecordPayload row plan = some p ∧ ∀ n ∈ col.fieldNames, accepts n = true →
      ∀ c, p.get? n = some c → r₁.fields n = c := by
  obtain ⟨k, hk, hfields⟩ := hstored
  obtain ⟨p, hp, hpayload⟩ := exists_rowPayload_eq hk
  refine ⟨p, hp, fun n hn hacc c hc => ?_⟩
  have hne : n ≠ "old_id" := fun he => TablePlan.old_id_notMem hcol (he ▸ hn)
  rw [hfields, if_pos hacc, hpayload, Payload.setOldId, Payload.get?_set_of_ne _ hne, hc,
    Option.getD_some]

/-- A plain column holds the value of the row, fitted to the type of the field. -/
theorem plain_eq (hfk : col.fk = none) {row : Row} {r : Record}
    (hrow : MigratedFrom source w' plan row r) :
    ∃ v, normalizeValueForPocketBase (row.get col.sourceColumn) col.pbType = some v ∧
      r.fields col.pbField = .ofValue v := by
  obtain ⟨r₁, hstored, rfl⟩ := List.forall₂_zip (h.rows hplan) hrow
  have hnotin : col.pbField ∉ (fkColumns plan).flatMap RelationColumn.names := by
    intro hmem
    obtain ⟨rel, hrel, hn⟩ := List.mem_flatMap.mp hmem
    obtain ⟨col', hcol', hrel'⟩ := List.mem_filterMap.mp hrel
    rw [names_of_relationColumn? hcol' hrel'] at hn
    obtain rfl := TablePlan.eq_of_mem_fieldNames hcol hcol' List.mem_cons_self hn
    obtain ⟨fk, hfk', -⟩ := (relationColumn?_eq_some hcol').mp hrel'
    exact absurd (hfk.symm.trans hfk') (by simp)
  obtain ⟨p, hp, hfields⟩ := stored_get? hcol hstored
  obtain ⟨v, hv, hentry⟩ := buildPass1RecordPayload_plain hcol hfk hp
  refine ⟨v, hv, ?_⟩
  rw [resolvedRecord_of_notMem hnotin]
  refine hfields _ List.mem_cons_self ?_ _ hentry
  exact h.fields plan hplan col hcol (fun fk hfk' => absurd (hfk.symm.trans hfk') (by simp)) _
    List.mem_cons_self

/-- A foreign-key column without a value is empty; one with a value points to the record of the
row with that key. -/
theorem relation_eq (hkeys : KeysDistinct m source) {fk : PlannedForeignKey}
    (hfk : col.fk = some fk) {temp : String} (ht : col.fkTempField = some temp) {q : TablePlan}
    (hq : q ∈ m.plans) (htable : q.table = fk.references.table) {row : Row} {r : Record}
    (hrow : MigratedFrom source w' plan row r) :
    (normalizeOldId (row.get col.sourceColumn) = none →
      r.fields col.pbField = .empty ∧ r.fields temp = .empty) ∧
    ∀ k, normalizeOldId (row.get col.sourceColumn) = some k →
      ∀ target t, MigratedFrom source w' q target t →
        normalizeOldId (target.get q.primaryKey) = some k →
        r.fields col.pbField = .relation t.id ∧ r.fields temp = .empty := by
  obtain ⟨r₁, hstored, rfl⟩ := List.forall₂_zip (h.rows hplan) hrow
  have hrel : (⟨col.pbField, temp, fk.references.table⟩ : RelationColumn) ∈ fkColumns plan :=
    List.mem_filterMap.mpr ⟨col, hcol, (relationColumn?_eq_some hcol).mpr ⟨fk, hfk, ht, rfl, rfl⟩⟩
  have hacc : ∀ n ∈ col.fieldNames, w₁.pb.hasField plan.pbCollection n = true :=
    h.fields plan hplan col hcol fun fk' hfk' =>
      ⟨q, hq, htable.trans (by rw [Option.some.inj (hfk.symm.trans hfk')])⟩
  have htmem := TablePlan.temp_mem_fieldNames ht
  obtain ⟨p, hp, hfields⟩ := stored_get? hcol hstored
  obtain ⟨hpfield, hptemp⟩ := buildPass1RecordPayload_fk hcol ht hp
  have hfield₁ := hfields _ List.mem_cons_self (hacc _ List.mem_cons_self) _ hpfield
  have htemp₁ := hfields _ htmem (hacc _ htmem) _ hptemp
  have hresolved : resolvedId (targets m w₁) r₁ ⟨col.pbField, temp, fk.references.table⟩ =
      (normalizeOldId (row.get col.sourceColumn)).bind fun k =>
        (targets m w₁ fk.references.table).bind fun map => map k := resolvedId_of_temp htemp₁
  constructor
  · intro hnone
    rw [hnone, Option.bind_none] at hresolved
    obtain ⟨hf, htf⟩ := resolvedRecord_of_none (w₁.pb.hasField plan.pbCollection) hrel hresolved
    rw [hf, htf, hfield₁, htemp₁, hnone]
    exact ⟨rfl, rfl⟩
  · intro k hk target t htarget hkey
    obtain ⟨map, hmap, hid⟩ := h.target hq hkeys htarget hkey
    rw [htable] at hmap
    rw [hk, Option.bind_some, hmap, Option.bind_some, hid] at hresolved
    refine resolvedRecord_of_some hrel (fun n hn => hacc n ?_) hresolved
    rwa [names_of_relationColumn? hcol ((relationColumn?_eq_some hcol).mpr
      ⟨fk, hfk, ht, rfl, rfl⟩)] at hn

end FreshRun

/-! ### Faithful migrations -/

/-- A record is a copy of a row: it has the normalised key of the row and the values of its plain
columns. A `null` leaves the field empty. -/
structure RowCopied (plan : TablePlan) (row : Row) (r : Record) : Prop where
  old_id : ∃ k, normalizeOldId (row.get plan.primaryKey) = some k ∧
    r.fields "old_id" = .value (.string k)
  plain : ∀ col ∈ plan.columnPlans, col.fk = none →
    ∃ v, normalizeValueForPocketBase (row.get col.sourceColumn) col.pbType = some v ∧
      r.fields col.pbField = .ofValue v

/-- A record is the faithful image of a row: a copy that has, for each foreign key of the row, a
relation to the record of the row with that key, if there is a key. No key is left in a temporary
field. -/
structure RowMigrated (m : MigrationPlan) (source : Source) (w : World) (plan : TablePlan)
    (row : Row) (r : Record) : Prop extends RowCopied plan row r where
  empty : ∀ col ∈ plan.columnPlans, ∀ temp, col.fkTempField = some temp →
    normalizeOldId (row.get col.sourceColumn) = none →
      r.fields col.pbField = .empty ∧ r.fields temp = .empty
  relation : ∀ col ∈ plan.columnPlans, ∀ fk, col.fk = some fk →
    ∀ temp, col.fkTempField = some temp →
      ∀ k, normalizeOldId (row.get col.sourceColumn) = some k →
        r.fields temp = .empty ∧ ∃ q ∈ m.plans, q.table = fk.references.table ∧
          ∃ target t, MigratedFrom source w q target t ∧
            normalizeOldId (target.get q.primaryKey) = some k ∧
            r.fields col.pbField = .relation t.id

/-- The collection of a table holds one record to each row, its faithful image. -/
def TableMigrated (m : MigrationPlan) (source : Source) (w : World) (plan : TablePlan) : Prop :=
  List.Forall₂ (RowMigrated m source w plan) (source plan.table).rows
    (w.records plan.pbCollection)

/-- A fresh run copies every row, in the order of the rows. -/
theorem FreshRun.copied {w₁ w' : World} (h : FreshRun m source w₁ w') {plan : TablePlan}
    (hplan : plan ∈ m.plans) :
    List.Forall₂ (RowCopied plan) (source plan.table).rows (w'.records plan.pbCollection) :=
  List.forall₂_iff_zip.mpr ⟨(h.rows hplan).length_eq, fun {_ _} hrow =>
    ⟨h.old_id_eq hplan hrow, fun _ hcol hfk => h.plain_eq hplan hcol hfk hrow⟩⟩

/-- **The migration is faithful.** Let the plans refer to each other without cycles, the keys of
every table be usable and distinct, every foreign-key value be the key of a row, no conversion
throw, and the source honour the batch size. From an empty PocketBase, with every call answered and
whatever the page size, every collection ends with one record for each row, its faithful image. -/
theorem migrate_faithful (m : MigrationPlan) (hacyclic : m.Acyclic)
    (hplanned : ReferencesPlanned m) (source : Source) (hkeys : KeysDistinct m source)
    (hconverts : SourceConverts m source) (hrefs : ReferencesSatisfied m source) (cfg : Config)
    (hbatch : HonoursBatches cfg m source) (w : World) (hempty : w.pb.Empty) :
    ∃ w', migrate allOk cfg m source w = (some (), w') ∧
      ∀ plan ∈ m.plans, TableMigrated m source w' plan := by
  obtain ⟨w₁, w', hrun, h⟩ := migrate_fresh hacyclic hbatch hkeys hconverts hempty
  refine ⟨w', hrun, fun plan hplan => List.forall₂_iff_zip.mpr
    ⟨(h.rows hplan).length_eq, fun {row r} hrow => ?_⟩⟩
  refine ⟨List.forall₂_zip (h.copied hplan) hrow, ?_, ?_⟩
  · intro col hcol temp ht hnone
    obtain ⟨fk, hfk⟩ := Option.isSome_iff_exists.mp
      ((plan.fkTempField_isSome col hcol).symm.trans (by rw [ht]; rfl))
    obtain ⟨q, hq, htable⟩ := hplanned plan hplan col hcol fk hfk
    exact (h.relation_eq hplan hcol hkeys hfk ht hq htable hrow).1 hnone
  · intro col hcol fk hfk temp ht k hk
    obtain ⟨q, hq, htable⟩ := hplanned plan hplan col hcol fk hfk
    obtain ⟨target, htarget, hkey⟩ :=
      hrefs plan hplan row (List.of_mem_zip hrow).1 col hcol fk hfk k hk q hq htable
    obtain ⟨t, htm⟩ := h.exists_migratedFrom hq htarget
    obtain ⟨hfield, htemp⟩ :=
      (h.relation_eq hplan hcol hkeys hfk ht hq htable hrow).2 k hk target t htm hkey
    exact ⟨htemp, q, hq, htable, target, t, htm, hkey, hfield⟩

/-! ### Single constraints -/

/-- The relations of a table follow a constraint: the record of a row with a value has, for the
column of the constraint, a relation to the record of the row whose referenced column holds that
value. -/
def FollowsConstraint (source : Source) (w : World) (plan q : TablePlan) (fk : ForeignKey) :
    Prop :=
  ∀ row r, MigratedFrom source w plan row r → ∀ v, row.get fk.column = some v → v ≠ .null →
    ∃ target t, MigratedFrom source w q target t ∧ target.get fk.references.column = some v ∧
      ∃ col ∈ plan.columnPlans, col.sourceColumn = fk.column ∧
        r.fields col.pbField = .relation t.id

/-- A reference of the plan that the source satisfies is followed by a fresh run. -/
theorem FreshRun.follows {w₁ w' : World} (h : FreshRun m source w₁ w')
    (hkeys : KeysDistinct m source) {plan q : TablePlan} (hplan : plan ∈ m.plans)
    (hq : q ∈ m.plans) {col : ColumnPlan} (hcol : col ∈ plan.columnPlans)
    {fk : PlannedForeignKey} (hfk : col.fk = some fk) (htable : q.table = fk.references.table)
    (hprimary : fk.references.column = q.primaryKey)
    (hsatisfied : SatisfiesConstraint source plan q ⟨col.sourceColumn, fk.references⟩) :
    FollowsConstraint source w' plan q ⟨col.sourceColumn, fk.references⟩ := by
  intro row r hrow v hv hnull
  obtain ⟨temp, ht⟩ := Option.isSome_iff_exists.mp
    ((plan.fkTempField_isSome col hcol).trans (by rw [hfk]; rfl))
  obtain ⟨target, htarget, htv⟩ := hsatisfied row (List.of_mem_zip hrow).1 v hv hnull
  obtain ⟨t, htm⟩ := h.exists_migratedFrom hq htarget
  obtain ⟨k, hk⟩ := Option.isSome_iff_exists.mp ((hkeys q hq).1 target htarget)
  have hkv : normalizeOldId (row.get col.sourceColumn) = some k := by
    rw [← hprimary, htv] at hk
    rwa [hv]
  obtain ⟨hfield, -⟩ :=
    (h.relation_eq hplan hcol hkeys hfk ht hq htable hrow).2 k hkv target t htm hk
  exact ⟨target, t, htm, htv, col, hcol, rfl, hfield⟩

/-- **Constraints that are followed.** A foreign key that the plan holds for a column, and that
refers to the primary key of the plan of another table, is followed if the source satisfies it,
whatever the other columns refer to. -/
theorem followsConstraint (m : MigrationPlan) (hacyclic : m.Acyclic) (source : Source)
    (hkeys : KeysDistinct m source) (hconverts : SourceConverts m source) (cfg : Config)
    (hbatch : HonoursBatches cfg m source) (w : World) (hempty : w.pb.Empty) :
    ∃ w', migrate allOk cfg m source w = (some (), w') ∧ ∀ plan ∈ m.plans,
      (w'.records plan.pbCollection).length = (source plan.table).rows.length ∧
      ∀ col ∈ plan.columnPlans, ∀ fk, col.fk = some fk →
        ∀ q ∈ m.plans, q.table = fk.references.table → fk.references.column = q.primaryKey →
          SatisfiesConstraint source plan q ⟨col.sourceColumn, fk.references⟩ →
          FollowsConstraint source w' plan q ⟨col.sourceColumn, fk.references⟩ := by
  obtain ⟨w₁, w', hrun, h⟩ := migrate_fresh hacyclic hbatch hkeys hconverts hempty
  exact ⟨w', hrun, fun plan hplan => ⟨(h.rows hplan).length_eq.symm,
    fun col hcol fk hfk q hq htable hpk hsatisfied =>
      h.follows hkeys hplan hq hcol hfk htable hpk hsatisfied⟩⟩

omit [LetterCase] in
/-- What a constraint that is followed says about the identities of the records. -/
theorem FollowsConstraint.exists_id {plan q : TablePlan} {fk : ForeignKey}
    (h : FollowsConstraint source w plan q fk) (field : String)
    (hfield : ∀ col ∈ plan.columnPlans, col.sourceColumn = fk.column → col.pbField = field)
    {row : Row} {relation : Option RecordId}
    (hrow : (row, relation) ∈ (source plan.table).rows.zip
      ((w.records plan.pbCollection).map fun r => (r.fields field).relation?))
    {v : Value} (hv : row.get fk.column = some v) (hnull : v ≠ .null) :
    ∃ target id, (target, id) ∈ (source q.table).rows.zip
        ((w.records q.pbCollection).map Record.id) ∧
      target.get fk.references.column = some v ∧ relation = some id := by
  rw [List.zip_map_right] at hrow
  obtain ⟨⟨row', r⟩, hmem, heq⟩ := List.mem_map.mp hrow
  obtain ⟨rfl, rfl⟩ := Prod.mk.inj heq
  obtain ⟨target, t, htarget, htv, col, hcol, hsource, hrel⟩ := h row' r hmem v hv hnull
  refine ⟨target, t.id, ?_, htv, ?_⟩
  · rw [List.zip_map_right]
    exact List.mem_map.mpr ⟨(target, t), htarget, rfl⟩
  · rw [← hfield col hcol hsource]
    exact congrArg Cell.relation? hrel

end Run

end Migration

/-! ### A migration of notes -/

section Example

attribute [local instance] asciiLetterCase

/-- Users with an e-mail address; accounts; profiles, whose key is that of a user; notes, with the
address of their author, an account and the key of their owner. -/
def notesFound : String → Option TableDiscovery
  | "users" => some ⟨[⟨"id", some "text", none⟩, ⟨"email", some "text", none⟩], "id", [],
      by decide⟩
  | "accounts" => some ⟨[⟨"id", some "text", none⟩], "id", [], by decide⟩
  | "profiles" => some ⟨[⟨"id", some "text", none⟩], "id", [⟨"id", ⟨"users", "id"⟩⟩], by decide⟩
  | "notes" => some ⟨[⟨"id", some "text", none⟩, ⟨"author", some "text", none⟩,
      ⟨"user_id", some "text", none⟩, ⟨"owner", some "text", none⟩], "id",
      [⟨"author", ⟨"users", "email"⟩⟩, ⟨"user_id", ⟨"accounts", "id"⟩⟩,
        ⟨"owner", ⟨"users", "id"⟩⟩], by decide⟩
  | _ => none

/-- The migration of the notes, with the tables that they refer to. -/
def notesPlan : MigrationPlan :=
  buildPlans ["users", "accounts", "profiles", "notes"] (by decide) (fun _ => []) notesFound

/-- The plan of one of the tables. -/
def notesTable (table : String) (h : (notesPlan.plansByTable table).isSome = true) : TablePlan :=
  (notesPlan.plansByTable table).get h

/-- The one profile, and the one account. -/
def profile : Row := [("id", .string "b")]

/-- The one note of the source, which `b` has written and owns. -/
def note : Row :=
  [("id", .string "n"), ("author", .string "b"), ("user_id", .string "b"), ("owner", .string "b")]

/-- Two users whose keys and addresses are exchanged, an account, a profile and a note. -/
def notesSource : Source
  | "users" => .ofRows [[("id", .string "A"), ("email", .string "b")],
      [("id", .string "b"), ("email", .string "A")]]
  | "accounts" => .ofRows [profile]
  | "profiles" => .ofRows [profile]
  | "notes" => .ofRows [note]
  | _ => .ofRows []

/-- The same tables in a source that answers with one row at a time. -/
def shortSource : Source := fun table =>
  { notesSource table with maxRows := 1, maxRows_pos := Nat.one_pos }

/-- The same tables, but the address of the second user is an object with an own `toString`. -/
def wordlessSource : Source := fun table =>
  if table = "users" then
    .ofRows [[("id", .string "A"), ("email", .string "b")],
      [("id", .string "b"), ("email", .object [("toString", .null)])]]
  else notesSource table

/-- Batches of a thousand rows, and one record to a page. -/
def notesConfig : Config := ⟨1000, 1, defaultBatchSize_pos, Nat.one_pos⟩

/-- The world after the migration of the notes. -/
def notesWorld (source : Source) : World :=
  (migrate allOk notesConfig notesPlan source (World.initial schemaServer)).2

/-- The tables of the notes refer to one another without a cycle. -/
theorem notesPlan_acyclic : notesPlan.Acyclic :=
  MigrationPlan.acyclic_of_rank
    (fun t => if t = "notes" then 2 else if t = "profiles" then 1 else 0) (by decide)

/-- No two rows of the notes have one key. -/
theorem keysDistinct_notes : KeysDistinct notesPlan notesSource := by
  rw [KeysDistinct]
  decide

/-- Every value of the notes has a payload. -/
theorem sourceConverts_notes : SourceConverts notesPlan notesSource := by
  rw [SourceConverts]
  decide

/-- The notes fit into one batch, so the source has no batches to honour. -/
theorem honoursBatches_notes : HonoursBatches notesConfig notesPlan notesSource := by
  rw [HonoursBatches]
  decide

/-- Every table the notes refer to is planned. -/
theorem referencesPlanned_notes : ReferencesPlanned notesPlan := by
  rw [ReferencesPlanned]
  decide

/-- A table of the notes that is looked up is one of the plan. -/
theorem notesTable_mem (t : String) (h : (notesPlan.plansByTable t).isSome = true) :
    notesTable t h ∈ notesPlan.plans :=
  (MigrationPlan.mem_of_plansByTable (Option.some_get h).symm).1

/-- A table is looked up under its own name. -/
theorem notesTable_table {t : String} (h : (notesPlan.plansByTable t).isSome = true) :
    (notesTable t h).table = t :=
  (MigrationPlan.mem_of_plansByTable (Option.some_get h).symm).2

/-- A constraint is satisfied by the one row of a table if another row has the value it refers
to. -/
theorem satisfiesConstraint_notes {t t' : String} (ht : (notesPlan.plansByTable t).isSome = true)
    (ht' : (notesPlan.plansByTable t').isSome = true) {fk : ForeignKey} (row : Row)
    {target : Row} {v : Value} (hrows : (notesSource t).rows = [row])
    (hv : row.get fk.column = some v)
    (htarget : target ∈ (notesSource t').rows)
    (htv : target.get fk.references.column = some v) :
    SatisfiesConstraint notesSource (notesTable t ht) (notesTable t' ht') fk := by
  rw [SatisfiesConstraint, notesTable_table, notesTable_table, hrows]
  intro row' hrow' v' hv' _
  obtain rfl := List.mem_singleton.mp hrow'
  obtain rfl := Option.some.inj (hv.symm.trans hv')
  exact ⟨target, htarget, htv⟩

/-- The collections of the notes have the names of their tables. -/
theorem notesTable_pbCollection {t : String} (h : (notesPlan.plansByTable t).isSome = true) :
    (notesTable t h).pbCollection = t := by
  have hnames : ∀ plan ∈ notesPlan.plans, plan.pbCollection = plan.table := by decide
  rw [hnames _ (notesTable_mem t h), notesTable_table]

/-- The migration of the notes is faithful. -/
theorem migrate_faithful_notes :
    ∃ w', migrate allOk notesConfig notesPlan notesSource (World.initial schemaServer) =
        (some (), w') ∧
      ∀ plan ∈ notesPlan.plans, TableMigrated notesPlan notesSource w' plan := by
  refine migrate_faithful notesPlan notesPlan_acyclic referencesPlanned_notes notesSource
    keysDistinct_notes sourceConverts_notes ?_ notesConfig honoursBatches_notes _
    (PocketBase.installed_empty schemaServer)
  rw [ReferencesSatisfied]
  decide

/-- **A row that is lost.** The address of the second user has no text, and `String` throws on it.
The keys are distinct and every reference is satisfied, every call is answered, and there is no
record of the user. -/
theorem not_tableMigrated_notes :
    notesPlan.Acyclic ∧ ReferencesPlanned notesPlan ∧ KeysDistinct notesPlan wordlessSource ∧
      ReferencesSatisfied notesPlan wordlessSource ∧
      HonoursBatches notesConfig notesPlan wordlessSource ∧
      (migrate allOk notesConfig notesPlan wordlessSource (World.initial schemaServer)).1 =
        some () ∧
      ¬ TableMigrated notesPlan wordlessSource (notesWorld wordlessSource)
        (notesTable "users" (by decide)) := by
  refine ⟨notesPlan_acyclic, referencesPlanned_notes, ?_, ?_, ?_, ?_, fun h => ?_⟩
  · rw [KeysDistinct]
    decide
  · rw [ReferencesSatisfied]
    decide
  · rw [HonoursBatches]
    decide
  · decide +kernel
  · have hrecords : ((notesWorld wordlessSource).records "users").length = 1 := by decide +kernel
    have hlength := h.length_eq
    rw [notesTable_table, notesTable_pbCollection, hrecords] at hlength
    exact absurd hlength (by decide)

/-- The owner of a note is followed: the relation of the note's record leads to the record of the
user. -/
theorem followsConstraint_notes :
    ∃ w', migrate allOk notesConfig notesPlan notesSource (World.initial schemaServer) =
        (some (), w') ∧
      FollowsConstraint notesSource w' (notesTable "notes" (by decide))
        (notesTable "users" (by decide)) ⟨"owner", ⟨"users", "id"⟩⟩ := by
  obtain ⟨w', hrun, h⟩ := followsConstraint notesPlan notesPlan_acyclic notesSource
    keysDistinct_notes sourceConverts_notes notesConfig honoursBatches_notes
    (World.initial schemaServer) (PocketBase.installed_empty schemaServer)
  refine ⟨w', hrun, ?_⟩
  obtain ⟨col, hcol, hsource, fk, hfk, hrefs⟩ :
      ∃ col ∈ (notesTable "notes" (by decide)).columnPlans, col.sourceColumn = "owner" ∧
        ∃ fk ∈ col.fk, fk.references = ⟨"users", "id"⟩ := by decide
  have hpk : (notesTable "users" (by decide)).primaryKey = "id" := by decide
  have hfollows := (h _ (notesTable_mem "notes" (by decide))).2 col hcol fk hfk _
    (notesTable_mem "users" (by decide)) (by rw [hrefs, notesTable_table]) (by rw [hrefs, hpk]) ?_
  · rwa [hsource, hrefs] at hfollows
  · rw [hsource, hrefs]
    exact satisfiesConstraint_notes _ _ note rfl rfl
      (List.mem_cons_of_mem _ List.mem_cons_self) rfl

/-- **Constraints that are not followed**, although the source satisfies them, no reference leads
back, and the keys are distinct. The key of a profile is that of a user, but no relation is planned
for a primary key. The author of a note is the user with that address, but the relation points to
the user with that key. The column `user_id` refers to an account, but its name stands for a user.
And the owner of the note is lost by a source that answers with fewer rows than were asked for, and
by one in which his address has no text. -/
theorem not_followsConstraint_notes :
    notesPlan.Acyclic ∧ KeysDistinct notesPlan notesSource ∧
      HonoursBatches notesConfig notesPlan notesSource ∧
    (SatisfiesConstraint notesSource (notesTable "profiles" (by decide))
        (notesTable "users" (by decide)) ⟨"id", ⟨"users", "id"⟩⟩ ∧
      ¬ FollowsConstraint notesSource (notesWorld notesSource) (notesTable "profiles" (by decide))
        (notesTable "users" (by decide)) ⟨"id", ⟨"users", "id"⟩⟩) ∧
    (SatisfiesConstraint notesSource (notesTable "notes" (by decide))
        (notesTable "users" (by decide)) ⟨"author", ⟨"users", "email"⟩⟩ ∧
      ¬ FollowsConstraint notesSource (notesWorld notesSource) (notesTable "notes" (by decide))
        (notesTable "users" (by decide)) ⟨"author", ⟨"users", "email"⟩⟩) ∧
    (SatisfiesConstraint notesSource (notesTable "notes" (by decide))
        (notesTable "accounts" (by decide)) ⟨"user_id", ⟨"accounts", "id"⟩⟩ ∧
      ¬ FollowsConstraint notesSource (notesWorld notesSource) (notesTable "notes" (by decide))
        (notesTable "accounts" (by decide)) ⟨"user_id", ⟨"accounts", "id"⟩⟩) ∧
    (∀ source ∈ [shortSource, wordlessSource],
      ¬ FollowsConstraint source (notesWorld source) (notesTable "notes" (by decide))
        (notesTable "users" (by decide)) ⟨"owner", ⟨"users", "id"⟩⟩) := by
  have hprofile :
      ((notesWorld notesSource).records "profiles").map (fun r => (r.fields "id").relation?) =
      [none] := by decide +kernel
  have hauthor :
      ((notesWorld notesSource).records "notes").map (fun r => (r.fields "author").relation?) =
      [some 5] := by decide +kernel
  have huser :
      ((notesWorld notesSource).records "notes").map (fun r => (r.fields "user_id").relation?) =
      [some 5] := by decide +kernel
  have husers : ((notesWorld notesSource).records "users").map Record.id = [4, 5] := by
    decide +kernel
  have haccounts : ((notesWorld notesSource).records "accounts").map Record.id = [6] := by
    decide +kernel
  have hmem : ∀ {t : String} (ht : (notesPlan.plansByTable t).isSome = true) {row : Row}
      {rows : List Row} {field : String} {relation : Option RecordId},
      (notesSource t).rows = row :: rows →
      ((notesWorld notesSource).records t).map (fun r => (r.fields field).relation?) = [relation] →
      (row, relation) ∈ (notesSource (notesTable t ht).table).rows.zip
        (((notesWorld notesSource).records (notesTable t ht).pbCollection).map
          fun r => (r.fields field).relation?) := by
    intro t ht row rows field relation hrows hrelation
    rw [notesTable_table, notesTable_pbCollection, hrows, hrelation]
    exact List.mem_cons_self
  refine ⟨notesPlan_acyclic, keysDistinct_notes, honoursBatches_notes,
    ⟨satisfiesConstraint_notes _ _ profile rfl rfl
      (List.mem_cons_of_mem _ List.mem_cons_self) rfl, fun h => ?_⟩,
    ⟨satisfiesConstraint_notes _ _ note rfl rfl List.mem_cons_self rfl, fun h => ?_⟩,
    ⟨satisfiesConstraint_notes _ _ note rfl rfl List.mem_cons_self rfl, fun h => ?_⟩,
    fun source hsource h => ?_⟩
  · obtain ⟨_, _, -, -, hid⟩ := h.exists_id "id" (by decide) (hmem _ rfl hprofile)
      (v := .string "b") rfl (by simp)
    exact absurd hid (by simp)
  · obtain ⟨target, id, htarget, htv, hid⟩ := h.exists_id "author" (by decide)
      (hmem _ rfl hauthor) (v := .string "b") rfl (by simp)
    obtain rfl := Option.some.inj hid
    rw [notesTable_table, notesTable_pbCollection, husers, notesSource, SourceTable.ofRows]
      at htarget
    simp only [List.zip_cons_cons, List.zip_nil_left, List.mem_cons, Prod.mk.injEq,
      List.not_mem_nil, or_false] at htarget
    rcases htarget with ⟨-, hid⟩ | ⟨rfl, -⟩
    · exact absurd hid (by decide)
    · exact absurd (Value.string.inj (Option.some.inj htv)) (by decide)
  · obtain ⟨target, id, htarget, -, hid⟩ := h.exists_id "user_id" (by decide)
      (hmem _ rfl huser) (v := .string "b") rfl (by simp)
    obtain rfl := Option.some.inj hid
    rw [notesTable_table, notesTable_pbCollection, haccounts] at htarget
    exact absurd (List.of_mem_zip htarget).2 (by decide)
  · obtain ⟨hrows, howner⟩ : (source "notes").rows = [note] ∧
        ((notesWorld source).records "notes").map (fun r => (r.fields "owner").relation?) =
          [none] := by
      rcases List.mem_cons.mp hsource with rfl | hsource
      · exact ⟨rfl, by decide +kernel⟩
      · obtain rfl := List.mem_singleton.mp hsource
        exact ⟨rfl, by decide +kernel⟩
    have hnote : (note, (none : Option RecordId)) ∈
        (source (notesTable "notes" (by decide)).table).rows.zip
        (((notesWorld source).records (notesTable "notes" (by decide)).pbCollection).map
          fun r => (r.fields "owner").relation?) := by
      rw [notesTable_table, notesTable_pbCollection, howner, hrows]
      exact List.mem_cons_self
    obtain ⟨_, _, -, -, hid⟩ := h.exists_id "owner" (by decide +kernel) hnote
      (v := .string "b") rfl (by simp)
    exact absurd hid (by simp)

end Example

end Mogo
