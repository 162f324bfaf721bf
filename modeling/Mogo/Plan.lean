import Mathlib.Data.List.Pairwise
import Mogo.Discovery
import Mogo.Kahn
import Mogo.Naming

/-!
# Migration Plans

The plan of a table says which PocketBase field takes which source column. A foreign-key column
gets two fields: the relation field, and a temporary text field that keeps the raw key until
the second pass has resolved it.

A `TablePlan` carries the facts the later stages rely on, so a plan with clashing field names
cannot be built; `buildTablePlan` shows that the name allocation of the script provides them. A
`MigrationPlan` is the family of plans of one migration, over distinct tables and distinct
collections.

## Main results

* `planColumns_spec`: the planned field names are pairwise distinct and clash with no name in
  use before.
* `buildPlans`: the planning loop of `main` yields a `MigrationPlan`.
* `MigrationPlan.orderedPlans_perm`, `MigrationPlan.orderedPlans_parents_first`: the order of
  the migration is a permutation of the plans, and an acyclic family puts parents first.
-/

open Relation

namespace Mogo

/-- A foreign key of a plan: its reference carries the collection of the referenced table. -/
structure PlannedForeignKey where
  column : String
  references : Reference
  pbCollection : String
  deriving DecidableEq, Repr

/-- The plan of one column: the field it is stored in, the field's type and the foreign key, if it
is one. -/
structure ColumnPlan where
  sourceColumn : String
  sourceType : String
  pbField : String
  pbType : PbType
  isForeignKey : Bool
  fk : Option PlannedForeignKey
  fkTempField : Option String
  deriving DecidableEq, Repr

/-- The fields a planned column writes. -/
def ColumnPlan.fieldNames (col : ColumnPlan) : List String := col.pbField :: col.fkTempField.toList

/-- The primary key a plan falls back on is a name. -/
theorem id_ne_empty : "id" ≠ "" := by decide

/-- The plan of one table: its collection, its primary key and the plans of its columns. -/
structure TablePlan where
  table : String
  pbCollection : String
  primaryKey : String
  columnPlans : List ColumnPlan
  foreignKeys : List PlannedForeignKey
  /-- No two planned fields share a name, and none is called `old_id`. -/
  names_nodup : ("old_id" :: columnPlans.flatMap ColumnPlan.fieldNames).Nodup
  /-- A column is a foreign key exactly when it has one, and then it has a temporary field. -/
  isForeignKey_eq : ∀ col ∈ columnPlans, col.isForeignKey = col.fk.isSome
  fkTempField_isSome : ∀ col ∈ columnPlans, col.fkTempField.isSome = col.fk.isSome
  /-- A column name is not empty. -/
  primaryKey_ne : primaryKey ≠ ""
  /-- The foreign key of a column is one of the foreign keys of the plan. -/
  fk_mem : ∀ col ∈ columnPlans, ∀ fk, col.fk = some fk → fk ∈ foreignKeys

/-- The names of the fields a plan writes. -/
def TablePlan.fieldNames (plan : TablePlan) : List String :=
  "old_id" :: plan.columnPlans.flatMap ColumnPlan.fieldNames

namespace TablePlan

/-- The two fields of a foreign-key column are different. -/
theorem pbField_ne_temp {plan : TablePlan} {col : ColumnPlan}
    (hcol : col ∈ plan.columnPlans) {temp : String} (ht : col.fkTempField = some temp) :
    col.pbField ≠ temp := by
  obtain ⟨pre, post, hsplit⟩ := List.append_of_mem hcol
  have hnodup := (List.nodup_cons.mp plan.names_nodup).2
  rw [hsplit, List.flatMap_append, List.flatMap_cons, List.nodup_append] at hnodup
  have hcolnd := (List.nodup_append.mp hnodup.2.1).1
  rw [ColumnPlan.fieldNames, ht, Option.toList_some, List.nodup_cons] at hcolnd
  exact fun he => hcolnd.1 (he ▸ List.mem_cons_self)

/-- A field of the collection belongs to one column of the table only. -/
theorem eq_of_mem_fieldNames {plan : TablePlan} {col col' : ColumnPlan}
    (hcol : col ∈ plan.columnPlans) (hcol' : col' ∈ plan.columnPlans) {n : String}
    (hn : n ∈ col.fieldNames) (hn' : n ∈ col'.fieldNames) : col = col' := by
  have hnodup := (List.nodup_cons.mp plan.names_nodup).2
  have hdisjoint := (List.nodup_flatMap.mp hnodup).2
  by_contra hne
  have hsymm : Std.Symm (Function.onFun List.Disjoint ColumnPlan.fieldNames) :=
    ⟨fun _ _ h => h.symm⟩
  exact hdisjoint.forall hcol hcol' hne hn hn'

/-- No column writes the field `old_id`. -/
theorem old_id_notMem {plan : TablePlan} {col : ColumnPlan} (hcol : col ∈ plan.columnPlans) :
    "old_id" ∉ col.fieldNames := fun h =>
  (List.nodup_cons.mp plan.names_nodup).1 (List.mem_flatMap.mpr ⟨col, hcol, h⟩)

/-- The temporary field of a column is one of its fields. -/
theorem temp_mem_fieldNames {col : ColumnPlan} {temp : String} (ht : col.fkTempField = some temp) :
    temp ∈ col.fieldNames := by
  rw [ColumnPlan.fieldNames, ht]
  exact List.mem_cons_of_mem _ List.mem_cons_self

end TablePlan

/-! ### Planning the columns of a table -/

/-- The column loop of `buildTablePlan`. The primary key is not planned: it becomes `old_id`. -/
def planColumns [LetterCase] (primaryKey : String)
    (foreignKeyByColumn : String → Option PlannedForeignKey) :
    List ColumnInfo → List String → List ColumnPlan
  | [], _ => []
  | column :: columns, usedNames =>
    if column.column_name = primaryKey then
      planColumns primaryKey foreignKeyByColumn columns usedNames
    else
      let pbField := toPocketBaseFieldName column.column_name usedNames
      let usedNames := pbField :: usedNames
      let fk := foreignKeyByColumn column.column_name
      let tempOldField := fk.map fun _ => toPocketBaseFieldName (pbField ++ "_old") usedNames
      let usedNames := tempOldField.toList ++ usedNames
      { sourceColumn := column.column_name
        sourceType := sourceTypeOf column.data_type column.udt_name
        pbField := pbField
        pbType := mapPostgresTypeToPocketBaseType column.data_type column.udt_name
        isForeignKey := fk.isSome
        fk := fk
        fkTempField := tempOldField } ::
          planColumns primaryKey foreignKeyByColumn columns usedNames

section PlanColumns

variable [LetterCase]

/-- **Name allocation.** The planned names are pairwise distinct, and none was in use. -/
theorem planColumns_spec (primaryKey : String)
    (foreignKeyByColumn : String → Option PlannedForeignKey) (columns : List ColumnInfo)
    (usedNames : List String) :
    ((planColumns primaryKey foreignKeyByColumn columns usedNames).flatMap
        ColumnPlan.fieldNames).Nodup ∧
      ∀ n ∈ (planColumns primaryKey foreignKeyByColumn columns usedNames).flatMap
        ColumnPlan.fieldNames, n ∉ usedNames := by
  induction columns generalizing usedNames with
  | nil => exact ⟨List.nodup_nil, fun n hn => absurd hn List.not_mem_nil⟩
  | cons column columns ih =>
      rw [planColumns]
      split
      · exact ih usedNames
      · dsimp only
        have hpbFresh := toPocketBaseFieldName_notMem column.column_name usedNames
        generalize toPocketBaseFieldName column.column_name usedNames = pbField at hpbFresh
        rcases foreignKeyByColumn column.column_name with - | fk
        · obtain ⟨hnd, hfresh⟩ := ih (pbField :: usedNames)
          simp only [Option.map_none, Option.toList_none, List.nil_append, List.flatMap_cons,
            ColumnPlan.fieldNames, List.singleton_append, List.nodup_cons, List.mem_cons]
          refine ⟨⟨fun hmem => hfresh pbField hmem List.mem_cons_self, hnd⟩, ?_⟩
          intro n hn hused
          rcases hn with hn | hn
          · exact hpbFresh (hn ▸ hused)
          · exact hfresh n hn (List.mem_cons_of_mem pbField hused)
        · have htempFresh := toPocketBaseFieldName_notMem (pbField ++ "_old")
            (pbField :: usedNames)
          simp only [Option.map_some, Option.toList_some, List.flatMap_cons,
            ColumnPlan.fieldNames, List.cons_append, List.nil_append, List.nodup_cons,
            List.mem_cons]
          generalize toPocketBaseFieldName (pbField ++ "_old") (pbField :: usedNames) = temp
            at htempFresh
          obtain ⟨hnd, hfresh⟩ := ih (temp :: pbField :: usedNames)
          refine ⟨⟨?_, fun hmem => hfresh temp hmem List.mem_cons_self, hnd⟩, ?_⟩
          · rintro (heq | hmem)
            · exact htempFresh (heq ▸ List.mem_cons_self)
            · exact hfresh pbField hmem (List.mem_cons_of_mem temp List.mem_cons_self)
          · intro n hn hused
            rcases hn with hn | hn | hn
            · exact hpbFresh (hn ▸ hused)
            · exact htempFresh (List.mem_cons_of_mem pbField (hn ▸ hused))
            · exact hfresh n hn (List.mem_cons_of_mem temp (List.mem_cons_of_mem pbField hused))

variable {primaryKey : String} {foreignKeyByColumn : String → Option PlannedForeignKey}

/-- The plan of a column is not that of the primary key, and records the foreign key of its column,
if there is one. -/
theorem mem_planColumns {columns : List ColumnInfo} {usedNames : List String} {col : ColumnPlan}
    (h : col ∈ planColumns primaryKey foreignKeyByColumn columns usedNames) :
    col.sourceColumn ≠ primaryKey ∧ col.fk = foreignKeyByColumn col.sourceColumn ∧
      col.isForeignKey = col.fk.isSome ∧ col.fkTempField.isSome = col.fk.isSome := by
  induction columns generalizing usedNames with
  | nil => exact absurd h List.not_mem_nil
  | cons column columns ih =>
      rw [planColumns] at h
      split at h
      next => exact ih h
      next hne =>
        rcases List.mem_cons.mp h with rfl | h
        · exact ⟨hne, rfl, rfl, Option.isSome_map⟩
        · exact ih h

/-- A planned column has the type of a column of the table. -/
theorem exists_column_of_mem_planColumns {columns : List ColumnInfo} {usedNames : List String}
    {col : ColumnPlan} (h : col ∈ planColumns primaryKey foreignKeyByColumn columns usedNames) :
    ∃ column ∈ columns, column.column_name = col.sourceColumn ∧
      col.pbType = mapPostgresTypeToPocketBaseType column.data_type column.udt_name := by
  induction columns generalizing usedNames with
  | nil => exact absurd h List.not_mem_nil
  | cons column columns ih =>
      have hrest {usedNames : List String}
          (h : col ∈ planColumns primaryKey foreignKeyByColumn columns usedNames) :
          ∃ column' ∈ column :: columns, column'.column_name = col.sourceColumn ∧
            col.pbType = mapPostgresTypeToPocketBaseType column'.data_type column'.udt_name := by
        obtain ⟨column', hmem, hcolumn'⟩ := ih h
        exact ⟨column', List.mem_cons_of_mem _ hmem, hcolumn'⟩
      rw [planColumns] at h
      split at h
      · exact hrest h
      · rcases List.mem_cons.mp h with rfl | h
        · exact ⟨column, List.mem_cons_self, rfl, rfl⟩
        · exact hrest h

/-- Every column but the primary key is planned. -/
theorem exists_mem_planColumns {columns : List ColumnInfo} {usedNames : List String}
    {column : ColumnInfo} (h : column ∈ columns) (hne : column.column_name ≠ primaryKey) :
    ∃ col ∈ planColumns primaryKey foreignKeyByColumn columns usedNames,
      col.sourceColumn = column.column_name := by
  induction columns generalizing usedNames with
  | nil => exact absurd h List.not_mem_nil
  | cons c columns ih =>
      rw [planColumns]
      split
      next hpk =>
        refine ih ((List.mem_cons.mp h).resolve_left ?_)
        rintro rfl
        exact hne hpk
      next =>
        rcases List.mem_cons.mp h with rfl | h
        · exact ⟨_, List.mem_cons_self, rfl⟩
        · obtain ⟨col, hcol, hs⟩ := ih h
          exact ⟨col, List.mem_cons_of_mem _ hcol, hs⟩

end PlanColumns

/-! ### Planning a table -/

/-- What discovery has found out about one table. -/
structure TableDiscovery where
  columns : List ColumnInfo
  primaryKey : String
  autoForeignKeys : List ForeignKey
  /-- A column name is not empty. -/
  primaryKey_ne : primaryKey ≠ ""

/-- The foreign keys of a plan: declared, guessed and manual ones merged, each with the
collection of the table it refers to. -/
def planForeignKeys [LetterCase] (tables : List String) (manual : String → List ForeignKey)
    (tableToCollectionName : String → Option String) (table : String) (found : TableDiscovery) :
    List PlannedForeignKey :=
  let inferred := inferForeignKeysFromColumnNames found.columns table tables found.primaryKey
  (mergeForeignKeys (mergeForeignKeys found.autoForeignKeys inferred) (manual table)).map
    fun fk =>
      { column := fk.column
        references := fk.references
        pbCollection := (tableToCollectionName fk.references.table).getD
          (normalizePocketBaseCollectionName fk.references.table) }

/-- `buildTablePlan`, from what discovery has found; it throws for a table without columns. -/
def buildTablePlan [LetterCase] (tables : List String) (manual : String → List ForeignKey)
    (tableToCollectionName : String → Option String) (table : String) (found : TableDiscovery) :
    Option TablePlan :=
  if found.columns = [] then none
  else
    let foreignKeys := planForeignKeys tables manual tableToCollectionName table found
    let foreignKeyByColumn (c : String) := foreignKeys.reverse.find? fun fk => fk.column = c
    some
      { table := table
        pbCollection := (tableToCollectionName table).getD
          (normalizePocketBaseCollectionName table)
        primaryKey := found.primaryKey
        columnPlans := planColumns found.primaryKey foreignKeyByColumn found.columns ["old_id"]
        foreignKeys := foreignKeys
        names_nodup := by
          obtain ⟨hnd, hfresh⟩ := planColumns_spec found.primaryKey foreignKeyByColumn
            found.columns ["old_id"]
          exact List.nodup_cons.mpr
            ⟨fun hmem => hfresh "old_id" hmem List.mem_cons_self, hnd⟩
        primaryKey_ne := found.primaryKey_ne
        isForeignKey_eq := fun col hcol => (mem_planColumns hcol).2.2.1
        fkTempField_isSome := fun col hcol => (mem_planColumns hcol).2.2.2
        fk_mem := by
          intro col hcol fk hfk
          rw [(mem_planColumns hcol).2.1] at hfk
          exact List.mem_reverse.mp (List.mem_of_find?_eq_some hfk) }

/-- A plan has the collection, the primary key and the foreign keys of the table it was built
for. -/
theorem buildTablePlan_spec [LetterCase] {tables : List String}
    {manual : String → List ForeignKey} {tableToCollectionName : String → Option String}
    {table : String} {found : TableDiscovery} {plan : TablePlan}
    (h : buildTablePlan tables manual tableToCollectionName table found = some plan) :
    plan.table = table ∧
      plan.pbCollection = (tableToCollectionName table).getD
        (normalizePocketBaseCollectionName table) ∧
      plan.primaryKey = found.primaryKey ∧
      plan.foreignKeys = planForeignKeys tables manual tableToCollectionName table found := by
  rw [buildTablePlan] at h
  split at h
  · exact absurd h (by simp)
  · obtain rfl := Option.some.inj h
    exact ⟨rfl, rfl, rfl, rfl⟩

/-- The planned columns of a table are its discovered columns, planned. -/
theorem buildTablePlan_columnPlans [LetterCase] {tables : List String}
    {manual : String → List ForeignKey} {tableToCollectionName : String → Option String}
    {table : String} {found : TableDiscovery} {plan : TablePlan}
    (h : buildTablePlan tables manual tableToCollectionName table found = some plan) :
    plan.columnPlans = planColumns found.primaryKey
      (fun c => plan.foreignKeys.reverse.find? fun fk => fk.column = c) found.columns
      ["old_id"] := by
  rw [buildTablePlan] at h
  split at h
  · exact absurd h (by simp)
  · obtain rfl := Option.some.inj h
    rfl

/-! ### The family of plans -/

/-- The plans of one migration. Tables and collections are planned once each. -/
structure MigrationPlan where
  plans : List TablePlan
  tables_nodup : (plans.map TablePlan.table).Nodup
  collections_nodup : (plans.map TablePlan.pbCollection).Nodup
  /-- A reference to a planned table carries the collection of that table's plan. -/
  reference_collection : ∀ p ∈ plans, ∀ fk ∈ p.foreignKeys, ∀ q ∈ plans,
    q.table = fk.references.table → fk.pbCollection = q.pbCollection

/-- The planning loop of `main`: the tables whose plan could be built, with their plans.
`found` is the outcome of discovery for a table, `none` where it failed. -/
def buildPlans [LetterCase] (tables : List String) (htables : tables.Nodup)
    (manual : String → List ForeignKey) (found : String → Option TableDiscovery) :
    MigrationPlan :=
  let names := buildTableToCollectionNameMap tables
  let planOf (t : String) := (found t).bind (buildTablePlan tables manual names t)
  have spec : ∀ t p, planOf t = some p → p.table = t ∧
      p.pbCollection = (names t).getD (normalizePocketBaseCollectionName t) ∧
      ∀ fk ∈ p.foreignKeys, fk.pbCollection = (names fk.references.table).getD
        (normalizePocketBaseCollectionName fk.references.table) := by
    intro t p hp
    obtain ⟨f, -, hp⟩ := Option.bind_eq_some_iff.mp hp
    obtain ⟨h1, h2, -, h4⟩ := buildTablePlan_spec hp
    refine ⟨h1, h2, fun fk hfk => ?_⟩
    rw [h4, planForeignKeys, List.mem_map] at hfk
    obtain ⟨fk', -, rfl⟩ := hfk
    rfl
  { plans := tables.filterMap planOf
    tables_nodup := by
      refine List.pairwise_map.mpr
        (List.Pairwise.filterMap _ (fun t t' hne p hp p' hp' he => hne ?_) htables)
      rw [← (spec t p hp).1, ← (spec t' p' hp').1, he]
    collections_nodup := by
      have hpair : tables.Pairwise fun t t' => t ≠ t' ∧ t ∈ tables ∧ t' ∈ tables :=
        List.Pairwise.and htables (List.pairwise_of_forall_mem_list fun t ht t' ht' => ⟨ht, ht'⟩)
      refine List.pairwise_map.mpr
        (List.Pairwise.filterMap _ (fun t t' hne p hp p' hp' he => hne.1 ?_) hpair)
      obtain ⟨n, hn⟩ := Option.isSome_iff_exists.mp
        (buildTableToCollectionNameMap_isSome hne.2.1)
      obtain ⟨n', hn'⟩ := Option.isSome_iff_exists.mp
        (buildTableToCollectionNameMap_isSome hne.2.2)
      have h1 := (spec t p hp).2.1
      have h2 := (spec t' p' hp').2.1
      rw [show names t = some n from hn, Option.getD_some] at h1
      rw [show names t' = some n' from hn', Option.getD_some] at h2
      have hnn : n = n' := by rw [← h1, ← h2, he]
      exact buildTableToCollectionNameMap_injective hn (hnn ▸ hn')
    reference_collection := by
      intro p hp fk hfk q hq ht
      obtain ⟨t, -, hpt⟩ := List.mem_filterMap.mp hp
      obtain ⟨t', -, hqt⟩ := List.mem_filterMap.mp hq
      rw [(spec t p hpt).2.2 fk hfk, (spec t' q hqt).2.1, ← ht, (spec t' q hqt).1] }

namespace MigrationPlan

variable (m : MigrationPlan)

/-- `plansByTable`: the plan of a table, `none` if it is not planned. -/
def plansByTable (table : String) : Option TablePlan := m.plans.find? fun p => p.table = table

/-- The tables that the foreign keys of a table refer to. -/
def referencedTables (table : String) : List String :=
  ((m.plansByTable table).map fun p => p.foreignKeys.map fun fk => fk.references.table).getD []

/-- `topologicalSortTables`, on the planned tables. -/
def topologicalSortTables : List String := kahn (m.plans.map TablePlan.table) m.referencedTables

/-- The plans in the order of the migration. -/
def orderedPlans : List TablePlan := m.topologicalSortTables.filterMap m.plansByTable

/-- The foreign keys of table `child` refer to table `parent`. -/
def References (child parent : String) : Prop :=
  ∃ p ∈ m.plans, p.table = child ∧ ∃ fk ∈ p.foreignKeys, fk.references.table = parent

/-- No chain of references leads from a table back to it. -/
def Acyclic : Prop := ∀ t, ¬ TransGen m.References t t

variable {m}

/-- A family whose references lead down a rank is acyclic. -/
theorem acyclic_of_rank (rank : String → ℕ)
    (h : ∀ p ∈ m.plans, ∀ fk ∈ p.foreignKeys, rank fk.references.table < rank p.table) :
    m.Acyclic := by
  have hstep : ∀ child parent, m.References child parent → rank parent < rank child := by
    rintro child parent ⟨p, hp, rfl, fk, hfk, rfl⟩
    exact h p hp fk hfk
  have hchain : ∀ child parent, TransGen m.References child parent → rank parent < rank child := by
    intro child parent hrefs
    induction hrefs with
    | single hlast => exact hstep _ _ hlast
    | tail _ hlast ih => exact (hstep _ _ hlast).trans ih
  exact fun t ht => Nat.lt_irrefl _ (hchain t t ht)

/-- The lookup by table finds the plan of a planned table, as no table is planned twice. -/
theorem plansByTable_of_mem {p : TablePlan} (hp : p ∈ m.plans) :
    m.plansByTable p.table = some p := by
  rw [plansByTable]
  obtain ⟨q, hq⟩ : ∃ q, m.plans.find? (fun q => q.table = p.table) = some q := by
    refine Option.isSome_iff_exists.mp (List.find?_isSome.mpr ⟨p, hp, ?_⟩)
    exact decide_eq_true rfl
  have hmem := List.mem_of_find?_eq_some hq
  have ht : q.table = p.table := by simpa using List.find?_some hq
  rw [hq, List.inj_on_of_nodup_map m.tables_nodup hmem hp ht]

/-- A plan that is found is a plan of the table asked for. -/
theorem mem_of_plansByTable {t : String} {p : TablePlan} (h : m.plansByTable t = some p) :
    p ∈ m.plans ∧ p.table = t :=
  ⟨List.mem_of_find?_eq_some h, by simpa using List.find?_some h⟩

/-- Two plans with one collection are one plan. -/
theorem eq_of_pbCollection_eq {p q : TablePlan} (hp : p ∈ m.plans) (hq : q ∈ m.plans)
    (h : p.pbCollection = q.pbCollection) : p = q :=
  List.inj_on_of_nodup_map m.collections_nodup hp hq h

variable (m) in
/-- **The order of the migration is a permutation of the plans.** -/
theorem orderedPlans_perm : m.orderedPlans.Perm m.plans := by
  have hperm := (kahn_perm m.tables_nodup m.referencedTables).filterMap m.plansByTable
  have hself : (m.plans.map TablePlan.table).filterMap m.plansByTable = m.plans := by
    rw [List.filterMap_map]
    refine (List.filterMap_congr fun p hp => ?_).trans List.filterMap_some
    exact plansByTable_of_mem hp
  rwa [hself] at hperm

/-- The plans in order are the plans of the sorted tables. -/
theorem map_table_orderedPlans : m.orderedPlans.map TablePlan.table = m.topologicalSortTables := by
  rw [orderedPlans, List.map_filterMap]
  refine (List.filterMap_congr fun t ht => ?_).trans List.filterMap_some
  obtain ⟨p, hp, rfl⟩ := List.mem_map.mp ((kahn_perm m.tables_nodup _).mem_iff.mp ht)
  rw [plansByTable_of_mem hp, Option.map_some]

/-- **Parents come first.** In an acyclic family a table is migrated after every planned table
it refers to. -/
theorem orderedPlans_parents_first (hacyclic : m.Acyclic) {pre post : List TablePlan}
    {p q : TablePlan} (hsplit : m.orderedPlans = pre ++ p :: post) {fk : PlannedForeignKey}
    (hfk : fk ∈ p.foreignKeys) (hq : q ∈ m.plans) (ht : fk.references.table = q.table) :
    q ∈ pre := by
  have hp : p ∈ m.plans := by
    rw [← (orderedPlans_perm m).mem_iff, hsplit]
    exact List.mem_append_right pre List.mem_cons_self
  have href : m.References p.table q.table := ⟨p, hp, rfl, fk, hfk, ht⟩
  have hedge : Edge (m.plans.map TablePlan.table) m.referencedTables q.table p.table := by
    refine ⟨List.mem_map_of_mem hq, List.mem_map_of_mem hp, ?_, ?_⟩
    · intro he
      exact hacyclic p.table (TransGen.single (he ▸ href))
    · rw [referencedTables, plansByTable_of_mem hp, Option.map_some, Option.getD_some, ← ht]
      exact List.mem_map_of_mem hfk
  have hstep : ∀ a b, Edge (m.plans.map TablePlan.table) m.referencedTables a b →
      m.References b a := by
    rintro a b ⟨-, hb, -, hab⟩
    obtain ⟨r, hr, rfl⟩ := List.mem_map.mp hb
    rw [referencedTables, plansByTable_of_mem hr, Option.map_some, Option.getD_some] at hab
    obtain ⟨fk', hfk', hta⟩ := List.mem_map.mp hab
    exact ⟨r, hr, rfl, fk', hfk', hta⟩
  have hno : ∀ n, ¬ TransGen (Edge (m.plans.map TablePlan.table) m.referencedTables) n n := by
    intro n hn
    exact hacyclic n (transGen_swap.mp (TransGen.mono hstep n n hn))
  have hmap : m.topologicalSortTables =
      pre.map TablePlan.table ++ p.table :: post.map TablePlan.table := by
    rw [← map_table_orderedPlans, hsplit, List.map_append, List.map_cons]
  obtain ⟨q', hq', hqt⟩ := List.mem_map.mp (kahn_sorted m.tables_nodup hno hmap hedge)
  have hq'm : q' ∈ m.plans := by
    rw [← (orderedPlans_perm m).mem_iff, hsplit]
    exact List.mem_append_left _ hq'
  rwa [List.inj_on_of_nodup_map m.tables_nodup hq hq'm hqt.symm]

end MigrationPlan

end Mogo
