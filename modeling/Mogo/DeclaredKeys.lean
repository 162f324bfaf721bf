import Mogo.CatalogKeys
import Mogo.ColumnDiscovery
import Mogo.Fidelity
import Mogo.KeyPrecedence

/-!
# From a Declared Key to a Relation

A foreign key of the source database is read off the catalog, merged with the guesses and the
manual keys, planned with two fields, copied by the first pass and resolved by the second. Here is
the whole way, for the keys that survive it: those of one column, under a name of their own, that
refer to the primary key, and that no guess and no manual key takes the place of.

## Main results

* `discoverPrimaryKey_of_single`: a primary key of one column is discovered.
* `keyFor_discoverForeignKeys`: so is a key of one column with a name of its own.
* `declared_followed`: every row is copied, and the relations of such a key point to the records
  of the rows it refers to.
-/

namespace Mogo

open Script

/-! ### Discovery -/

section Discovery

variable {catalog : InformationSchema} {schema table : String}

/-- The constraint is the primary key of the table. -/
def Constraint.IsPrimaryKeyOf (schema table : String) (c : Constraint) : Prop :=
  c.table_schema = schema ∧ c.table_name = table ∧ c.constraint_type = .primaryKey

instance (schema table : String) (c : Constraint) : Decidable (c.IsPrimaryKeyOf schema table) :=
  inferInstanceAs (Decidable (_ ∧ _ ∧ _))

/-- **A primary key of one column** is discovered, if its constraint can be read. -/
theorem discoverPrimaryKey_of_single (hunique : NamesUnique catalog.constraints)
    (htc : catalog.tableConstraintsReadable = true) (hkcu : catalog.keyColumnUsageReadable = true)
    {p : Constraint} (hp : p ∈ catalog.constraints) (hprimary : p.IsPrimaryKeyOf schema table)
    (honly : ∀ p' ∈ catalog.constraints, p'.IsPrimaryKeyOf schema table → p' = p)
    {x : String × Reference} (hcolumns : p.columns = [x]) (columns : List ColumnInfo) :
    discoverPrimaryKey catalog table schema columns = x.1 := by
  obtain ⟨names, hnames⟩ : ∃ names,
      catalog.tableConstraints schema table .primaryKey = some names := ⟨_, if_pos htc⟩
  have hmem : ∀ name, name ∈ names ↔ name = p.constraint_name := by
    intro name
    rw [← Option.some.inj ((if_pos htc).symm.trans hnames)]
    constructor
    · intro hname
      obtain ⟨p', hp', rfl⟩ := List.mem_map.mp hname
      obtain ⟨hp', hfilter⟩ := List.mem_filter.mp hp'
      rw [honly p' hp' (of_decide_eq_true hfilter)]
    · rintro rfl
      exact List.mem_map_of_mem (List.mem_filter.mpr ⟨hp, decide_eq_true hprimary⟩)
  obtain ⟨rows, hrows⟩ : ∃ rows, catalog.keyColumnUsage schema table names = some rows :=
    ⟨_, if_pos hkcu⟩
  have hperm := List.perm_insertionSort (fun a b => a.ordinal_position ≤ b.ordinal_position)
    ((catalog.constraints.filter fun c => c.table_schema = schema ∧ c.table_name = table ∧
      c.constraint_name ∈ names).flatMap InformationSchema.keyColumns)
  rw [Option.some.inj ((if_pos hkcu).symm.trans hrows)] at hperm
  -- every row is the column of `p`, and there is one
  have hcolumn : ∀ row ∈ rows, row.column_name = x.1 := by
    intro row hrow
    obtain ⟨c, hc, hrow⟩ := List.mem_flatMap.mp (hperm.mem_iff.mp hrow)
    obtain ⟨hc, hfilter⟩ := List.mem_filter.mp hc
    obtain ⟨hschema, htable, hname⟩ := of_decide_eq_true hfilter
    obtain rfl : c = p := hunique c hc p hp (hschema.trans hprimary.1.symm)
      (htable.trans hprimary.2.1.symm) ((hmem _).mp hname)
    obtain ⟨-, hrow⟩ := mem_keyColumns hrow
    rw [hcolumns] at hrow
    exact List.mem_singleton.mp hrow
  have hne : rows ≠ [] := by
    obtain ⟨row, hrow, -⟩ := exists_keyColumn (c := p) (hcolumns ▸ List.mem_singleton_self x)
    refine List.ne_nil_of_mem (hperm.mem_iff.mpr (List.mem_flatMap.mpr ⟨p, ?_, hrow⟩))
    exact List.mem_filter.mpr ⟨hp, decide_eq_true ⟨hprimary.1, hprimary.2.1, (hmem _).mpr rfl⟩⟩
  rw [discoverPrimaryKey, hnames]
  cases names with
  | nil => exact absurd ((hmem p.constraint_name).mpr rfl) List.not_mem_nil
  | cons name names =>
      dsimp only
      rw [hrows]
      cases rows with
      | nil => exact absurd rfl hne
      | cons row rows => exact hcolumn row List.mem_cons_self

/-- The last row of a name that only one constraint bears, of one column, is its reference. -/
theorem exists_lastUsed_of_single {constraints : List Constraint}
    (a : ForeignKeyAnswers constraints schema table) {ccu : List UsedColumn}
    (hccu : a.usedColumns = some ccu) {c : Constraint} (hc : c ∈ constraints)
    (hfk : c.IsForeignKeyOf schema table) {x : String × Reference} (hcolumns : c.columns = [x])
    (hname : ∀ c' ∈ constraints, c'.constraint_name = c.constraint_name → c' = c) :
    ∃ row, lastUsed ccu c.constraint_name = some row ∧ row.reference = x.2 := by
  have hperm := a.usedColumns_perm ccu hccu
  have hown : (⟨c.constraint_name, x.2.table, x.2.column⟩ : UsedColumn) ∈ ccu := by
    refine hperm.mem_iff.mpr (List.mem_flatMap.mpr ⟨c, ?_, ?_⟩)
    · exact List.mem_filter.mpr ⟨hc, decide_eq_true (mem_foreignKeyNames.mpr ⟨c, hc, hfk, rfl⟩)⟩
    · rw [Constraint.usedColumns, hcolumns]
      exact List.mem_singleton_self _
  obtain ⟨row, hrow⟩ := exists_lastUsed hown
  refine ⟨row, hrow, ?_⟩
  obtain ⟨hmem, hrowName⟩ := mem_of_lastUsed hrow
  obtain ⟨c', hc', hused⟩ := List.mem_flatMap.mp (hperm.mem_iff.mp hmem)
  rw [Constraint.usedColumns, hname c' (List.mem_filter.mp hc').1 ?_, hcolumns] at hused
  · rw [List.mem_singleton.mp hused]
    rfl
  · obtain ⟨z, -, rfl⟩ := List.mem_map.mp hused
    exact hrowName

/-- The catalog can be read: none of its three views is out of reach. -/
structure InformationSchema.Readable (catalog : InformationSchema) : Prop where
  tableConstraints : catalog.tableConstraintsReadable = true
  keyColumnUsage : catalog.keyColumnUsageReadable = true
  constraintColumnUsage : catalog.constraintColumnUsageReadable = true

variable (catalog schema table) in
/-- The catalog declares the key by a constraint of one column with a name of its own, and by no
other. -/
def DeclaresAlone (fk : ForeignKey) : Prop :=
  ∃ c ∈ catalog.constraints, c.IsForeignKeyOf schema table ∧
    c.columns = [(fk.column, fk.references)] ∧
    (∀ c' ∈ catalog.constraints, c'.constraint_name = c.constraint_name → c' = c) ∧
    ∀ c' ∈ catalog.constraints, c'.IsForeignKeyOf schema table →
      fk.column ∈ c'.columns.map Prod.fst → c' = c

/-- **A key of one column** with a name of its own is discovered for its column. -/
theorem keyFor_discoverForeignKeys (hunique : NamesUnique catalog.constraints)
    (hread : catalog.Readable) {fk : ForeignKey}
    (hdeclared : DeclaresAlone catalog schema table fk) :
    keyFor (discoverForeignKeys catalog table schema) fk.column = some fk := by
  obtain ⟨c, hc, hfk, hcolumns, hname, honly⟩ := hdeclared
  obtain ⟨names, hnames⟩ : ∃ names,
      (catalog.foreignKeyAnswers schema table).tableConstraints = some names :=
    ⟨_, if_pos hread.tableConstraints⟩
  obtain ⟨kcu, hkcu⟩ : ∃ kcu, (catalog.foreignKeyAnswers schema table).keyColumns = some kcu :=
    ⟨_, if_pos hread.keyColumnUsage⟩
  obtain ⟨ccu, hccu⟩ : ∃ ccu, (catalog.foreignKeyAnswers schema table).usedColumns = some ccu :=
    ⟨_, if_pos hread.constraintColumnUsage⟩
  have hmem : ∀ fk', fk' ∈ discoverForeignKeys catalog table schema ↔
      ∃ c ∈ catalog.constraints, c.IsForeignKeyOf schema table ∧
        fk'.column ∈ c.columns.map Prod.fst ∧
        ∃ row, lastUsed ccu c.constraint_name = some row ∧ row.reference = fk'.references := by
    intro fk'
    rw [InformationSchema.discoverForeignKeys_eq]
    exact ForeignKeyAnswers.mem_foreignKeysOf hunique _ hnames hkcu hccu
  obtain ⟨row, hrow, href⟩ := exists_lastUsed_of_single _ hccu hc hfk hcolumns hname
  have hin : fk ∈ discoverForeignKeys catalog table schema :=
    (hmem fk).mpr ⟨c, hc, hfk, by rw [hcolumns]; exact List.mem_singleton_self _, row, hrow, href⟩
  have hsame : ∀ fk' ∈ discoverForeignKeys catalog table schema, fk'.column = fk.column →
      fk' = fk := by
    intro fk' hfk' hcolumn
    obtain ⟨c', hc', hfk'', hin', row', hrow', href'⟩ := (hmem fk').mp hfk'
    obtain rfl := honly c' hc' hfk'' (hcolumn ▸ hin')
    obtain rfl := Option.some.inj (hrow.symm.trans hrow')
    obtain ⟨column, references⟩ := fk'
    obtain rfl : column = fk.column := hcolumn
    obtain rfl : references = fk.references := href'.symm.trans href
    rfl
  obtain ⟨fk', hfk'⟩ := Option.isSome_iff_exists.mp (isSome_keyFor_iff.mpr
    (List.mem_map_of_mem (f := ForeignKey.column) hin))
  rw [hfk']
  rw [keyFor] at hfk'
  exact congrArg some (hsame fk' (List.mem_reverse.mp (List.mem_of_find?_eq_some hfk'))
    (by simpa using List.find?_some hfk'))

end Discovery

/-! ### The source database -/

/-- What the script can ask of the source database. Names of columns are not empty. -/
structure Database where
  catalog : InformationSchema
  schema : String
  answers : String → ColumnAnswers
  answers_ne : ∀ table, ∀ columns ∈ (answers table).informationSchema, ∀ c ∈ columns,
    c.column_name ≠ ""
  constraints_ne : ∀ c ∈ catalog.constraints, ∀ x ∈ c.columns, x.1 ≠ ""

/-- The columns that are found are named. -/
theorem discoverColumns_ne {table : String} {answers : ColumnAnswers}
    (hanswers : ∀ columns ∈ answers.informationSchema, ∀ c ∈ columns, c.column_name ≠ "")
    {columns : List ColumnInfo} (h : discoverColumns table answers = some columns) :
    ∀ c ∈ columns, c.column_name ≠ "" := by
  rw [discoverColumns] at h
  dsimp only at h
  split at h
  next hforced =>
    obtain rfl := Option.some.inj h
    obtain ⟨manual, hmanual⟩ := Option.isSome_iff_exists.mp hforced.2
    have hnamed : ∀ x ∈ MANUAL_TABLE_COLUMNS, ∀ name ∈ x.2, name ≠ "" := by decide
    intro c hc
    obtain ⟨name, hname, rfl⟩ := List.mem_map.mp hc
    rw [hmanual, Option.getD_some] at hname
    obtain ⟨before, after, hlist, -⟩ := List.lookup_eq_some_iff.mp hmanual
    exact hnamed (table, manual) (by rw [hlist]; simp) name hname
  next =>
    split at h
    next column rest hinformation =>
      obtain rfl := Option.some.inj h
      exact hanswers _ hinformation
    next =>
      split at h
      next => cases h
      next =>
        obtain rfl := Option.some.inj h
        intro c hc
        obtain ⟨name, hname, rfl⟩ := List.mem_map.mp hc
        exact (restColumnNames_trimmed hname).1

/-- The primary key of a table with columns is named. -/
theorem discoverPrimaryKey_ne {catalog : InformationSchema}
    (hconstraints : ∀ c ∈ catalog.constraints, ∀ x ∈ c.columns, x.1 ≠ "") (table schema : String)
    {columns : List ColumnInfo} (hne : columns ≠ []) (hnamed : ∀ c ∈ columns, c.column_name ≠ "") :
    discoverPrimaryKey catalog table schema columns ≠ "" := by
  have hfallback : (if columns.any (fun c => c.column_name = "id") then "id"
      else (columns.head?.map ColumnInfo.column_name).getD "") ≠ "" := by
    split
    · decide
    · obtain ⟨c, rest, rfl⟩ := List.exists_cons_of_ne_nil hne
      exact hnamed c List.mem_cons_self
  rw [discoverPrimaryKey]
  split
  next n ns _ =>
    split
    next row rows hrows =>
      rw [InformationSchema.keyColumnUsage] at hrows
      split at hrows
      next =>
        have hrow : row ∈ row :: rows := List.mem_cons_self
        rw [← Option.some.inj hrows, (List.perm_insertionSort _ _).mem_iff] at hrow
        obtain ⟨c, hc, hrow⟩ := List.mem_flatMap.mp hrow
        obtain ⟨x, hx, hname⟩ := List.mem_map.mp (mem_keyColumns hrow).2
        exact hname ▸ hconstraints c (List.mem_filter.mp hc).1 x hx
      next => cases hrows
    next => exact hfallback
  next => exact hfallback

namespace Database

variable (db : Database)

/-- The columns of a table; there are none where `discoverColumns` throws. -/
def columns (table : String) : List ColumnInfo := (discoverColumns table (db.answers table)).getD []

/-- Every column of the file has a name. -/
theorem columns_ne {table : String} : ∀ c ∈ db.columns table, c.column_name ≠ "" := by
  rw [columns]
  cases h : discoverColumns table (db.answers table) with
  | none => rintro _ ⟨⟩
  | some columns => exact discoverColumns_ne (db.answers_ne table) h

/-- What `buildTablePlan` discovers of a table with columns. -/
def discover (table : String) : Option TableDiscovery :=
  if h : db.columns table = [] then none
  else
    some
      { columns := db.columns table
        primaryKey := discoverPrimaryKey db.catalog table db.schema (db.columns table)
        autoForeignKeys := discoverForeignKeys db.catalog table db.schema
        primaryKey_ne := discoverPrimaryKey_ne db.constraints_ne table db.schema h db.columns_ne }

/-- The plans of a migration from the database. -/
def plans [LetterCase] (tables : List String) (htables : tables.Nodup)
    (manual : String → List ForeignKey) : MigrationPlan :=
  buildPlans tables htables manual db.discover

/-- A key that makes its way into the plan: it is declared alone, by a column that is found and is
not the primary key, to the one column of the primary key of a table that is migrated; and it is
neither replaced by hand nor by a guess. -/
structure Survives [LetterCase] (tables : List String) (manual : String → List ForeignKey)
    (table : String) (fk : ForeignKey) : Prop where
  declared : DeclaresAlone db.catalog db.schema table fk
  column : fk.column ∈ (db.columns table).map ColumnInfo.column_name
  notKey : fk.column ≠ discoverPrimaryKey db.catalog table db.schema (db.columns table)
  manual : keyFor (manual table) fk.column = none
  guess : ∀ found ∈ db.discover table,
    ∀ guess ∈ keyFor (guessedKeys tables table found) fk.column, guess = fk
  referenced : fk.references.table ∈ tables ∧ db.columns fk.references.table ≠ []
  primary : ∃ p ∈ db.catalog.constraints, p.IsPrimaryKeyOf db.schema fk.references.table ∧
    (∀ p' ∈ db.catalog.constraints, p'.IsPrimaryKeyOf db.schema fk.references.table → p' = p) ∧
    p.columns.map Prod.fst = [fk.references.column]

end Database

/-! ### From the catalog to the records -/

section Migration

variable [LetterCase]

variable {db : Database} {tables : List String} {manual : String → List ForeignKey}
  {table : String}

/-- A table that is listed once and has columns is planned, with the columns, the primary key and
the foreign keys that were discovered for it. -/
theorem Database.exists_plan (htables : tables.Nodup) (manual : String → List ForeignKey)
    (ht : table ∈ tables) (hcolumns : db.columns table ≠ []) :
    ∃ plan ∈ (db.plans tables htables manual).plans, plan.table = table ∧
      plan.primaryKey = discoverPrimaryKey db.catalog table db.schema (db.columns table) ∧
      ∃ found ∈ db.discover table, found.columns = db.columns table ∧
        found.autoForeignKeys = discoverForeignKeys db.catalog table db.schema ∧
        buildTablePlan tables manual (buildTableToCollectionNameMap tables) table found =
          some plan := by
  obtain ⟨found, hfound, hfc, hfp, hfa⟩ : ∃ found, db.discover table = some found ∧
      found.columns = db.columns table ∧
      found.primaryKey = discoverPrimaryKey db.catalog table db.schema (db.columns table) ∧
      found.autoForeignKeys = discoverForeignKeys db.catalog table db.schema :=
    ⟨_, dif_neg hcolumns, rfl, rfl, rfl⟩
  obtain ⟨plan, hplan⟩ : ∃ plan, buildTablePlan tables manual
      (buildTableToCollectionNameMap tables) table found = some plan :=
    ⟨_, if_neg (hfc ▸ hcolumns)⟩
  obtain ⟨htable, -, hprimary, -⟩ := buildTablePlan_spec hplan
  refine ⟨plan, List.mem_filterMap.mpr ⟨table, ht, ?_⟩, htable, hprimary.trans hfp, found, hfound,
    hfc, hfa, hplan⟩
  rw [hfound]
  exact hplan

/-- A key that survives is the key of its column in the plan. -/
theorem Database.Survives.exists_column {fk : ForeignKey}
    (hunique : NamesUnique db.catalog.constraints) (hread : db.catalog.Readable)
    (h : db.Survives tables manual table fk) {found : TableDiscovery} {plan : TablePlan}
    (hfound : found ∈ db.discover table) (hcolumns : found.columns = db.columns table)
    (hauto : found.autoForeignKeys = discoverForeignKeys db.catalog table db.schema)
    (hprimary : plan.primaryKey =
      discoverPrimaryKey db.catalog table db.schema (db.columns table))
    (hplan : buildTablePlan tables manual (buildTableToCollectionNameMap tables) table found =
      some plan) :
    ∃ col ∈ plan.columnPlans, col.sourceColumn = fk.column ∧
      ∃ pfk, col.fk = some pfk ∧ pfk.references = fk.references := by
  have hkey : (plan.keyOf fk.column).map PlannedForeignKey.toForeignKey = some fk := by
    rw [TablePlan.keyOf_eq hplan, h.manual, hauto,
      keyFor_discoverForeignKeys hunique hread h.declared, Option.none_or]
    cases hguess : keyFor (guessedKeys tables table found) fk.column with
    | none => rfl
    | some guess => rw [h.guess found hfound guess hguess]; rfl
  obtain ⟨pfk, hpfk, href⟩ := Option.map_eq_some_iff.mp hkey
  obtain ⟨info, hinfo, hname⟩ := List.mem_map.mp (hcolumns ▸ h.column)
  have hspec := buildTablePlan_columnPlans hplan
  have hfoundPrimary := (buildTablePlan_spec hplan).2.2.1
  obtain ⟨col, hcol, hsource⟩ :
      ∃ col ∈ plan.columnPlans, col.sourceColumn = info.column_name := by
    rw [hspec]
    exact exists_mem_planColumns hinfo fun heq =>
      h.notKey (hname.symm.trans (heq.trans (hfoundPrimary.symm.trans hprimary)))
  refine ⟨col, hcol, hsource.trans hname, pfk, ?_, by rw [← href]; rfl⟩
  rw [hspec] at hcol
  rw [(mem_planColumns hcol).2.1, hsource, hname]
  exact hpfk

end Migration

/-! ### A database of notes -/

section Example

attribute [local instance] asciiLetterCase

/-- Users and their notes, each with an `id`; the owner of a note is declared to be a user. -/
def notesDatabase : Database where
  catalog :=
    { constraints :=
        [⟨"public", "users", "users_pkey", .primaryKey, [("id", ⟨"users", "id"⟩)]⟩,
          ⟨"public", "notes", "notes_pkey", .primaryKey, [("id", ⟨"notes", "id"⟩)]⟩,
          ⟨"public", "notes", "notes_owner_fkey", .foreignKey, [("owner", ⟨"users", "id"⟩)]⟩]
      tableConstraintsReadable := true
      keyColumnUsageReadable := true
      constraintColumnUsageReadable := true }
  schema := "public"
  answers table :=
    ⟨some ([⟨"id", some "text", none⟩] ++
      if table = "notes" then [⟨"owner", some "text", none⟩] else []), none, none⟩
  answers_ne := by
    intro table columns hcolumns c hc
    obtain rfl := Option.some.inj hcolumns
    split at hc
    all_goals revert c; decide
  constraints_ne := by decide

/-- The key of the owner makes its way into the plan. -/
theorem notesDatabase_survives :
    notesDatabase.Survives ["users", "notes"] (fun _ => []) "notes" ⟨"owner", ⟨"users", "id"⟩⟩ where
  declared := by
    refine ⟨⟨"public", "notes", "notes_owner_fkey", .foreignKey, [("owner", ⟨"users", "id"⟩)]⟩, ?_⟩
    decide
  column := by decide
  notKey := by decide
  manual := rfl
  guess := by decide
  referenced := by decide
  primary := by
    refine ⟨⟨"public", "users", "users_pkey", .primaryKey, [("id", ⟨"users", "id"⟩)]⟩, ?_⟩
    decide

end Example

end Mogo
