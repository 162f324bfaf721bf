import Mogo.Discovery

/-!
# Declared Foreign Keys

`discoverForeignKeys` asks the catalog three questions: which foreign-key constraints the table
has, which columns these constraints are made of, and which columns the constraints of these names
use. It joins the answers by the name of the constraint alone, through a map that keeps the last
row of a name. A name may occur in several tables, and a constraint may have several columns, so
the row that is kept need not be the one a key column refers to.

The rows of an answer come in any order the query allows; only the key columns are sorted, by
their ordinal position.

## Main results

* `mem_foreignKeysOf`: what is returned, from the last row of each name.
* `exactKeys_iff`: when exactly the declared pairs are returned.
* `lastRowsDeclared_of_single`: single-column constraints with names of their own are enough.
-/

namespace Mogo

/-- `discoverForeignKeys`, from the answers to its three queries; `none` is a failed query. -/
def foreignKeysOf (tableConstraints : Option (List String)) (keyColumns : Option (List KeyColumn))
    (usedColumns : Option (List UsedColumn)) : List ForeignKey :=
  match tableConstraints with
  | none => []
  | some [] => []
  | some (_ :: _) =>
    match keyColumns, usedColumns with
    | some kcu, some ccu =>
      let refsByConstraint : String → Option UsedColumn :=
        ccu.foldl (fun m row => Function.update m row.constraint_name (some row)) fun _ => none
      kcu.filterMap fun row =>
        (refsByConstraint row.constraint_name).map fun target =>
          ⟨row.column_name, ⟨target.table_name, target.column_name⟩⟩
    | _, _ => []

/-- With a failed query there are no keys. -/
theorem foreignKeysOf_of_failed {tableConstraints : Option (List String)}
    {keyColumns : Option (List KeyColumn)} {usedColumns : Option (List UsedColumn)}
    (h : tableConstraints = none ∨ keyColumns = none ∨ usedColumns = none) :
    foreignKeysOf tableConstraints keyColumns usedColumns = [] := by
  rcases tableConstraints with - | - | ⟨name, names⟩
  · rfl
  · rfl
  · rcases h with h | rfl | rfl
    · exact absurd h (by simp)
    · rfl
    · cases keyColumns <;> rfl

/-- The constraint is a foreign key of the table. -/
def Constraint.IsForeignKeyOf (schema table : String) (c : Constraint) : Prop :=
  c.table_schema = schema ∧ c.table_name = table ∧ c.constraint_type = .foreignKey

instance (schema table : String) (c : Constraint) : Decidable (c.IsForeignKeyOf schema table) :=
  inferInstanceAs (Decidable (_ ∧ _ ∧ _))

/-- The column and the reference of a used column. -/
def UsedColumn.reference (row : UsedColumn) : Reference := ⟨row.table_name, row.column_name⟩

/-- The rows of `constraint_column_usage` for one constraint. -/
def Constraint.usedColumns (c : Constraint) : List UsedColumn :=
  c.columns.map fun x => ⟨c.constraint_name, x.2.table, x.2.column⟩

section Catalog

variable (constraints : List Constraint) (schema table : String)

/-- The names of the foreign keys of a table. -/
def foreignKeyNames : List String :=
  (constraints.filter fun c => c.IsForeignKeyOf schema table).map Constraint.constraint_name

/-- The answers of a database with these constraints to the three queries for a table. -/
structure ForeignKeyAnswers where
  tableConstraints : Option (List String)
  keyColumns : Option (List KeyColumn)
  usedColumns : Option (List UsedColumn)
  tableConstraints_perm : ∀ names, tableConstraints = some names →
    names.Perm (foreignKeyNames constraints schema table)
  keyColumns_perm : ∀ rows, keyColumns = some rows → rows.Perm
    ((constraints.filter fun c => c.table_schema = schema ∧ c.table_name = table ∧
      c.constraint_name ∈ foreignKeyNames constraints schema table).flatMap
        InformationSchema.keyColumns)
  keyColumns_sorted : ∀ rows, keyColumns = some rows →
    rows.Pairwise fun a b => a.ordinal_position ≤ b.ordinal_position
  usedColumns_perm : ∀ rows, usedColumns = some rows → rows.Perm
    ((constraints.filter fun c =>
      c.constraint_name ∈ foreignKeyNames constraints schema table).flatMap
        Constraint.usedColumns)

/-- No two constraints of a table share a name. -/
def NamesUnique : Prop :=
  ∀ c ∈ constraints, ∀ c' ∈ constraints, c.table_schema = c'.table_schema →
    c.table_name = c'.table_name → c.constraint_name = c'.constraint_name → c = c'

/-- A foreign key of the table declares the pair: the column, and what it refers to. -/
def Declares (fk : ForeignKey) : Prop :=
  ∃ c ∈ constraints, c.IsForeignKeyOf schema table ∧ (fk.column, fk.references) ∈ c.columns

/-- The keys are exactly the declared ones. -/
def ExactKeys (keys : List ForeignKey) : Prop :=
  ∀ fk, fk ∈ keys ↔ Declares constraints schema table fk

end Catalog

/-! ### The last row of a name -/

/-- The last row of a constraint name. -/
def lastUsed (rows : List UsedColumn) (name : String) : Option UsedColumn :=
  rows.reverse.find? fun row => row.constraint_name = name

/-- The map of the script holds the last row of each name. -/
theorem foldl_refsByConstraint (rows : List UsedColumn) (m : String → Option UsedColumn)
    (name : String) :
    rows.foldl (fun (m : String → Option UsedColumn) row =>
        Function.update m row.constraint_name (some row)) m name =
      (lastUsed rows name).or (m name) := by
  induction rows generalizing m with
  | nil => rfl
  | cons row rows ih =>
      rw [List.foldl_cons, ih, lastUsed, lastUsed, List.reverse_cons, List.find?_append,
        Option.or_assoc, List.find?_singleton]
      by_cases hname : row.constraint_name = name
      · rw [hname, Function.update_self]
        simp
      · rw [Function.update_of_ne (Ne.symm hname)]
        simp [hname]

/-- The last row of a name is a row of that name. -/
theorem mem_of_lastUsed {rows : List UsedColumn} {name : String} {row : UsedColumn}
    (h : lastUsed rows name = some row) : row ∈ rows ∧ row.constraint_name = name :=
  ⟨List.mem_reverse.mp (List.mem_of_find?_eq_some h), by simpa using List.find?_some h⟩

/-- The walk over the used columns leaves every constraint name with the last of its rows. -/
theorem exists_lastUsed {rows : List UsedColumn} {row : UsedColumn} (h : row ∈ rows) :
    ∃ last, lastUsed rows row.constraint_name = some last :=
  Option.isSome_iff_exists.mp (List.find?_isSome.mpr
    ⟨row, List.mem_reverse.mpr h, decide_eq_true rfl⟩)

/-! ### What is returned -/

section Answers

variable {constraints : List Constraint} {schema table : String}

/-- The names in the catalog are those of the foreign keys of the table, and no others. -/
theorem mem_foreignKeyNames {name : String} :
    name ∈ foreignKeyNames constraints schema table ↔
      ∃ c ∈ constraints, c.IsForeignKeyOf schema table ∧ c.constraint_name = name := by
  simp only [foreignKeyNames, List.mem_map, List.mem_filter, decide_eq_true_eq, and_assoc]

/-- The key columns of a constraint are its columns. -/
theorem mem_keyColumns {c : Constraint} {row : KeyColumn}
    (h : row ∈ InformationSchema.keyColumns c) :
    row.constraint_name = c.constraint_name ∧ row.column_name ∈ c.columns.map Prod.fst := by
  obtain ⟨x, hx, rfl⟩ := List.mem_map.mp h
  exact ⟨rfl, List.mem_map_of_mem (List.fst_mem_of_mem_zipIdx hx)⟩

/-- Every column of a constraint is one of its key columns. -/
theorem exists_keyColumn {c : Constraint} {x : String × Reference} (h : x ∈ c.columns) :
    ∃ row ∈ InformationSchema.keyColumns c,
      row.constraint_name = c.constraint_name ∧ row.column_name = x.1 := by
  have hfst : x ∈ (c.columns.zipIdx 1).map Prod.fst := by rwa [List.zipIdx_map_fst]
  obtain ⟨y, hy, rfl⟩ := List.mem_map.mp hfst
  exact ⟨_, List.mem_map_of_mem hy, rfl, rfl⟩

variable (hunique : NamesUnique constraints) (a : ForeignKeyAnswers constraints schema table)
include hunique

/-- The key columns in an answer are those of the foreign keys of the table. -/
theorem ForeignKeyAnswers.mem_keyColumns_iff {kcu : List KeyColumn} (hkcu : a.keyColumns = some kcu)
    {name column : String} :
    (∃ row ∈ kcu, row.constraint_name = name ∧ row.column_name = column) ↔
      ∃ c ∈ constraints, c.IsForeignKeyOf schema table ∧ c.constraint_name = name ∧
        column ∈ c.columns.map Prod.fst := by
  have hperm := a.keyColumns_perm kcu hkcu
  constructor
  · rintro ⟨row, hrow, rfl, rfl⟩
    obtain ⟨c, hc, hrow⟩ := List.mem_flatMap.mp (hperm.mem_iff.mp hrow)
    obtain ⟨hc, hfilter⟩ := List.mem_filter.mp hc
    obtain ⟨hschema, htable, hname⟩ := of_decide_eq_true hfilter
    obtain ⟨c', hc', hfk, hname'⟩ := mem_foreignKeyNames.mp hname
    obtain rfl : c' = c := hunique c' hc' c hc (hfk.1.trans hschema.symm)
      (hfk.2.1.trans htable.symm) hname'
    exact ⟨c', hc, hfk, (mem_keyColumns hrow).1.symm, (mem_keyColumns hrow).2⟩
  · rintro ⟨c, hc, hfk, rfl, hcolumn⟩
    obtain ⟨x, hx, rfl⟩ := List.mem_map.mp hcolumn
    obtain ⟨row, hrow, hrow'⟩ := exists_keyColumn hx
    refine ⟨row, hperm.mem_iff.mpr (List.mem_flatMap.mpr ⟨c, List.mem_filter.mpr ⟨hc, ?_⟩, hrow⟩),
      hrow'⟩
    exact decide_eq_true ⟨hfk.1, hfk.2.1, mem_foreignKeyNames.mpr ⟨c, hc, hfk, rfl⟩⟩

/-- **What is returned**: every column of every foreign key of the table, with the last used
column of the constraint's name. -/
theorem ForeignKeyAnswers.mem_foreignKeysOf {names : List String}
    (hnames : a.tableConstraints = some names) {kcu : List KeyColumn}
    (hkcu : a.keyColumns = some kcu) {ccu : List UsedColumn} (hccu : a.usedColumns = some ccu)
    {fk : ForeignKey} :
    fk ∈ foreignKeysOf a.tableConstraints a.keyColumns a.usedColumns ↔
      ∃ c ∈ constraints, c.IsForeignKeyOf schema table ∧ fk.column ∈ c.columns.map Prod.fst ∧
        ∃ row, lastUsed ccu c.constraint_name = some row ∧ row.reference = fk.references := by
  have hjoin : fk ∈ kcu.filterMap (fun row => (lastUsed ccu row.constraint_name).map fun target =>
        (⟨row.column_name, ⟨target.table_name, target.column_name⟩⟩ : ForeignKey)) ↔
      ∃ c ∈ constraints, c.IsForeignKeyOf schema table ∧ fk.column ∈ c.columns.map Prod.fst ∧
        ∃ row, lastUsed ccu c.constraint_name = some row ∧ row.reference = fk.references := by
    rw [List.mem_filterMap]
    constructor
    · rintro ⟨row, hrow, hfk⟩
      obtain ⟨used, hused, rfl⟩ := Option.map_eq_some_iff.mp hfk
      obtain ⟨c, hc, hcfk, hname, hcolumn⟩ :=
        (a.mem_keyColumns_iff hunique hkcu).mp ⟨row, hrow, rfl, rfl⟩
      exact ⟨c, hc, hcfk, hcolumn, used, hname ▸ hused, rfl⟩
    · rintro ⟨c, hc, hcfk, hcolumn, used, hused, href⟩
      obtain ⟨row, hrow, hname, hcol⟩ :=
        (a.mem_keyColumns_iff hunique hkcu).mpr ⟨c, hc, hcfk, rfl, hcolumn⟩
      refine ⟨row, hrow, ?_⟩
      rw [hname, hused, hcol, Option.map_some]
      exact congrArg (fun r => some (ForeignKey.mk fk.column r)) href
  rw [hnames, hkcu, hccu]
  cases names with
  | nil =>
      have hempty : foreignKeyNames constraints schema table = [] :=
        List.nil_perm.mp (a.tableConstraints_perm [] hnames)
      constructor
      · exact fun h => absurd h List.not_mem_nil
      · rintro ⟨c, hc, hfk, -⟩
        have hname : c.constraint_name ∈ foreignKeyNames constraints schema table :=
          mem_foreignKeyNames.mpr ⟨c, hc, hfk, rfl⟩
        exact absurd (hempty ▸ hname) List.not_mem_nil
  | cons name names =>
      rw [foreignKeysOf]
      simp only [foldl_refsByConstraint, Option.or_none]
      exact hjoin

/-- The last row of each constraint name is declared for the columns of the constraint, and every
declared reference is the last row of a constraint on its column. -/
def LastRowsDeclared (constraints : List Constraint) (schema table : String)
    (ccu : List UsedColumn) : Prop :=
  ∀ c ∈ constraints, c.IsForeignKeyOf schema table → ∀ x ∈ c.columns,
    (∀ row, lastUsed ccu c.constraint_name = some row →
      Declares constraints schema table ⟨x.1, row.reference⟩) ∧
    ∃ c' ∈ constraints, c'.IsForeignKeyOf schema table ∧ x.1 ∈ c'.columns.map Prod.fst ∧
      ∃ row, lastUsed ccu c'.constraint_name = some row ∧ row.reference = x.2

/-- **When discovered foreign keys are exact.** The script returns exactly the declared pairs if
and only if the table declares none, or the three queries are answered and the last rows of the
constraint names are the declared references. -/
theorem exactKeys_iff :
    ExactKeys constraints schema table
        (foreignKeysOf a.tableConstraints a.keyColumns a.usedColumns) ↔
      (∀ fk, ¬ Declares constraints schema table fk) ∨
        ∃ ccu, a.tableConstraints.isSome = true ∧ a.keyColumns.isSome = true ∧
          a.usedColumns = some ccu ∧ LastRowsDeclared constraints schema table ccu := by
  by_cases hanswered : a.tableConstraints = none ∨ a.keyColumns = none ∨ a.usedColumns = none
  · rw [foreignKeysOf_of_failed hanswered]
    constructor
    · exact fun hexact => Or.inl fun fk hfk => absurd ((hexact fk).mpr hfk) List.not_mem_nil
    · rintro (hnone | ⟨ccu, hnames, hkcu, hccu, -⟩)
      · exact fun fk => ⟨fun h => absurd h List.not_mem_nil, fun hfk => absurd hfk (hnone fk)⟩
      · rcases hanswered with h | h | h
        · rw [h] at hnames
          exact absurd hnames Bool.false_ne_true
        · rw [h] at hkcu
          exact absurd hkcu Bool.false_ne_true
        · exact absurd (h.symm.trans hccu) (by simp)
  · simp only [not_or, Option.ne_none_iff_exists'] at hanswered
    obtain ⟨⟨names, hnames⟩, ⟨kcu, hkcu⟩, ccu, hccu⟩ := hanswered
    have hmem := @ForeignKeyAnswers.mem_foreignKeysOf _ _ _ hunique a _ hnames _ hkcu _ hccu
    constructor
    · intro hexact
      refine Or.inr ⟨ccu, hnames ▸ rfl, hkcu ▸ rfl, hccu, fun c hc hfk x hx =>
        ⟨fun row hrow => ?_, ?_⟩⟩
      · exact (hexact _).mp (hmem.mpr ⟨c, hc, hfk, List.mem_map_of_mem hx, row, hrow, rfl⟩)
      · exact hmem.mp ((hexact ⟨x.1, x.2⟩).mpr ⟨c, hc, hfk, hx⟩)
    · rintro (hnone | ⟨ccu', -, -, hccu', hlast⟩) fk
      · rw [hmem]
        refine ⟨fun ⟨c, hc, hfk, hcolumn, _⟩ => ?_, fun hfk => absurd hfk (hnone fk)⟩
        obtain ⟨x, hx, -⟩ := List.mem_map.mp hcolumn
        exact absurd ⟨c, hc, hfk, hx⟩ (hnone ⟨x.1, x.2⟩)
      · obtain rfl : ccu = ccu' := Option.some.inj (hccu.symm.trans hccu')
        rw [hmem]
        constructor
        · rintro ⟨c, hc, hfk, hcolumn, row, hrow, href⟩
          obtain ⟨x, hx, hxc⟩ := List.mem_map.mp hcolumn
          have hdeclares := (hlast c hc hfk x hx).1 row hrow
          rwa [hxc, href] at hdeclares
        · rintro ⟨c, hc, hfk, hx⟩
          exact (hlast c hc hfk _ hx).2

omit hunique in
/-- A foreign key of one column whose name no other constraint bears is returned as it is
declared. -/
theorem lastRowsDeclared_of_single {ccu : List UsedColumn} (hccu : a.usedColumns = some ccu)
    (hsingle : ∀ c ∈ constraints, c.IsForeignKeyOf schema table → c.columns.length = 1 ∧
      ∀ c' ∈ constraints, c'.constraint_name = c.constraint_name → c' = c) :
    LastRowsDeclared constraints schema table ccu := by
  intro c hc hfk x hx
  obtain ⟨hlength, hname⟩ := hsingle c hc hfk
  obtain ⟨y, hcolumns⟩ := List.length_eq_one_iff.mp hlength
  obtain rfl : x = y := List.mem_singleton.mp (hcolumns ▸ hx)
  -- every row of the name is the reference of `x`
  have hrows : ∀ row ∈ ccu, row.constraint_name = c.constraint_name → row.reference = x.2 := by
    intro row hrow hrowName
    obtain ⟨c', hc', hrow'⟩ := List.mem_flatMap.mp ((a.usedColumns_perm ccu hccu).mem_iff.mp hrow)
    obtain ⟨z, hz, rfl⟩ := List.mem_map.mp hrow'
    obtain rfl : c' = c := hname c' (List.mem_filter.mp hc').1 hrowName
    obtain rfl : z = x := List.mem_singleton.mp (hcolumns ▸ hz)
    rfl
  have hown : (⟨c.constraint_name, x.2.table, x.2.column⟩ : UsedColumn) ∈ ccu := by
    refine (a.usedColumns_perm ccu hccu).mem_iff.mpr (List.mem_flatMap.mpr ⟨c, ?_, ?_⟩)
    · exact List.mem_filter.mpr ⟨hc, decide_eq_true (mem_foreignKeyNames.mpr ⟨c, hc, hfk, rfl⟩)⟩
    · exact List.mem_map_of_mem hx
  constructor
  · intro row hrow
    obtain ⟨hmem, hrowName⟩ := mem_of_lastUsed hrow
    rw [hrows row hmem hrowName]
    exact ⟨c, hc, hfk, hx⟩
  · obtain ⟨last, hlast⟩ := exists_lastUsed hown
    obtain ⟨hmem, hlastName⟩ := mem_of_lastUsed hlast
    exact ⟨c, hc, hfk, List.mem_map_of_mem hx, last, hlast, hrows last hmem hlastName⟩

end Answers

/-! ### The answers of a catalog -/

namespace InformationSchema

variable (catalog : InformationSchema) (schema table : String)

/-- The answers computed from the catalog, in its own order. -/
def foreignKeyAnswers : ForeignKeyAnswers catalog.constraints schema table where
  tableConstraints := catalog.tableConstraints schema table .foreignKey
  keyColumns :=
    catalog.keyColumnUsage schema table (foreignKeyNames catalog.constraints schema table)
  usedColumns :=
    catalog.constraintColumnUsage (foreignKeyNames catalog.constraints schema table)
  tableConstraints_perm := by
    intro names h
    rw [tableConstraints] at h
    split at h
    · exact Option.some.inj h ▸ List.Perm.refl _
    · exact absurd h (by simp)
  keyColumns_perm := by
    intro rows h
    rw [keyColumnUsage] at h
    split at h
    · exact Option.some.inj h ▸ List.perm_insertionSort _ _
    · exact absurd h (by simp)
  keyColumns_sorted := by
    intro rows h
    rw [keyColumnUsage] at h
    split at h
    · exact Option.some.inj h ▸ List.pairwise_insertionSort _ _
    · exact absurd h (by simp)
  usedColumns_perm := by
    intro rows h
    rw [constraintColumnUsage] at h
    split at h
    · exact Option.some.inj h ▸ List.Perm.refl _
    · exact absurd h (by simp)

/-- `discoverForeignKeys` on a catalog is the join of the catalog's answers. -/
theorem discoverForeignKeys_eq :
    discoverForeignKeys catalog table schema =
      foreignKeysOf (catalog.foreignKeyAnswers schema table).tableConstraints
        (catalog.foreignKeyAnswers schema table).keyColumns
        (catalog.foreignKeyAnswers schema table).usedColumns := by
  change _ = foreignKeysOf (catalog.tableConstraints schema table .foreignKey)
    (catalog.keyColumnUsage schema table (foreignKeyNames catalog.constraints schema table))
    (catalog.constraintColumnUsage (foreignKeyNames catalog.constraints schema table))
  by_cases hreadable : catalog.tableConstraintsReadable = true
  · have hnames : catalog.tableConstraints schema table .foreignKey =
        some (foreignKeyNames catalog.constraints schema table) := if_pos hreadable
    rw [discoverForeignKeys, hnames]
    cases foreignKeyNames catalog.constraints schema table <;> rfl
  · have hnames : catalog.tableConstraints schema table .foreignKey = none := if_neg hreadable
    rw [discoverForeignKeys, hnames]
    rfl

end InformationSchema

section Example

/-- A composite key of `tickets`, and a constraint name that occurs in two tables. -/
def ticketsCatalog : InformationSchema where
  constraints :=
    [⟨"public", "tickets", "tickets_seat_fkey", .foreignKey,
        [("hall", ⟨"seats", "hall"⟩), ("seat", ⟨"seats", "number"⟩)]⟩,
      ⟨"public", "tickets", "buyer_fkey", .foreignKey, [("buyer", ⟨"User data", "id"⟩)]⟩,
      ⟨"public", "refunds", "buyer_fkey", .foreignKey, [("buyer", ⟨"accounts", "id"⟩)]⟩,
      ⟨"public", "refunds", "refunds_ticket_fkey", .foreignKey, [("ticket", ⟨"tickets", "id"⟩)]⟩]
  tableConstraintsReadable := true
  keyColumnUsageReadable := true
  constraintColumnUsageReadable := true

/-- No table of the example has two constraints of one name. -/
theorem namesUnique_tickets : NamesUnique ticketsCatalog.constraints := by
  unfold NamesUnique
  decide

/-- **Keys to the wrong column and to the wrong table.** Both columns of the composite key are
paired with its last column, and the buyer of a ticket with the table that a key of `refunds`
refers to. -/
theorem not_exactKeys_tickets :
    NamesUnique ticketsCatalog.constraints ∧
      discoverForeignKeys ticketsCatalog "tickets" "public" =
        [⟨"hall", ⟨"seats", "number"⟩⟩, ⟨"buyer", ⟨"accounts", "id"⟩⟩,
          ⟨"seat", ⟨"seats", "number"⟩⟩] ∧
      ¬ ExactKeys ticketsCatalog.constraints "public" "tickets"
        (discoverForeignKeys ticketsCatalog "tickets" "public") := by
  have hkeys : discoverForeignKeys ticketsCatalog "tickets" "public" =
      [⟨"hall", ⟨"seats", "number"⟩⟩, ⟨"buyer", ⟨"accounts", "id"⟩⟩,
        ⟨"seat", ⟨"seats", "number"⟩⟩] := by decide
  refine ⟨namesUnique_tickets, hkeys, fun hexact => ?_⟩
  have hbuyer := (hexact ⟨"buyer", ⟨"User data", "id"⟩⟩).mpr
    ⟨_, List.mem_cons_of_mem _ List.mem_cons_self, ⟨rfl, rfl, rfl⟩, List.mem_cons_self⟩
  rw [hkeys] at hbuyer
  exact absurd hbuyer (by decide)

/-- The key of `refunds` to `tickets`, without the constraint whose name is not its own. -/
def refundsConstraints : List Constraint :=
  [⟨"public", "refunds", "refunds_ticket_fkey", .foreignKey, [("ticket", ⟨"tickets", "id"⟩)]⟩]

/-- A key of one column with a name of its own is discovered. -/
theorem exactKeys_iff_refunds :
    ExactKeys refundsConstraints "public" "refunds"
      (discoverForeignKeys ⟨refundsConstraints, true, true, true⟩ "refunds" "public") := by
  have hunique : NamesUnique refundsConstraints := by
    unfold NamesUnique
    decide
  rw [InformationSchema.discoverForeignKeys_eq]
  refine (exactKeys_iff hunique _).mpr (Or.inr ⟨_, rfl, rfl, rfl, ?_⟩)
  refine lastRowsDeclared_of_single
    (InformationSchema.foreignKeyAnswers ⟨refundsConstraints, true, true, true⟩ "public" "refunds")
    rfl fun c hc _ => ?_
  obtain rfl := List.mem_singleton.mp hc
  exact ⟨rfl, fun c' hc' _ => List.mem_singleton.mp hc'⟩

end Example

end Mogo
