import Mogo.CsvHeader
import Mogo.TypeInference

/-!
# Which Columns Reach a Record

The columns of a plan come from one of several lists, the values from rows that are read later
and hold whatever the table has. A key of a row reaches the record when the list that supplied the
columns has it; a table whose list is forced keeps only the columns of that list.

## Main results

* `normalizeValue_ne_null_iff`, `normalizeOldId_ne_none_iff`: the values that a conversion keeps.
* `Listed.mem_discoverColumns`: every way of listing a key makes it a discovered column.
* `contributes_of_listed`: a listed key contributes its value to the record.
* `payload_of_not_listed`: a key that a forced list or the catalog does not have contributes
  nothing.
-/

namespace Mogo

/-! ### The keys that are listed -/

/-- The manual columns of a table; a table that has none has no entry. -/
def manualColumns (table : String) : List String := (MANUAL_TABLE_COLUMNS.lookup table).getD []

/-- The list that supplies the columns of the table has the key. The sample rows have the keys of
every row of the table, and the REST interface trims the names it is given. -/
inductive Listed (table : String) (answers : ColumnAnswers) (key : String) : Prop
  | forced (hforce : table ∈ FORCE_MANUAL_SCHEMA_TABLES) (hkey : key ∈ manualColumns table)
  | catalog (hforce : table ∉ FORCE_MANUAL_SCHEMA_TABLES)
      (hkey : key ∈ (answers.informationSchema.getD []).map ColumnInfo.column_name)
  | sampled (hforce : table ∉ FORCE_MANUAL_SCHEMA_TABLES)
      (hschema : answers.informationSchema.getD [] = []) (hrows : answers.sample.getD [] ≠ [])
      (hnamed : key ≠ "" ∧ trim key = key)
  | header (hforce : table ∉ FORCE_MANUAL_SCHEMA_TABLES)
      (hschema : answers.informationSchema.getD [] = []) (hkey : key ∈ csvHeader answers.csv)
  | manual (hforce : table ∉ FORCE_MANUAL_SCHEMA_TABLES)
      (hschema : answers.informationSchema.getD [] = []) (hheader : csvHeader answers.csv = [])
      (hrows : answers.sample.getD [] = []) (hkey : key ∈ manualColumns table)

/-- The manual names are as the REST interface would give them. -/
theorem manualColumns_named {table name : String} (h : name ∈ manualColumns table) :
    name ≠ "" ∧ trim name = name := by
  have hnamed : ∀ entry ∈ MANUAL_TABLE_COLUMNS, ∀ name ∈ entry.2,
      name ≠ "" ∧ trim name = name := by decide
  rcases hlookup : MANUAL_TABLE_COLUMNS.lookup table with - | columns
  · rw [manualColumns, hlookup] at h
    exact absurd h List.not_mem_nil
  · rw [manualColumns, hlookup] at h
    obtain ⟨before, after, hentries, -⟩ := List.lookup_eq_some_iff.mp hlookup
    exact hnamed (table, columns) (by rw [hentries]; simp) name h

/-- The names of a CSV header are trimmed, and none of them is empty. -/
theorem csvHeader_named {csv : Option String} {name : String} (h : name ∈ csvHeader csv) :
    name ≠ "" ∧ trim name = name := by
  rcases csv with - | data
  · exact absurd h List.not_mem_nil
  · rw [csvHeader] at h
    exact parseCsvHeaderLine_named h

/-- The names of the CSV header are found. -/
theorem mem_restColumnNames_of_header {csv : Option String} {rows : List Row}
    {manual : List String} {name : String} (h : name ∈ csvHeader csv) :
    name ∈ restColumnNames csv rows manual := by
  obtain ⟨hne, htrim⟩ := csvHeader_named h
  have hmem : name ∈ rows.foldl (fun order row => pushColumns order (row.map Prod.fst))
      (pushColumns [] (csvHeader csv)) :=
    mem_foldl_pushColumns.mpr (Or.inl (mem_pushColumns.mpr (Or.inr ⟨hne, name, h, htrim⟩)))
  rw [restColumnNames, if_neg (List.ne_nil_of_mem hmem)]
  exact hmem

/-- The manual names are found where there is nothing else. -/
theorem mem_restColumnNames_of_manual {csv : Option String} {manual : List String} {name : String}
    (hheader : csvHeader csv = []) (h : name ∈ manual) (hnamed : name ≠ "" ∧ trim name = name) :
    name ∈ restColumnNames csv [] manual := by
  have hnone : pushColumns [] (csvHeader csv) = [] := by rw [hheader]; rfl
  rw [restColumnNames, List.foldl_nil, if_pos hnone]
  exact mem_pushColumns.mpr (Or.inr ⟨hnamed.1, name, h, hnamed.2⟩)

/-- For a table with a forced list discovery answers with this list, each column as text. -/
theorem discoverColumns_forced {table : String} (hforce : table ∈ FORCE_MANUAL_SCHEMA_TABLES)
    (answers : ColumnAnswers) : discoverColumns table answers =
      some ((manualColumns table).map fun columnName => ⟨columnName, some "text", none⟩) := by
  have hmanual : ∀ table ∈ FORCE_MANUAL_SCHEMA_TABLES,
      (MANUAL_TABLE_COLUMNS.lookup table).isSome = true := by decide
  rw [discoverColumns, if_pos ⟨hforce, hmanual table hforce⟩]
  rfl

/-- For every other table discovery answers what the catalog says, if the catalog has columns of
it. -/
theorem discoverColumns_catalog {table : String} (hforce : table ∉ FORCE_MANUAL_SCHEMA_TABLES)
    {answers : ColumnAnswers} (hschema : answers.informationSchema.getD [] ≠ []) :
    discoverColumns table answers = answers.informationSchema := by
  rw [discoverColumns, if_neg fun h => hforce h.1]
  rcases hview : answers.informationSchema with - | - | ⟨column, columns⟩
  · rw [hview] at hschema
    exact absurd rfl hschema
  · rw [hview] at hschema
    exact absurd rfl hschema
  · rfl

/-- **Every way of listing a key** makes it a discovered column, if the sample rows have it. -/
theorem Listed.mem_discoverColumns {table : String} {answers : ColumnAnswers} {key : String}
    (h : Listed table answers key) {columns : List ColumnInfo}
    (hfound : discoverColumns table answers = some columns)
    (hkeys : ∀ row ∈ answers.sample.getD [], (row.get key).isSome = true) :
    key ∈ columns.map ColumnInfo.column_name := by
  have hrest {table : String} (hforce : table ∉ FORCE_MANUAL_SCHEMA_TABLES)
      (hfound : discoverColumns table answers = some columns)
      (hschema : answers.informationSchema.getD [] = [])
      (hmem : key ∈ restColumnNames answers.csv (answers.sample.getD []) (manualColumns table)) :
      key ∈ columns.map ColumnInfo.column_name := by
    rw [discoverColumns_rest hforce hschema hfound, List.map_map]
    exact List.mem_map.mpr ⟨key, hmem, rfl⟩
  cases h with
  | forced hforce hkey =>
      obtain rfl := Option.some.inj ((discoverColumns_forced hforce answers).symm.trans hfound)
      rw [List.map_map]
      exact List.mem_map.mpr ⟨key, hkey, rfl⟩
  | catalog hforce hkey =>
      have hsome : answers.informationSchema.getD [] ≠ [] := by
        intro hnil
        rw [hnil] at hkey
        exact absurd hkey List.not_mem_nil
      rw [discoverColumns_catalog hforce hsome] at hfound
      rwa [hfound, Option.getD_some] at hkey
  | sampled hforce hschema hrows hnamed =>
      refine hrest hforce hfound hschema ?_
      obtain ⟨row, hrow⟩ := List.exists_mem_of_ne_nil _ hrows
      obtain ⟨v, hget⟩ := Option.isSome_iff_exists.mp (hkeys row hrow)
      exact mem_restColumnNames_of_key hrow hget hnamed.1 hnamed.2
  | header hforce hschema hkey =>
      exact hrest hforce hfound hschema (mem_restColumnNames_of_header hkey)
  | manual hforce hschema hheader hrows hkey =>
      refine hrest hforce hfound hschema ?_
      rw [hrows]
      exact mem_restColumnNames_of_manual hheader hkey (manualColumns_named hkey)

/-! ### The values that are kept -/

section Conversion

variable [LetterCase]

/-- Lowering leaves no text empty. -/
def LowersToText : Prop := ∀ s, toLowerCase s = "" → s = ""

/-- A value has a counterpart of the type: a number, a truth value, a text, or a JSON value other
than `null`. -/
def Convertible : PbType → Value → Prop
  | .number, v => ∃ n, v.toJsNumber = some n ∧ n.isFinite = true
  | .bool, .string s => toLowerCase (trim s) ∈ ["true", "1", "yes", "y", "false", "0", "no", "n"]
  | .bool, v => (∃ b, v = .bool b) ∨ ∃ n, v = .number n
  | .json, .string s => jsonParse s ≠ some .null
  | .json, _ => True
  | _, v => ∃ text, v.toJsString = some text

/-- A value has a counterpart of the planned type of a column. A foreign key is kept as text, and
needs one that is not blank. -/
def ColumnPlan.Converts (col : ColumnPlan) (v : Value) : Prop :=
  if col.isForeignKey = true then ∃ text, v.toJsString = some text ∧ trim text ≠ ""
  else Convertible col.pbType v

/-- **The values a conversion keeps** are those with a counterpart. -/
theorem normalizeValue_ne_null_iff {pbType : PbType} {v : Value} (hv : v ≠ .null) :
    (∃ w, normalizeValueForPocketBase (some v) pbType = some w ∧ w ≠ .null) ↔
      Convertible pbType v := by
  cases pbType with
  | number =>
      have hvalue : normalizeValueForPocketBase (some v) .number =
          v.toJsNumber.map fun n => if n.isFinite then .number n else .null := by
        cases v with
        | null => exact absurd rfl hv
        | bool _ | number _ | string _ | array _ | object _ => rfl
      rw [hvalue, Convertible]
      rcases v.toJsNumber with - | n
      · simp
      · by_cases hfinite : n.isFinite = true
        · simp [hfinite]
        · simp [hfinite]
  | bool =>
      cases v with
      | null => exact absurd rfl hv
      | bool _ | number _ | array _ | object _ =>
          simp [normalizeValueForPocketBase, Convertible]
      | string s =>
          simp only [normalizeValueForPocketBase, Convertible]
          split_ifs with hyes hno
          · exact iff_of_true ⟨_, rfl, Value.noConfusion⟩ (by grind)
          · exact iff_of_true ⟨_, rfl, Value.noConfusion⟩ (by grind)
          · exact iff_of_false (by simp) (by grind)
  | json =>
      cases v with
      | null => exact absurd rfl hv
      | bool _ | number _ | array _ | object _ =>
          simp [normalizeValueForPocketBase, Convertible]
      | string s =>
          simp only [normalizeValueForPocketBase, Convertible]
          rcases jsonParse s with - | parsed
          · simp
          · simp
  | text | relation =>
      cases v with
      | null => exact absurd rfl hv
      | bool _ | number _ | string _ | array _ | object _ =>
          simp [normalizeValueForPocketBase, Convertible]

/-- The keys that have a normal form are those with a text that is not blank. -/
theorem normalizeOldId_ne_none_iff (hlower : LowersToText) {v : Value} (hv : v ≠ .null) :
    normalizeOldId (some v) ≠ none ↔ ∃ text, v.toJsString = some text ∧ trim text ≠ "" := by
  have hempty : toLowerCase "" = "" :=
    LetterCase.toLowerCase_ascii "" fun c hc => absurd hc List.not_mem_nil
  rw [Option.ne_none_iff_exists']
  simp only [normalizeOldId_eq_some_iff]
  constructor
  · rintro ⟨k, u, text, hu, -, htext, hk, hne⟩
    obtain rfl := Option.some.inj hu
    exact ⟨text, htext, fun hblank => hne (hk.symm.trans (hblank ▸ hempty))⟩
  · rintro ⟨text, htext, hne⟩
    exact ⟨_, v, text, rfl, hv, htext, rfl, fun h => hne (hlower _ h)⟩

end Conversion

/-! ### What a key contributes -/

section Contributes

variable [LetterCase]

/-- The value of a key reaches the record: the key has a planned column, and every column planned
for it has a field of its own, which is not `null` in the payload of the row if the value has a
counterpart of the planned type. A row that does not convert has no payload. -/
structure Contributes (plan : TablePlan) (row : Row) (key : String) (v : Value) : Prop where
  planned : ∃ col ∈ plan.columnPlans, col.sourceColumn = key
  own : ∀ col ∈ plan.columnPlans, col.sourceColumn = key →
    ∀ col' ∈ plan.columnPlans, col.storedField ∈ col'.fieldNames → col' = col
  entry : ∀ col ∈ plan.columnPlans, col.sourceColumn = key → col.Converts v →
    RowConverts plan row → ∃ p w, buildPass1RecordPayload row plan = some p ∧
      p.get? col.storedField = some (.value w) ∧ w ≠ .null

omit [LetterCase] in
/-- A column stores its value in one of its fields. -/
theorem ColumnPlan.storedField_mem (col : ColumnPlan) : col.storedField ∈ col.fieldNames := by
  rw [ColumnPlan.storedField, ColumnPlan.fieldNames]
  rcases col.fkTempField with - | temp
  · exact List.mem_cons_self
  · simp

/-- A planned column stores the value of its key. -/
theorem exists_entry_of_converts (hlower : LowersToText) {plan : TablePlan} {col : ColumnPlan}
    (hcol : col ∈ plan.columnPlans) {row : Row} {v : Value}
    (hget : row.get col.sourceColumn = some v) (hv : v ≠ .null) (hconverts : col.Converts v)
    {p : Payload} (hp : buildPass1RecordPayload row plan = some p) :
    ∃ w, p.get? col.storedField = some (.value w) ∧ w ≠ .null := by
  have hflag := plan.isForeignKey_eq col hcol
  have htemp := plan.fkTempField_isSome col hcol
  rw [ColumnPlan.Converts, hflag] at hconverts
  rcases hfk : col.fk with - | fk
  · rw [hfk, Option.isSome_none] at htemp hconverts
    rw [if_neg Bool.false_ne_true] at hconverts
    have hnone : col.fkTempField = none := by simpa using htemp
    obtain ⟨w, hw, hne⟩ := (normalizeValue_ne_null_iff hv).mpr hconverts
    obtain ⟨w', hw', hentry⟩ := buildPass1RecordPayload_plain hcol hfk hp
    rw [hget] at hw'
    obtain rfl := Option.some.inj (hw'.symm.trans hw)
    rw [ColumnPlan.storedField, hnone, Option.getD_none, hentry, Cell.ofValue_of_ne hne]
    exact ⟨w', rfl, hne⟩
  · rw [hfk, Option.isSome_some] at htemp hconverts
    rw [if_pos rfl] at hconverts
    obtain ⟨temp, htemp⟩ := Option.isSome_iff_exists.mp htemp
    rw [ColumnPlan.storedField, htemp, Option.getD_some,
      (buildPass1RecordPayload_fk hcol htemp hp).2, hget]
    obtain ⟨k, hk⟩ := Option.ne_none_iff_exists'.mp
      ((normalizeOldId_ne_none_iff hlower hv).mpr hconverts)
    rw [hk]
    exact ⟨.string k, rfl, Value.noConfusion⟩

/-- A discovered column other than the primary key is planned. -/
theorem exists_planned_column {tables : List String} {manual : String → List ForeignKey}
    {names : String → Option String} {table : String} {found : TableDiscovery} {plan : TablePlan}
    (hplan : buildTablePlan tables manual names table found = some plan) {key : String}
    (hkey : key ∈ found.columns.map ColumnInfo.column_name) (hne : key ≠ plan.primaryKey) :
    ∃ col ∈ plan.columnPlans, col.sourceColumn = key := by
  obtain ⟨column, hcolumn, rfl⟩ := List.mem_map.mp hkey
  rw [(buildTablePlan_spec hplan).2.2.1] at hne
  rw [buildTablePlan_columnPlans hplan]
  exact exists_mem_planColumns hcolumn hne

/-- **What is listed is kept.** Whichever list supplied the columns of a table, every key of a row
that the list has, other than the primary key, contributes its value to the record. -/
theorem contributes_of_listed (hlower : LowersToText) {table : String} {answers : ColumnAnswers}
    {found : TableDiscovery} (hfound : discoverColumns table answers = some found.columns)
    {tables : List String} {manual : String → List ForeignKey} {names : String → Option String}
    {plan : TablePlan} (hplan : buildTablePlan tables manual names table found = some plan)
    {row : Row} {key : String} {v : Value} (hget : row.get key = some v) (hv : v ≠ .null)
    (hkeys : ∀ row' ∈ answers.sample.getD [], (row'.get key).isSome = (row.get key).isSome)
    (hne : key ≠ plan.primaryKey) (hlisted : Listed table answers key) :
    Contributes plan row key v := by
  have hdiscovered : key ∈ found.columns.map ColumnInfo.column_name :=
    hlisted.mem_discoverColumns hfound fun row' hrow' => by rw [hkeys row' hrow', hget]; rfl
  refine ⟨exists_planned_column hplan hdiscovered hne, ?_, ?_⟩
  · intro col hcol _ col' hcol' hfield
    exact TablePlan.eq_of_mem_fieldNames hcol' hcol hfield col.storedField_mem
  · rintro col hcol rfl hconverts hrow
    obtain ⟨p, hp⟩ := exists_payload_iff.mpr hrow
    obtain ⟨w, hentry⟩ := exists_entry_of_converts hlower hcol hget hv hconverts hp
    exact ⟨p, w, hp, hentry⟩

/-- Nothing but the planned columns of a row makes its payload. -/
theorem buildPass1RecordPayload_congr {plan : TablePlan} {row row' : Row}
    (h : ∀ col ∈ plan.columnPlans, row.get col.sourceColumn = row'.get col.sourceColumn) :
    buildPass1RecordPayload row plan = buildPass1RecordPayload row' plan := by
  have hfold : ∀ cols ⊆ plan.columnPlans, ∀ p : Payload,
      cols.foldlM (setColumn row) p = cols.foldlM (setColumn row') p := by
    intro cols
    induction cols with
    | nil => exact fun _ _ => rfl
    | cons col cols ih =>
        intro hsub p
        have hcol : setColumn row p col = setColumn row' p col := by
          rw [setColumn, setColumn, h col (hsub List.mem_cons_self)]
        rw [List.foldlM_cons, List.foldlM_cons, hcol]
        exact bind_congr fun q => ih (List.subset_of_cons_subset hsub) q
  exact hfold _ (List.Subset.refl _) []

/-- **What the list does not have is left out.** Where the columns come from a forced list or from
the catalog, the value of any other key makes no difference to the payload. -/
theorem payload_of_not_listed {table : String} {answers : ColumnAnswers} {found : TableDiscovery}
    (hfound : discoverColumns table answers = some found.columns)
    (hlist : table ∈ FORCE_MANUAL_SCHEMA_TABLES ∨ answers.informationSchema.getD [] ≠ [])
    {tables : List String} {manual : String → List ForeignKey} {names : String → Option String}
    {plan : TablePlan} (hplan : buildTablePlan tables manual names table found = some plan)
    {key : String} (hlisted : ¬ Listed table answers key) {row row' : Row}
    (hothers : ∀ name, name ≠ key → row.get name = row'.get name) :
    buildPass1RecordPayload row plan = buildPass1RecordPayload row' plan := by
  refine buildPass1RecordPayload_congr fun col hcol => hothers _ fun hsource => hlisted ?_
  rw [buildTablePlan_columnPlans hplan] at hcol
  obtain ⟨column, hcolumn, hname, -⟩ := exists_column_of_mem_planColumns hcol
  have hmem : key ∈ found.columns.map ColumnInfo.column_name :=
    List.mem_map.mpr ⟨column, hcolumn, hname.trans hsource⟩
  by_cases hforce : table ∈ FORCE_MANUAL_SCHEMA_TABLES
  · refine .forced hforce ?_
    rw [discoverColumns_forced hforce, Option.some.injEq] at hfound
    rw [← hfound, List.map_map] at hmem
    simpa using hmem
  · refine .catalog hforce ?_
    rw [discoverColumns_catalog hforce (hlist.resolve_left hforce)] at hfound
    rwa [hfound, Option.getD_some]

end Contributes

section Example

attribute [local instance] asciiLetterCase

/-- Lowering ASCII letters leaves no text empty. -/
theorem lowersToText_ascii : LowersToText := by
  intro s h
  have hlist : s.toList.map Char.toLower = [] := String.ofList_inj.mp h
  exact String.toList_eq_nil_iff.mp (List.map_eq_nil_iff.mp hlist)

/-- A comment that answers another one. -/
def commentRow : Row :=
  [("id", .string "c1"), ("comment", .string "Nice"), ("parent_id", .string "c0")]

/-- The catalog and the REST interface both know the column `parent_id` of the comments. -/
def commentAnswers : ColumnAnswers where
  informationSchema :=
    some (["id", "comment", "parent_id"].map fun name => ⟨name, some "text", none⟩)
  csv := some "id,comment,parent_id\n"
  sample := some [commentRow]

/-- What discovery finds out about the comments. -/
def commentsFound : TableDiscovery where
  columns := (discoverColumns "comments" commentAnswers).getD []
  primaryKey := "id"
  autoForeignKeys := []
  primaryKey_ne := id_ne_empty

/-- The plan of the comments, whose columns are listed in the script. -/
def commentsPlan : TablePlan :=
  (buildTablePlan ["comments"] (fun _ => []) (buildTableToCollectionNameMap ["comments"])
    "comments" commentsFound).get (by decide)

/-- **A column that the forced list does not have** does not reach the record, although every
other source of columns lists it. -/
theorem not_contributes_parent_id :
    discoverColumns "comments" commentAnswers = some commentsFound.columns ∧
      commentRow.get "parent_id" = some (.string "c0") ∧ "parent_id" ≠ commentsPlan.primaryKey ∧
      ¬ Contributes commentsPlan commentRow "parent_id" (.string "c0") := by
  refine ⟨?_, rfl, by decide, fun h => ?_⟩
  · rw [commentsFound, discoverColumns_forced (by simp [FORCE_MANUAL_SCHEMA_TABLES])]
    rfl
  · obtain ⟨col, hcol, hsource⟩ := h.planned
    have hunplanned : ∀ col ∈ commentsPlan.columnPlans, col.sourceColumn ≠ "parent_id" := by decide
    exact hunplanned col hcol hsource

/-- The text of the comment reaches its record through the column that lists it. -/
theorem contributes_of_listed_comment :
    Contributes commentsPlan commentRow "comment" (.string "Nice") := by
  have hfound : discoverColumns "comments" commentAnswers = some commentsFound.columns := by
    rw [commentsFound, discoverColumns_forced (by simp [FORCE_MANUAL_SCHEMA_TABLES])]
    rfl
  refine contributes_of_listed lowersToText_ascii hfound (Option.some_get _).symm rfl
    Value.noConfusion (fun row' hrow' => ?_) (by decide) (.forced ?_ ?_)
  · rw [List.mem_singleton.mp hrow']
  · simp [FORCE_MANUAL_SCHEMA_TABLES]
  · decide

end Example

end Mogo
