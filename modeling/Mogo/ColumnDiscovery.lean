import Mogo.PocketBase

/-!
# Discovery of Columns

Where the script gets the columns of a table from: a list of its own for two tables, the view
`information_schema.columns`, and otherwise what the REST interface lets it see, the header of a
CSV response and the keys of sample rows. The fallback has no types to report, so it takes those
of the values in the first sample row.

## Main results

* `mem_restColumnNames_of_key`, `restColumnNames_trimmed`: the fallback finds the keys of the
  sample rows that have no white space at their ends, and no name that has any.
* `discoverColumns_rest`: what it records of a column it finds.
-/

namespace Mogo

/-! ### The sources of columns -/

/-- `FORCE_MANUAL_SCHEMA_TABLES`: the tables of which only the listed columns are looked at. -/
def FORCE_MANUAL_SCHEMA_TABLES : List String := ["comments", "store_subscriptions"]

/-- `MANUAL_TABLE_COLUMNS`: the columns that the script lists for two of the tables. -/
def MANUAL_TABLE_COLUMNS : List (String × List String) :=
  [("comments", ["id", "user_id", "episode_id", "series_id", "comment", "created_at",
      "updated_at"]),
    ("store_subscriptions", ["id", "user_id", "plan_id", "subscription_id", "status",
      "start_date", "end_date", "created_at", "updated_at"]),
    ("transactions", ["id", "user_id", "pack_id", "amount", "currency", "status",
      "transaction_id", "created_at", "updated_at"]),
    ("unlocked_content", ["id", "user_id", "content_id", "content_type", "created_at",
      "updated_at"]),
    ("user_notifications", ["id", "user_id", "title", "message", "type", "is_read",
      "created_at", "updated_at"])]

/-- `inferSqlTypeFromValue`: the SQL type that a sampled value suggests, `text` if there is none. -/
def inferSqlTypeFromValue : Option Value → String
  | none | some .null => "text"
  | some (.number _) => "numeric"
  | some (.bool _) => "boolean"
  | some (.array _) | some (.object _) => "jsonb"
  | some (.string _) => "text"

/-- The character loop of `parseCsvHeaderLine`. Between quotes a doubled quote stands for one. -/
def csvFields : List Char → (inQuotes : Bool) → (current : List Char) → List (List Char)
  | [], _, current => [current]
  | '"' :: '"' :: r, true, current => csvFields r true (current ++ ['"'])
  | '"' :: r, inQuotes, current => csvFields r (!inQuotes) current
  | ',' :: r, false, current => current :: csvFields r false []
  | c :: r, inQuotes, current => csvFields r inQuotes (current ++ [c])

/-- `parseCsvHeaderLine`: the trimmed names in the first line of a CSV answer, without the empty
ones. -/
def parseCsvHeaderLine (headerLine : String) : List String :=
  let line := trim headerLine
  if line = "" then []
  else
    ((csvFields line.toList false []).map fun cs => trim (String.ofList cs)).filter (· ≠ "")

/-- `pushColumns`: the names that are not blank and not seen yet are appended. -/
def pushColumns (columnOrder columns : List String) : List String :=
  columns.foldl (fun order col =>
    if trim col = "" ∨ trim col ∈ order then order else order ++ [trim col]) columnOrder

/-- The names in the first line of the CSV response. -/
def csvHeader : Option String → List String
  | some data => parseCsvHeaderLine (String.ofList (data.toList.takeWhile (· ≠ '\n')))
  | none => []

/-- The column names of the REST fallback: those of the CSV header, then the keys of the sample
rows, and the manual ones if there are no others. -/
def restColumnNames (csv : Option String) (sampleRows : List Row) (manual : List String) :
    List String :=
  let columnOrder := sampleRows.foldl (fun order row => pushColumns order (row.map Prod.fst))
    (pushColumns [] (csvHeader csv))
  if columnOrder = [] then pushColumns [] manual else columnOrder

/-- The type of a column is that of its value in the first sample row. -/
def sampleType (sampleRows : List Row) (columnName : String) : String :=
  match sampleRows.head? with
  | some firstRow => inferSqlTypeFromValue (firstRow.get columnName)
  | none => "text"

/-- What the three queries of `discoverColumns` answer; `none` is an error. -/
structure ColumnAnswers where
  informationSchema : Option (List ColumnInfo)
  csv : Option String
  sample : Option (List Row)

/-- `discoverColumns`; it throws where no column is found. -/
def discoverColumns (table : String) (answers : ColumnAnswers) : Option (List ColumnInfo) :=
  let manual := MANUAL_TABLE_COLUMNS.lookup table
  if table ∈ FORCE_MANUAL_SCHEMA_TABLES ∧ manual.isSome = true then
    some ((manual.getD []).map fun columnName => ⟨columnName, some "text", none⟩)
  else
    match answers.informationSchema with
    | some (column :: columns) => some (column :: columns)
    | _ =>
      let sampleRows := answers.sample.getD []
      let columnOrder := restColumnNames answers.csv sampleRows (manual.getD [])
      if columnOrder = [] then none
      else
        some (columnOrder.map fun columnName =>
          ⟨columnName, some (sampleType sampleRows columnName), none⟩)

example : parseCsvHeaderLine "id,\"last, first\",\"say \"\"hi\"\"\", ,x " =
    ["id", "last, first", "say \"hi\"", "x"] := by decide

/-! ### The names that are found -/

/-- One column of a row after the other is trimmed and appended, unless it is empty or known. -/
theorem pushColumns_cons (columnOrder : List String) (col : String) (columns : List String) :
    pushColumns columnOrder (col :: columns) =
      pushColumns (if trim col = "" ∨ trim col ∈ columnOrder then columnOrder
        else columnOrder ++ [trim col]) columns :=
  rfl

/-- A name that is pushed is one of the order or a trimmed one that is not blank. -/
theorem mem_pushColumns {columnOrder columns : List String} {name : String} :
    name ∈ pushColumns columnOrder columns ↔
      name ∈ columnOrder ∨ name ≠ "" ∧ ∃ col ∈ columns, trim col = name := by
  induction columns generalizing columnOrder with
  | nil => simp [pushColumns]
  | cons col columns ih =>
      rw [pushColumns_cons, ih, List.exists_mem_cons_iff]
      split
      next hskip =>
        constructor
        · rintro (h | ⟨hne, h⟩)
          · exact Or.inl h
          · exact Or.inr ⟨hne, Or.inr h⟩
        · rintro (h | ⟨hne, rfl | h⟩)
          · exact Or.inl h
          · exact Or.inl (hskip.resolve_left hne)
          · exact Or.inr ⟨hne, h⟩
      next hpush =>
        rw [not_or] at hpush
        rw [List.mem_append, List.mem_singleton]
        constructor
        · rintro ((h | rfl) | ⟨hne, h⟩)
          · exact Or.inl h
          · exact Or.inr ⟨hpush.1, Or.inl rfl⟩
          · exact Or.inr ⟨hne, Or.inr h⟩
        · rintro (h | ⟨hne, rfl | h⟩)
          · exact Or.inl (Or.inl h)
          · exact Or.inl (Or.inr rfl)
          · exact Or.inr ⟨hne, h⟩

/-- Column names that are new, trimmed and distinct are appended in the order they come in. -/
theorem pushColumns_of_nodup {columnOrder columns : List String}
    (hnodup : (columnOrder ++ columns).Nodup)
    (hnames : ∀ name ∈ columns, name ≠ "" ∧ trim name = name) :
    pushColumns columnOrder columns = columnOrder ++ columns := by
  induction columns generalizing columnOrder with
  | nil => exact (List.append_nil columnOrder).symm
  | cons col columns ih =>
      obtain ⟨hne, htrim⟩ := hnames col List.mem_cons_self
      have hnew : col ∉ columnOrder := fun hmem =>
        List.disjoint_of_nodup_append hnodup hmem List.mem_cons_self
      rw [← List.singleton_append, ← List.append_assoc] at hnodup
      rw [pushColumns_cons, htrim, if_neg (not_or.mpr ⟨hne, hnew⟩),
        ih hnodup fun name hname => hnames name (List.mem_cons_of_mem col hname), List.append_assoc,
        List.singleton_append]

/-- Names that are there are not appended. -/
theorem pushColumns_of_mem {columnOrder columns : List String}
    (h : ∀ col ∈ columns, trim col ∈ columnOrder) :
    pushColumns columnOrder columns = columnOrder := by
  induction columns with
  | nil => rfl
  | cons col columns ih =>
      rw [pushColumns_cons, if_pos (Or.inr (h col List.mem_cons_self))]
      exact ih fun name hname => h name (List.mem_cons_of_mem col hname)

/-- Rows whose columns are all known leave the order of the columns as it is. -/
theorem foldl_pushColumns_of_mem {columnOrder : List String} {rows : List Row}
    (h : ∀ row ∈ rows, ∀ x ∈ row, trim x.1 ∈ columnOrder) :
    rows.foldl (fun order row => pushColumns order (row.map Prod.fst)) columnOrder =
      columnOrder := by
  induction rows with
  | nil => rfl
  | cons row rows ih =>
      have hrow : pushColumns columnOrder (row.map Prod.fst) = columnOrder := by
        refine pushColumns_of_mem fun col hcol => ?_
        obtain ⟨x, hx, rfl⟩ := List.mem_map.mp hcol
        exact h row List.mem_cons_self x hx
      rw [List.foldl_cons, hrow]
      exact ih fun row' hrow' => h row' (List.mem_cons_of_mem row hrow')

/-- The names after the keys of some rows have been pushed. -/
theorem mem_foldl_pushColumns {columnOrder : List String} {rows : List Row} {name : String} :
    name ∈ rows.foldl (fun order row => pushColumns order (row.map Prod.fst)) columnOrder ↔
      name ∈ columnOrder ∨ name ≠ "" ∧ ∃ row ∈ rows, ∃ x ∈ row, trim x.1 = name := by
  induction rows generalizing columnOrder with
  | nil => simp
  | cons row rows ih =>
      rw [List.foldl_cons, ih, mem_pushColumns, List.exists_mem_cons_iff, or_assoc, ← and_or_left]
      simp only [List.mem_map, exists_exists_and_eq_and]

/-- The names of the fallback are trimmed and not blank. -/
theorem restColumnNames_trimmed {csv : Option String} {rows : List Row} {manual : List String}
    {name : String} (h : name ∈ restColumnNames csv rows manual) :
    name ≠ "" ∧ trim name = name := by
  have hpushed {columnOrder columns : List String}
      (horder : ∀ n ∈ columnOrder, n ≠ "" ∧ trim n = n) :
      ∀ n ∈ pushColumns columnOrder columns, n ≠ "" ∧ trim n = n := by
    intro n hn
    rcases mem_pushColumns.mp hn with hn | ⟨hne, col, -, rfl⟩
    · exact horder n hn
    · exact ⟨hne, trim_trim col⟩
  have hnil : ∀ n ∈ ([] : List String), n ≠ "" ∧ trim n = n := fun n hn =>
    absurd hn List.not_mem_nil
  rw [restColumnNames] at h
  split at h
  · exact hpushed hnil name h
  · rcases mem_foldl_pushColumns.mp h with h | ⟨hne, row, -, x, -, rfl⟩
    · exact hpushed hnil name h
    · exact ⟨hne, trim_trim x.1⟩

/-- Every key of a sample row is found that has no white space at its ends. -/
theorem mem_restColumnNames_of_key {csv : Option String} {rows : List Row} {manual : List String}
    {row : Row} (hrow : row ∈ rows) {name : String} {v : Value} (hget : row.get name = some v)
    (hne : name ≠ "") (htrim : trim name = name) : name ∈ restColumnNames csv rows manual := by
  have hmem : name ∈ rows.foldl (fun order row => pushColumns order (row.map Prod.fst))
      (pushColumns [] (csvHeader csv)) := by
    obtain ⟨before, after, rfl, -⟩ := List.lookup_eq_some_iff.mp hget
    exact mem_foldl_pushColumns.mpr (Or.inr ⟨hne, _, hrow, (name, v), by simp, htrim⟩)
  rw [restColumnNames, if_neg (List.ne_nil_of_mem hmem)]
  exact hmem

/-- The fallback is taken for a table without a forced list when the view answers nothing. -/
theorem discoverColumns_eq_rest {table : String} (hforce : table ∉ FORCE_MANUAL_SCHEMA_TABLES)
    {answers : ColumnAnswers} (hschema : answers.informationSchema.getD [] = []) :
    discoverColumns table answers =
      let sampleRows := answers.sample.getD []
      let columnOrder := restColumnNames answers.csv sampleRows
        ((MANUAL_TABLE_COLUMNS.lookup table).getD [])
      if columnOrder = [] then none
      else some (columnOrder.map fun columnName =>
        ⟨columnName, some (sampleType sampleRows columnName), none⟩) := by
  rw [discoverColumns, if_neg fun hf => hforce hf.1]
  rcases hview : answers.informationSchema with - | - | ⟨column, rest⟩
  · rfl
  · rfl
  · rw [hview] at hschema
    exact absurd hschema (List.cons_ne_nil _ _)

/-- **What the fallback records.** It gives every column that it finds the type of its first
sample value. -/
theorem discoverColumns_rest {table : String} {answers : ColumnAnswers}
    (hforce : table ∉ FORCE_MANUAL_SCHEMA_TABLES)
    (hschema : answers.informationSchema.getD [] = []) {columns : List ColumnInfo}
    (h : discoverColumns table answers = some columns) :
    columns = (restColumnNames answers.csv (answers.sample.getD [])
      ((MANUAL_TABLE_COLUMNS.lookup table).getD [])).map fun columnName =>
        ⟨columnName, some (sampleType (answers.sample.getD []) columnName), none⟩ := by
  rw [discoverColumns_eq_rest hforce hschema] at h
  dsimp only at h
  split at h
  · exact absurd h (by simp)
  · exact (Option.some.inj h).symm

end Mogo
