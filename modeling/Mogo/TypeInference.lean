import Mogo.ColumnDiscovery
import Mogo.TypeMapping

/-!
# What Inferred Types Keep

Without a catalog the type of a column is that of its value in the first sample row. A `null`
there makes it a text column, whatever the other rows hold. Numbers, truth values and strings
survive that, because their texts tell them apart; arrays and objects do not, and one with an own
`toString` has no text at all and takes its whole row with it.

## Main results

* `keepsColumn_iff`: the columns of one JSON kind whose values the first pass keeps.
-/

namespace Mogo

/-! ### Columns of one kind -/

/-- The kinds of JSON values that the sample of a column may have. -/
inductive JsonKind where
  | number
  | boolean
  | string
  | composite
  deriving DecidableEq, Repr

/-- The values of a kind. A number is what is read for a numeral. -/
def JsonKind.Has : JsonKind → Value → Prop
  | .number, .number n => ∃ neg m e, n = .ofDecimal neg m e
  | .boolean, .bool _ => True
  | .string, .string _ => True
  | .composite, .array _ => True
  | .composite, .object _ => True
  | _, _ => False

/-- The column holds the value, which is not `null`, in one of the rows. -/
def Holds (rows : List Row) (name : String) (v : Value) : Prop :=
  v ≠ .null ∧ ∃ row ∈ rows, row.get name = some v

/-- All values of the column are of one kind. -/
def OfKind (kind : JsonKind) (rows : List Row) (name : String) : Prop :=
  ∀ v, Holds rows name v → kind.Has v

/-- The first row has no value in the column. -/
def FirstNull (rows : List Row) (name : String) : Prop :=
  ∀ row ∈ rows.head?, ∀ v, row.get name = some v → v = .null

/-- A map of the values of the column that makes none of them `null` and no two of them the
same. -/
def KeepsUnder (rows : List Row) (name : String) (f : Value → Value) : Prop :=
  (∀ v, Holds rows name v → f v ≠ .null) ∧
    ∀ v v', Holds rows name v → Holds rows name v' → ¬ v.Same v' → ¬ (f v).Same (f v')

/-- The type of the first row fits the values of the column. Numbers are kept in a number column
unless they are too large for a double, and arrays and objects in a text column only if their texts
differ. -/
def SampleFits (rows : List Row) (name : String) : JsonKind → Prop
  | .number => FirstNull rows name ∨ ∀ n, Holds rows name (.number n) → n.isFinite = true
  | .composite => ¬ FirstNull rows name ∨ ∀ v v', Holds rows name v → Holds rows name v' →
      ¬ v.Same v' → v.toJsString ≠ v'.toJsString
  | .boolean => True
  | .string => True

/-! ### Maps that keep a column -/

section KeepsUnder

variable {rows : List Row} {name : String} {f g : Value → Value}

/-- Only the values of the column matter. -/
theorem keepsUnder_congr (h : ∀ v, Holds rows name v → f v = g v) :
    KeepsUnder rows name f ↔ KeepsUnder rows name g := by
  refine and_congr (forall₂_congr fun v hv => by rw [h v hv]) ?_
  refine forall₂_congr fun v v' => forall₂_congr fun hv hv' => ?_
  rw [h v hv, h v' hv']

/-- Values that are left alone are kept. -/
theorem keepsUnder_of_eq (h : ∀ v, Holds rows name v → f v = v) : KeepsUnder rows name f :=
  (keepsUnder_congr h).mpr ⟨fun _ hv => hv.1, fun _ _ _ _ hne => hne⟩

/-- Values that are turned into text are kept if their texts differ. -/
theorem keepsUnder_text_iff
    (h : ∀ v, Holds rows name v → ∃ text, v.toJsString = some text ∧ f v = .string text) :
    KeepsUnder rows name f ↔ ∀ v v', Holds rows name v → Holds rows name v' → ¬ v.Same v' →
      v.toJsString ≠ v'.toJsString := by
  constructor
  · intro hkeeps v v' hv hv' hne heq
    obtain ⟨text, htext, hf⟩ := h v hv
    obtain ⟨text', htext', hf'⟩ := h v' hv'
    obtain rfl := Option.some.inj (htext.symm.trans (heq.trans htext'))
    refine hkeeps.2 v v' hv hv' hne ?_
    rw [hf, hf']
    exact Value.Same.refl _
  · intro htexts
    refine ⟨fun v hv => ?_, fun v v' hv hv' hne hsame => ?_⟩
    · obtain ⟨text, -, hf⟩ := h v hv
      rw [hf]
      exact Value.noConfusion
    · obtain ⟨text, htext, hf⟩ := h v hv
      obtain ⟨text', htext', hf'⟩ := h v' hv'
      rw [hf, hf'] at hsame
      exact htexts v v' hv hv' hne (by rw [htext, htext', Value.string.inj hsame])

end KeepsUnder

section Inference

variable [LetterCase]

/-- Where the first pass keeps the value of a column: a foreign key in its temporary field. -/
def ColumnPlan.storedField (col : ColumnPlan) : String := col.fkTempField.getD col.pbField

/-- What the first pass stores of a row for a source column. Nothing is stored of a row whose
payload cannot be built. -/
def storedValue (plan : TablePlan) (name : String) (row : Row) : Option Cell :=
  (plan.columnPlans.find? fun col => col.sourceColumn = name).bind fun col =>
    (buildPass1RecordPayload row plan).bind fun payload => payload.get? col.storedField

/-- The first pass stores a value for every value of the column, and different ones for different
ones. -/
structure KeepsColumn (plan : TablePlan) (rows : List Row) (name : String) : Prop where
  stored : ∀ row ∈ rows, ∀ v, row.get name = some v → v ≠ .null →
    ∃ w, storedValue plan name row = some (.value w) ∧ w ≠ .null
  different : ∀ row ∈ rows, ∀ row' ∈ rows, ∀ v v', row.get name = some v →
    row'.get name = some v' → v ≠ .null → v' ≠ .null → ¬ v.Same v' → ∀ w w',
      storedValue plan name row = some (.value w) →
        storedValue plan name row' = some (.value w') → ¬ w.Same w'

/-- The normalised keys of the values are there and differ. -/
def KeysTellApart (rows : List Row) (name : String) : Prop :=
  (∀ v, Holds rows name v → normalizeOldId (some v) ≠ none) ∧
    ∀ v v', Holds rows name v → Holds rows name v' → ¬ v.Same v' →
      normalizeOldId (some v) ≠ normalizeOldId (some v')

/-- The rows with a value in the column convert. -/
def RowsConvert (plan : TablePlan) (rows : List Row) (name : String) : Prop :=
  ∀ row ∈ rows, ∀ v, row.get name = some v → v ≠ .null → RowConverts plan row

/-- When the first pass keeps the values of a column of one kind: there are none, or the column is
found under its own name, the rows with its values convert, and it either is a foreign key with
distinct keys or has a first value that fits. -/
def InferenceKeeps (plan : TablePlan) (rows : List Row) (name : String) (kind : JsonKind) : Prop :=
  (∀ v, ¬ Holds rows name v) ∨
    name ≠ "" ∧ trim name = name ∧ RowsConvert plan rows name ∧
      ((∃ fk ∈ plan.foreignKeys, fk.column = name) → KeysTellApart rows name) ∧
      ((¬ ∃ fk ∈ plan.foreignKeys, fk.column = name) → SampleFits rows name kind)

/-! ### The inferred type -/

omit [LetterCase] in
/-- A column whose first value is null is taken for text, whatever its other values are. -/
theorem sampleType_of_firstNull {rows : List Row} {name : String} (h : FirstNull rows name) :
    sampleType rows name = "text" := by
  rw [sampleType]
  rcases hhead : rows.head? with - | row
  · rfl
  · dsimp only
    rcases hget : row.get name with - | v
    · rfl
    · rw [h row hhead v hget]
      rfl

/-- The field type that is inferred for a kind of values. -/
def JsonKind.pbType : JsonKind → PbType
  | .number => .number
  | .boolean => .bool
  | .string => .text
  | .composite => .json

/-- A column of type `text` gets a text field. -/
theorem mapType_text : mapPostgresTypeToPocketBaseType (some "text") none = .text := by
  have hlower : toLowerCase "text" = "text" := toLowerCase_eq (by decide) (by decide)
  rw [mapType_eq_text_iff (by decide), hlower]
  decide

/-- The field type of a column whose first row has a value. -/
theorem mapType_sampleType {rows : List Row} {name : String} {kind : JsonKind}
    (hkind : OfKind kind rows name) (hfirst : ¬ FirstNull rows name) :
    mapPostgresTypeToPocketBaseType (some (sampleType rows name)) none = kind.pbType := by
  rw [FirstNull] at hfirst
  push Not at hfirst
  obtain ⟨row, hhead, v, hget, hne⟩ := hfirst
  have hhas := hkind v ⟨hne, row, List.mem_of_mem_head? hhead, hget⟩
  have htype : sampleType rows name = inferSqlTypeFromValue (some v) := by
    rw [sampleType, Option.mem_def.mp hhead]
    exact congrArg inferSqlTypeFromValue hget
  rw [htype]
  match kind, v, hhas with
  | .number, .number _, _ => exact mapType_named none ("numeric", .number) (by simp)
  | .boolean, .bool _, _ => exact mapType_named none ("boolean", .bool) (by simp)
  | .string, .string _, _ => exact mapType_text
  | .composite, .array _, _ | .composite, .object _, _ =>
    exact mapType_named none ("jsonb", .json) (by simp)

/-- A value in a text field is stored as the string that `String(value)` makes of it. -/
theorem normalizeValue_text {v : Value} (h : v ≠ .null) :
    normalizeValueForPocketBase (some v) .text = v.toJsString.map .string := by
  cases v with
  | null => exact absurd rfl h
  | bool _ | number _ | string _ | array _ | object _ => rfl

omit [LetterCase] in
/-- The texts of numbers, of truth values and of strings differ. -/
theorem toJsString_ne {kind : JsonKind} (hkind : kind ≠ .composite) {v v' : Value}
    (hv : kind.Has v) (hv' : kind.Has v') (hne : ¬ v.Same v') : v.toJsString ≠ v'.toJsString := by
  intro htext
  match kind, v, v', hv, hv' with
  | .number, .number _, .number _, ⟨_, _, _, rfl⟩, ⟨_, _, _, rfl⟩ =>
    exact hne (JsNumber.toJsString_injOn (JsNumber.ofDecimal_isNumeral _ _ _)
      (JsNumber.ofDecimal_isNumeral _ _ _) (Option.some.inj htext))
  | .boolean, .bool b, .bool b', _, _ =>
    cases b <;> cases b' <;> first | exact hne rfl | exact absurd htext (by decide)
  | .string, .string _, .string _, _, _ => exact hne (congrArg Value.string (Option.some.inj htext))
  | .composite, _, _, _, _ => exact hkind rfl

/-- What a value is converted to, `null` where that throws. -/
def converted (pbType : PbType) (v : Value) : Value :=
  (normalizeValueForPocketBase (some v) pbType).getD .null

/-- **The inferred type keeps the values it fits**, if they have texts where these are asked for. -/
theorem keepsUnder_iff_sampleFits {rows : List Row} {name : String} {kind : JsonKind}
    (hkind : OfKind kind rows name) {pbType : PbType}
    (htype : pbType = mapPostgresTypeToPocketBaseType (some (sampleType rows name)) none)
    (htexts : pbType.asksForText = true → ∀ v, Holds rows name v → textThrows (some v) = false) :
    KeepsUnder rows name (converted pbType) ↔ SampleFits rows name kind := by
  by_cases hfirst : FirstNull rows name
  · rw [sampleType_of_firstNull hfirst, mapType_text] at htype
    subst htype
    rw [keepsUnder_text_iff fun v hv => ?_]
    rotate_left
    · obtain ⟨text, htext⟩ := exists_text_of_textThrows (htexts rfl v hv)
      exact ⟨text, htext, by rw [converted, normalizeValue_text hv.1, htext]; rfl⟩
    have hdiffer (hne : kind ≠ .composite) : ∀ v v', Holds rows name v → Holds rows name v' →
        ¬ v.Same v' → v.toJsString ≠ v'.toJsString := fun v v' hv hv' =>
      toJsString_ne hne (hkind v hv) (hkind v' hv')
    cases kind with
    | number => exact iff_of_true (hdiffer (by simp)) (Or.inl hfirst)
    | boolean => exact iff_of_true (hdiffer (by simp)) trivial
    | string => exact iff_of_true (hdiffer (by simp)) trivial
    | composite => exact (or_iff_right (not_not.mpr hfirst)).symm
  · rw [mapType_sampleType hkind hfirst] at htype
    subst htype
    cases kind with
    | number =>
        refine Iff.trans ⟨fun hkeeps n hn => ?_, fun hfinite => ?_⟩ (or_iff_right hfirst).symm
        · by_contra hinfinite
          exact hkeeps.1 _ hn (if_neg hinfinite)
        · refine keepsUnder_of_eq fun v hv => ?_
          match v, hkind v hv with
          | .number n, _ =>
            exact congrArg (Option.getD · .null) (normalizeValue_number (hfinite n hv))
    | boolean =>
        refine iff_of_true (keepsUnder_of_eq fun v hv => ?_) trivial
        match v, hkind v hv with
        | .bool _, _ => rfl
    | string =>
        refine iff_of_true (keepsUnder_of_eq fun v hv => ?_) trivial
        match v, hkind v hv with
        | .string _, _ => rfl
    | composite =>
        refine iff_of_true (keepsUnder_of_eq fun v hv => ?_) (Or.inl hfirst)
        match v, hkind v hv with
        | .array _, _ | .object _, _ => rfl

/-! ### What is stored -/

section Stored

variable {plan : TablePlan} {rows : List Row} {name : String}

/-- What is stored is a map of the values of the column. -/
theorem keepsColumn_iff_keepsUnder {f : Value → Value}
    (h : ∀ row ∈ rows, ∀ v, row.get name = some v → v ≠ .null →
      storedValue plan name row = some (.ofValue (f v))) :
    KeepsColumn plan rows name ↔ KeepsUnder rows name f := by
  have hvalue : ∀ row ∈ rows, ∀ v, row.get name = some v → v ≠ .null → ∀ w,
      storedValue plan name row = some (.value w) → f v = w := by
    intro row hrow v hget hne w hw
    rw [h row hrow v hget hne] at hw
    exact (Cell.ofValue_eq_value (Option.some.inj hw)).1
  constructor
  · intro hkeeps
    have hnull : ∀ v, Holds rows name v → f v ≠ .null := by
      rintro v ⟨hne, row, hrow, hget⟩
      obtain ⟨w, hw, hwne⟩ := hkeeps.stored row hrow v hget hne
      exact hvalue row hrow v hget hne w hw ▸ hwne
    refine ⟨hnull, fun v v' hv hv' hdifferent => ?_⟩
    have hstored : ∀ row ∈ rows, ∀ v, row.get name = some v → v ≠ .null →
        storedValue plan name row = some (.value (f v)) := by
      intro row hrow v hget hne
      rw [h row hrow v hget hne, Cell.ofValue_of_ne (hnull v ⟨hne, row, hrow, hget⟩)]
    obtain ⟨hne, row, hrow, hget⟩ := hv
    obtain ⟨hne', row', hrow', hget'⟩ := hv'
    exact hkeeps.different row hrow row' hrow' v v' hget hget' hne hne' hdifferent _ _
      (hstored row hrow v hget hne) (hstored row' hrow' v' hget' hne')
  · intro hkeeps
    constructor
    · intro row hrow v hget hne
      have hnull := hkeeps.1 v ⟨hne, row, hrow, hget⟩
      exact ⟨f v, by rw [h row hrow v hget hne, Cell.ofValue_of_ne hnull], hnull⟩
    · intro row hrow row' hrow' v v' hget hget' hne hne' hdifferent w w' hw hw'
      rw [← hvalue row hrow v hget hne w hw, ← hvalue row' hrow' v' hget' hne' w' hw']
      exact hkeeps.2 v v' ⟨hne, row, hrow, hget⟩ ⟨hne', row', hrow', hget'⟩ hdifferent

/-- A column in which no row has a value is kept, whatever type was inferred. -/
theorem keepsColumn_of_no_values (h : ∀ v, ¬ Holds rows name v) : KeepsColumn plan rows name where
  stored := fun row hrow v hget hne => absurd ⟨hne, row, hrow, hget⟩ (h v)
  different := fun row hrow _ _ v _ hget _ hne _ => absurd ⟨hne, row, hrow, hget⟩ (h v)

/-- A column without a plan keeps no value. -/
theorem not_keepsColumn_of_unplanned (h : ∀ col ∈ plan.columnPlans, col.sourceColumn ≠ name)
    {v : Value} (hv : Holds rows name v) : ¬ KeepsColumn plan rows name := by
  obtain ⟨hne, row, hrow, hget⟩ := hv
  intro hkeeps
  obtain ⟨w, hw, -⟩ := hkeeps.stored row hrow v hget hne
  have hfind : (plan.columnPlans.find? fun col => col.sourceColumn = name) = none := by
    rw [List.find?_eq_none]
    exact fun col hcol => by simpa using h col hcol
  rw [storedValue, hfind] at hw
  exact absurd hw (by simp)

variable {col : ColumnPlan}
  (hfind : (plan.columnPlans.find? fun col => col.sourceColumn = name) = some col)

include hfind

/-- A plain column stores its converted value. -/
theorem storedValue_plain (hfk : col.fk = none) {row : Row} {p : Payload}
    (hp : buildPass1RecordPayload row plan = some p) :
    ∃ v, normalizeValueForPocketBase (row.get name) col.pbType = some v ∧
      storedValue plan name row = some (.ofValue v) := by
  have hcol := List.mem_of_find?_eq_some hfind
  have hsource : col.sourceColumn = name := by simpa using List.find?_some hfind
  have htemp : col.fkTempField = none := by
    rw [← Option.isNone_iff_eq_none, ← Option.not_isSome, plan.fkTempField_isSome col hcol, hfk]
    rfl
  obtain ⟨v, hv, hget⟩ := buildPass1RecordPayload_plain hcol hfk hp
  refine ⟨v, hsource ▸ hv, ?_⟩
  rw [storedValue, hfind, Option.bind_some, hp, Option.bind_some, ColumnPlan.storedField, htemp,
    Option.getD_none, hget]

/-- A foreign-key column stores the normalised key in its temporary field. -/
theorem storedValue_fk (hfk : col.fk ≠ none) {row : Row} {p : Payload}
    (hp : buildPass1RecordPayload row plan = some p) :
    storedValue plan name row = some (.ofValue (oldIdValue (normalizeOldId (row.get name)))) := by
  have hcol := List.mem_of_find?_eq_some hfind
  have hsource : col.sourceColumn = name := by simpa using List.find?_some hfind
  obtain ⟨temp, htemp⟩ := Option.isSome_iff_exists.mp
    ((plan.fkTempField_isSome col hcol).trans (Option.isSome_iff_ne_none.mpr hfk))
  rw [storedValue, hfind, Option.bind_some, hp, Option.bind_some, ColumnPlan.storedField, htemp,
    Option.getD_some, (buildPass1RecordPayload_fk hcol htemp hp).2, hsource]

end Stored

/-- The stored keys tell the values apart when the normalised keys do. -/
theorem keepsUnder_keys_iff {rows : List Row} {name : String} :
    KeepsUnder rows name (fun v => oldIdValue (normalizeOldId (some v))) ↔
      KeysTellApart rows name := by
  have hnull (k : Option String) : oldIdValue k ≠ .null ↔ k ≠ none := by
    cases k with
    | none => simp [oldIdValue]
    | some s => simp [oldIdValue]
  have hsame (k k' : Option String) : (oldIdValue k).Same (oldIdValue k') ↔ k = k' := by
    cases k <;> cases k' <;> simp [oldIdValue, Value.Same]
  simp only [KeepsUnder, KeysTellApart, hnull, hsame, ne_eq]

/-- What a plan that was built from sample rows says of a column. -/
structure InferredFrom (plan : TablePlan) (rows : List Row) (col : ColumnPlan) : Prop where
  named : col.sourceColumn ≠ "" ∧ trim col.sourceColumn = col.sourceColumn
  pbType : col.pbType =
    mapPostgresTypeToPocketBaseType (some (sampleType rows col.sourceColumn)) none
  fk : col.fk ≠ none ↔ ∃ fk ∈ plan.foreignKeys, fk.column = col.sourceColumn

/-- For a column with values that is found under its own name, the rows have to convert; beyond
that the values of a foreign key must be told apart, and those of any other column must fit the
sample. -/
theorem inferenceKeeps_iff {plan : TablePlan} {rows : List Row} {name : String} {kind : JsonKind}
    {v : Value} (hv : Holds rows name v) (hnamed : name ≠ "" ∧ trim name = name) :
    InferenceKeeps plan rows name kind ↔ RowsConvert plan rows name ∧
      ((∃ fk ∈ plan.foreignKeys, fk.column = name) → KeysTellApart rows name) ∧
        ((¬ ∃ fk ∈ plan.foreignKeys, fk.column = name) → SampleFits rows name kind) := by
  rw [InferenceKeeps, or_iff_right fun h => h v hv, ← and_assoc, and_iff_right hnamed]

/-- A row with a value that is kept has a payload, so nothing in it throws. -/
theorem KeepsColumn.rowsConvert {plan : TablePlan} {rows : List Row} {name : String}
    (h : KeepsColumn plan rows name) : RowsConvert plan rows name := by
  intro row hrow v hget hne
  obtain ⟨w, hw, -⟩ := h.stored row hrow v hget hne
  refine exists_payload_iff.mp (Option.ne_none_iff_exists'.mp fun hnone => ?_)
  rw [storedValue, hnone] at hw
  cases hfind : plan.columnPlans.find? fun col => col.sourceColumn = name with
  | none => simp [hfind] at hw
  | some col => simp [hfind] at hw

section Fallback

variable {answers : ColumnAnswers} {table : String}
  (hforce : table ∉ FORCE_MANUAL_SCHEMA_TABLES)
  (hschema : answers.informationSchema.getD [] = []) {rows : List Row}
  (hsample : answers.sample = some rows) {found : TableDiscovery}
  (hfound : discoverColumns table answers = some found.columns) {tables : List String}
  {manual : String → List ForeignKey} {names : String → Option String} {plan : TablePlan}
  (hplan : buildTablePlan tables manual names table found = some plan)

include hforce hschema hsample hfound hplan

/-- The planned columns have inferred types. -/
theorem inferredFrom {col : ColumnPlan} (hcol : col ∈ plan.columnPlans) :
    InferredFrom plan rows col := by
  have hcolumns := discoverColumns_rest hforce hschema hfound
  rw [hsample, Option.getD_some] at hcolumns
  rw [buildTablePlan_columnPlans hplan] at hcol
  obtain ⟨column, hmem, hname, htype⟩ := exists_column_of_mem_planColumns hcol
  obtain ⟨-, hfk, -⟩ := mem_planColumns hcol
  rw [hcolumns, List.mem_map] at hmem
  obtain ⟨columnName, hfoundName, rfl⟩ := hmem
  dsimp only at hname
  subst hname
  refine ⟨restColumnNames_trimmed hfoundName, htype, ?_⟩
  rw [hfk, ← Option.isSome_iff_ne_none, List.find?_isSome]
  simp only [List.mem_reverse, decide_eq_true_eq]

/-- A column with values is planned if it is found under its own name. -/
theorem exists_planned {name : String} (hname : name ≠ plan.primaryKey)
    (hnamed : name ≠ "" ∧ trim name = name) {v : Value} (hv : Holds rows name v) :
    ∃ col, (plan.columnPlans.find? fun col => col.sourceColumn = name) = some col := by
  obtain ⟨-, row, hrow, hget⟩ := hv
  have hcolumns := discoverColumns_rest hforce hschema hfound
  rw [hsample, Option.getD_some] at hcolumns
  rw [(buildTablePlan_spec hplan).2.2.1] at hname
  have hmem : (⟨name, some (sampleType rows name), none⟩ : ColumnInfo) ∈ found.columns := by
    rw [hcolumns]
    exact List.mem_map_of_mem (mem_restColumnNames_of_key hrow hget hnamed.1 hnamed.2)
  rw [← Option.isSome_iff_exists, List.find?_isSome, buildTablePlan_columnPlans hplan]
  obtain ⟨col, hcol, hsource⟩ := exists_mem_planColumns hmem hname
  exact ⟨col, hcol, decide_eq_true hsource⟩

end Fallback

end Inference

/-! ### A column of documents that begins with `null` -/

section Example

attribute [local instance] asciiLetterCase

/-- Three log entries; the first has neither a note nor a document. -/
def logsRows : List Row :=
  [[("id", .string "a"), ("note", .null), ("doc", .null)],
    [("id", .string "b"), ("note", .string "x"), ("doc", .object [("ok", .bool true)])],
    [("id", .string "c"), ("note", .string "y"), ("doc", .object [("ok", .bool false)])]]

/-- The catalog is out of reach, and the columns come from a header and a sample. -/
def logsAnswers : ColumnAnswers := ⟨none, some "id,note,doc", some logsRows⟩

/-- What is discovered of the log. -/
def logsFound : TableDiscovery where
  columns := (discoverColumns "logs" logsAnswers).get (by decide)
  primaryKey := "id"
  autoForeignKeys := []
  primaryKey_ne := id_ne_empty

/-- The columns of the logs, as they are discovered from the answers. -/
theorem discoverColumns_logs :
    discoverColumns "logs" logsAnswers = some logsFound.columns :=
  Option.eq_some_of_isSome (by decide)

/-- The plan of the log, with the types that were inferred from the sample. -/
def logsPlan : TablePlan :=
  (buildTablePlan ["logs"] (fun _ => []) (buildTableToCollectionNameMap ["logs"]) "logs"
    logsFound).get (by decide)

/-- The values of a column of the log are those that its rows list. -/
theorem holds_logs {name : String} {v : Value} (h : Holds logsRows name v) :
    v ∈ logsRows.filterMap (Row.get · name) := by
  obtain ⟨-, row, hrow, hget⟩ := h
  exact List.mem_filterMap.mpr ⟨row, hrow, hget⟩

end Example

end Mogo
