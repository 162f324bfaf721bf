import Mogo.NumeralText
import Mogo.Pass1

/-!
# What the Type Mapping Keeps

The script picks the type of a PocketBase field from the name of the source type, and the first
pass converts every value to that type. The name is looked at for a part of it and for a few
whole names, so the mapping and the values a type really has may disagree: an interval, a range
over integers or a point has a name with `int` in it and a value that is no number, and an array
is turned into text.

The values are taken as PostgREST writes them. An integer or a decimal is written as a numeral,
and the client reads the double nearest to it; everything else arrives as it is written.

## Main results

* `typeMapping_keepsValues`: the types whose values the first pass keeps.
-/

namespace Mogo

/-! ### The values of a type -/

/-- The sameness of values: that of `===`, but for `NaN`, which JSON does not have. -/
def Value.Same : Value → Value → Prop
  | .number m, .number n => m.SameValueZero n
  | v, w => v = w

/-- Every value is the same as itself, `NaN` included. -/
theorem Value.Same.refl (v : Value) : v.Same v := by
  cases v with
  | number n => exact JsNumber.SameValueZero.refl n
  | null | bool _ | string _ | array _ | object _ => rfl

/-- The type of a column in `information_schema.columns`, which always names one. -/
structure TypeDescription where
  data_type : String
  udt_name : String
  data_type_ne : data_type ≠ ""

/-- A value as PostgREST writes it: the numeral of `i · 10 ^ (-scale)`, or any JSON value. -/
inductive Rendering where
  | decimal (i : ℤ) (scale : ℕ)
  | json (v : Value)

/-- The value as the client of PostgREST hands it over. -/
def Rendering.received : Rendering → Value
  | .decimal i scale => .number (.ofFixed i scale)
  | .json v => v

/-- Two renderings of different values: numerals differ in value, and JSON values are not the
same. -/
def Rendering.Different : Rendering → Rendering → Prop
  | .decimal i scale, .decimal j scale' => i * 10 ^ scale' ≠ j * 10 ^ scale
  | .json v, .json w => ¬ v.Same w
  | _, _ => True

/-- The ways in which PostgREST writes values. -/
inductive JsonForm where
  | integer (bits : ℕ)
  | numeric
  | float
  | boolean
  | json
  | array
  | text
  deriving DecidableEq, Repr

/-- The types that are not written as strings. -/
def jsonForms : List (String × JsonForm) :=
  [("smallint", .integer 16), ("integer", .integer 32), ("bigint", .integer 64),
    ("numeric", .numeric), ("real", .float), ("double precision", .float), ("boolean", .boolean),
    ("json", .json), ("jsonb", .json), ("ARRAY", .array)]

/-- The form of the values of a type. -/
def jsonForm (dataType : String) : JsonForm := (jsonForms.lookup dataType).getD .text

/-- The non-null values of a form. -/
def JsonForm.Renders : JsonForm → Rendering → Prop
  | .integer bits, .decimal i scale => scale = 0 ∧ -2 ^ (bits - 1) ≤ i ∧ i < 2 ^ (bits - 1)
  | .numeric, .decimal _ _ => True
  | .float, .json (.number n) => n.isFinite = true
  | .boolean, .json (.bool _) => True
  | .json, .json v => v ≠ .null
  | .array, .json (.array _) => True
  | .text, .json (.string _) => True
  | _, _ => False

/-- A column of the described type can hold the value. -/
def TypeDescription.Renders (d : TypeDescription) (r : Rendering) : Prop :=
  (jsonForm d.data_type).Renders r

section Mapping

variable [LetterCase]

/-- Nothing throws when the other columns of a row are converted. -/
def OthersConvert (plan : TablePlan) (col : ColumnPlan) (row : Row) : Prop :=
  ∀ col' ∈ plan.columnPlans, col'.sourceColumn ≠ col.sourceColumn → col'.asksForText = true →
    textThrows (row.get col'.sourceColumn) = false

/-- The values the first pass puts into the payloads of two rows, for any two different values of a
planned column: neither is `null`, and they differ. -/
def KeepsValues (plan : TablePlan) (col : ColumnPlan) (d : TypeDescription) : Prop :=
  ∀ r r', d.Renders r → d.Renders r' → r.Different r' → ∀ row row' : Row,
    row.get col.sourceColumn = some r.received → row'.get col.sourceColumn = some r'.received →
      OthersConvert plan col row → OthersConvert plan col row' →
        ∃ p p' v v', buildPass1RecordPayload row plan = some p ∧
          buildPass1RecordPayload row' plan = some p' ∧
          p.get? col.pbField = some (.value v) ∧ p'.get? col.pbField = some (.value v') ∧
          v ≠ .null ∧ v' ≠ .null ∧ ¬ v.Same v'

/-- The types that are mapped without loss. Of the types written as numbers, `bigint` and
`numeric` are not among them; of those written as strings, the ones whose name the mapping takes
for another kind. -/
def TypeDescription.Lossless (d : TypeDescription) : Prop :=
  d.data_type ∈ ["smallint", "integer", "real", "double precision", "boolean"] ∨
    d.data_type ≠ "ARRAY" ∧
      ¬ "int".toList <:+: (toLowerCase d.data_type).toList ∧
      toLowerCase d.data_type ∉ ["numeric", "decimal", "real", "double precision", "boolean",
        "json", "jsonb"] ∧
      ¬ "[]".toList <:+ (toLowerCase d.data_type).toList

/-! ### One form and one field type -/

/-- The conversion to the field type keeps the values of the form apart. -/
def KeepsForm (f : JsonForm) (pbType : PbType) : Prop :=
  ∀ r r', f.Renders r → f.Renders r' → r.Different r' →
    ∃ v v', normalizeValueForPocketBase (some r.received) pbType = some v ∧
      normalizeValueForPocketBase (some r'.received) pbType = some v' ∧
      v ≠ .null ∧ v' ≠ .null ∧ ¬ v.Same v'

/-- A finite number is kept by a number field. -/
theorem normalizeValue_number {n : JsNumber} (h : n.isFinite = true) :
    normalizeValueForPocketBase (some (.number n)) .number = some (.number n) :=
  congrArg some (if_pos h)

/-- Integers of up to 53 bits are kept in a number field: none of them is rounded. -/
theorem keepsForm_integer {bits : ℕ} (hbits : bits ≤ 53) : KeepsForm (.integer bits) .number := by
  have hpow : (2 : ℤ) ^ (bits - 1) ≤ 2 ^ 52 := pow_le_pow_right₀ (by norm_num) (by omega)
  intro r r' hr hr' hne
  match r, r', hr, hr' with
  | .decimal i _, .decimal j _, ⟨rfl, hi⟩, ⟨rfl, hj⟩ =>
    have hi' : i.natAbs < 2 ^ 53 := by omega
    have hj' : j.natAbs < 2 ^ 53 := by omega
    refine ⟨_, _, normalizeValue_number (JsNumber.ofFixed_isFinite hi'),
      normalizeValue_number (JsNumber.ofFixed_isFinite hj'), Value.noConfusion,
      Value.noConfusion, fun hsame => hne ?_⟩
    rw [JsNumber.ofFixed_injOn hi' hj' hsame]

/-- Finite doubles are kept in a number field. -/
theorem keepsForm_float : KeepsForm .float .number := by
  intro r r' hr hr' hne
  match r, r', hr, hr' with
  | .json (.number m), .json (.number n), hm, hn =>
    exact ⟨_, _, normalizeValue_number hm, normalizeValue_number hn, Value.noConfusion,
      Value.noConfusion, hne⟩

/-- Truth values are kept in a field of their own type. -/
theorem keepsForm_boolean : KeepsForm .boolean .bool := by
  intro r r' hr hr' hne
  match r, r', hr, hr' with
  | .json (.bool b), .json (.bool b'), _, _ =>
    exact ⟨_, _, rfl, rfl, Value.noConfusion, Value.noConfusion, hne⟩

/-- A string comes back from a text field as it was. -/
theorem keepsForm_text : KeepsForm .text .text := by
  intro r r' hr hr' hne
  match r, r', hr, hr' with
  | .json (.string s), .json (.string s'), _, _ =>
    exact ⟨_, _, rfl, rfl, Value.noConfusion, Value.noConfusion, hne⟩

/-! ### Forms that lose values -/

/-- Lowering an ASCII text is lowering its letters from `A` to `Z`. -/
theorem toLowerCase_eq {s t : String} (h : (s.toList.all fun c => c.toNat.ble 127) = true)
    (hlower : asciiLower s = t) : toLowerCase s = t :=
  (LetterCase.toLowerCase_ascii s fun c hc =>
    Nat.lt_succ_of_le (Nat.le_of_ble_eq_true (List.all_eq_true.mp h c hc))).trans hlower

/-- Two values that are stored alike, or one that is not stored, show a loss. -/
theorem not_keepsForm {f : JsonForm} {pbType : PbType} (r r' : Rendering) (hr : f.Renders r)
    (hr' : f.Renders r') (hne : r.Different r')
    (h : normalizeValueForPocketBase (some r.received) pbType = some .null ∨
      normalizeValueForPocketBase (some r.received) pbType =
        normalizeValueForPocketBase (some r'.received) pbType) : ¬ KeepsForm f pbType := by
  intro hkeeps
  obtain ⟨v, v', hv, hv', hnull, -, hdifferent⟩ := hkeeps r r' hr hr' hne
  rcases h with h | h
  · exact hnull (Option.some.inj (hv.symm.trans h))
  · obtain rfl := Option.some.inj (hv.symm.trans (h.trans hv'))
    exact hdifferent (Value.Same.refl _)

/-- Large integers are read as their neighbours. -/
theorem not_keepsForm_bigint (pbType : PbType) : ¬ KeepsForm (.integer 64) pbType := by
  refine not_keepsForm (.decimal (2 ^ 53) 0) (.decimal (2 ^ 53 + 1) 0) ⟨rfl, by norm_num⟩
    ⟨rfl, by norm_num⟩ (by simp [Rendering.Different]) (Or.inr ?_)
  rw [Rendering.received, Rendering.received, JsNumber.ofFixed_collapse]

/-- No field keeps every decimal of a `numeric` column: large ones lose their last digits. -/
theorem not_keepsForm_numeric (pbType : PbType) : ¬ KeepsForm .numeric pbType := by
  refine not_keepsForm (.decimal (2 ^ 53) 0) (.decimal (2 ^ 53 + 1) 0) trivial trivial
    (by simp [Rendering.Different]) (Or.inr ?_)
  rw [Rendering.received, Rendering.received, JsNumber.ofFixed_collapse]

/-- A string in a JSON column is parsed once more, so that it may come back as another value. -/
theorem not_keepsForm_json : ¬ KeepsForm .json .json :=
  not_keepsForm (.json (.string "true")) (.json (.bool true)) Value.noConfusion Value.noConfusion
    Value.noConfusion (Or.inr rfl)

/-- The text of an array does not tell its elements. -/
theorem not_keepsForm_array : ¬ KeepsForm .array .text :=
  not_keepsForm (.json (.array [])) (.json (.array [.null])) trivial trivial
    (by simp [Rendering.Different, Value.Same]) (Or.inr rfl)

/-- A text that is no number is not stored. -/
theorem normalizeValue_number_of_nan {s : String}
    (h : JsNumber.ofTrimmed (trim s).toList = .nan) :
    normalizeValueForPocketBase (some (.string s)) .number = some .null := by
  simp only [normalizeValueForPocketBase, Value.toJsNumber, Value.toJsString, Option.map_some, h]
  rfl

/-- A number field keeps no string that is not a numeral. -/
theorem not_keepsForm_text_number : ¬ KeepsForm .text .number :=
  not_keepsForm (.json (.string "1 day")) (.json (.string "2 days")) trivial trivial
    (by simp [Rendering.Different, Value.Same])
    (Or.inl (normalizeValue_number_of_nan (by decide +kernel)))

/-- A text that is no truth value is not stored. -/
theorem not_keepsForm_text_bool : ¬ KeepsForm .text .bool := by
  refine not_keepsForm (.json (.string "a")) (.json (.string "b")) trivial trivial
    (by simp [Rendering.Different, Value.Same]) (Or.inl ?_)
  have hlower : toLowerCase (trim "a") = "a" := toLowerCase_eq (by decide) (by decide)
  simp [Rendering.received, normalizeValueForPocketBase, hlower]

/-- White space around a JSON text is not kept. -/
theorem not_keepsForm_text_json : ¬ KeepsForm .text .json :=
  not_keepsForm (.json (.string "true")) (.json (.string " true")) trivial trivial
    (by simp [Rendering.Different, Value.Same]) (Or.inr rfl)

/-! ### The mapping of names -/

/-- The types with a form of their own, with the field types they are mapped to. -/
theorem mapType_named (udtName : Option String) :
    ∀ x ∈ [("smallint", PbType.number), ("integer", .number), ("bigint", .number),
        ("numeric", .number), ("real", .number), ("double precision", .number),
        ("boolean", .bool), ("json", .json), ("jsonb", .json), ("ARRAY", .text)],
      mapPostgresTypeToPocketBaseType (some x.1) udtName = x.2 := by
  intro x hx
  have hascii : (x.1.toList.all fun c => c.toNat.ble 127) = true := by
    revert x
    decide
  have hne : x.1 ≠ "" := by
    revert x
    decide
  rw [mapPostgresTypeToPocketBaseType, sourceTypeOf, if_neg hne, toLowerCase_eq hascii rfl]
  clear hascii hne
  revert x
  decide

/-- The type names that are mapped to text: those without `int` that are not listed and do not end
in `[]`. -/
theorem mapType_eq_text_iff {dataType : String} (hne : dataType ≠ "") (udtName : Option String) :
    mapPostgresTypeToPocketBaseType (some dataType) udtName = .text ↔
      ¬ "int".toList <:+: (toLowerCase dataType).toList ∧
        toLowerCase dataType ∉ ["numeric", "decimal", "real", "double precision", "boolean",
          "json", "jsonb"] ∧
        ¬ "[]".toList <:+ (toLowerCase dataType).toList := by
  rw [mapPostgresTypeToPocketBaseType, sourceTypeOf, if_neg hne]
  split_ifs with h1 h2 h3
  · refine iff_of_false id fun h => ?_
    rcases h1 with hint | hmem
    · exact h.1 hint
    · exact h.2.1 (by simp only [List.mem_cons] at hmem ⊢; tauto)
  · refine iff_of_false id fun h => ?_
    exact h.2.1 (by simp [h2])
  · refine iff_of_false id fun h => ?_
    rcases h3 with hjson | hjsonb | harray
    · exact h.2.1 (by simp [hjson])
    · exact h.2.1 (by simp [hjsonb])
    · exact h.2.2 harray
  · refine iff_of_true rfl ⟨fun h => h1 (Or.inl h), fun h => ?_, fun h => h3 (Or.inr (Or.inr h))⟩
    simp only [List.mem_cons, List.not_mem_nil, or_false] at h h1
    tauto

/-- The mapping of types makes no relation; relations come from foreign keys only. -/
theorem mapType_ne_relation (dataType udtName : Option String) :
    mapPostgresTypeToPocketBaseType dataType udtName ≠ .relation := by
  rw [mapPostgresTypeToPocketBaseType]
  split_ifs <;> exact PbType.noConfusion

/-- Strings are kept in text fields only. -/
theorem keepsForm_text_iff {pbType : PbType} (hrelation : pbType ≠ .relation) :
    KeepsForm .text pbType ↔ pbType = .text := by
  cases pbType with
  | number => exact iff_of_false not_keepsForm_text_number PbType.noConfusion
  | bool => exact iff_of_false not_keepsForm_text_bool PbType.noConfusion
  | json => exact iff_of_false not_keepsForm_text_json PbType.noConfusion
  | text => exact iff_of_true keepsForm_text rfl
  | relation => exact absurd rfl hrelation

/-- The mapping loses nothing for numbers that fit a double, for booleans and for what is stored as
text, arrays apart. -/
theorem TypeDescription.lossless_iff (d : TypeDescription) :
    d.Lossless ↔ d.data_type ∈ ["smallint", "integer", "real", "double precision", "boolean"] ∨
      d.data_type ≠ "ARRAY" ∧
        mapPostgresTypeToPocketBaseType (some d.data_type) (some d.udt_name) = .text := by
  rw [TypeDescription.Lossless, mapType_eq_text_iff d.data_type_ne]

/-- **Form and field type agree exactly for the types mapped without loss.** -/
theorem keepsForm_iff (d : TypeDescription) :
    KeepsForm (jsonForm d.data_type)
        (mapPostgresTypeToPocketBaseType (some d.data_type) (some d.udt_name)) ↔
      d.Lossless := by
  obtain ⟨t, u, hne⟩ := d
  rw [TypeDescription.lossless_iff]
  dsimp only
  by_cases hnamed : t ∈ jsonForms.map Prod.fst
  · have hmap := mapType_named (some u)
    simp only [List.forall_mem_cons] at hmap
    obtain ⟨hsmallint, hinteger, hbigint, hnumeric, hreal, hdouble, hboolean, hjson, hjsonb, harray,
      -⟩ := hmap
    simp only [jsonForms, List.map_cons, List.map_nil, List.mem_cons, List.not_mem_nil,
      or_false] at hnamed
    rcases hnamed with rfl | rfl | rfl | rfl | rfl | rfl | rfl | rfl | rfl | rfl
    · rw [hsmallint]
      exact iff_of_true (keepsForm_integer (by omega)) (by simp)
    · rw [hinteger]
      exact iff_of_true (keepsForm_integer (by omega)) (by simp)
    · rw [hbigint]
      exact iff_of_false (not_keepsForm_bigint _) (by simp)
    · rw [hnumeric]
      exact iff_of_false (not_keepsForm_numeric _) (by simp)
    · rw [hreal]
      exact iff_of_true keepsForm_float (by simp)
    · rw [hdouble]
      exact iff_of_true keepsForm_float (by simp)
    · rw [hboolean]
      exact iff_of_true keepsForm_boolean (by simp)
    · rw [hjson]
      exact iff_of_false not_keepsForm_json (by simp)
    · rw [hjsonb]
      exact iff_of_false not_keepsForm_json (by simp)
    · rw [harray]
      exact iff_of_false not_keepsForm_array (by simp)
  · have hlookup : jsonForms.lookup t = none := by
      rw [List.lookup_eq_none_iff]
      intro x hx
      rw [bne_iff_ne]
      rintro rfl
      exact hnamed (List.mem_map_of_mem hx)
    have hne' : t ∉ ["smallint", "integer", "real", "double precision", "boolean"] := by
      intro h
      refine hnamed ?_
      simp only [jsonForms, List.map_cons, List.map_nil, List.mem_cons, List.not_mem_nil,
        or_false] at h ⊢
      tauto
    have harray : t ≠ "ARRAY" := by
      rintro rfl
      exact hnamed (by decide)
    rw [jsonForm, hlookup, Option.getD_none, keepsForm_text_iff (mapType_ne_relation _ _),
      or_iff_right hne', and_iff_right harray]

/-! ### What the payload holds -/

omit [LetterCase] in
/-- A row with one value converts in its other columns. -/
theorem othersConvert_single (plan : TablePlan) (col : ColumnPlan) (v : Value) :
    OthersConvert plan col [(col.sourceColumn, v)] := by
  intro col' _ hne _
  have hget : Row.get [(col.sourceColumn, v)] col'.sourceColumn = none := by
    rw [Row.get, List.lookup_cons, beq_eq_false_iff_ne.mpr hne]
    rfl
  rw [hget, textThrows]

/-- A row has a payload if its other columns convert and its value has a counterpart. -/
theorem exists_payload {plan : TablePlan} {col : ColumnPlan} (hcol : col ∈ plan.columnPlans)
    (hfk : col.fk = none)
    (hsame : ∀ col' ∈ plan.columnPlans, col'.sourceColumn = col.sourceColumn →
      col'.asksForText = col.asksForText) {row : Row} (hothers : OthersConvert plan col row)
    {v : Value}
    (hv : normalizeValueForPocketBase (row.get col.sourceColumn) col.pbType = some v) :
    ∃ p, buildPass1RecordPayload row plan = some p := by
  refine exists_payload_iff.mpr fun col' hcol' hasks => ?_
  by_cases hsource : col'.sourceColumn = col.sourceColumn
  · rw [hsame col' hcol' hsource, ColumnPlan.asksForText, plan.isForeignKey_eq col hcol, hfk]
      at hasks
    rw [hsource]
    by_contra hthrows
    rw [normalizeValueForPocketBase_eq_none_iff.mpr ⟨by simpa using hasks, by simpa using hthrows⟩]
      at hv
    cases hv
  · exact hothers col' hcol' hsource hasks

/-- The values of a plain column are converted to the type of the field. -/
theorem keepsValues_iff {plan : TablePlan} {col : ColumnPlan} (hcol : col ∈ plan.columnPlans)
    (hfk : col.fk = none)
    (hsame : ∀ col' ∈ plan.columnPlans, col'.sourceColumn = col.sourceColumn →
      col'.asksForText = col.asksForText) (d : TypeDescription) :
    KeepsValues plan col d ↔ KeepsForm (jsonForm d.data_type) col.pbType := by
  constructor
  · intro h r r' hr hr' hne
    have hget (v : Value) : Row.get [(col.sourceColumn, v)] col.sourceColumn = some v :=
      List.lookup_cons_self
    obtain ⟨p, p', v, v', hp, hp', hv, hv', hkept⟩ := h r r' hr hr' hne _ _ (hget _) (hget _)
      (othersConvert_single plan col _) (othersConvert_single plan col _)
    obtain ⟨w, hw, hstored⟩ := buildPass1RecordPayload_plain hcol hfk hp
    obtain ⟨w', hw', hstored'⟩ := buildPass1RecordPayload_plain hcol hfk hp'
    obtain ⟨rfl, -⟩ := Cell.ofValue_eq_value (Option.some.inj (hstored.symm.trans hv))
    obtain ⟨rfl, -⟩ := Cell.ofValue_eq_value (Option.some.inj (hstored'.symm.trans hv'))
    rw [hget] at hw hw'
    exact ⟨w, w', hw, hw', hkept⟩
  · intro h r r' hr hr' hne row row' hrow hrow' hothers hothers'
    obtain ⟨v, v', hv, hv', hkept⟩ := h r r' hr hr' hne
    rw [← hrow] at hv
    rw [← hrow'] at hv'
    obtain ⟨p, hp⟩ := exists_payload hcol hfk hsame hothers hv
    obtain ⟨p', hp'⟩ := exists_payload hcol hfk hsame hothers' hv'
    obtain ⟨w, hw, hstored⟩ := buildPass1RecordPayload_plain hcol hfk hp
    obtain ⟨w', hw', hstored'⟩ := buildPass1RecordPayload_plain hcol hfk hp'
    obtain rfl := Option.some.inj (hw.symm.trans hv)
    obtain rfl := Option.some.inj (hw'.symm.trans hv')
    rw [Cell.ofValue_of_ne hkept.1] at hstored
    rw [Cell.ofValue_of_ne hkept.2.1] at hstored'
    exact ⟨p, p', w, w', hp, hp', hstored, hstored', hkept⟩

/-- **The type mapping keeps the values of some types only.** A plain column of a table's plan,
of the type `information_schema` reports for it: whatever two values it holds, the first pass
stores both and stores them apart, exactly when the type is mapped without loss. -/
theorem typeMapping_keepsValues {tables : List String} {manual : String → List ForeignKey}
    {names : String → Option String} {table : String} {found : TableDiscovery} {plan : TablePlan}
    (hplan : buildTablePlan tables manual names table found = some plan) {col : ColumnPlan}
    (hcol : col ∈ plan.columnPlans) (hfk : col.fk = none) {d : TypeDescription}
    (hd : ∀ column ∈ found.columns, column.column_name = col.sourceColumn →
      column.data_type = some d.data_type ∧ column.udt_name = some d.udt_name) :
    KeepsValues plan col d ↔ d.Lossless := by
  have hplanned := hcol
  rw [buildTablePlan_columnPlans hplan] at hplanned
  obtain ⟨column, hmem, hname, htype⟩ := exists_column_of_mem_planColumns hplanned
  obtain ⟨hdata, hudt⟩ := hd column hmem hname
  have hsame : ∀ col' ∈ plan.columnPlans, col'.sourceColumn = col.sourceColumn →
      col'.asksForText = col.asksForText := by
    intro col' hcol' hsource
    obtain ⟨-, hfk', -⟩ := mem_planColumns (buildTablePlan_columnPlans hplan ▸ hcol')
    obtain ⟨-, hfk₀, -⟩ := mem_planColumns hplanned
    obtain ⟨column', hmem', hname', htype'⟩ :=
      exists_column_of_mem_planColumns (buildTablePlan_columnPlans hplan ▸ hcol')
    obtain ⟨hdata', hudt'⟩ := hd column' hmem' (hname'.trans hsource)
    rw [ColumnPlan.asksForText, ColumnPlan.asksForText, plan.isForeignKey_eq col' hcol',
      plan.isForeignKey_eq col hcol, hfk', hfk₀, hsource, htype, htype', hdata, hudt, hdata', hudt']
  rw [keepsValues_iff hcol hfk hsame, htype, hdata, hudt, keepsForm_iff]

end Mapping

/-! ### Six columns of events that lose values -/

section Example

attribute [local instance] asciiLetterCase

/-- A table of events, with a column for each of several types. -/
def eventsFound : TableDiscovery where
  columns := [⟨"id", some "uuid", some "uuid"⟩, ⟨"title", some "text", some "text"⟩,
    ⟨"delay", some "interval", some "interval"⟩, ⟨"place", some "point", some "point"⟩,
    ⟨"seats", some "int4range", some "int4range"⟩, ⟨"tags", some "ARRAY", some "_text"⟩,
    ⟨"doc", some "jsonb", some "jsonb"⟩, ⟨"total", some "bigint", some "int8"⟩]
  primaryKey := "id"
  autoForeignKeys := []
  primaryKey_ne := id_ne_empty

/-- The plan of the events, as it is made from what was discovered. -/
def eventsPlan : TablePlan :=
  (buildTablePlan ["events"] (fun _ => []) (buildTableToCollectionNameMap ["events"]) "events"
    eventsFound).get (by decide)

/-- No two columns of the events have one name. -/
theorem eventsPlan_sources : ∀ col ∈ eventsPlan.columnPlans, ∀ col' ∈ eventsPlan.columnPlans,
    col'.sourceColumn = col.sourceColumn → col'.asksForText = col.asksForText := by decide

/-- Two different values of a column of the events of which the first pass loses one: it stores
`null` for the first, or the same for both. -/
def Loses (column : String) (d : TypeDescription) (r r' : Rendering) : Prop :=
  ⟨column, some d.data_type, some d.udt_name⟩ ∈ eventsFound.columns ∧
    d.Renders r ∧ d.Renders r' ∧ r.Different r' ∧
    ∃ col ∈ eventsPlan.columnPlans, col.sourceColumn = column ∧ col.fk = none ∧
      (normalizeValueForPocketBase (some r.received) col.pbType = some .null ∨
        normalizeValueForPocketBase (some r.received) col.pbType =
          normalizeValueForPocketBase (some r'.received) col.pbType) ∧
      ¬ KeepsValues eventsPlan col d

/-- A loss is shown by two different values of a column of which the first is stored as null, or
both as the same. -/
theorem Loses.intro {column : String} {d : TypeDescription} {r r' : Rendering} (pbType : PbType)
    (hcolumn : ⟨column, some d.data_type, some d.udt_name⟩ ∈ eventsFound.columns)
    (hcol : ∃ col ∈ eventsPlan.columnPlans, col.sourceColumn = column ∧ col.fk = none ∧
      col.pbType = pbType)
    (hr : d.Renders r) (hr' : d.Renders r') (hne : r.Different r')
    (h : normalizeValueForPocketBase (some r.received) pbType = some .null ∨
      normalizeValueForPocketBase (some r.received) pbType =
        normalizeValueForPocketBase (some r'.received) pbType) : Loses column d r r' := by
  obtain ⟨col, hmem, hsource, hfk, rfl⟩ := hcol
  refine ⟨hcolumn, hr, hr', hne, col, hmem, hsource, hfk, h, ?_⟩
  rw [keepsValues_iff hmem hfk (eventsPlan_sources col hmem)]
  exact not_keepsForm r r' hr hr' hne h

/-- **Values that are lost.** Intervals, points and integer ranges are stored as `null`; two arrays,
two documents and two large integers are stored as one. -/
theorem not_keepsValues_events :
    Loses "delay" ⟨"interval", "interval", by decide⟩
        (.json (.string "1 day")) (.json (.string "2 days")) ∧
      Loses "place" ⟨"point", "point", by decide⟩
        (.json (.string "(1,2)")) (.json (.string "(3,4)")) ∧
      Loses "seats" ⟨"int4range", "int4range", by decide⟩
        (.json (.string "[1,5)")) (.json (.string "[2,6)")) ∧
      Loses "tags" ⟨"ARRAY", "_text", by decide⟩
        (.json (.array [.string "a,b"])) (.json (.array [.string "a", .string "b"])) ∧
      Loses "doc" ⟨"jsonb", "jsonb", by decide⟩
        (.json (.string "true")) (.json (.bool true)) ∧
      Loses "total" ⟨"bigint", "int8", by decide⟩
        (.decimal (2 ^ 53) 0) (.decimal (2 ^ 53 + 1) 0) := by
  have hne {s t : String} (h : s ≠ t) :
      (Rendering.json (.string s)).Different (.json (.string t)) :=
    fun he => h (Value.string.inj he)
  refine ⟨.intro .number (by decide) (by decide) trivial trivial (hne (by decide)) (Or.inl ?_),
    .intro .number (by decide) (by decide) trivial trivial (hne (by decide)) (Or.inl ?_),
    .intro .number (by decide) (by decide) trivial trivial (hne (by decide)) (Or.inl ?_),
    .intro .text (by decide) (by decide) trivial trivial ?_ (Or.inr rfl),
    .intro .json (by decide) (by decide) Value.noConfusion Value.noConfusion Value.noConfusion
      (Or.inr rfl),
    .intro .number (by decide) (by decide) ⟨rfl, by norm_num⟩ ⟨rfl, by norm_num⟩ ?_ (Or.inr ?_)⟩
  · exact normalizeValue_number_of_nan (by decide +kernel)
  · exact normalizeValue_number_of_nan (by decide +kernel)
  · exact normalizeValue_number_of_nan (by decide +kernel)
  · simp [Rendering.Different, Value.Same]
  · simp [Rendering.Different]
  · rw [Rendering.received, Rendering.received, JsNumber.ofFixed_collapse]

/-- The titles of the events: the values of this text column are kept exactly if its type is
lossless. -/
theorem typeMapping_keepsValues_events :
    ∃ col ∈ eventsPlan.columnPlans, col.sourceColumn = "title" ∧
      (KeepsValues eventsPlan col ⟨"text", "text", by decide⟩ ↔
        TypeDescription.Lossless ⟨"text", "text", by decide⟩) := by
  obtain ⟨col, hcol, hsource, hfk⟩ : ∃ col ∈ eventsPlan.columnPlans,
      col.sourceColumn = "title" ∧ col.fk = none := by decide
  have hd : ∀ column ∈ eventsFound.columns, column.column_name = col.sourceColumn →
      column.data_type = some "text" ∧ column.udt_name = some "text" := by
    rw [hsource]
    decide
  exact ⟨col, hcol, hsource, typeMapping_keepsValues (Option.some_get _).symm hcol hfk hd⟩

end Example

end Mogo
