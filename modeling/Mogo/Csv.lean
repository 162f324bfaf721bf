import Mathlib.Data.List.Basic

/-!
# Comma-Separated Records

The texts of a record of fields over an alphabet with a separator and a quote. A field that has
neither may stand for itself. Any field may stand between quotes, with its own quotes doubled.
So a record has several texts: an `EncodesRecord` is one of them, and `encodeRecord` is the one
that quotes no more than it has to.

## Main results

* `EncodesRecord.mem`: a text has no symbols but those of the fields, the separator and the quote.
* `encodesRecord_encodeRecord`: every record of at least one field has a text.
-/

namespace Mogo

namespace Csv

variable {α : Type} [DecidableEq α] {separator quote : α} {field text : List α}
  {fields : List (List α)}

/-- The field with its quotes doubled. -/
def doubled (quote : α) (field : List α) : List α :=
  field.flatMap fun a => if a = quote then [quote, quote] else [a]

/-- The text of a field between quotes. -/
def quotedText (quote : α) (field : List α) : List α := quote :: (doubled quote field ++ [quote])

/-- The texts of a field: the field itself where nothing in it needs quotes, and the quoted text
always. -/
inductive Encodes (separator quote : α) (field : List α) : List α → Prop
  | plain (hseparator : separator ∉ field) (hquote : quote ∉ field) :
      Encodes separator quote field field
  | quoted : Encodes separator quote field (quotedText quote field)

/-- The texts of a record, which has at least one field. -/
inductive EncodesRecord (separator quote : α) : List (List α) → List α → Prop
  | single {field text : List α} (h : Encodes separator quote field text) :
      EncodesRecord separator quote [field] text
  | cons {field text rest : List α} {fields : List (List α)}
      (h : Encodes separator quote field text) (hrest : EncodesRecord separator quote fields rest) :
      EncodesRecord separator quote (field :: fields) (text ++ separator :: rest)

/-! ### The symbols of a text -/

/-- Doubling the quotes of a field brings in no other symbol. -/
theorem mem_doubled {a : α} (h : a ∈ doubled quote field) : a ∈ field := by
  obtain ⟨b, hb, hab⟩ := List.mem_flatMap.mp h
  split at hab
  next hquote =>
    rw [hquote] at hb
    obtain rfl : a = quote := by simpa using hab
    exact hb
  next => exact List.mem_singleton.mp hab ▸ hb

/-- An encoded field is made of its own symbols and quotes. -/
theorem Encodes.mem (h : Encodes separator quote field text) {a : α} (ha : a ∈ text) :
    a = quote ∨ a ∈ field := by
  cases h with
  | plain _ _ => exact Or.inr ha
  | quoted =>
      rw [quotedText, List.mem_cons, List.mem_append, List.mem_singleton] at ha
      rcases ha with rfl | ha | rfl
      · exact Or.inl rfl
      · exact Or.inr (mem_doubled ha)
      · exact Or.inl rfl

/-- **The symbols of a text**: each is a separator, a quote or a symbol of some field. -/
theorem EncodesRecord.mem (h : EncodesRecord separator quote fields text) {a : α}
    (ha : a ∈ text) : a = separator ∨ a = quote ∨ ∃ field ∈ fields, a ∈ field := by
  induction h with
  | single h => exact Or.inr ((h.mem ha).imp_right fun ha => ⟨_, List.mem_singleton_self _, ha⟩)
  | cons h _ ih =>
      rcases List.mem_append.mp ha with ha | ha
      · exact Or.inr ((h.mem ha).imp_right fun ha => ⟨_, List.mem_cons_self, ha⟩)
      · rcases List.mem_cons.mp ha with rfl | ha
        · exact Or.inl rfl
        · refine (ih ha).imp_right (Or.imp_right ?_)
          rintro ⟨field, hfield, ha⟩
          exact ⟨field, List.mem_cons_of_mem _ hfield, ha⟩

/-! ### The shortest text -/

/-- A field is quoted where it has to be. -/
def encode (separator quote : α) (field : List α) : List α :=
  if separator ∈ field ∨ quote ∈ field then quotedText quote field else field

/-- The text of a record that quotes no more than it has to. -/
def encodeRecord (separator quote : α) (fields : List (List α)) : List α :=
  [separator].intercalate (fields.map (encode separator quote))

/-- The encoder gives one of the encodings that are allowed. -/
theorem encodes_encode (field : List α) :
    Encodes separator quote field (encode separator quote field) := by
  rw [encode]
  split
  next => exact .quoted
  next h => exact .plain (fun hs => h (Or.inl hs)) fun hq => h (Or.inr hq)

/-- **Every record has a text**, the one where all fields are quoted. -/
theorem encodesRecord_encodeRecord (h : fields ≠ []) :
    EncodesRecord separator quote fields (encodeRecord separator quote fields) := by
  induction fields with
  | nil => exact absurd rfl h
  | cons field fields ih =>
      rcases fields with - | ⟨next, fields⟩
      · rw [encodeRecord, List.map_singleton, List.intercalate_singleton]
        exact .single (encodes_encode field)
      · rw [encodeRecord, List.map_cons, List.map_cons, List.intercalate_cons_cons,
          List.append_assoc]
        exact .cons (encodes_encode field) (ih (List.cons_ne_nil _ _))

end Csv

end Mogo
