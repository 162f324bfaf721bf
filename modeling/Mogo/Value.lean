import Mathlib.Data.List.DropRight
import Mogo.JsNumber

/-!
# JavaScript Values

The values that travel from the source to PocketBase: what a JSON response can hold, with the
conversions of the language that the migration script applies to them. `undefined` is not a
value here; a lookup that may find nothing answers with an `Option`.

Lower-casing is the one library function whose result depends on the Unicode tables of the
engine. The development takes it as an instance of `LetterCase`, a lower-casing function with
the three facts the script relies on, and everything is proved for every instance.

## Main results

* `trim_trim`: trimming twice trims once.
* `mem_of_mem_trimList`, `not_of_trimList_eq_cons`: what is left is of the list, and does not
  begin with what is trimmed.
* `exists_eq_append_trimList`: what trimming cuts off.
* `normalizeOldId_normalized`: a normalised id is its own normalisation.
-/

namespace Mogo

/-- A JSON value. The members of an object stand in the order of their keys' first
occurrences. -/
inductive Value where
  | null
  | bool (b : Bool)
  | number (n : JsNumber)
  | string (s : String)
  | array (l : List Value)
  | object (members : List (String × Value))
  deriving Repr

/-! ### Object literals as dictionaries -/

/-- The properties every object literal inherits from `Object.prototype`. -/
def INHERITED_PROPERTIES : List String :=
  ["constructor", "__defineGetter__", "__defineSetter__", "hasOwnProperty", "__lookupGetter__",
    "__lookupSetter__", "isPrototypeOf", "propertyIsEnumerable", "toString", "valueOf",
    "__proto__", "toLocaleString"]

/-- What `entries[key]` is for an object literal: an entry, an inherited property, or
`undefined`. -/
inductive Property (α : Type) where
  | own (value : α)
  | inherited
  | undefined
  deriving DecidableEq, Repr

/-- `entries[key]`. An entry hides the inherited property of its name. -/
def property {α : Type} (entries : List (String × α)) (key : String) : Property α :=
  match entries.lookup key with
  | some value => .own value
  | none => if key ∈ INHERITED_PROPERTIES then .inherited else .undefined

/-- `String` of the inherited property `key`: a function of the language, or the prototype. -/
def inheritedText (key : String) : String :=
  if key = "__proto__" then "[object Object]"
  else
    "function " ++ (if key = "constructor" then "Object" else key) ++ "() \x7b [native code] \x7d"

/-! ### Text -/

/-- The white space and the line terminators of the language. -/
def isJsSpace (c : Char) : Bool :=
  let n := c.toNat
  (9 ≤ n && n ≤ 13) || n == 32 || n == 0xA0 || n == 0x1680 || (0x2000 ≤ n && n ≤ 0x200A) ||
    n == 0x2028 || n == 0x2029 || n == 0x202F || n == 0x205F || n == 0x3000 || n == 0xFEFF

/-- Cut the elements satisfying `p` off both ends of a list. -/
def trimList {α : Type} (p : α → Bool) (l : List α) : List α :=
  (l.dropWhile p).rdropWhile p

/-- `String.prototype.trim`: white space is cut off on both sides. -/
def trim (s : String) : String := String.ofList (trimList isJsSpace s.toList)

/-- Lower-casing of the letters `A` to `Z` only. -/
def asciiLower (s : String) : String := String.ofList (s.toList.map Char.toLower)

/-- `String.prototype.toLowerCase` of an engine. On ASCII text it lowers `A` to `Z`; lowering
twice lowers once; and lowering a trimmed text neither makes nor removes white space at its
ends. -/
class LetterCase where
  toLowerCase : String → String
  toLowerCase_ascii : ∀ s, (∀ c ∈ s.toList, c.toNat < 128) → toLowerCase s = asciiLower s
  toLowerCase_toLowerCase : ∀ s, toLowerCase (toLowerCase s) = toLowerCase s
  trim_toLowerCase : ∀ s, trim s = s → trim (toLowerCase s) = toLowerCase s

export LetterCase (toLowerCase)

section Trim

variable {α : Type} {p : α → Bool}

/-- A trimmed list does not begin with an element that is trimmed. -/
theorem dropWhile_trimList (l : List α) : (trimList p l).dropWhile p = trimList p l := by
  rcases hrev : trimList p l with - | ⟨a, t⟩
  · rfl
  · obtain ⟨t', ht'⟩ : a :: t <+: l.dropWhile p := hrev ▸ List.rdropWhile_prefix p _
    have hp : p a = false := by
      have := List.head?_dropWhile_not p l
      rw [← ht'] at this
      simpa using this
    rw [List.dropWhile_cons_of_neg (by rw [hp]; exact Bool.false_ne_true)]

/-- Trimming only leaves elements out. -/
theorem mem_of_mem_trimList {l : List α} {a : α} (h : a ∈ trimList p l) : a ∈ l :=
  (List.dropWhile_sublist p).subset ((List.rdropWhile_prefix p _).subset h)

/-- The first element that is left is not one that is trimmed. -/
theorem not_of_trimList_eq_cons {l t : List α} {a : α} (h : trimList p l = a :: t) :
    p a = false := by
  have hdrop := dropWhile_trimList (p := p) l
  rw [h, List.dropWhile_cons] at hdrop
  by_contra hp
  rw [if_pos (Bool.eq_true_of_not_eq_false hp)] at hdrop
  have hlen := (List.dropWhile_sublist (l := t) p).length_le
  rw [hdrop, List.length_cons] at hlen
  omega

/-- Trimming a list twice trims it once. -/
theorem trimList_trimList (l : List α) : trimList p (trimList p l) = trimList p l := by
  rw [trimList, dropWhile_trimList, trimList, List.rdropWhile_idempotent]

/-- What is trimmed makes no difference in front of a list. -/
theorem trimList_append_left {l₁ : List α} (h : ∀ a ∈ l₁, p a = true) (l : List α) :
    trimList p (l₁ ++ l) = trimList p l := by
  rw [trimList, List.dropWhile_append_of_pos h, trimList]

/-- What is trimmed makes no difference behind a list. -/
theorem trimList_append_right {l₂ : List α} (h : ∀ a ∈ l₂, p a = true) (l : List α) :
    trimList p (l ++ l₂) = trimList p l := by
  rw [trimList, trimList, List.dropWhile_append]
  split
  next hnil =>
    rw [List.isEmpty_iff.mp hnil, List.dropWhile_eq_nil_iff.mpr h]
  next =>
    rw [List.rdropWhile, List.rdropWhile, List.reverse_append, List.dropWhile_append_of_pos]
    intro a ha
    exact h a (List.mem_reverse.mp ha)

/-- What trimming cuts off is a beginning and an end of elements that are to be trimmed. -/
theorem exists_eq_append_trimList (p : α → Bool) (l : List α) :
    ∃ l₁ l₂, (∀ a ∈ l₁, p a = true) ∧ (∀ a ∈ l₂, p a = true) ∧ l = l₁ ++ (trimList p l ++ l₂) := by
  refine ⟨l.takeWhile p, (l.dropWhile p).rtakeWhile p, fun a ha => List.mem_takeWhile_imp ha,
    fun a ha => List.mem_rtakeWhile_imp ha, ?_⟩
  rw [trimList, List.rdropWhile_append_rtakeWhile, List.takeWhile_append_dropWhile]

end Trim

/-- Trimming a string twice trims it once. -/
theorem trim_trim (s : String) : trim (trim s) = trim s := by
  rw [trim, trim, String.toList_ofList, trimList_trimList]

/-! ### An engine for ASCII text -/

/-- The lower case of an ASCII capital is 32 code points further on. -/
theorem toNat_toLower (c : Char) :
    c.toLower.toNat = if 65 ≤ c.toNat ∧ c.toNat ≤ 90 then c.toNat + 32 else c.toNat := by
  by_cases h : c.val ≥ 'A'.val ∧ c.val ≤ 'Z'.val
  · have h' : 65 ≤ c.toNat ∧ c.toNat ≤ 90 := h
    rw [Char.toLower, dif_pos h, if_pos h']
    have h2 : c.val.toNat ≤ 90 := h'.2
    show (c.val.toNat + 32) % 2 ^ 32 = c.val.toNat + 32
    omega
  · rw [Char.toLower, dif_neg h, if_neg]
    exact h

/-- Lowering a character neither makes nor removes white space. -/
theorem isJsSpace_toLower (c : Char) : isJsSpace c.toLower = isJsSpace c := by
  simp only [isJsSpace, toNat_toLower]
  grind

/-- Lowering a letter twice lowers it once. -/
theorem toLower_toLower (c : Char) : c.toLower.toLower = c.toLower := by
  refine Char.toNat_inj.mp ?_
  rw [toNat_toLower c.toLower, toNat_toLower c]
  split_ifs <;> omega

/-- Trimming commutes with a map that keeps what is trimmed. -/
theorem trimList_map {α : Type} {p : α → Bool} {f : α → α} (h : ∀ a, p (f a) = p a) (l : List α) :
    trimList p (l.map f) = (trimList p l).map f := by
  have hp : p ∘ f = p := funext h
  rw [trimList, trimList, List.rdropWhile, List.rdropWhile, List.dropWhile_map, hp,
    ← List.map_reverse, List.dropWhile_map, hp, List.map_reverse]

/-- An engine that lowers ASCII letters only. -/
abbrev asciiLetterCase : LetterCase where
  toLowerCase := asciiLower
  toLowerCase_ascii := fun _ _ => rfl
  toLowerCase_toLowerCase := by
    intro s
    simp only [asciiLower, String.toList_ofList, List.map_map, Function.comp_def, toLower_toLower]
  trim_toLowerCase := by
    intro s h
    rw [asciiLower, trim, String.toList_ofList, trimList_map isJsSpace_toLower]
    have hs : trimList isJsSpace s.toList = s.toList := by
      rw [← String.toList_ofList (l := trimList isJsSpace s.toList)]
      exact congrArg String.toList h
    rw [hs]

/-! ### Conversions -/

mutual

/-- `String(value)`, `none` where it throws: the own `toString` of an object that came as JSON is
no function, and it hides the inherited one. -/
def Value.toJsString : Value → Option String
  | .null => some "null"
  | .bool b => some (if b then "true" else "false")
  | .number n => some n.toJsString
  | .string s => some s
  | .array l => joinValues l
  | .object members =>
    match property members "toString" with
    | .own _ => none
    | _ => some "[object Object]"

/-- `Array.prototype.join` with a comma: `null` is printed as nothing. It throws where an element
has no text. -/
def joinValues : List Value → Option String
  | [] => some ""
  | [.null] => some ""
  | [v] => v.toJsString
  | .null :: vs => (joinValues vs).map ("," ++ ·)
  | v :: vs => do
      let s ← v.toJsString
      let rest ← joinValues vs
      pure (s ++ "," ++ rest)

end

/-- `Number(value)`, `none` where it throws. Arrays and objects are turned into text first. -/
def Value.toJsNumber : Value → Option JsNumber
  | .null => some (.zero false)
  | .bool b => some (if b then .finite false 1 1 else .zero false)
  | .number n => some n
  | v => v.toJsString.map fun s => JsNumber.ofTrimmed (trim s).toList

/-- `String` throws on the value; it never does on a missing one. -/
def textThrows : Option Value → Bool
  | none => false
  | some v => v.toJsString.isNone

/-- Where `String` does not throw, there is a text. -/
theorem exists_text_of_textThrows {v : Value} (h : textThrows (some v) = false) :
    ∃ text, v.toJsString = some text :=
  Option.isSome_iff_exists.mp (Option.isNone_eq_false_iff.mp h)

example : (Value.array [.string "a", .null, .number (.finite false 5 1)]).toJsString =
    some "a,,5" := by decide +kernel

example : (Value.array [.object [("toString", .null)]]).toJsString = none := by decide

/-- `normalizeOldId`: the trimmed, lower-cased text of a key, and nothing for a missing or blank
one. Nor is there a key where `String` throws; what that does to a row is up to the caller, who can
ask `textThrows`. -/
def normalizeOldId [LetterCase] : Option Value → Option String
  | none => none
  | some .null => none
  | some v =>
    v.toJsString.bind fun text =>
      let normalized := toLowerCase (trim text)
      if normalized = "" then none else some normalized

/-- A value is normalised to the lower case of its trimmed text, unless this text is empty. -/
theorem normalizeOldId_eq_some_iff [LetterCase] {v : Option Value} {k : String} :
    normalizeOldId v = some k ↔ ∃ u text, v = some u ∧ u ≠ .null ∧ u.toJsString = some text ∧
      toLowerCase (trim text) = k ∧ k ≠ "" := by
  have hkey (text : String) : (if toLowerCase (trim text) = "" then none
      else some (toLowerCase (trim text))) = some k ↔ toLowerCase (trim text) = k ∧ k ≠ "" := by
    grind
  match v with
  | none => simp [normalizeOldId]
  | some .null => simp [normalizeOldId]
  | some (.bool _) | some (.number _) | some (.string _) | some (.array _) | some (.object _) =>
    simp only [normalizeOldId, Option.bind_eq_some_iff, hkey]
    exact ⟨fun ⟨text, h⟩ => ⟨_, text, rfl, Value.noConfusion, h⟩,
      fun ⟨_, text, hv, _, h⟩ => ⟨text, Option.some.inj hv ▸ h⟩⟩

/-- **Normalisation is idempotent.** A normalised id is its own normalisation. -/
theorem normalizeOldId_normalized [LetterCase] {v : Option Value} {k : String}
    (h : normalizeOldId v = some k) : normalizeOldId (some (.string k)) = some k := by
  obtain ⟨-, u, -, -, -, hk, hne⟩ := normalizeOldId_eq_some_iff.mp h
  have htrim : trim k = k := by
    rw [← hk]
    exact LetterCase.trim_toLowerCase _ (trim_trim u)
  have hlow : toLowerCase k = k := by
    rw [← hk]
    exact LetterCase.toLowerCase_toLowerCase _
  simp only [normalizeOldId, Value.toJsString, Option.bind_some, htrim, hlow, if_neg hne]

/-- The empty text normalises to nothing. -/
theorem normalizeOldId_empty [LetterCase] : normalizeOldId (some (.string "")) = none := by
  have hlow : toLowerCase "" = "" := LetterCase.toLowerCase_ascii "" fun c hc =>
    absurd hc List.not_mem_nil
  have htrim : trim "" = "" := rfl
  simp only [normalizeOldId, Value.toJsString, Option.bind_some, htrim, hlow, if_true]

/-- A normalised id is not empty: the empty text is no key. -/
theorem ne_empty_of_normalizeOldId [LetterCase] {v : Option Value} {k : String}
    (h : normalizeOldId v = some k) : k ≠ "" := by
  rintro rfl
  have hnormalized := normalizeOldId_normalized h
  rw [normalizeOldId_empty] at hnormalized
  exact absurd hnormalized (by simp)

/-! ### `JSON.parse` -/

/-- Skip JSON white space, which is less than that of `trim`. -/
def skipJsonSpace (l : List Char) : List Char :=
  l.dropWhile fun c => c = ' ' || c = '\t' || c = '\n' || c = '\r'

/-- The four hexadecimal digits of a `\u` escape. -/
def hexEscape (l : List Char) : Option (ℕ × List Char) :=
  if (l.take 4).length = 4 then
    (JsNumber.digitsValue? 16 (l.take 4)).map fun n => (n, l.drop 4)
  else none

/-- The single-character escapes of a JSON string, by the character behind the backslash. -/
def simpleEscape : Char → Option Char
  | '"' => some '"'
  | '\\' => some '\\'
  | '/' => some '/'
  | 'b' => some (Char.ofNat 8)
  | 'f' => some (Char.ofNat 12)
  | 'n' => some '\n'
  | 'r' => some '\r'
  | 't' => some '\t'
  | _ => none

/-- The rest of a string literal, after its opening quote. An escaped surrogate pair is one
character; an unpaired surrogate, which a JavaScript string can hold and a list of characters
cannot, becomes the replacement character. -/
def jsonString : (fuel : ℕ) → List Char → Option (List Char × List Char)
  | 0, _ => none
  | _ + 1, [] => none
  | _ + 1, '"' :: r => some ([], r)
  | fuel + 1, '\\' :: 'u' :: r => do
      let (n, r) ← hexEscape r
      let low : Option (ℕ × List Char) :=
        match r with
        | '\\' :: 'u' :: r' => (hexEscape r').filter fun x => 0xDC00 ≤ x.1 && x.1 < 0xE000
        | _ => none
      match decide (0xD800 ≤ n ∧ n < 0xDC00), low with
      | true, some (m, r') =>
          let (s, r'') ← jsonString fuel r'
          pure (Char.ofNat (0x10000 + (n - 0xD800) * 0x400 + (m - 0xDC00)) :: s, r'')
      | _, _ =>
          let (s, r') ← jsonString fuel r
          pure ((if 0xD800 ≤ n ∧ n < 0xE000 then Char.ofNat 0xFFFD else Char.ofNat n) :: s, r')
  | fuel + 1, '\\' :: c :: r => do
      let e ← simpleEscape c
      let (s, r) ← jsonString fuel r
      pure (e :: s, r)
  | fuel + 1, c :: r =>
      if c.toNat < 32 ∨ c = '\\' then none
      else do
        let (s, r) ← jsonString fuel r
        pure (c :: s, r)

/-- A number literal: JSON admits no leading zeros, no bare point and no plus sign. -/
def jsonNumber (l : List Char) : Option (JsNumber × List Char) :=
  let neg := l.head? = some '-'
  let u := if neg then l.drop 1 else l
  let text := u.takeWhile fun c => c.isDigit || c = '.' || c = 'e' || c = 'E' || c = '+' || c = '-'
  let whole := text.takeWhile Char.isDigit
  let rest := text.dropWhile Char.isDigit
  let wholeOk := whole = ['0'] || (whole.head?.any fun c => c ≠ '0')
  let fractionOk := match rest with
    | '.' :: c :: _ => c.isDigit
    | '.' :: [] => false
    | _ => true
  if wholeOk && fractionOk then
    (JsNumber.decimalLiteral text).map fun x =>
      (JsNumber.ofDecimal neg x.1 x.2, u.drop text.length)
  else none

/-- Set a member of an object: a later value replaces an earlier one in its place. -/
def setMember (k : String) (v : Value) : List (String × Value) → List (String × Value)
  | [] => [(k, v)]
  | (k', v') :: ms => if k' = k then (k, v) :: ms else (k', v') :: setMember k v ms

mutual

/-- One JSON value and the text behind it. -/
def jsonValue : (fuel : ℕ) → List Char → Option (Value × List Char)
  | 0, _ => none
  | fuel + 1, l =>
    match skipJsonSpace l with
    | 'n' :: 'u' :: 'l' :: 'l' :: r => some (.null, r)
    | 't' :: 'r' :: 'u' :: 'e' :: r => some (.bool true, r)
    | 'f' :: 'a' :: 'l' :: 's' :: 'e' :: r => some (.bool false, r)
    | '"' :: r => (jsonString (r.length + 1) r).map fun x => (.string (String.ofList x.1), x.2)
    | '[' :: r =>
      match skipJsonSpace r with
      | ']' :: r' => some (.array [], r')
      | _ => jsonElements fuel [] r
    | '{' :: r =>
      match skipJsonSpace r with
      | '}' :: r' => some (.object [], r')
      | _ => jsonMembers fuel [] r
    | r => (jsonNumber r).map fun x => (.number x.1, x.2)

/-- The elements of an array, after the opening bracket. -/
def jsonElements : (fuel : ℕ) → List Value → List Char → Option (Value × List Char)
  | 0, _, _ => none
  | fuel + 1, acc, l =>
    match jsonValue fuel l with
    | none => none
    | some (v, r) =>
      match skipJsonSpace r with
      | ',' :: r' => jsonElements fuel (acc ++ [v]) r'
      | ']' :: r' => some (.array (acc ++ [v]), r')
      | _ => none

/-- The members of an object, after the opening brace. -/
def jsonMembers : (fuel : ℕ) → List (String × Value) → List Char → Option (Value × List Char)
  | 0, _, _ => none
  | fuel + 1, acc, l =>
    match skipJsonSpace l with
    | '"' :: r =>
      match jsonString (r.length + 1) r with
      | none => none
      | some (k, r) =>
        match skipJsonSpace r with
        | ':' :: r =>
          match jsonValue fuel r with
          | none => none
          | some (v, r) =>
            match skipJsonSpace r with
            | ',' :: r' => jsonMembers fuel (setMember (String.ofList k) v acc) r'
            | '}' :: r' => some (.object (setMember (String.ofList k) v acc), r')
            | _ => none
        | _ => none
    | _ => none

end

/-- `JSON.parse(text)`, `none` where it throws. Every nesting level and every element costs
characters, so the length of the text is budget enough. -/
def jsonParse (s : String) : Option Value :=
  match jsonValue (2 * s.length + 2) s.toList with
  | some (v, r) => if skipJsonSpace r = [] then some v else none
  | none => none

/-! ### Values for PocketBase -/

/-- The field types of PocketBase that the script uses. -/
inductive PbType where
  | number
  | bool
  | json
  | text
  | relation
  deriving DecidableEq, Repr

/-- `normalizeValueForPocketBase`: fit a source value to the type of its field; `null` stands
for a value that is missing or does not fit. `none` where `String` or `Number` throws. -/
def normalizeValueForPocketBase [LetterCase] (value : Option Value) (pbType : PbType) :
    Option Value :=
  match value with
  | none => some .null
  | some .null => some .null
  | some v =>
    match pbType with
    | .number => v.toJsNumber.map fun n => if n.isFinite then .number n else .null
    | .bool =>
      match v with
      | .bool b => some (.bool b)
      | .number n => some (.bool (n ≠ .zero false ∧ n ≠ .zero true))
      | .string s =>
        let lower := toLowerCase (trim s)
        if lower ∈ ["true", "1", "yes", "y"] then some (.bool true)
        else if lower ∈ ["false", "0", "no", "n"] then some (.bool false)
        else some .null
      | _ => some .null
    | .json =>
      match v with
      | .string s =>
        match jsonParse s with
        | some parsed => some parsed
        | none => some (.object [("value", v)])
      | _ => some v
    | _ => v.toJsString.map .string

/-- The types whose conversion asks for the text of a value that is no string. -/
def PbType.asksForText : PbType → Bool
  | .bool | .json => false
  | _ => true

/-- **Where a conversion throws**: a type that asks for the text of a value that has none. -/
theorem normalizeValueForPocketBase_eq_none_iff [LetterCase] {value : Option Value}
    {pbType : PbType} : normalizeValueForPocketBase value pbType = none ↔
      pbType.asksForText = true ∧ textThrows value = true := by
  match value with
  | none => simp [normalizeValueForPocketBase, textThrows]
  | some .null => simp [normalizeValueForPocketBase, textThrows, Value.toJsString]
  | some (.string s) =>
    cases pbType <;>
      simp only [normalizeValueForPocketBase, textThrows, Value.toJsNumber, Value.toJsString,
        PbType.asksForText, Option.map_some] <;> grind
  | some (.bool _) | some (.number _) =>
    cases pbType <;>
      simp [normalizeValueForPocketBase, textThrows, Value.toJsNumber, Value.toJsString,
        PbType.asksForText]
  | some (.array _) | some (.object _) =>
    cases pbType <;>
      simp [normalizeValueForPocketBase, textThrows, Value.toJsNumber, PbType.asksForText]

end Mogo
