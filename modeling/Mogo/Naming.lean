import Mogo.FreshName
import Mogo.Value

/-!
# Names for PocketBase

PocketBase accepts only lower-case identifiers as names of collections and fields, and two
fields of one collection may not share a name. The script sanitises a source name and then
walks through numbered variants until it meets one that is not in use.

## Main results

* `toPocketBaseFieldName_notMem`, `toPocketBaseCollectionName_notMem`: an allocated name is not
  in use; the walk always ends.
* `freshFrom_suffixed`: the bound on the walk makes no difference.
* `buildTableToCollectionNameMap_injective`: two tables never get one collection.
-/

namespace Mogo

/-- `RESERVED_FIELD_NAMES`: the fields that PocketBase gives to every record, in lower case. -/
def RESERVED_FIELD_NAMES : List String :=
  ["id", "created", "updated", "collectionid", "collectionname", "expand"]

/-- `TABLE_COLLECTION_OVERRIDES`: the tables whose collection is named by the script. -/
def TABLE_COLLECTION_OVERRIDES : List (String × String) :=
  [("User data", "user_data"), ("episodes_MogoFM", "episodes_mogofm"),
    ("comments", "comments_data"), ("store_subscriptions", "store_subscriptions_data")]

/-- The characters `[a-zA-Z0-9_]`. -/
def isNameChar (c : Char) : Bool := c.isAlphanum || c = '_'

/-- `.replace(/_+/g, '_')`: a run of underscores becomes one. -/
def squeezeUnderscores : List Char → List Char
  | '_' :: '_' :: r => squeezeUnderscores ('_' :: r)
  | c :: r => c :: squeezeUnderscores r
  | [] => []

/-- The common part of the two name functions: trim, replace what is not a name character,
squeeze and strip the underscores, lower-case. Only ASCII letters are left to lower. -/
def sanitizeName (rawName : String) : List Char :=
  let replaced := (trim rawName).toList.map fun c => if isNameChar c then c else '_'
  (trimList (· = '_') (squeezeUnderscores replaced)).map Char.toLower

/-- The `n`-th candidate for a name: the name itself, then the name with a numeric suffix. -/
def suffixed (name : String) : ℕ → String
  | 0 => name
  | n + 1 => name ++ "_" ++ toString (n + 1)

/-- The walk through the candidates until one is not in use. -/
def uniqueName (name : String) (usedNames : List String) : String :=
  freshFrom (suffixed name) usedNames usedNames.length 0

/-- `toPocketBaseFieldName`: a clean name that neither starts with a digit nor is reserved, with a
number behind it where it has been used. -/
def toPocketBaseFieldName (rawName : String) (usedNames : List String) : String :=
  let cleaned := sanitizeName rawName
  let name := if cleaned = [] then "field" else String.ofList cleaned
  let name := if (name.toList.head?.any Char.isDigit) then "f_" ++ name else name
  let name := if name ∈ RESERVED_FIELD_NAMES then "src_" ++ name else name
  uniqueName name usedNames

/-- `normalizePocketBaseCollectionName`. -/
def normalizePocketBaseCollectionName (rawName : String) : String :=
  let cleaned := sanitizeName rawName
  let name := if cleaned = [] then "collection" else String.ofList cleaned
  if (name.toList.head?.any Char.isLower) then name else "c_" ++ name

/-- `toPocketBaseCollectionName`; the caller enters the name among the used ones. -/
def toPocketBaseCollectionName (rawName : String) (usedNames : List String) : String :=
  uniqueName (normalizePocketBaseCollectionName rawName) usedNames

/-- The name a table is named after: `TABLE_COLLECTION_OVERRIDES[table]`, as text, when there is
one. -/
def rawCollectionName (table : String) : String :=
  match property TABLE_COLLECTION_OVERRIDES table with
  | .own override => override
  | .inherited => inheritedText table
  | .undefined => table

/-- One turn of `buildTableToCollectionNameMap`. -/
def nameTable (s : List String × (String → Option String)) (table : String) :
    List String × (String → Option String) :=
  let name := toPocketBaseCollectionName (rawCollectionName table) s.1
  (name :: s.1, Function.update s.2 table (some name))

/-- `buildTableToCollectionNameMap`. -/
def buildTableToCollectionNameMap (tables : List String) : String → Option String :=
  (tables.foldl nameTable ([], fun _ => none)).2

/-! ### Allocated names are fresh -/

/-- Distinct numbers have distinct decimal numerals. -/
theorem toString_nat_injective : Function.Injective (toString : ℕ → String) := by
  intro a b h
  have hd : Nat.toDigits 10 a = Nat.toDigits 10 b := by
    rw [← Nat.toList_repr, ← Nat.toList_repr, ← Nat.toString_eq_repr, ← Nat.toString_eq_repr, h]
  rw [← Nat.ofDigitChars_ten_toDigits (n := a), hd, Nat.ofDigitChars_ten_toDigits]

/-- The candidates for a name are pairwise distinct. -/
theorem suffixed_injective (name : String) : Function.Injective (suffixed name) := by
  have hne : ∀ n, suffixed name (n + 1) ≠ name := by
    intro n h
    have hlen := congrArg (fun s => s.toList.length) h
    simp only [suffixed, String.toList_append, List.length_append] at hlen
    have h1 : "_".toList.length = 1 := rfl
    omega
  intro a b h
  match a, b with
  | 0, 0 => rfl
  | 0, b + 1 => exact absurd h.symm (hne b)
  | a + 1, 0 => exact absurd h (hne a)
  | a + 1, b + 1 =>
      simp only [suffixed] at h
      have h' := congrArg String.toList h
      simp only [String.toList_append, List.append_cancel_left_eq] at h'
      exact toString_nat_injective (String.toList_injective h')

/-- The walk through the candidates ends on a name that is not in use. -/
theorem uniqueName_notMem (name : String) (usedNames : List String) :
    uniqueName name usedNames ∉ usedNames :=
  freshFrom_notMem (suffixed_injective name) usedNames le_rfl 0

/-- The source walks without a bound; so a larger budget finds the same name. -/
theorem freshFrom_suffixed (name : String) (usedNames : List String) {budget : ℕ}
    (hb : usedNames.length ≤ budget) :
    freshFrom (suffixed name) usedNames budget 0 = uniqueName name usedNames :=
  freshFrom_le (suffixed_injective name) usedNames le_rfl hb 0

/-- A field name is not in use when it is allocated. -/
theorem toPocketBaseFieldName_notMem (rawName : String) (usedNames : List String) :
    toPocketBaseFieldName rawName usedNames ∉ usedNames :=
  uniqueName_notMem _ usedNames

/-- A collection name is not in use when it is allocated. -/
theorem toPocketBaseCollectionName_notMem (rawName : String) (usedNames : List String) :
    toPocketBaseCollectionName rawName usedNames ∉ usedNames :=
  uniqueName_notMem _ usedNames

/-- The state of `buildTableToCollectionNameMap`: the names handed out are in use, and no two
tables share one. -/
structure NamingInv (s : List String × (String → Option String)) : Prop where
  used : ∀ t n, s.2 t = some n → n ∈ s.1
  injective : ∀ t t' n, s.2 t = some n → s.2 t' = some n → t = t'

/-- Naming one more table keeps the names distinct. -/
theorem NamingInv.nameTable {s : List String × (String → Option String)} (h : NamingInv s)
    (table : String) : NamingInv (nameTable s table) := by
  have hfresh := toPocketBaseCollectionName_notMem (rawCollectionName table) s.1
  rw [Mogo.nameTable]
  constructor
  · intro t n ht
    dsimp only at ht ⊢
    by_cases htt : t = table
    · rw [htt, Function.update_self] at ht
      exact Option.some.inj ht ▸ List.mem_cons_self
    · rw [Function.update_of_ne htt] at ht
      exact List.mem_cons_of_mem _ (h.used t n ht)
  · intro t t' n ht ht'
    dsimp only at ht ht'
    by_cases htt : t = table <;> by_cases htt' : t' = table
    · rw [htt, htt']
    · rw [htt, Function.update_self] at ht
      rw [Function.update_of_ne htt'] at ht'
      exact absurd (Option.some.inj ht ▸ h.used t' n ht') hfresh
    · rw [Function.update_of_ne htt] at ht
      rw [htt', Function.update_self] at ht'
      exact absurd (Option.some.inj ht' ▸ h.used t n ht) hfresh
    · rw [Function.update_of_ne htt] at ht
      rw [Function.update_of_ne htt'] at ht'
      exact h.injective t t' n ht ht'

/-- Naming a list of tables keeps the names distinct. -/
theorem NamingInv.foldl {s : List String × (String → Option String)} (h : NamingInv s)
    (tables : List String) : NamingInv (tables.foldl Mogo.nameTable s) := by
  induction tables generalizing s with
  | nil => exact h
  | cons t ts ih => exact ih (h.nameTable t)

/-- **No two tables share a collection.** -/
theorem buildTableToCollectionNameMap_injective {tables : List String} {t t' n : String}
    (h : buildTableToCollectionNameMap tables t = some n)
    (h' : buildTableToCollectionNameMap tables t' = some n) : t = t' := by
  have hinv : NamingInv (tables.foldl nameTable ([], fun _ => none)) :=
    NamingInv.foldl ⟨fun _ _ h => absurd h (by simp), fun _ _ _ h => absurd h (by simp)⟩ tables
  exact hinv.injective t t' n h h'

/-- Every table of the list has a collection. -/
theorem buildTableToCollectionNameMap_isSome {tables : List String} {t : String}
    (h : t ∈ tables) : (buildTableToCollectionNameMap tables t).isSome = true := by
  have hfold : ∀ (ts : List String) (s : List String × (String → Option String)),
      (t ∈ ts ∨ (s.2 t).isSome = true) → ((ts.foldl nameTable s).2 t).isSome = true := by
    intro ts
    induction ts with
    | nil =>
        rintro s (ht | ht)
        · exact absurd ht List.not_mem_nil
        · exact ht
    | cons a ts ih =>
        intro s hs
        refine ih (nameTable s a) ?_
        by_cases hta : t = a
        · refine Or.inr ?_
          subst hta
          simp only [nameTable, Function.update_self, Option.isSome_some]
        · rcases hs with hs | hs
          · exact Or.inl ((List.mem_cons.mp hs).resolve_left hta)
          · refine Or.inr ?_
            simp only [nameTable, Function.update_of_ne hta, hs]
  exact hfold tables _ (Or.inl h)

example : toPocketBaseFieldName "  User Name! " ["user_name", "old_id"] = "user_name_1" := by
  decide

example : toPocketBaseFieldName "2nd" [] = "f_2nd" := by decide

end Mogo
