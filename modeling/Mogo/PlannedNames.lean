import Mogo.Plan

/-!
# The Shape of Planned Names

The names a plan gives to fields, and the names the script gives to collections, match
`[a-z][a-z0-9_]*`. Sanitising leaves ASCII letters in lower case, digits and single underscores,
with no underscore at either end; the fallbacks and prefixes turn what does not begin with a
letter into something that does; and the numeric suffix of the search for an unused name keeps
the shape and cannot make a reserved name.

## Main results

* `uniqueName_first`: the search ends, at the first candidate that is not in use.
* `toPocketBaseFieldName_shape`, `toPocketBaseCollectionName_shape`: the shape of one name.
* `buildTablePlan_names`: the names of a plan are of this shape, not reserved, and pairwise
  distinct, and so are the collections of a list of tables.
-/

namespace Mogo

/-- The characters `[a-z0-9_]` of the names that are planned. -/
def isPlannedChar (c : Char) : Bool := c.isLower || c.isDigit || c = '_'

/-- The name matches `[a-z][a-z0-9_]*`. -/
def MatchesName (name : String) : Prop :=
  ∃ c cs, name.toList = c :: cs ∧ c.isLower = true ∧ ∀ d ∈ cs, isPlannedChar d = true

/-! ### Characters -/

/-- A small letter is one between `a` and `z`. -/
theorem isLower_iff (c : Char) : c.isLower = true ↔ 97 ≤ c.toNat ∧ c.toNat ≤ 122 := by
  simp [Char.isLower, UInt32.le_iff_toNat_le]

/-- A capital letter is one between `A` and `Z`. -/
theorem isUpper_iff (c : Char) : c.isUpper = true ↔ 65 ≤ c.toNat ∧ c.toNat ≤ 90 := by
  simp [Char.isUpper, UInt32.le_iff_toNat_le]

/-- A character is a digit if its code is one of those from `0` to `9`. -/
theorem isDigit_iff (c : Char) : c.isDigit = true ↔ 48 ≤ c.toNat ∧ c.toNat ≤ 57 := by
  simp [Char.isDigit, UInt32.le_iff_toNat_le]

/-- An ASCII letter or digit is a lower-case letter or a digit once it is lowered. -/
theorem isLower_or_isDigit_toLower {c : Char} (h : c.isAlphanum = true) :
    c.toLower.isLower = true ∨ c.toLower.isDigit = true := by
  rw [Char.isAlphanum, Char.isAlpha, Bool.or_eq_true, Bool.or_eq_true, isUpper_iff, isLower_iff,
    isDigit_iff] at h
  rw [isLower_iff, isDigit_iff, toNat_toLower]
  split_ifs <;> omega

/-- A name character is a planned one once it is lowered. -/
theorem isPlannedChar_toLower {c : Char} (h : isNameChar c = true) :
    isPlannedChar c.toLower = true := by
  rw [isNameChar, Bool.or_eq_true, decide_eq_true_iff] at h
  rw [isPlannedChar, Bool.or_eq_true, Bool.or_eq_true]
  rcases h with h | rfl
  · exact Or.inl (isLower_or_isDigit_toLower h)
  · exact Or.inr rfl

/-! ### Sanitised names -/

/-- Squeezing underscores only leaves out. -/
theorem mem_of_mem_squeezeUnderscores {l : List Char} {c : Char}
    (h : c ∈ squeezeUnderscores l) : c ∈ l := by
  induction l using squeezeUnderscores.induct with
  | case1 r ih =>
      rw [squeezeUnderscores] at h
      exact List.mem_cons_of_mem _ (ih h)
  | case2 d r hd ih =>
      rw [squeezeUnderscores.eq_2 _ _ hd] at h
      rcases List.mem_cons.mp h with rfl | h
      · exact List.mem_cons_self
      · exact List.mem_cons_of_mem d (ih h)
  | case3 => exact absurd h List.not_mem_nil

/-- What sanitising leaves before lowering: name characters. -/
theorem isNameChar_of_mem_sanitized {rawName : String} {c : Char}
    (h : c ∈ trimList (· = '_') (squeezeUnderscores
      ((trim rawName).toList.map fun c => if isNameChar c then c else '_'))) :
    isNameChar c = true := by
  obtain ⟨d, -, rfl⟩ :=
    List.mem_map.mp (mem_of_mem_squeezeUnderscores (mem_of_mem_trimList h))
  split
  next hd => exact hd
  next => rfl

/-- A sanitised name holds planned characters only. -/
theorem sanitizeName_chars {rawName : String} {c : Char} (h : c ∈ sanitizeName rawName) :
    isPlannedChar c = true := by
  rw [sanitizeName] at h
  obtain ⟨d, hd, rfl⟩ := List.mem_map.mp h
  exact isPlannedChar_toLower (isNameChar_of_mem_sanitized hd)

/-- A sanitised name begins with a letter or a digit. -/
theorem sanitizeName_head {rawName : String} {c : Char} {cs : List Char}
    (h : sanitizeName rawName = c :: cs) : c.isLower = true ∨ c.isDigit = true := by
  rw [sanitizeName] at h
  obtain ⟨d, ds, hsanitized, rfl, -⟩ := List.map_eq_cons_iff.mp h
  have hname : isNameChar d = true :=
    isNameChar_of_mem_sanitized (hsanitized ▸ List.mem_cons_self)
  have hne : d ≠ '_' := by simpa using not_of_trimList_eq_cons hsanitized
  rw [isNameChar, Bool.or_eq_true, decide_eq_true_iff] at hname
  exact isLower_or_isDigit_toLower (hname.resolve_right hne)

/-! ### Building names -/

/-- A name of the shape keeps it when planned characters follow. -/
theorem MatchesName.append {name tail : String} (h : MatchesName name)
    (ht : ∀ c ∈ tail.toList, isPlannedChar c = true) : MatchesName (name ++ tail) := by
  obtain ⟨c, cs, hname, hc, hcs⟩ := h
  refine ⟨c, cs ++ tail.toList, by rw [String.toList_append, hname, List.cons_append], hc, ?_⟩
  intro d hd
  exact (List.mem_append.mp hd).elim (hcs d) (ht d)

/-- All characters of a name of the shape are planned ones. -/
theorem MatchesName.chars {name : String} (h : MatchesName name) {c : Char}
    (hc : c ∈ name.toList) : isPlannedChar c = true := by
  obtain ⟨d, ds, hname, hd, hds⟩ := h
  rw [hname] at hc
  rcases List.mem_cons.mp hc with rfl | hc
  · rw [isPlannedChar, hd, Bool.true_or, Bool.true_or]
  · exact hds c hc

/-- The digits of a suffix are planned characters. -/
theorem isPlannedChar_of_mem_toString {n : ℕ} {c : Char} (h : c ∈ (toString n).toList) :
    isPlannedChar c = true := by
  rw [Nat.toString_eq_repr, Nat.toList_repr] at h
  rw [isPlannedChar, Nat.isDigit_of_mem_toDigits (b := 10) (by omega) (by omega) h, Bool.or_true,
    Bool.true_or]

/-- A candidate has the shape of the name it is made from. -/
theorem MatchesName.suffixed {name : String} (h : MatchesName name) (n : ℕ) :
    MatchesName (Mogo.suffixed name n) := by
  cases n with
  | zero => exact h
  | succ n =>
      refine (h.append ?_).append fun c hc => isPlannedChar_of_mem_toString hc
      intro c hc
      obtain rfl : c = '_' := List.mem_singleton.mp hc
      rfl

/-- No reserved name holds an underscore. -/
theorem notMem_reserved_of_underscore {name : String} (h : '_' ∈ name.toList) :
    name ∉ RESERVED_FIELD_NAMES := by
  have hall : ∀ r ∈ RESERVED_FIELD_NAMES, '_' ∉ r.toList := by decide
  exact fun hr => hall name hr h

/-- A suffix does not make a reserved name. -/
theorem suffixed_notMem_reserved {name : String} (h : name ∉ RESERVED_FIELD_NAMES) (n : ℕ) :
    suffixed name n ∉ RESERVED_FIELD_NAMES := by
  cases n with
  | zero => exact h
  | succ n =>
      refine notMem_reserved_of_underscore ?_
      rw [suffixed, String.toList_append, String.toList_append]
      exact List.mem_append_left _ (List.mem_append_right _ List.mem_cons_self)

/-! ### The search for an unused name -/

/-- **The search ends**: after at most as many turns as there are names in use it stands at the
first candidate that is not one of them, and that is the name it returns. -/
theorem uniqueName_first (name : String) (usedNames : List String) :
    ∃ k ≤ usedNames.length, (∀ j < k, suffixed name j ∈ usedNames) ∧
      suffixed name k ∉ usedNames ∧ uniqueName name usedNames = suffixed name k := by
  have hfresh := uniqueName_notMem name usedNames
  obtain ⟨k, -, hbudget, hall, hk⟩ :=
    freshFrom_eq_cand (suffixed name) usedNames usedNames.length 0
  have hunique : uniqueName name usedNames = suffixed name k := hk
  exact ⟨k, by omega, fun j hj => hall j (Nat.zero_le j) hj, hunique ▸ hfresh, hunique⟩

/-! ### The shape of one name -/

/-- The shape of a field name: the name before the search has it and is not reserved. -/
theorem toPocketBaseFieldName_shape (rawName : String) (usedNames : List String) :
    MatchesName (toPocketBaseFieldName rawName usedNames) ∧
      toPocketBaseFieldName rawName usedNames ∉ RESERVED_FIELD_NAMES := by
  suffices hbase : ∃ name, MatchesName name ∧ name ∉ RESERVED_FIELD_NAMES ∧
      toPocketBaseFieldName rawName usedNames = uniqueName name usedNames by
    obtain ⟨name, hshape, hreserved, he⟩ := hbase
    obtain ⟨k, -, -, -, hk⟩ := uniqueName_first name usedNames
    rw [he, hk]
    exact ⟨hshape.suffixed k, suffixed_notMem_reserved hreserved k⟩
  -- the fallback for a name that sanitises to nothing
  obtain ⟨c, cs, hname, hfirst, hrest⟩ : ∃ c cs, (if sanitizeName rawName = [] then "field"
      else String.ofList (sanitizeName rawName)).toList = c :: cs ∧
      (c.isLower = true ∨ c.isDigit = true) ∧ ∀ d ∈ c :: cs, isPlannedChar d = true := by
    rcases hcleaned : sanitizeName rawName with - | ⟨c, cs⟩
    · exact ⟨'f', ['i', 'e', 'l', 'd'], rfl, Or.inl rfl, by simp [isPlannedChar]⟩
    · rw [if_neg (List.cons_ne_nil c cs), String.toList_ofList]
      exact ⟨c, cs, rfl, sanitizeName_head hcleaned, fun d hd =>
        sanitizeName_chars (hcleaned ▸ hd)⟩
  generalize hfield : (if sanitizeName rawName = [] then "field"
    else String.ofList (sanitizeName rawName)) = name at hname
  -- the prefix for a name that begins with a digit
  have hprefixed : MatchesName (if (name.toList.head?.any Char.isDigit) then "f_" ++ name
      else name) := by
    rw [hname, List.head?_cons, Option.any_some]
    split
    next => exact ⟨'f', '_' :: c :: cs, by rw [String.toList_append, hname]; rfl, rfl, by
      simpa [isPlannedChar] using hrest⟩
    next hdigit =>
      exact ⟨c, cs, hname, hfirst.resolve_right hdigit, fun d hd =>
        hrest d (List.mem_cons_of_mem c hd)⟩
  generalize hprefix : (if (name.toList.head?.any Char.isDigit) then "f_" ++ name
    else name) = name' at hprefixed
  refine ⟨if name' ∈ RESERVED_FIELD_NAMES then "src_" ++ name' else name', ?_, ?_, ?_⟩
  · split
    next =>
      exact MatchesName.append ⟨'s', ['r', 'c', '_'], rfl, rfl, by simp [isPlannedChar]⟩ fun c hc =>
        hprefixed.chars hc
    next => exact hprefixed
  · split
    next =>
      refine notMem_reserved_of_underscore ?_
      rw [String.toList_append]
      exact List.mem_append_left _ (by decide)
    next hnot => exact hnot
  · rw [toPocketBaseFieldName, hfield, hprefix]

/-- A collection name has the shape that PocketBase asks for: a letter or underscore, then word
characters. -/
theorem toPocketBaseCollectionName_shape (rawName : String) (usedNames : List String) :
    MatchesName (toPocketBaseCollectionName rawName usedNames) := by
  suffices hbase : MatchesName (normalizePocketBaseCollectionName rawName) by
    obtain ⟨k, -, -, -, hk⟩ :=
      uniqueName_first (normalizePocketBaseCollectionName rawName) usedNames
    rw [toPocketBaseCollectionName, hk]
    exact hbase.suffixed k
  rw [normalizePocketBaseCollectionName]
  rcases hcleaned : sanitizeName rawName with - | ⟨c, cs⟩
  · exact ⟨'c', ['o', 'l', 'l', 'e', 'c', 't', 'i', 'o', 'n'], rfl, rfl, by simp [isPlannedChar]⟩
  · rw [if_neg (List.cons_ne_nil c cs), String.toList_ofList, List.head?_cons, Option.any_some]
    have hchars : ∀ d ∈ c :: cs, isPlannedChar d = true := fun d hd =>
      sanitizeName_chars (hcleaned ▸ hd)
    split
    next hlower =>
      exact ⟨c, cs, String.toList_ofList, hlower, fun d hd =>
        hchars d (List.mem_cons_of_mem c hd)⟩
    next =>
      refine MatchesName.append ⟨'c', ['_'], rfl, rfl, by simp [isPlannedChar]⟩
        fun d hd => hchars d ?_
      rwa [String.toList_ofList] at hd

/-! ### The names of a plan -/

/-- The planned fields have the shape of field names. -/
theorem planColumns_shape [LetterCase] {primaryKey : String}
    {foreignKeyByColumn : String → Option PlannedForeignKey} {columns : List ColumnInfo}
    {usedNames : List String} {n : String}
    (h : n ∈ (planColumns primaryKey foreignKeyByColumn columns usedNames).flatMap
      ColumnPlan.fieldNames) : MatchesName n ∧ n ∉ RESERVED_FIELD_NAMES := by
  induction columns generalizing usedNames with
  | nil => exact absurd h List.not_mem_nil
  | cons column columns ih =>
      rw [planColumns] at h
      split at h
      next => exact ih h
      next =>
        rw [List.flatMap_cons, List.mem_append] at h
        rcases h with h | h
        · rcases List.mem_cons.mp h with rfl | h
          · exact toPocketBaseFieldName_shape _ _
          · obtain ⟨fk, -, rfl⟩ := Option.map_eq_some_iff.mp (Option.mem_toList.mp h)
            exact toPocketBaseFieldName_shape _ _
        · exact ih h

/-- The collections of a list of tables have the shape of collection names. -/
theorem buildTableToCollectionNameMap_shape {tables : List String} {t n : String}
    (h : buildTableToCollectionNameMap tables t = some n) : MatchesName n := by
  have hfold : ∀ (ts : List String) (s : List String × (String → Option String)),
      (∀ t n, s.2 t = some n → MatchesName n) →
        ∀ t n, (ts.foldl nameTable s).2 t = some n → MatchesName n := by
    intro ts
    induction ts with
    | nil => exact fun s hs => hs
    | cons a ts ih =>
        intro s hs
        refine ih (nameTable s a) fun t n ht => ?_
        rw [nameTable] at ht
        dsimp only at ht
        by_cases hta : t = a
        · rw [hta, Function.update_self] at ht
          exact Option.some.inj ht ▸ toPocketBaseCollectionName_shape _ _
        · rw [Function.update_of_ne hta] at ht
          exact hs t n ht
  exact hfold tables ([], fun _ => none) (fun t n h => absurd h (by simp)) t n h

/-- **Planned names are valid and never collide.** Every search for a name ends at the first
candidate that is not in use; the field names of a plan, with `old_id`, are pairwise distinct,
match `[a-z][a-z0-9_]*` and are not reserved; and the tables of a list get pairwise distinct
collections whose names match it too. -/
theorem buildTablePlan_names [LetterCase] {tables : List String}
    {manual : String → List ForeignKey} {tableToCollectionName : String → Option String}
    {table : String} {found : TableDiscovery} {plan : TablePlan}
    (h : buildTablePlan tables manual tableToCollectionName table found = some plan) :
    (∀ name usedNames, ∃ k ≤ usedNames.length, (∀ j < k, suffixed name j ∈ usedNames) ∧
        suffixed name k ∉ usedNames ∧ uniqueName name usedNames = suffixed name k) ∧
      plan.fieldNames.Nodup ∧
      (∀ n ∈ plan.fieldNames, MatchesName n ∧ n ∉ RESERVED_FIELD_NAMES) ∧
      ∀ names : List String, ∀ t ∈ names, ∃ n, buildTableToCollectionNameMap names t = some n ∧
        MatchesName n ∧ ∀ t' ∈ names, buildTableToCollectionNameMap names t' = some n → t' = t := by
  refine ⟨uniqueName_first, plan.names_nodup, fun n hn => ?_, fun names t ht => ?_⟩
  · rw [TablePlan.fieldNames, buildTablePlan_columnPlans h] at hn
    rcases List.mem_cons.mp hn with rfl | hn
    · exact ⟨⟨'o', ['l', 'd', '_', 'i', 'd'], rfl, rfl, by simp [isPlannedChar]⟩, by decide⟩
    · exact planColumns_shape hn
  · obtain ⟨n, hn⟩ := Option.isSome_iff_exists.mp (buildTableToCollectionNameMap_isSome ht)
    exact ⟨n, hn, buildTableToCollectionNameMap_shape hn, fun t' _ ht' =>
      buildTableToCollectionNameMap_injective ht' hn⟩

section Example

attribute [local instance] asciiLetterCase

/-- A table whose column names sanitise to the same text, to a temporary name, to nothing, and to
names that a field may not have. -/
def clashesFound : TableDiscovery where
  columns := ["id", "user id", "user-id", "user_id_old", "2nd", "Created", "old_id", "!"].map
    fun name => ⟨name, none, none⟩
  primaryKey := "id"
  autoForeignKeys := []
  primaryKey_ne := id_ne_empty

/-- The plan of the table, whose column `user id` refers to `users`. -/
def clashesPlan : Option TablePlan :=
  buildTablePlan ["clashes"] (fun _ => [⟨"user id", ⟨"users", "id"⟩⟩])
    (buildTableToCollectionNameMap ["clashes"]) "clashes" clashesFound

/-- The field names of a table whose columns clash with each other, with `old_id` and with system
fields. -/
theorem buildTablePlan_names_clashes :
    ∃ plan, clashesPlan = some plan ∧ plan.fieldNames.Nodup ∧
      plan.fieldNames = ["old_id", "user_id", "user_id_old", "user_id_1", "user_id_old_1",
        "f_2nd", "src_created", "old_id_1", "field"] :=
  ⟨clashesPlan.get (by decide), (Option.some_get _).symm,
    (buildTablePlan_names (h := (Option.some_get (by decide : clashesPlan.isSome)).symm)).2.1,
    by decide +kernel⟩

end Example

end Mogo
