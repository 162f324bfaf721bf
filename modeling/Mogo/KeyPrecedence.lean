import Mogo.Plan

/-!
# Three Sources of Foreign Keys

A plan takes its foreign keys from the catalog, from the guesses made of column names, and from
the manual list. `mergeForeignKeys` lets its second argument win, and the plan merges the guesses
second: a guess takes the place of a declared key, where the other discovery functions use a guess
only when the catalog has no answer.

## Main results

* `keyFor_mergeForeignKeys`: a merge is right-biased, column by column.
* `TablePlan.keyOf_eq`: the key of a column in a plan is the manual one, else the guessed one,
  else the declared one.
* `declaredWins_iff`: when a column gets the key it should.
-/

namespace Mogo

/-- The last key of a list for a column: what a map from columns to keys holds for it after it is
filled from the list. -/
def keyFor (keys : List ForeignKey) (column : String) : Option ForeignKey :=
  keys.reverse.find? fun fk => fk.column = column

/-- A planned key without the collection. -/
def PlannedForeignKey.toForeignKey (fk : PlannedForeignKey) : ForeignKey :=
  ⟨fk.column, fk.references⟩

/-- The key of a column in a plan: `foreignKeyByColumn.get(column)`. -/
def TablePlan.keyOf (plan : TablePlan) (column : String) : Option PlannedForeignKey :=
  plan.foreignKeys.reverse.find? fun fk => fk.column = column

/-! ### Merging keys -/

/-- Without declared keys no column has one. -/
theorem keyFor_nil (column : String) : keyFor [] column = none := rfl

/-- Among keys that follow one another the later ones win. -/
theorem keyFor_append (keys keys' : List ForeignKey) (column : String) :
    keyFor (keys ++ keys') column = (keyFor keys' column).or (keyFor keys column) := by
  rw [keyFor, List.reverse_append, List.find?_append, keyFor, keyFor]

/-- A single declared key is found for its own column and no other. -/
theorem keyFor_singleton (fk : ForeignKey) (column : String) :
    keyFor [fk] column = if fk.column = column then some fk else none := by
  rw [keyFor, List.reverse_singleton, List.find?_singleton]
  simp only [decide_eq_true_eq]

/-- The first key for a column is the last one when no column has two. -/
theorem keyFor_eq_find? {keys : List ForeignKey} (h : (keys.map ForeignKey.column).Nodup)
    (column : String) : keyFor keys column = keys.find? fun fk => fk.column = column := by
  induction keys with
  | nil => rfl
  | cons fk keys ih =>
      rw [List.map_cons, List.nodup_cons] at h
      rw [← List.singleton_append, keyFor_append, keyFor_singleton, ih h.2, List.singleton_append,
        List.find?_cons]
      by_cases hcolumn : fk.column = column
      · have hnone : (keys.find? fun fk => fk.column = column) = none := by
          rw [List.find?_eq_none]
          intro fk' hfk' heq
          exact h.1 (List.mem_map.mpr ⟨fk', hfk', (of_decide_eq_true heq).trans hcolumn.symm⟩)
        rw [hnone, if_pos hcolumn, Option.none_or, decide_eq_true hcolumn]
      · rw [if_neg hcolumn, Option.or_none, decide_eq_false hcolumn]

/-- Setting a key changes the columns of a list by at most its own. -/
theorem mem_columns_setForeignKey {fk : ForeignKey} {keys : List ForeignKey} {column : String} :
    column ∈ (setForeignKey fk keys).map ForeignKey.column ↔
      column = fk.column ∨ column ∈ keys.map ForeignKey.column := by
  induction keys with
  | nil => simp [setForeignKey]
  | cons fk' keys ih =>
      rw [setForeignKey]
      split
      next heq => simp [heq]
      next =>
        rw [List.map_cons, List.mem_cons, ih, List.map_cons, List.mem_cons]
        exact or_left_comm

/-- Setting a key keeps one key to a column. -/
theorem nodup_setForeignKey {fk : ForeignKey} {keys : List ForeignKey}
    (h : (keys.map ForeignKey.column).Nodup) :
    ((setForeignKey fk keys).map ForeignKey.column).Nodup := by
  induction keys with
  | nil => exact List.nodup_singleton fk.column
  | cons fk' keys ih =>
      rw [List.map_cons, List.nodup_cons] at h
      rw [setForeignKey]
      split
      next heq => exact List.nodup_cons.mpr (heq ▸ h)
      next hne =>
        rw [List.map_cons, List.nodup_cons, mem_columns_setForeignKey, not_or]
        exact ⟨⟨hne, h.1⟩, ih h.2⟩

/-- The key set is found for its column, and the other columns keep theirs. -/
theorem find?_setForeignKey (fk : ForeignKey) (keys : List ForeignKey) (column : String) :
    ((setForeignKey fk keys).find? fun fk => fk.column = column) =
      if fk.column = column then some fk else keys.find? fun fk => fk.column = column := by
  induction keys with
  | nil => rw [setForeignKey, List.find?_singleton]; simp
  | cons fk' keys ih =>
      rw [setForeignKey]
      split
      next heq =>
        rw [List.find?_cons, List.find?_cons, heq]
        by_cases hcolumn : fk.column = column <;> simp [hcolumn]
      next hne =>
        rw [List.find?_cons, List.find?_cons, ih]
        by_cases hcolumn : fk.column = column
        · have hne' : fk'.column ≠ column := fun h => hne (h.trans hcolumn.symm)
          simp [hcolumn, hne']
        · simp [hcolumn]

/-- After a run of settings a column has the key that was set for it last, else the one it had
before. -/
theorem foldl_setForeignKey {keys : List ForeignKey} (new : List ForeignKey)
    (h : (keys.map ForeignKey.column).Nodup) :
    ((new.foldl (fun l fk => setForeignKey fk l) keys).map ForeignKey.column).Nodup ∧
      ∀ column, keyFor (new.foldl (fun l fk => setForeignKey fk l) keys) column =
        (keyFor new column).or (keyFor keys column) := by
  induction new generalizing keys with
  | nil => exact ⟨h, fun column => rfl⟩
  | cons fk new ih =>
      have hset : ((setForeignKey fk keys).map ForeignKey.column).Nodup := nodup_setForeignKey h
      obtain ⟨hnodup, hkey⟩ := ih hset
      refine ⟨hnodup, fun column => ?_⟩
      rw [List.foldl_cons, hkey, ← List.singleton_append, keyFor_append, keyFor_singleton,
        keyFor_eq_find? hset, find?_setForeignKey, ← keyFor_eq_find? h]
      by_cases hcolumn : fk.column = column
      · rw [if_pos hcolumn, if_pos hcolumn, Option.or_assoc, Option.some_or]
      · rw [if_neg hcolumn, if_neg hcolumn, Option.or_none]

/-- **A merge is right-biased**, column by column. -/
theorem keyFor_mergeForeignKeys (keys keys' : List ForeignKey) (column : String) :
    keyFor (mergeForeignKeys keys keys') column =
      (keyFor keys' column).or (keyFor keys column) := by
  have hempty : (([] : List ForeignKey).map ForeignKey.column).Nodup := List.nodup_nil
  rw [mergeForeignKeys, (foldl_setForeignKey (keys ++ keys') hempty).2, keyFor_append,
    keyFor_nil, Option.or_none]

/-! ### The key of a planned column -/

section Plan

variable [LetterCase] {tables : List String} {manual : String → List ForeignKey}
  {tableToCollectionName : String → Option String} {table : String} {found : TableDiscovery}
  {plan : TablePlan}

/-- The keys guessed from the column names of a table. -/
def guessedKeys (tables : List String) (table : String) (found : TableDiscovery) :
    List ForeignKey :=
  inferForeignKeysFromColumnNames found.columns table tables found.primaryKey

/-- **The key of a column in a plan**: the manual one, else the guessed one, else the declared
one. -/
theorem TablePlan.keyOf_eq
    (h : buildTablePlan tables manual tableToCollectionName table found = some plan)
    (column : String) : (plan.keyOf column).map PlannedForeignKey.toForeignKey =
      (keyFor (manual table) column).or ((keyFor (guessedKeys tables table found) column).or
        (keyFor found.autoForeignKeys column)) := by
  rw [TablePlan.keyOf, (buildTablePlan_spec h).2.2.2, planForeignKeys, ← List.map_reverse,
    List.find?_map, Option.map_map, guessedKeys, ← keyFor_mergeForeignKeys,
    ← keyFor_mergeForeignKeys, keyFor]
  exact congrFun Option.map_id _

/-- The column has the key it should: the manual one, else the declared one, else the guessed
one. And if there is any, and it is not the primary key, it is planned, as a foreign key. -/
structure DeclaredWins (tables : List String) (manual : String → List ForeignKey)
    (table : String) (found : TableDiscovery) (plan : TablePlan) (column : String) : Prop where
  key : (plan.keyOf column).map PlannedForeignKey.toForeignKey =
    (keyFor (manual table) column).or ((keyFor found.autoForeignKeys column).or
      (keyFor (guessedKeys tables table found) column))
  planned : column ∈ found.columns.map ColumnInfo.column_name → column ≠ found.primaryKey →
    ∃ col ∈ plan.columnPlans, col.sourceColumn = column
  notPlain : column ≠ found.primaryKey → (column ∈ (manual table).map ForeignKey.column ∨
      column ∈ found.autoForeignKeys.map ForeignKey.column ∨
      column ∈ (guessedKeys tables table found).map ForeignKey.column) →
    ∀ col ∈ plan.columnPlans, col.sourceColumn = column →
      col.isForeignKey = true ∧ col.fk.isSome = true ∧ col.fk = plan.keyOf column

omit [LetterCase] in
/-- A column of a list of keys has a key. -/
theorem isSome_keyFor_iff {keys : List ForeignKey} {column : String} :
    (keyFor keys column).isSome = true ↔ column ∈ keys.map ForeignKey.column := by
  rw [keyFor, List.find?_isSome, List.mem_map]
  simp only [List.mem_reverse, decide_eq_true_eq]

/-- **When declared keys win over guesses.** A column gets the key it should exactly when there is
a manual key for it, or no declared one, or no guess, or the guess is the declared key. -/
theorem declaredWins_iff
    (h : buildTablePlan tables manual tableToCollectionName table found = some plan)
    (column : String) :
    DeclaredWins tables manual table found plan column ↔
      (keyFor (manual table) column).isSome = true ∨ keyFor found.autoForeignKeys column = none ∨
        keyFor (guessedKeys tables table found) column = none ∨
        keyFor (guessedKeys tables table found) column = keyFor found.autoForeignKeys column := by
  have hkey := TablePlan.keyOf_eq h column
  have hcolumns := buildTablePlan_columnPlans h
  constructor
  · rintro ⟨hwins, -, -⟩
    rw [hkey] at hwins
    rcases hmanual : keyFor (manual table) column with - | fk
    · rw [hmanual, Option.none_or, Option.none_or] at hwins
      rcases hdeclared : keyFor found.autoForeignKeys column with - | declared
      · exact Or.inr (Or.inl rfl)
      · rcases hguess : keyFor (guessedKeys tables table found) column with - | guess
        · exact Or.inr (Or.inr (Or.inl rfl))
        · rw [hdeclared, hguess] at hwins
          exact Or.inr (Or.inr (Or.inr hwins))
    · exact Or.inl rfl
  · intro hcond
    refine ⟨?_, ?_, ?_⟩
    · rw [hkey]
      rcases hcond with hmanual | hdeclared | hguess | heq
      · obtain ⟨fk, hfk⟩ := Option.isSome_iff_exists.mp hmanual
        rw [hfk, Option.some_or, Option.some_or]
      · rw [hdeclared, Option.or_none, Option.none_or]
      · rw [hguess, Option.or_none, Option.none_or]
      · rw [heq]
    · rintro hmem hne
      obtain ⟨info, hinfo, rfl⟩ := List.mem_map.mp hmem
      rw [hcolumns]
      exact exists_mem_planColumns hinfo hne
    · rintro - hany col hcol rfl
      rw [hcolumns] at hcol
      obtain ⟨-, hfk, hisForeignKey, -⟩ := mem_planColumns hcol
      have hsome : col.fk.isSome = true := by
        rw [hfk, ← Option.isSome_map (f := PlannedForeignKey.toForeignKey), ← TablePlan.keyOf,
          hkey, Option.isSome_or, Option.isSome_or, Bool.or_eq_true, Bool.or_eq_true,
          isSome_keyFor_iff, isSome_keyFor_iff, isSome_keyFor_iff]
        exact hany.imp_right Or.symm
      exact ⟨hisForeignKey.trans hsome, hsome, hfk⟩

end Plan

section Example

attribute [local instance] asciiLetterCase

/-- The tables of the example, parents first. -/
def storeTables : List String := ["User data", "store_ad_packs", "store_coin_packs", "transactions"]

/-- A table whose column `store_id` is declared to refer to `store_coin_packs`. -/
def transactionsFound : TableDiscovery where
  columns := ["id", "user_id", "store_id"].map fun name => ⟨name, some "uuid", none⟩
  primaryKey := "id"
  autoForeignKeys :=
    [⟨"user_id", ⟨"User data", "id"⟩⟩, ⟨"store_id", ⟨"store_coin_packs", "id"⟩⟩]
  primaryKey_ne := id_ne_empty

/-- The plan of the table of transactions, whose keys the script declares. -/
def transactionsPlan : TablePlan :=
  (buildTablePlan storeTables (fun _ => []) (buildTableToCollectionNameMap storeTables)
    "transactions" transactionsFound).get (by decide)

/-- **A guess for a declared key.** The first table whose name begins with `store` takes the place
of the declared one. -/
theorem not_declaredWins_store_id :
    (transactionsPlan.keyOf "store_id").map PlannedForeignKey.toForeignKey =
        some ⟨"store_id", ⟨"store_ad_packs", "id"⟩⟩ ∧
      ¬ DeclaredWins storeTables (fun _ => []) "transactions" transactionsFound transactionsPlan
        "store_id" := by
  have hkey : (transactionsPlan.keyOf "store_id").map PlannedForeignKey.toForeignKey =
      some ⟨"store_id", ⟨"store_ad_packs", "id"⟩⟩ := by decide
  refine ⟨hkey, fun hwins => ?_⟩
  have hdeclared := hwins.key
  rw [hkey] at hdeclared
  exact absurd hdeclared (by decide)

/-- The column `user_id` is declared to refer to the table that is guessed too. -/
theorem declaredWins_iff_user_id :
    DeclaredWins storeTables (fun _ => []) "transactions" transactionsFound transactionsPlan
      "user_id" :=
  (declaredWins_iff (h := (Option.some_get _).symm) "user_id").mpr
    (Or.inr (Or.inr (Or.inr (by decide))))

end Example

end Mogo
