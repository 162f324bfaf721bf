import Mogo.FreshRows

/-!
# Rows and Records

The first pass identifies rows by their normalised keys and records by their normalised old ids.
This module says when that identification is faithful: when a pass leaves no two records with one
old id, and when it leaves one record to each row.

## Main results

* `noDuplicates_iff`: a pass keeps the old ids distinct exactly when it writes no row whose key
  is on a page it could not read.
* `oneRecordPerRow_iff`: a pass into an empty collection leaves one record to each row exactly
  when the normalised keys are distinct and every row converts.
-/

namespace Mogo

open Script

section Duplicates

variable [LetterCase]

/-! ### Distinct old ids -/

/-- No two records share a normalised old id. -/
def NoDuplicates (l : List Record) : Prop := (l.filterMap Record.key).Nodup

/-- The records on the pages that did not get into a map. -/
def unreadRecords (o : Oracle) (cfg : Config) (table name label : String) (w : World) :
    List Record :=
  (w.records name).drop (readRecords o cfg table name label w).length

omit [LetterCase] in
/-- What was read and what was not make up the collection. -/
theorem readRecords_append_unread (o : Oracle) (cfg : Config) (table name label : String)
    (w : World) :
    readRecords o cfg table name label w ++ unreadRecords o cfg table name label w =
      w.records name := by
  obtain ⟨rest, hrest⟩ : readRecords o cfg table name label w <+: w.records name := by
    have hprefix := readPages_prefix cfg.pageSize
      (fun p => o (.mapPage table label p) = .ok) (w.records name)
      (max 1 (totalPages cfg.pageSize (w.records name).length)) 0
    rwa [Nat.zero_mul, List.drop_zero] at hprefix
  rw [unreadRecords, ← hrest, List.drop_left]

/-- The keys of a list of records, from what an index sees of them. -/
theorem filterMap_key_eq {plan : TablePlan} {accepts : String → Bool}
    (hold : accepts "old_id" = true) (l : List Record) :
    l.filterMap Record.key = (l.map (rowUpsert plan hold).pair).filterMap Prod.snd := by
  rw [List.filterMap_map]
  rfl

/-- A collection without the field `old_id` gains no old id in a pass. -/
theorem migrateTablePass1_keys_of_not_hasField {o : Oracle} {cfg : Config} {src : SourceTable}
    {plan : TablePlan} {w₀ : World} (h : w₀.pb.hasField plan.pbCollection "old_id" = false) :
    ((migrateTablePass1 o cfg src plan w₀).2.records plan.pbCollection).filterMap Record.key =
      (w₀.records plan.pbCollection).filterMap Record.key := by
  let I : World → Prop := fun w => w.pb.hasField plan.pbCollection "old_id" = false ∧
    (w.records plan.pbCollection).filterMap Record.key =
      (w₀.records plan.pbCollection).filterMap Record.key
  have hkey : ∀ (w : World) (p : Payload) (r : Record), I w →
      (r.write (w.pb.accepted plan.pbCollection p)).key = r.key := by
    intro w p r hw
    have hnone : (w.pb.accepted plan.pbCollection p).get? "old_id" = none := by
      rw [PocketBase.accepted, Payload.get?_filter (w.pb.hasField plan.pbCollection), hw.1]
      rfl
    rw [Record.key, Record.key, Record.write_fields_of_none hnone]
  have hrow : ∀ row ∈ src.rows, ∀ index map, Triple I (migrateRow o plan row index map)
      (fun _ => I) I := by
    intro row _ index map
    refine migrateRow_rule (J := fun _ => I) ?_ ?_ fun w hw => hw
    · rintro oldId w - - hw
      have hnew : (w.pb.newRecord plan.pbCollection (rowPayload plan row oldId)).key = none :=
        (hkey w _ _ hw).trans (Record.key_empty _)
      refine ⟨hw.1, ?_⟩
      rw [World.noteWrite_records, World.addRecord_records_self, List.filterMap_append,
        List.filterMap_cons_none hnew, List.filterMap_nil, List.append_nil, hw.2]
    · rintro oldId id w - - hw
      refine ⟨hw.1, ?_⟩
      rw [World.noteWrite_records, World.editRecord_records_self,
        filterMap_modifyAt fun r _ _ => hkey w _ r hw, hw.2]
  have htriple : Triple I (migrateTablePass1 o cfg src plan) (fun _ => I) I :=
    migrateTablePass1_rule (J := fun _ => I) (fun _ _ hw _ => hw) hrow (fun _ _ hw => hw)
      fun _ hw => hw
  exact (htriple.final ⟨h, rfl⟩).2

/-- **When a pass makes no duplicates.** Let no two records of a collection share a normalised old
id, and let any pattern of calls fail. After the pass that is still so exactly when, in a
collection with an `old_id` field, no delivered row whose key is carried by a record on an unread
page has its write answered. -/
theorem noDuplicates_iff (fails : Call → Bool) (cfg : Config) (src : SourceTable)
    (plan : TablePlan) (w : World) (hstart : NoDuplicates (w.records plan.pbCollection)) :
    NoDuplicates ((migrateTablePass1 (failing fails) cfg src plan w).2.records
        plan.pbCollection) ↔
      (w.pb.hasField plan.pbCollection "old_id" = true →
        ∀ a ∈ deliveredRows (failing fails) cfg src plan,
          ∀ r ∈ unreadRecords (failing fails) cfg plan.table plan.pbCollection
              ("PASS1/" ++ plan.pbCollection) w,
            r.key = some a.oldId → rowOk (failing fails) plan a = false) := by
  cases hfield : w.pb.hasField plan.pbCollection "old_id" with
  | false =>
      rw [NoDuplicates, migrateTablePass1_keys_of_not_hasField hfield]
      exact ⟨fun _ h => absurd h (by simp), fun _ => hstart⟩
  | true =>
      obtain ⟨map', w', hrun, -, hview⟩ :=
        migrateTablePass1_run (failing_uninterrupted fails) hfield rfl cfg src
      have hsplit := readRecords_append_unread (failing fails) cfg plan.table plan.pbCollection
        ("PASS1/" ++ plan.pbCollection) w
      have hsound := view_sound plan hfield (failing fails) cfg plan.table
        ("PASS1/" ++ plan.pbCollection) w
      obtain ⟨made, hpairs, hnodup, hmade⟩ :=
        Upsert.upsertAll_pairs (rowOk (failing fails) plan) hsound
          (deliveredRows (failing fails) cfg src plan)
      have hkeys : (w'.records plan.pbCollection).filterMap Record.key =
          (w.records plan.pbCollection).filterMap Record.key ++ made.map Prod.snd := by
        have htable : w'.records plan.pbCollection = _ := congrArg UpsertState.table hview
        rw [filterMap_key_eq hfield, htable, hpairs, List.filterMap_append,
          filterMap_key_eq hfield (w.records plan.pbCollection)]
        congr 1
        rw [List.filterMap_map, ← List.filterMap_eq_map]
        rfl
      rw [hrun, NoDuplicates, hkeys, List.nodup_append]
      have hnew : ∀ k, k ∈ made.map Prod.snd ↔
          (∀ r ∈ readRecords (failing fails) cfg plan.table plan.pbCollection
            ("PASS1/" ++ plan.pbCollection) w, r.key ≠ some k) ∧
          ∃ a ∈ deliveredRows (failing fails) cfg src plan,
            a.oldId = k ∧ rowOk (failing fails) plan a = true := fun k =>
        (hmade k).trans (and_congr_left' indexOf_eq_none_iff)
      constructor
      · rintro ⟨-, -, hdisjoint⟩ - a ha r hr hra
        by_contra hok
        have hread : ∀ r' ∈ readRecords (failing fails) cfg plan.table plan.pbCollection
            ("PASS1/" ++ plan.pbCollection) w, r'.key ≠ some a.oldId := by
          intro r' hr' hra'
          rw [NoDuplicates, ← hsplit, List.filterMap_append, List.nodup_append] at hstart
          exact hstart.2.2 a.oldId (List.mem_filterMap.mpr ⟨r', hr', hra'⟩) a.oldId
            (List.mem_filterMap.mpr ⟨r, hr, hra⟩) rfl
        have hmem : a.oldId ∈ made.map Prod.snd :=
          (hnew _).mpr ⟨hread, a, ha, rfl, by simpa using hok⟩
        have hold : a.oldId ∈ (w.records plan.pbCollection).filterMap Record.key := by
          rw [← hsplit]
          exact List.mem_filterMap.mpr ⟨r, List.mem_append_right _ hr, hra⟩
        exact hdisjoint _ hold _ hmem rfl
      · intro hcond
        refine ⟨hstart, hnodup, fun k hk k' hk' he => ?_⟩
        subst he
        obtain ⟨hread, a, ha, rfl, hok⟩ := (hnew k).mp hk'
        obtain ⟨r, hr, hra⟩ := List.mem_filterMap.mp hk
        rw [← hsplit] at hr
        rcases List.mem_append.mp hr with hr | hr
        · exact hread r hr hra
        · exact absurd (hcond rfl a ha r hr hra) (by rw [hok]; simp)

end Duplicates

section Example

attribute [local instance] asciiLetterCase

/-- A table of users with one column. -/
def usersPlan : TablePlan where
  table := "users"
  pbCollection := "users"
  primaryKey := "id"
  columnPlans := [⟨"name", "text", "name", .text, false, none, none⟩]
  foreignKeys := []
  names_nodup := by decide
  isForeignKey_eq := by decide
  fkTempField_isSome := by decide
  primaryKey_ne := id_ne_empty
  fk_mem := by decide

/-- The collection of the users, with the users `a` and `b`. -/
def usersWorld : World :=
  let fields := [⟨"old_id", .text, true, none⟩, ⟨"name", .text, false, none⟩]
  let pb := (PocketBase.installed schemaServer).addCollection "users" fields fun _ h =>
    absurd h List.not_mem_nil
  let pb := pb.addRecord "users" [("old_id", .value (.string "a"))]
  ⟨pb.addRecord "users" [("old_id", .value (.string "b"))], fun _ _ => none⟩

/-- A configuration that lists one record to a page. -/
def onePerPage : Config := ⟨1000, 1, defaultBatchSize_pos, Nat.one_pos⟩

/-- A source with the single user `b`. -/
def usersSource : SourceTable := .ofRows [[("id", .string "b"), ("name", .string "Bea")]]

/-- The second page of the map is lost. -/
def secondPageLost : Call → Bool := fun c => c = .mapPage "users" "PASS1/users" 2

/-- **A duplicate.** The user `b` is on the page that was lost, so its row creates a second
record. -/
theorem not_noDuplicates_secondPageLost :
    NoDuplicates (usersWorld.records "users") ∧
      ¬ NoDuplicates ((migrateTablePass1 (failing secondPageLost) onePerPage usersSource
        usersPlan usersWorld).2.records "users") := by
  have hkeys : ((migrateTablePass1 (failing secondPageLost) onePerPage usersSource
      usersPlan usersWorld).2.records "users").filterMap Record.key = ["a", "b", "b"] := by
    decide
  refine ⟨by rw [NoDuplicates]; decide, ?_⟩
  rw [NoDuplicates, hkeys]
  decide

/-- A source with the single user `a`. -/
def adaSource : SourceTable := .ofRows [[("id", .string "a"), ("name", .string "Ada")]]

/-- The condition for the users: the record of `a` is on the page that was read, so its row makes no
second one, although the other page is lost; the one of `b` is on the lost page. -/
theorem noDuplicates_iff_users :
    NoDuplicates ((migrateTablePass1 (failing secondPageLost) onePerPage adaSource
        usersPlan usersWorld).2.records "users") ∧
      ¬ NoDuplicates ((migrateTablePass1 (failing secondPageLost) onePerPage usersSource
        usersPlan usersWorld).2.records "users") := by
  have hstart : NoDuplicates (usersWorld.records usersPlan.pbCollection) := by
    rw [NoDuplicates]
    decide
  refine ⟨(noDuplicates_iff secondPageLost onePerPage adaSource usersPlan usersWorld
    hstart).mpr ?_, fun hnodup => ?_⟩
  · decide
  · have hcondition := (noDuplicates_iff secondPageLost onePerPage usersSource usersPlan usersWorld
      hstart).mp hnodup
    revert hcondition
    decide

end Example

section OneRecord

variable [LetterCase]

/-! ### One record to each row -/

/-- A record holds a row: every field of the plan holds what the payload of the row says. -/
def HoldsRow (plan : TablePlan) (row : Row) (r : Record) : Prop :=
  ∃ k, rowKey plan row = some k ∧
    ∀ n ∈ plan.fieldNames, (rowPayload plan row k).get? n = some (r.fields n)

/-- The records of a collection are one record to each row, each with the payload of its row. -/
def OneRecordPerRow (plan : TablePlan) (rows : List Row) (l : List Record) : Prop :=
  ∃ l', l'.Perm l ∧ List.Forall₂ (HoldsRow plan) rows l'

/-- A record that holds a row is found under the key of the row. -/
theorem HoldsRow.key_eq {plan : TablePlan} {row : Row} {r : Record} (h : HoldsRow plan row r) :
    r.key = normalizeOldId (row.get plan.primaryKey) := by
  obtain ⟨k, hk, hfields⟩ := h
  have hid : some (r.fields "old_id") = some (.value (.string k)) := by
    rw [← hfields "old_id" List.mem_cons_self, rowPayload_old_id]
  rw [Record.key, Option.some.inj hid, (rowKey_eq_some_iff.mp hk).1]
  exact normalizeOldId_normalized (rowKey_eq_some_iff.mp hk).1

/-- A record that was made of a row holds it, if the collection has the fields of the plan. -/
theorem StoredRow.holdsRow {plan : TablePlan} {accepts : String → Bool} {row : Row} {r : Record}
    (h : StoredRow plan accepts row r) (hall : ∀ n ∈ plan.fieldNames, accepts n = true) :
    HoldsRow plan row r := by
  obtain ⟨k, hk, hfields⟩ := h
  refine ⟨k, hk, fun n hn => ?_⟩
  have hsome : ((rowPayload plan row k).get? n).isSome = true := (rowPayload_isSome_iff hk).mpr hn
  obtain ⟨c, hc⟩ := Option.isSome_iff_exists.mp hsome
  rw [hfields n, if_pos (hall n hn), hc, Option.getD_some]

/-- A record holds only a row that converts. -/
theorem OneRecordPerRow.rowConverts {plan : TablePlan} {rows : List Row} {l : List Record}
    (h : OneRecordPerRow plan rows l) : ∀ row ∈ rows, RowConverts plan row := by
  obtain ⟨l', -, hrows⟩ := h
  have hboth := hrows.imp (S := fun row r => RowConverts plan row ∧ HoldsRow plan row r)
    fun row r hr => ⟨(rowKey_eq_some_iff.mp hr.choose_spec.1).2, hr⟩
  exact ((List.forall₂_and_left rows l').mp hboth).1

section AllOk

variable {plan : TablePlan} {accepts : String → Bool} (hold : accepts "old_id" = true) {w : World}
  (hacc : w.pb.hasField plan.pbCollection = accepts)
include hold hacc

/-- After a pass into an empty collection with every call answered, the old ids are distinct. -/
theorem keys_nodup_of_empty (hempty : w.records plan.pbCollection = []) {cfg : Config}
    {src : SourceTable} {w' : World}
    (hrun : migrateTablePass1 allOk cfg src plan w = (some (), w')) :
    ((w'.records plan.pbCollection).map Record.key).Nodup := by
  obtain ⟨map', w₁, hrun₁, -, hview⟩ := migrateTablePass1_allOk hold hacc cfg src
  obtain rfl : w₁ = w' := by
    rw [hrun₁] at hrun
    exact (Prod.mk.inj hrun).2
  have hsound := view_sound plan hold allOk cfg plan.table "" w
  rw [readRecords_allOk] at hsound
  obtain ⟨made, hpairs, hnodup, -⟩ := Upsert.upsertAll_pairs (rowOk allOk plan) hsound
    (deliveredRows allOk cfg src plan)
  have htable : w₁.records plan.pbCollection = _ := congrArg UpsertState.table hview
  have hnil : (w.view plan.pbCollection (indexOf Record.key Record.id
      (w.records plan.pbCollection))).table = [] := hempty
  rw [hnil, List.map_nil, List.nil_append, ← htable] at hpairs
  have hkeys := congrArg (List.map Prod.snd) hpairs
  rw [List.map_map, List.map_map] at hkeys
  have hsome : (w₁.records plan.pbCollection).map Record.key =
      (made.map Prod.snd).map some := by
    rw [List.map_map]
    exact hkeys
  rw [hsome]
  exact hnodup.map (Option.some_injective _)

/-- **When a pass merges no rows.** Let the collection carry its plan and be empty, let every call
be answered, and let every row have a usable key. The pass leaves one record to each row, with
the payload of that row, exactly when the normalised keys are pairwise distinct and every row
converts. -/
theorem oneRecordPerRow_of_carries (hall : ∀ n ∈ plan.fieldNames, accepts n = true)
    (hempty : w.records plan.pbCollection = []) {cfg : Config} {src : SourceTable}
    (hbatch : cfg.batchSize ≤ src.maxRows)
    (hkeys : ∀ row ∈ src.rows, (normalizeOldId (row.get plan.primaryKey)).isSome = true) :
    OneRecordPerRow plan src.rows
        ((migrateTablePass1 allOk cfg src plan w).2.records plan.pbCollection) ↔
      (src.rows.map fun row => normalizeOldId (row.get plan.primaryKey)).Nodup ∧
        ∀ row ∈ src.rows, RowConverts plan row := by
  constructor
  · intro h
    have hconverts := h.rowConverts
    obtain ⟨l, hperm, hrows⟩ := h
    obtain ⟨map', w', hrun, -, -⟩ := migrateTablePass1_allOk hold hacc cfg src
    rw [hrun] at hperm
    refine ⟨?_, hconverts⟩
    rw [← map_key_eq (fun _ _ h => HoldsRow.key_eq h) hrows]
    exact (hperm.map _).nodup_iff.mpr (keys_nodup_of_empty hold hacc hempty hrun)
  · rintro ⟨hnodup, hconverts⟩
    obtain ⟨w', hrun, -, hrows⟩ := migrateTablePass1_fresh hold hacc hempty hbatch
      (fun row hrow => rowKey_of_converts (hconverts row hrow) ▸ hkeys row hrow)
      (map_rowKey_of_converts hconverts ▸ hnodup)
    rw [hrun]
    exact ⟨_, List.Perm.refl _, hrows.imp fun _ _ h => h.holdsRow hall⟩

end AllOk

/-- **When the first pass merges no rows**, for the primary key the script discovers. -/
theorem oneRecordPerRow_iff {catalog : InformationSchema} {schema table : String}
    {tables : List String} {manual : String → List ForeignKey} {names : String → Option String}
    {found : TableDiscovery}
    (hpk : found.primaryKey = discoverPrimaryKey catalog table schema found.columns)
    {plan : TablePlan} (hplan : buildTablePlan tables manual names table found = some plan)
    (cfg : Config) (src : SourceTable) (hbatch : cfg.batchSize ≤ src.maxRows) (w : World)
    (hcarries : w.pb.Carries plan) (hempty : w.records plan.pbCollection = [])
    (hkeys : ∀ row ∈ src.rows, (normalizeOldId
      (row.get (discoverPrimaryKey catalog table schema found.columns))).isSome = true) :
    OneRecordPerRow plan src.rows
        ((migrateTablePass1 allOk cfg src plan w).2.records plan.pbCollection) ↔
      (src.rows.map fun row => normalizeOldId
        (row.get (discoverPrimaryKey catalog table schema found.columns))).Nodup ∧
        ∀ row ∈ src.rows, RowConverts plan row := by
  rw [← hpk, ← (buildTablePlan_spec hplan).2.2.1] at hkeys ⊢
  exact oneRecordPerRow_of_carries (hcarries "old_id" List.mem_cons_self) rfl hcarries hempty
    hbatch hkeys

omit [LetterCase] in
/-- One record to each row means as many records as rows. -/
theorem OneRecordPerRow.length_eq [LetterCase] {plan : TablePlan} {rows : List Row}
    {l : List Record} (h : OneRecordPerRow plan rows l) : rows.length = l.length := by
  obtain ⟨l', hperm, hrows⟩ := h
  rw [hrows.length_eq, hperm.length_eq]

end OneRecord

/-! ### Three ways to merge rows, and two to lose them -/

section Example

attribute [local instance] asciiLetterCase

/-- A table of items without a column `id`. -/
def itemsFound : TableDiscovery where
  columns := [⟨"code", some "text", none⟩, ⟨"part", some "text", none⟩]
  primaryKey := "code"
  autoForeignKeys := []
  primaryKey_ne := by decide

/-- The plan of the items, with the primary key that was discovered. -/
def itemsPlan : TablePlan :=
  (buildTablePlan ["items"] (fun _ => []) (buildTableToCollectionNameMap ["items"]) "items"
    itemsFound).get (by decide)

/-- A catalog that declares a primary key of the items. -/
def itemsCatalog (readable : Bool) (key : List String) : InformationSchema where
  constraints :=
    [⟨"public", "items", "items_pkey", .primaryKey, key.map fun c => (c, ⟨"items", c⟩)⟩]
  tableConstraintsReadable := readable
  keyColumnUsageReadable := readable
  constraintColumnUsageReadable := readable

/-- A row of the items, with its code and its part. -/
def item (code part : String) : Row := [("code", .string code), ("part", .string part)]

/-- The empty collection of the items. -/
def itemsWorld : World where
  pb := (PocketBase.installed schemaServer).addCollection "items"
    [⟨"old_id", .text, true, none⟩, ⟨"part", .text, false, none⟩] fun _ h =>
      absurd h List.not_mem_nil
  lastPayload := fun _ _ => none

/-- The records after a pass over some items. -/
def itemsRecords (src : SourceTable) : List Record :=
  (migrateTablePass1 allOk onePerPage src itemsPlan itemsWorld).2.records "items"

/-- An item whose part has no text. -/
def wordlessItem : Row := [("code", .string "1"), ("part", .object [("toString", .null)])]

/-- **Rows that are merged or lost.** The discovered key is `code` for a primary key on `code`, for
one on `code` and `part`, and without readable metadata. Two codes that differ in case, two items
that share the first key column and two items that share the first column are merged; an item with a
part that has no text is lost; and a source that answers with fewer rows than were asked for loses
the rest. -/
theorem not_oneRecordPerRow_items :
    (∀ catalog ∈ [itemsCatalog true ["code"], itemsCatalog true ["code", "part"],
        itemsCatalog false []],
      discoverPrimaryKey catalog "items" "public" itemsFound.columns = itemsFound.primaryKey) ∧
    (∀ rows ∈ [[item "A" "x", item "a" "y"], [item "1" "x", item "1" "y"], [wordlessItem]],
      ¬ OneRecordPerRow itemsPlan rows (itemsRecords (.ofRows rows))) ∧
    ¬ OneRecordPerRow itemsPlan [item "1" "x", item "2" "y"]
      (itemsRecords { SourceTable.ofRows [item "1" "x", item "2" "y"] with
        maxRows := 1, maxRows_pos := Nat.one_pos }) := by
  refine ⟨by decide, fun rows hrows h => ?_, fun h => ?_⟩
  · simp only [List.mem_cons, List.not_mem_nil, or_false] at hrows
    rcases hrows with rfl | rfl | rfl
    · exact absurd h.length_eq (by decide)
    · exact absurd h.length_eq (by decide)
    · exact absurd h.length_eq (by decide)
  · exact absurd h.length_eq (by decide)

/-- Two items with different codes, which is the column that the catalogue names as their key. -/
theorem oneRecordPerRow_iff_items :
    OneRecordPerRow itemsPlan [item "1" "x", item "2" "y"]
        (itemsRecords (.ofRows [item "1" "x", item "2" "y"])) ↔
      ([item "1" "x", item "2" "y"].map fun row => normalizeOldId (row.get (discoverPrimaryKey
        (itemsCatalog true ["code"]) "items" "public" itemsFound.columns))).Nodup ∧
        ∀ row ∈ [item "1" "x", item "2" "y"], RowConverts itemsPlan row := by
  have hcarries : itemsWorld.pb.Carries itemsPlan := by
    rw [PocketBase.Carries]
    decide
  have hpk : itemsFound.primaryKey = discoverPrimaryKey (itemsCatalog true ["code"]) "items"
      "public" itemsFound.columns := by decide
  exact oneRecordPerRow_iff hpk (Option.some_get _).symm onePerPage
    (.ofRows [item "1" "x", item "2" "y"]) (by decide) itemsWorld hcarries rfl (by decide)

end Example

end Mogo
