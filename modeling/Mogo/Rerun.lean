import Mogo.Conservation

/-!
# Running the Migration Again

What a further run over an unchanged source makes of a relation that is set. The first pass empties
it and sends its key back to the temporary field, and only the second pass restores it; so after a
run with failing calls the relation may be gone, and with duplicates of the old id it may point to
another record with that old id. Where all calls are answered and there are no duplicates, it
points to the same record again.

## Main results

* `Tracked.rowWritten`, `Tracked.patch`: what the two passes do to one column of one record.
* `rerun_relation`: what has become of the relation after the run.
* `not_keepsRelation_notes`: it may be gone, and it may point to another record.
-/

namespace Mogo

open Script

section Rerun

variable [LetterCase]

/-! ### Following one column of one record -/

/-- The rows of a table with one key agree on the value of a column. -/
def RowsAgree (source : Source) (plan : TablePlan) (col : ColumnPlan) : Prop :=
  ∀ row ∈ (source plan.table).rows, ∀ row' ∈ (source plan.table).rows, ∀ k,
    rowKey plan row = some k → rowKey plan row' = some k →
      normalizeOldId (row.get col.sourceColumn) = normalizeOldId (row'.get col.sourceColumn)

/-- The record `id`, whose key is `oldId` if it has one: the value `v` of a column waits, or has
become a relation to one of the records `P`. -/
structure Tracked (plan : TablePlan) (rel : RelationColumn) (id : RecordId) (oldId : String)
    (v : Option String) (P : RecordId → Prop) (w : World) : Prop where
  fields : ∀ n ∈ rel.names, w.pb.hasField plan.pbCollection n = true
  record : ∃ r ∈ w.records plan.pbCollection, r.id = id ∧ (∀ k, r.key = some k → k = oldId) ∧
    (Waiting rel r v ∨ Resolved rel r P)

section Steps

variable {m : MigrationPlan} {plan p : TablePlan} {col : ColumnPlan} {rel : RelationColumn}
  {id : RecordId} {oldId : String} {v : Option String} {P : RecordId → Prop} {w w' : World}

/-- A reference that is tracked to a record is tracked to what is known of that record. -/
theorem Tracked.imp {Q : RecordId → Prop} (h : Tracked plan rel id oldId v P w)
    (hPQ : ∀ i, P i → Q i) : Tracked plan rel id oldId v Q w := by
  obtain ⟨r, hr, hid, hkey, hstate⟩ := h.record
  exact ⟨h.fields, r, hr, hid, hkey, hstate.imp_right fun hres => hres.imp hPQ⟩

/-- A step that leaves the records of the table alone. -/
theorem Tracked.of_records (h : Tracked plan rel id oldId v P w)
    (hcoll : w'.pb.collections = w.pb.collections)
    (hrecords : w'.records plan.pbCollection = w.records plan.pbCollection) :
    Tracked plan rel id oldId v P w' := by
  refine ⟨fun n hn => ?_, hrecords ▸ h.record⟩
  rw [PocketBase.hasField_of_collections hcoll]
  exact h.fields n hn

/-- **A write of the first pass.** If it hits the record, it writes a row with the same value. -/
theorem Tracked.rowWritten (h : Tracked plan rel id oldId v P w) (hcol : col ∈ plan.columnPlans)
    (hrel : relationColumn? col = some rel) {row : Row} {oldId' : String} {id' : RecordId}
    (hrowKey : rowKey plan row = some oldId') (hwritten : RowWritten plan row oldId' id' w w')
    (hrow : id' = id → normalizeOldId (row.get col.sourceColumn) = v) :
    Tracked plan rel id oldId v P w' := by
  obtain ⟨r, hr, rfl, hkey, hstate⟩ := h.record
  refine ⟨fun n hn => ?_, ?_⟩
  · rw [PocketBase.hasField_of_collections hwritten.collections]
    exact h.fields n hn
  obtain ⟨r', hr', hid', hkey'⟩ := hwritten.keeps.exists_record hr
  refine ⟨r', hr', hid', fun k hk => hkey k (hkey' ▸ hk), ?_⟩
  rcases hwritten.record r' hr' with ⟨hold, -⟩ | ⟨hit, -, r₀, -, rfl⟩
  · rwa [eq_of_ident_eq (w.pb.ids_nodup _) hold hr hid']
  · left
    rw [← hrow (hit.symm.trans hid')]
    exact waiting_write hcol hrel h.fields hrowKey r₀

/-- **A patch of the second pass** takes the value on to a record with its key. -/
theorem Tracked.patch {x : Option Value} {k : String} (hx : normalizeOldId x = some k)
    (h : Tracked plan rel id oldId (some k) (PointsTo m w rel k) w) (hrel : rel ∈ fkColumns plan)
    (hp : p ∈ m.plans) (hplan : plan ∈ m.plans) {record : Record}
    (hrecord : record ∈ w.records p.pbCollection) {maps : RelationMaps} (hmaps : MapsOf m maps w) :
    Tracked plan rel id oldId (some k)
      (PointsTo m (w.editRecord p.pbCollection record.id
        (patchFrom maps record (fkColumns p) [])) rel k)
      (w.editRecord p.pbCollection record.id (patchFrom maps record (fkColumns p) [])) := by
  have hkeeps : Keeps w (w.editRecord p.pbCollection record.id
      (patchFrom maps record (fkColumns p) [])) :=
    Keeps.of_idKeys fun n => World.editRecord_idKeys (patchFrom_old_id maps record p) ..
  refine Tracked.imp ?_ fun i hi => PointsTo.keeps hi hkeeps
  by_cases hne : plan.pbCollection = p.pbCollection
  · obtain rfl : plan = p := MigrationPlan.eq_of_pbCollection_eq hplan hp hne
    obtain ⟨r, hr, rfl, hkey, hstate⟩ := h.record
    refine ⟨h.fields, ?_⟩
    rw [World.editRecord_records_self]
    by_cases hid : r.id = record.id
    · obtain rfl := eq_of_ident_eq (w.pb.ids_nodup _) hr hrecord hid
      refine ⟨_, mem_modifyAt.mpr (Or.inr ⟨r, hr, rfl, rfl⟩), rfl, fun k' hk' => hkey k' ?_, ?_⟩
      · rw [← hk', Record.key_write]
        rw [PocketBase.accepted_get?, patchFrom_old_id, ite_self]
      · have hconserved : Conserved m w rel r (normalizeOldId x) :=
          hx ▸ hstate.imp_right fun hres => ⟨k, rfl, hres⟩
        have hafter := hconserved.patch hmaps hrel h.fields
        rw [hx] at hafter
        refine hafter.imp_right ?_
        rintro ⟨k', hk', hres⟩
        rwa [Option.some.inj hk']
    · exact ⟨r, mem_modifyAt.mpr (Or.inl ⟨hr, hid⟩), rfl, hkey, hstate⟩
  · exact h.of_records rfl (World.editRecord_records_of_ne hne ..)

end Steps

/-! ### The two passes -/

section Passes

variable {m : MigrationPlan} {source : Source} {plan : TablePlan} {col : ColumnPlan}
  {rel : RelationColumn} {id : RecordId} {oldId : String}

/-- **The first pass** follows the rows with the key of the record. -/
theorem tracked_pass1 (o : Oracle) (cfg : Config) {w₀ : World} {P : RecordId → Prop}
    (hplan : plan ∈ m.plans) (hcol : col ∈ plan.columnPlans)
    (hrel : relationColumn? col = some rel) {v : Option String}
    (hrows : ∀ row ∈ (source plan.table).rows, rowKey plan row = some oldId →
      normalizeOldId (row.get col.sourceColumn) = v) :
    Triple (fun w => Tracked plan rel id oldId v P w ∧ Keeps w₀ w) (pass1 o cfg m source)
      (fun _ w => Tracked plan rel id oldId v P w ∧ Keeps w₀ w)
      (fun w => Tracked plan rel id oldId v P w ∧ Keeps w₀ w) := by
  refine Triple.forEach_invariant (fun p hp _ => ?_) ()
  have hp := mem_orderedPlans.mp hp
  refine migrateTablePass1_writes
    (J := fun map w => (Tracked plan rel id oldId v P w ∧ Keeps w₀ w) ∧
      (p = plan → ∀ k, map k = some id → k = oldId)) ?_ ?_ ?_ fun map w hJ => hJ.1
  · rintro map w hI hmapOf
    refine ⟨hI, ?_⟩
    rintro rfl k hk
    obtain ⟨r, hr, hid, hkey, -⟩ := hI.1.record
    obtain ⟨r', hr', hid', hkey'⟩ := hmapOf k id hk
    obtain rfl := eq_of_ident_eq (w.pb.ids_nodup _) hr' hr (hid'.trans hid.symm)
    exact hkey k hkey'
  · rintro row hrow oldId' hrowKey id' map w w' hentry ⟨⟨htracked, hkeeps⟩, hmap⟩ hwritten
    refine ⟨⟨?_, hkeeps.trans hwritten.keeps⟩, hmap⟩
    by_cases hne : plan.pbCollection = p.pbCollection
    · obtain rfl : plan = p := MigrationPlan.eq_of_pbCollection_eq hplan hp hne
      refine htracked.rowWritten hcol hrel hrowKey hwritten ?_
      rintro rfl
      rw [hmap rfl oldId' hentry] at hrowKey
      exact hrows row hrow hrowKey
    · exact htracked.of_records hwritten.collections (hwritten.records _ hne)
  · rintro row hrow oldId' hrowKey map w w' ⟨⟨htracked, hkeeps⟩, hmap⟩ hwritten
    have hfresh : p = plan → w.pb.nextId ≠ id := by
      rintro rfl he
      obtain ⟨r, hr, hid, -⟩ := htracked.record
      exact (w.pb.ids_lt _ r hr).ne (hid.trans he.symm)
    refine ⟨⟨?_, hkeeps.trans hwritten.keeps⟩, fun he k hk => ?_⟩
    · by_cases hne : plan.pbCollection = p.pbCollection
      · obtain rfl : plan = p := MigrationPlan.eq_of_pbCollection_eq hplan hp hne
        exact htracked.rowWritten hcol hrel hrowKey hwritten fun hid => absurd hid (hfresh rfl)
      · exact htracked.of_records hwritten.collections (hwritten.records _ hne)
    · by_cases hk' : k = oldId'
      · rw [hk', Function.update_self] at hk
        exact absurd (Option.some.inj hk) (hfresh he)
      · rw [Function.update_of_ne hk'] at hk
        exact hmap he k hk

/-- **The second pass** moves the value on, or leaves it where it is. -/
theorem tracked_pass2 (o : Oracle) (cfg : Config) (hplan : plan ∈ m.plans)
    (hrel : rel ∈ fkColumns plan) {x : Option Value} {k : String}
    (hx : normalizeOldId x = some k) :
    Triple (fun w => Tracked plan rel id oldId (some k) (PointsTo m w rel k) w) (pass2 o cfg m)
      (fun _ w => Tracked plan rel id oldId (some k) (PointsTo m w rel k) w)
      (fun w => Tracked plan rel id oldId (some k) (PointsTo m w rel k) w) :=
  Triple.forEach_invariant (fun _ hp _ => resolveRelationsPass2_rule
    (fun _ _ _ h hrecord hmaps =>
      h.patch hx hrel (mem_orderedPlans.mp hp) hplan hrecord hmaps) fun _ h => h) ()

/-- **Both passes**, from a relation that is set. -/
theorem tracked_migrateRecords (o : Oracle) (cfg : Config) {w₀ : World} (hplan : plan ∈ m.plans)
    (hcol : col ∈ plan.columnPlans) (hrel : relationColumn? col = some rel) {x : Option Value}
    {k : String} (hx : normalizeOldId x = some k)
    (hrows : ∀ row ∈ (source plan.table).rows, rowKey plan row = some oldId →
      normalizeOldId (row.get col.sourceColumn) = some k)
    {t : RecordId} (hpoints : PointsTo m w₀ rel k t)
    (h : Tracked plan rel id oldId (some k) (fun i => i = t) w₀) :
    Tracked plan rel id oldId (some k)
      (PointsTo m (migrateRecords o cfg m source w₀).2 rel k)
      (migrateRecords o cfg m source w₀).2 := by
  have hafter : ∀ w, Tracked plan rel id oldId (some k) (fun i => i = t) w ∧ Keeps w₀ w →
      Tracked plan rel id oldId (some k) (PointsTo m w rel k) w := by
    rintro w ⟨htracked, hkeeps⟩
    refine htracked.imp ?_
    rintro i rfl
    exact hpoints.keeps hkeeps
  have hrun := ((tracked_pass1 o cfg hplan hcol hrel hrows).consequence (fun _ h => h)
    (fun _ => hafter) hafter).bind fun _ => tracked_pass2 o cfg hplan
      (List.mem_filterMap.mpr ⟨col, hcol, hrel⟩) hx
  exact hrun.final ⟨h, Keeps.refl w₀⟩

/-- The entry of a known key survives a first pass. -/
theorem Upserted.indexOf_eq_some {cfg : Config} {src : SourceTable} {accepts : String → Bool}
    {l l' : List Record} (h : Upserted cfg src plan accepts l l') {k : String} {i : RecordId}
    (hi : indexOf Record.key Record.id l k = some i) :
    indexOf Record.key Record.id l' k = some i := by
  obtain ⟨hold, s, hs, rfl, hindex, rfl⟩ := h
  have hafter : ((rowUpsert plan hold).upsertAll (rowOk allOk plan)
      (deliveredRows allOk cfg src plan) s).index k = _ :=
    congrFun (Upsert.upsertAll_index hs hindex _) k
  exact hafter.symm.trans (Upsert.upsertAll_index_eq_some ((congrFun hindex k).trans hi) _)

/-- **With every call answered** and no duplicate of its target, a relation is set again. -/
theorem relation_of_allOk (cfg : Config) {w : World} (hcarries : ∀ p ∈ m.plans, w.pb.Carries p)
    (hplan : plan ∈ m.plans) (hcol : col ∈ plan.columnPlans)
    (hrel : relationColumn? col = some rel) {x : Option Value} {k : String}
    (hx : normalizeOldId x = some k)
    (hrows : ∀ row ∈ (source plan.table).rows, rowKey plan row = some oldId →
      normalizeOldId (row.get col.sourceColumn) = some k)
    {t : RecordId} (hpoints : PointsTo m w rel k t) (honly : ∀ i, PointsTo m w rel k i → i = t)
    (h : Tracked plan rel id oldId (some k) (fun i => i = t) w) :
    ∀ r' ∈ (migrateRecords allOk cfg m source w).2.records plan.pbCollection, r'.id = id →
      r'.fields rel.pbField = .relation t := by
  obtain ⟨w₁, hrun₁, hstep₁, hupserted⟩ := pass1_allOk cfg source fun p hp =>
    hcarries p hp "old_id" List.mem_cons_self
  have htracked := ((tracked_pass1 allOk cfg hplan hcol hrel hrows).of_returned
    ⟨h, Keeps.refl w⟩ hrun₁).1
  obtain ⟨w₂, hrun₂, -, -, hresolved⟩ := pass2_allOk cfg
    (Ensured.of_collections (fun p hp => (hcarries p hp).isSome) hstep₁.collections)
  have hrun : migrateRecords allOk cfg m source w = (some (), w₂) := by
    rw [migrateRecords, bind_run_of_eq hrun₁, hrun₂]
  rw [hrun]
  intro r' hr' hid
  dsimp only at hr'
  rw [hresolved plan hplan] at hr'
  obtain ⟨r₁, hr₁, rfl⟩ := List.mem_map.mp hr'
  obtain ⟨r, hr, hrid, -, hstate⟩ := htracked.record
  obtain rfl := eq_of_ident_eq (w₁.pb.ids_nodup _) hr hr₁ (hrid.trans hid.symm)
  have hmem : rel ∈ fkColumns plan := List.mem_filterMap.mpr ⟨col, hcol, hrel⟩
  rcases hstate with ⟨-, htemp⟩ | ⟨i, rfl, hfield, htemp⟩
  · refine (resolvedRecord_of_some hmem htracked.fields ?_).1
    obtain ⟨q, hq, t', ht', htid, htkey⟩ := hpoints
    have hentry : indexOf Record.key Record.id (w.records q.pbCollection) k = some t := by
      obtain ⟨i, hi⟩ := Option.isSome_iff_exists.mp (indexOf_isSome_iff.mpr ⟨t', ht', htkey⟩)
      obtain ⟨t₁, ht₁, hkey₁, rfl⟩ := exists_of_indexOf_eq_some hi
      rw [hi, honly _ ⟨q, hq, t₁, ht₁, rfl, hkey₁⟩]
    have hentry₁ := (hupserted q (MigrationPlan.mem_of_plansByTable hq).1).indexOf_eq_some hentry
    rw [resolvedId_of_temp (hx.symm ▸ htemp), hx, Option.bind_some, targets, hq, Option.map_some,
      Option.bind_some, hentry₁]
  · refine (resolvedRecord_of_none _ hmem ?_).1.trans hfield
    rw [resolvedId, htemp]
    rfl

end Passes

/-! ### A further run -/

/-- **A further run.** Take any state that runs over an unchanged source have left behind, and in
it a relation that is set, to the record `t` with the old id `k`. After a further run of the two
passes, whichever calls fail, the relation either points to a record of the referenced table with
that old id, or is empty while `k` waits in the temporary field. If every call is answered, the
collections carry the plans, and `t` is the only record with that old id, it still points to `t`.
The rows with one key must agree on the column. -/
theorem rerun_relation (m : MigrationPlan) (source : Source) (w : World)
    (hreach : Reachable (fun w => ∀ plan ∈ m.plans, w.records plan.pbCollection = [])
      (fun run => ∃ o cfg, run = migrate o cfg m source) w)
    (plan : TablePlan) (hplan : plan ∈ m.plans) (col : ColumnPlan)
    (hcol : col ∈ plan.columnPlans) (rel : RelationColumn) (hrel : relationColumn? col = some rel)
    (hagree : RowsAgree source plan col) (r : Record) (hr : r ∈ w.records plan.pbCollection)
    (t : RecordId) (ht : r.fields rel.pbField = .relation t) (o : Oracle) (cfg : Config) :
    ∃ k, PointsTo m w rel k t ∧
      ∃ r' ∈ (migrateRecords o cfg m source w).2.records plan.pbCollection, r'.id = r.id ∧
        Conserved m (migrateRecords o cfg m source w).2 rel r' (some k) ∧
        ((∀ c, o c = .ok) → (∀ p ∈ m.plans, w.pb.Carries p) →
          (∀ i, PointsTo m w rel k i → i = t) → r'.fields rel.pbField = .relation t) := by
  have hinv : Inv m (fun plan row => row ∈ (source plan.table).rows) False w := by
    refine hreach.invariant (I := Inv m (fun plan row => row ∈ (source plan.table).rows) False)
      (fun w hw => Inv.of_start hw fun h => h.elim) ?_
    rintro _ ⟨o, cfg, rfl⟩
    exact migrate_inv o cfg m source (fun _ _ _ h => h) False
  obtain ⟨hfield, htempField, row, oldId, hrow, hkey, -, hrkey, hcolumns⟩ :=
    hinv.records plan hplan r hr
  have hne : r.fields rel.pbField ≠ .empty := by
    rw [ht]
    exact fun he => by cases he
  obtain ⟨k, hk, i, hpoints, hi, htemp⟩ :
      ∃ k, normalizeOldId (row.get col.sourceColumn) = some k ∧
        Resolved rel r (PointsTo m w rel k) := by
    rcases hcolumns col hcol rel hrel with (⟨hempty, -⟩ | hresolved) | ⟨-, hempty, -⟩
    · exact absurd hempty hne
    · exact hresolved
    · exact absurd hempty hne
  obtain rfl : i = t := Cell.relation.inj (hi.symm.trans ht)
  have htracked : Tracked plan rel r.id oldId (some k) (fun j => j = i) w := by
    refine ⟨fun n hn => ?_, r, hr, rfl, hrkey, Or.inr ⟨i, rfl, hi, htemp⟩⟩
    rw [RelationColumn.names, List.mem_pair] at hn
    rcases hn with rfl | rfl
    · exact hfield _ hne
    · exact htempField rel (List.mem_filterMap.mpr ⟨col, hcol, hrel⟩) hne
  have hrows : ∀ row' ∈ (source plan.table).rows, rowKey plan row' = some oldId →
      normalizeOldId (row'.get col.sourceColumn) = some k := fun row' hrow' hkey' =>
    (hagree row' hrow' row hrow oldId hkey' hkey).trans hk
  obtain ⟨-, r', hr', hid', -, hstate⟩ :=
    tracked_migrateRecords o cfg hplan hcol hrel hk hrows hpoints htracked
  refine ⟨k, hpoints, r', hr', hid', hstate.imp_right fun hres => ⟨k, rfl, hres⟩, ?_⟩
  intro hok hcarries honly
  obtain rfl : o = allOk := funext hok
  exact relation_of_allOk cfg hcarries hplan hcol hrel hk hrows hpoints honly htracked r' hr' hid'

/-- After a further run, every relation of a column that was set points to the same record. -/
def KeepsRelation (o : Oracle) (cfg : Config) (m : MigrationPlan) (source : Source) (w : World)
    (plan : TablePlan) (rel : RelationColumn) : Prop :=
  ∀ r ∈ w.records plan.pbCollection, ∀ t, r.fields rel.pbField = .relation t →
    ∀ r' ∈ (migrateRecords o cfg m source w).2.records plan.pbCollection, r'.id = r.id →
      r'.fields rel.pbField = .relation t

/-- Where a collection has one record before the run and after it, a relation that is kept points to
the same record. -/
theorem KeepsRelation.relation_eq {o : Oracle} {cfg : Config} {m : MigrationPlan}
    {source : Source} {w : World} {plan : TablePlan} {rel : RelationColumn}
    (h : KeepsRelation o cfg m source w plan rel) {name : String}
    (hname : plan.pbCollection = name) {i t : RecordId} {x : Option RecordId}
    (hbefore : (w.records name).map (fun r => (r.id, (r.fields rel.pbField).relation?)) =
      [(i, some t)])
    (hafter : ((migrateRecords o cfg m source w).2.records name).map
      (fun r => (r.id, (r.fields rel.pbField).relation?)) = [(i, x)]) : x = some t := by
  subst hname
  obtain ⟨r, hr, hpair⟩ := List.map_eq_singleton_iff.mp hbefore
  obtain ⟨r', hr', hpair'⟩ := List.map_eq_singleton_iff.mp hafter
  obtain ⟨hid, hrelation⟩ := Prod.mk.inj hpair
  obtain ⟨hid', hrelation'⟩ := Prod.mk.inj hpair'
  have hkept := h r (hr ▸ List.mem_cons_self) t (Cell.relation?_eq_some.mp hrelation) r'
    (hr' ▸ List.mem_cons_self) (hid'.trans hid.symm)
  rw [← hrelation', hkept]
  rfl

end Rerun

/-! ### A further migration of the notes -/

section Example

attribute [local instance] asciiLetterCase

/-- The owner of a note, which is a relation to a user. -/
def ownerRelation : RelationColumn := ⟨"owner", "owner_old", "users"⟩

/-- The calls that read the users into the map of their table. -/
def isUsersMap : Call → Bool
  | .mapPage "users" _ _ => true
  | _ => false

/-- The call that writes the second note, and no other. -/
def isSecondNote : Call → Bool
  | .writeRow "notes" 1 => true
  | _ => false

/-- The notes in two versions with one key and different owners. -/
def twinSource : Source := fun table =>
  if table = "notes" then
    .ofRows [[("id", .string "n"), ("owner", .string "A")],
      [("id", .string "n"), ("owner", .string "b")]]
  else notesSource table

/-- The owner of a note, after a further run whose patches all fail. -/
theorem rerun_relation_notes :
    ∃ w', w' = (migrateRecords (failing isPatch) notesConfig notesPlan notesSource
        (notesWorld notesSource)).2 ∧
      ∃ k, ∃ r' ∈ w'.records "notes", Conserved notesPlan w' ownerRelation r' (some k) := by
  obtain ⟨col, hcol, hrel⟩ : ∃ col ∈ (notesTable "notes" (by decide)).columnPlans,
      relationColumn? col = some ownerRelation := by decide
  have howner : ((notesWorld notesSource).records "notes").map
      (fun r => (r.fields "owner").relation?) = [some 5] := by decide +kernel
  obtain ⟨r, hr, hrelation⟩ := List.map_eq_singleton_iff.mp howner
  have hagree : RowsAgree notesSource (notesTable "notes" (by decide)) col := by
    rw [RowsAgree, notesTable_table]
    intro row hrow row' hrow' _ _ _
    rw [List.mem_singleton.mp hrow, List.mem_singleton.mp hrow']
  obtain ⟨k, -, r', hr', -, hconserved, -⟩ := rerun_relation notesPlan notesSource
    (notesWorld notesSource) (.run (.start fun _ _ => rfl) ⟨allOk, notesConfig, rfl⟩)
    (notesTable "notes" (by decide)) (notesTable_mem "notes" (by decide)) col hcol ownerRelation
    hrel hagree r (by rw [notesTable_pbCollection, hr]; exact List.mem_cons_self) 5
    (Cell.relation?_eq_some.mp hrelation) (failing isPatch) notesConfig
  rw [notesTable_pbCollection] at hr'
  exact ⟨_, rfl, k, r', hr', hconserved⟩

/-- **Relations that a further run does not keep.** The owner of the note is set. If the patches
fail, it is gone. If the users cannot be read, they are created once more, and the owner is the new
one. If two rows have the key of the note, and the write of the second one fails, the owner is that
of the first. -/
theorem not_keepsRelation_notes :
    (Reachable (fun w => ∀ plan ∈ notesPlan.plans, w.records plan.pbCollection = [])
        (fun run => ∃ o cfg, run = migrate o cfg notesPlan notesSource) (notesWorld notesSource) ∧
      ¬ KeepsRelation (failing isPatch) notesConfig notesPlan notesSource (notesWorld notesSource)
        (notesTable "notes" (by decide)) ownerRelation ∧
      ¬ KeepsRelation (failing isUsersMap) notesConfig notesPlan notesSource
        (notesWorld notesSource) (notesTable "notes" (by decide)) ownerRelation) ∧
    Reachable (fun w => ∀ plan ∈ notesPlan.plans, w.records plan.pbCollection = [])
        (fun run => ∃ o cfg, run = migrate o cfg notesPlan twinSource) (notesWorld twinSource) ∧
      ¬ KeepsRelation (failing isSecondNote) notesConfig notesPlan twinSource
        (notesWorld twinSource) (notesTable "notes" (by decide)) ownerRelation := by
  have hname : (notesTable "notes" (by decide)).pbCollection = "notes" :=
    notesTable_pbCollection _
  refine ⟨⟨.run (.start fun _ _ => rfl) ⟨allOk, notesConfig, rfl⟩, fun h => ?_, fun h => ?_⟩,
    .run (.start fun _ _ => rfl) ⟨allOk, notesConfig, rfl⟩, fun h => ?_⟩
  · have hgone := h.relation_eq (i := 8) (t := 5) (x := none) hname (by decide +kernel)
      (by decide +kernel)
    exact absurd hgone (by simp)
  · have hother := h.relation_eq (i := 8) (t := 5) (x := some 10) hname (by decide +kernel)
      (by decide +kernel)
    exact absurd hother (by decide)
  · have hother := h.relation_eq (i := 8) (t := 5) (x := some 4) hname (by decide +kernel)
      (by decide +kernel)
    exact absurd hother (by decide)

end Example

end Mogo
