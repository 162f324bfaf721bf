import Mogo.Fidelity

/-!
# No Foreign Key Is Lost

On its way from a row to a relation a foreign-key value waits in a temporary field. The first pass
sends every value back there, the second pass takes it on, and either may be cut off anywhere. The
value is always in one of the two places: in the temporary field, or in a relation to a record
with that key.

## Main results

* `migrateTablePass1_writes`: the rule for invariants of the first pass, by the writes it makes.
* `Inv.rowWritten`, `Inv.patch`: the invariant is kept by the two ways in which a record changes.
* `migrate_inv`: it is kept by every run, wherever the run is interrupted.
* `foreignKeys_conserved`: no foreign key is lost in any state that runs lead to.
-/

namespace Mogo

open Script

section Invariant

variable [LetterCase]

/-! ### Records stay -/

/-- No record goes away, and none changes its key. -/
def Keeps (w w' : World) : Prop := ∀ n, w.idKeys n ⊆ w'.idKeys n

namespace Keeps

/-- Every world keeps the records it has. -/
@[refl] theorem refl (w : World) : Keeps w w := fun _ => List.Subset.refl _

/-- Records that are kept by two steps are kept by both together. -/
theorem trans {w₁ w₂ w₃ : World} (h₁ : Keeps w₁ w₂) (h₂ : Keeps w₂ w₃) : Keeps w₁ w₃ :=
  fun n => List.Subset.trans (h₁ n) (h₂ n)

/-- Only ids and row keys matter for what is kept. -/
theorem of_idKeys {w w' : World} (h : ∀ n, w'.idKeys n = w.idKeys n) : Keeps w w' := by
  intro n
  rw [h n]
  exact List.Subset.refl _

/-- A record of a world that is kept is still there, under the same id and with the same key. -/
theorem exists_record {w w' : World} (h : Keeps w w') {n : String} {r : Record}
    (hr : r ∈ w.records n) : ∃ r' ∈ w'.records n, r'.id = r.id ∧ r'.key = r.key := by
  have hmem : (r.id, r.key) ∈ w.idKeys n := List.mem_map_of_mem hr
  obtain ⟨r', hr', hpair⟩ := List.mem_map.mp (h n hmem)
  exact ⟨r', hr', congrArg Prod.fst hpair, congrArg Prod.snd hpair⟩

end Keeps

/-- A map that is true of a collection stays true while the records are kept. -/
theorem MapOf.keeps {name : String} {map : String → Option RecordId} {w w' : World}
    (h : MapOf name map w) (hkeeps : Keeps w w') : MapOf name map w' := by
  intro k id hk
  obtain ⟨r, hr, hid, hkey⟩ := h k id hk
  obtain ⟨r', hr', hid', hkey'⟩ := hkeeps.exists_record hr
  exact ⟨r', hr', hid'.trans hid, hkey'.trans hkey⟩

/-! ### The writes of the first pass -/

section Writes

variable {plan : TablePlan} {row : Row} {oldId : String}

/-- The key of a record after the write of a row. -/
theorem write_rowPayload_key (hkey : rowKey plan row = some oldId) (pb : PocketBase)
    (name : String) (r : Record) :
    (r.write (pb.accepted name (rowPayload plan row oldId))).key =
      if pb.hasField name "old_id" then some oldId else r.key := by
  rw [Record.key, write_accepted_fields, rowPayload_old_id, Option.getD_some]
  split
  · exact normalizeOldId_normalized (rowKey_eq_some_iff.mp hkey).1
  · rfl

/-- A row has been written to the record `id`, an old one or a new one. -/
structure RowWritten (plan : TablePlan) (row : Row) (oldId : String) (id : RecordId)
    (w w' : World) : Prop where
  collections : w'.pb.collections = w.pb.collections
  records : ∀ n, n ≠ plan.pbCollection → w'.records n = w.records n
  lastPayload : ∀ n, n ≠ plan.pbCollection → w'.lastPayload n = w.lastPayload n
  keeps : Keeps w w'
  record : ∀ r' ∈ w'.records plan.pbCollection,
    (r' ∈ w.records plan.pbCollection ∧
      w'.lastPayload plan.pbCollection r'.id = w.lastPayload plan.pbCollection r'.id) ∨
    (r'.id = id ∧
      w'.lastPayload plan.pbCollection r'.id = some (rowPayload plan row oldId) ∧
      ∃ r, (r ∈ w.records plan.pbCollection ∨ r = ⟨w.pb.nextId, fun _ => .empty⟩) ∧
        r' = r.write (w.pb.accepted plan.pbCollection (rowPayload plan row oldId)))

/-- A create writes a row to a new record. -/
theorem addRecord_rowWritten (plan : TablePlan) (row : Row) (oldId : String) (w : World) :
    RowWritten plan row oldId w.pb.nextId w
      ((w.addRecord plan.pbCollection (rowPayload plan row oldId)).noteWrite plan.pbCollection
        w.pb.nextId (rowPayload plan row oldId)) where
  collections := rfl
  records := fun _ hn => World.addRecord_records_of_ne hn ..
  lastPayload := fun _ hn => World.noteWrite_lastPayload_of_ne hn ..
  keeps := by
    intro n
    rw [World.idKeys, World.idKeys, World.noteWrite_records]
    by_cases hn : n = plan.pbCollection
    · rw [hn, World.addRecord_records_self, List.map_append]
      exact List.subset_append_left _ _
    · rw [World.addRecord_records_of_ne hn]
      exact List.Subset.refl _
  record := by
    intro r' hr'
    rw [World.noteWrite_records, World.addRecord_records_self, List.mem_append,
      List.mem_singleton] at hr'
    rcases hr' with hr' | rfl
    · refine Or.inl ⟨hr', World.noteWrite_lastPayload_of_id_ne ?_ ..⟩
      exact (w.pb.ids_lt _ r' hr').ne
    · exact Or.inr ⟨rfl, World.noteWrite_lastPayload_self .., _, Or.inr rfl, rfl⟩

/-- An update writes a row to an old record, whose key it keeps. -/
theorem editRecord_rowWritten (hkey : rowKey plan row = some oldId) {w : World}
    {map : String → Option RecordId}
    (hmap : w.pb.hasField plan.pbCollection "old_id" = true → MapOf plan.pbCollection map w)
    {id : RecordId} (hid : map oldId = some id) :
    RowWritten plan row oldId id w
      ((w.editRecord plan.pbCollection id (rowPayload plan row oldId)).noteWrite plan.pbCollection
        id (rowPayload plan row oldId)) where
  collections := rfl
  records := fun _ hn => World.editRecord_records_of_ne hn ..
  lastPayload := fun _ hn => World.noteWrite_lastPayload_of_ne hn ..
  keeps := by
    refine Keeps.of_idKeys fun n => World.editRecord_idKeys_of_key (fun r hr hrid => ?_) n
    rw [write_rowPayload_key hkey]
    split
    next hold =>
      obtain ⟨r₁, hr₁, hid₁, hkey₁⟩ := hmap hold oldId id hid
      rw [eq_of_ident_eq (w.pb.ids_nodup _) hr hr₁ (hrid.trans hid₁.symm), hkey₁]
    · rfl
  record := by
    intro r' hr'
    rw [World.noteWrite_records, World.editRecord_records_self] at hr'
    rcases mem_modifyAt.mp hr' with ⟨hr', hne⟩ | ⟨r, hr, rfl, rfl⟩
    · exact Or.inl ⟨hr', World.noteWrite_lastPayload_of_id_ne hne ..⟩
    · exact Or.inr ⟨rfl, World.noteWrite_lastPayload_self .., r, Or.inl hr, rfl⟩

variable {o : Oracle} {cfg : Config} {src : SourceTable} {I : World → Prop}
  {J : (String → Option RecordId) → World → Prop}

/-- **The first pass by its writes.** `I` is what the pass keeps, `J` what it keeps while it holds
a map; every write of a row of the table must keep `J`. -/
theorem migrateTablePass1_writes
    (hmap : ∀ map w, I w → MapOf plan.pbCollection map w → J map w)
    (hupdate : ∀ row ∈ src.rows, ∀ oldId, rowKey plan row = some oldId →
      ∀ id map w w', map oldId = some id → J map w → RowWritten plan row oldId id w w' →
        J map w')
    (hcreate : ∀ row ∈ src.rows, ∀ oldId, rowKey plan row = some oldId →
      ∀ map w w', J map w → RowWritten plan row oldId w.pb.nextId w w' →
        J (Function.update map oldId (some w.pb.nextId)) w')
    (hJI : ∀ map w, J map w → I w) :
    Triple I (migrateTablePass1 o cfg src plan) (fun _ => I) I := by
  refine migrateTablePass1_rule
    (J := fun map w => J map w ∧
      (w.pb.hasField plan.pbCollection "old_id" = true → MapOf plan.pbCollection map w))
    (fun map w hI hmapOf => ⟨hmap map w hI hmapOf, fun _ => hmapOf⟩) ?_
    (fun map w hJ => hJI map w hJ.1) fun _ hI => hI
  intro row hrow index map
  refine (migrateRow_rule ?_ ?_ fun w hJ => hJ).consequence (fun _ h => h) (fun _ _ h => h)
    fun w hJ => hJI map w hJ.1
  · rintro oldId w hkey - ⟨hJ, hmapOf⟩
    have hwritten := addRecord_rowWritten plan row oldId w
    refine ⟨hcreate row hrow oldId hkey map w _ hJ hwritten, fun hold k id hk => ?_⟩
    by_cases hk' : k = oldId
    · subst hk'
      rw [Function.update_self] at hk
      obtain rfl := Option.some.inj hk
      refine ⟨w.pb.newRecord plan.pbCollection (rowPayload plan row k), ?_, rfl,
        (write_rowPayload_key hkey w.pb _ _).trans (if_pos hold)⟩
      rw [World.noteWrite_records, World.addRecord_records_self]
      exact List.mem_append_right _ List.mem_cons_self
    · rw [Function.update_of_ne hk'] at hk
      exact (hmapOf hold).keeps hwritten.keeps k id hk
  · rintro oldId id w hkey hid ⟨hJ, hmapOf⟩
    have hwritten := editRecord_rowWritten hkey hmapOf hid
    exact ⟨hupdate row hrow oldId hkey id map w _ hid hJ hwritten, fun hold =>
      (hmapOf hold).keeps hwritten.keeps⟩

end Writes

/-! ### Where a foreign key is -/

/-- `id` is a record of the referenced table with the key `k`. -/
def PointsTo (m : MigrationPlan) (w : World) (rel : RelationColumn) (k : String) (id : RecordId) :
    Prop :=
  ∃ q, m.plansByTable rel.referencedTable = some q ∧
    ∃ t ∈ w.records q.pbCollection, t.id = id ∧ t.key = some k

/-- The value waits in the temporary field, and the relation is empty. A missing value leaves both
fields empty. -/
def Waiting (rel : RelationColumn) (r : Record) (v : Option String) : Prop :=
  r.fields rel.pbField = .empty ∧ r.fields rel.fkTempField = .ofValue (oldIdValue v)

/-- The temporary field is empty, and the relation points to one of the records `P`. -/
def Resolved (rel : RelationColumn) (r : Record) (P : RecordId → Prop) : Prop :=
  ∃ id, P id ∧ r.fields rel.pbField = .relation id ∧ r.fields rel.fkTempField = .empty

/-- The value waits, or has become a relation to a record with that key. -/
def Conserved (m : MigrationPlan) (w : World) (rel : RelationColumn) (r : Record)
    (v : Option String) : Prop :=
  Waiting rel r v ∨ ∃ k, v = some k ∧ Resolved rel r (PointsTo m w rel k)

section State

variable {m : MigrationPlan} {plan : TablePlan} {col : ColumnPlan} {rel : RelationColumn}
  {r : Record} {w w' : World}

/-- A key points to the same record as long as records are kept. -/
theorem PointsTo.keeps {k : String} {id : RecordId} (h : PointsTo m w rel k id)
    (hkeeps : Keeps w w') : PointsTo m w' rel k id := by
  obtain ⟨q, hq, t, ht, hid, hkey⟩ := h
  obtain ⟨t', ht', hid', hkey'⟩ := hkeeps.exists_record ht
  exact ⟨q, hq, t', ht', hid'.trans hid, hkey'.trans hkey⟩

omit [LetterCase] in
/-- A relation that is resolved by a record is resolved by what is known of that record. -/
theorem Resolved.imp {P Q : RecordId → Prop} (h : Resolved rel r P) (hPQ : ∀ id, P id → Q id) :
    Resolved rel r Q := by
  obtain ⟨id, hid, hfields⟩ := h
  exact ⟨id, hPQ id hid, hfields⟩

/-- A key that is conserved stays conserved as long as records are kept. -/
theorem Conserved.keeps {v : Option String} (h : Conserved m w rel r v) (hkeeps : Keeps w w') :
    Conserved m w' rel r v := by
  refine h.imp_right ?_
  rintro ⟨k, hk, hresolved⟩
  exact ⟨k, hk, hresolved.imp fun _ hid => hid.keeps hkeeps⟩

/-- What the payload of a row says about a relation column. -/
theorem rowPayload_fk (hcol : col ∈ plan.columnPlans) (hrel : relationColumn? col = some rel)
    {row : Row} {oldId : String} (hkey : rowKey plan row = some oldId) :
    (rowPayload plan row oldId).get? rel.pbField = some .empty ∧
      (rowPayload plan row oldId).get? rel.fkTempField =
        some (.ofValue (oldIdValue (normalizeOldId (row.get col.sourceColumn)))) := by
  obtain ⟨fk, -, ht, hf, -⟩ := (relationColumn?_eq_some hcol).mp hrel
  have hmem : rel ∈ fkColumns plan := List.mem_filterMap.mpr ⟨col, hcol, hrel⟩
  have hne : ∀ n ∈ rel.names, n ≠ "old_id" := fun n hn => (fkColumns_names_mem hmem hn).2
  obtain ⟨p, hp, hpayload⟩ := exists_rowPayload_eq hkey
  obtain ⟨hfield, htemp⟩ := buildPass1RecordPayload_fk hcol ht hp
  rw [hpayload, Payload.setOldId, Payload.get?_set_of_ne _ (hne _ List.mem_cons_self),
    Payload.get?_set_of_ne _ (hne _ (List.mem_cons_of_mem _ List.mem_cons_self)), hf]
  exact ⟨hfield, htemp⟩

/-- **The first pass** sends a value back to the temporary field. -/
theorem waiting_write (hcol : col ∈ plan.columnPlans) (hrel : relationColumn? col = some rel)
    (hfields : ∀ n ∈ rel.names, w.pb.hasField plan.pbCollection n = true) {row : Row}
    {oldId : String} (hkey : rowKey plan row = some oldId) (r : Record) :
    Waiting rel (r.write (w.pb.accepted plan.pbCollection (rowPayload plan row oldId)))
      (normalizeOldId (row.get col.sourceColumn)) := by
  obtain ⟨hfield, htemp⟩ := rowPayload_fk hcol hrel hkey
  rw [Waiting, write_accepted_fields, write_accepted_fields, if_pos (hfields _ List.mem_cons_self),
    if_pos (hfields _ (List.mem_cons_of_mem _ List.mem_cons_self)), hfield, htemp]
  exact ⟨rfl, rfl⟩

/-- A column that resolves was waiting, and resolves to a record with the key. -/
theorem Conserved.of_resolvedId {x : Option Value} (h : Conserved m w rel r (normalizeOldId x))
    {maps : RelationMaps} (hmaps : MapsOf m maps w) {id : RecordId}
    (hid : resolvedId maps r rel = some id) :
    ∃ k, normalizeOldId x = some k ∧ PointsTo m w rel k id ∧ r.fields rel.pbField = .empty := by
  rcases h with ⟨hfield, htemp⟩ | ⟨k, hk, _, -, -, htemp⟩
  · rw [resolvedId_of_temp htemp] at hid
    obtain ⟨k, hk, hid⟩ := Option.bind_eq_some_iff.mp hid
    obtain ⟨map, hmap, hid⟩ := Option.bind_eq_some_iff.mp hid
    obtain ⟨⟨q, hq, hmapOf⟩, -⟩ := hmaps _ map hmap
    obtain ⟨t, ht, htid, htkey⟩ := hmapOf k id hid
    exact ⟨k, hk, ⟨q, hq, t, ht, htid, htkey⟩, hfield⟩
  · rw [resolvedId, htemp] at hid
    exact absurd hid (by simp [Cell.isBlank])

/-- **The second pass** takes a value on to a record with that key, or leaves it alone. -/
theorem Conserved.patch {x : Option Value} (h : Conserved m w rel r (normalizeOldId x))
    {maps : RelationMaps} (hmaps : MapsOf m maps w) (hrel : rel ∈ fkColumns plan)
    (hfields : ∀ n ∈ rel.names, w.pb.hasField plan.pbCollection n = true) :
    Conserved m w rel (r.write (w.pb.accepted plan.pbCollection
      (patchFrom maps r (fkColumns plan) []))) (normalizeOldId x) := by
  obtain ⟨hfield, htemp⟩ := patchFrom_get? maps r hrel
  have hafter : ∀ n ∈ rel.names, (r.write (w.pb.accepted plan.pbCollection
      (patchFrom maps r (fkColumns plan) []))).fields n =
        ((patchFrom maps r (fkColumns plan) []).get? n).getD (r.fields n) := fun n hn => by
    rw [write_accepted_fields, if_pos (hfields n hn)]
  have hfield' := hafter _ List.mem_cons_self
  have htemp' := hafter _ (List.mem_cons_of_mem _ List.mem_cons_self)
  rw [hfield] at hfield'
  rw [htemp] at htemp'
  cases hid : resolvedId maps r rel with
  | none =>
      rw [hid] at hfield' htemp'
      rw [Conserved, Waiting, hfield', htemp']
      simp only [Resolved, hfield', htemp']
      exact h
  | some id =>
      rw [hid] at hfield' htemp'
      obtain ⟨k, hk, hpoints, -⟩ := h.of_resolvedId hmaps hid
      exact Or.inr ⟨k, hk, id, hpoints, hfield', htemp'⟩

end State

/-! ### The invariant -/

/-- The collections have all relation and temporary fields of the plans. -/
def CarriesRelations (m : MigrationPlan) (w : World) : Prop :=
  ∀ plan ∈ m.plans, ∀ rel ∈ fkColumns plan, ∀ n ∈ rel.names,
    w.pb.hasField plan.pbCollection n = true

/-- A record that the first pass has last written the row `row` to. Only where a collection may
lack fields (`carried` is false) can a value have been lost. -/
structure WrittenFrom (m : MigrationPlan) (carried : Prop) (plan : TablePlan) (row : Row)
    (oldId : String) (w : World) (r : Record) : Prop where
  payload : w.lastPayload plan.pbCollection r.id = some (rowPayload plan row oldId)
  key : ∀ k, r.key = some k → k = oldId
  columns : ∀ col ∈ plan.columnPlans, ∀ rel, relationColumn? col = some rel →
    Conserved m w rel r (normalizeOldId (row.get col.sourceColumn)) ∨
      ¬ carried ∧ r.fields rel.pbField = .empty ∧ r.fields rel.fkTempField = .empty

/-- A record of a planned collection. It was written from a row of `S`; its fields exist, and so
does the temporary field of a relation that is set. -/
structure RecordOk (m : MigrationPlan) (S : TablePlan → Row → Prop) (carried : Prop)
    (plan : TablePlan) (w : World) (r : Record) : Prop where
  field : ∀ n, r.fields n ≠ .empty → w.pb.hasField plan.pbCollection n = true
  temp : ∀ rel ∈ fkColumns plan, r.fields rel.pbField ≠ .empty →
    w.pb.hasField plan.pbCollection rel.fkTempField = true
  written : ∃ row oldId, S plan row ∧ rowKey plan row = some oldId ∧
    WrittenFrom m carried plan row oldId w r

/-- **The invariant of the migration.** -/
structure Inv (m : MigrationPlan) (S : TablePlan → Row → Prop) (carried : Prop) (w : World) :
    Prop where
  fields : carried → CarriesRelations m w
  records : ∀ plan ∈ m.plans, ∀ r ∈ w.records plan.pbCollection, RecordOk m S carried plan w r

section Steps

variable {m : MigrationPlan} {S : TablePlan → Row → Prop} {carried : Prop} {plan : TablePlan}
  {w w' : World}

/-- What is true of a record stays true while others change. -/
theorem RecordOk.mono {r : Record} (h : RecordOk m S carried plan w r)
    (hfields : ∀ n, w.pb.hasField plan.pbCollection n = true →
      w'.pb.hasField plan.pbCollection n = true)
    (hlast : w'.lastPayload plan.pbCollection r.id = w.lastPayload plan.pbCollection r.id)
    (hkeeps : Keeps w w') : RecordOk m S carried plan w' r := by
  obtain ⟨row, oldId, hS, hkey, hpayload, hrkey, hcolumns⟩ := h.written
  refine ⟨fun n hn => hfields n (h.field n hn), fun rel hrel hn => hfields _ (h.temp rel hrel hn),
    row, oldId, hS, hkey, hlast.trans hpayload, hrkey, fun col hcol rel hrel => ?_⟩
  exact (hcolumns col hcol rel hrel).imp_left fun hc => hc.keeps hkeeps

/-- Before the first run there are no records, so nothing is asked of them. -/
theorem Inv.of_start (hempty : ∀ plan ∈ m.plans, w.records plan.pbCollection = [])
    (hfields : carried → CarriesRelations m w) : Inv m S carried w := by
  refine ⟨hfields, fun plan hplan r hr => ?_⟩
  rw [hempty plan hplan] at hr
  exact absurd hr List.not_mem_nil

/-- A growing schema keeps the invariant. -/
theorem Inv.schemaGrown (h : Inv m S carried w) (hgrown : SchemaGrown w w') :
    Inv m S carried w' := by
  have hrecords : ∀ n, w'.records n = w.records n := fun n => congrFun hgrown.records n
  have hkeeps : Keeps w w' := Keeps.of_idKeys fun n => congrArg (List.map _) (hrecords n)
  refine ⟨fun hc plan hplan rel hrel n hn => ?_, fun plan hplan r hr => ?_⟩
  · exact hgrown.fields _ n (h.fields hc plan hplan rel hrel n hn)
  · rw [hrecords] at hr
    exact (h.records plan hplan r hr).mono (fun n => hgrown.fields _ n)
      (by rw [hgrown.lastPayload]) hkeeps

/-- A record that a row is written to. Its fields that do not exist are empty. -/
theorem RecordOk.of_write (hcarried : carried → CarriesRelations m w) (hplan : plan ∈ m.plans)
    {r : Record} (hr : ∀ n, r.fields n ≠ .empty → w.pb.hasField plan.pbCollection n = true)
    {row : Row} {oldId : String} (hS : S plan row) (hkey : rowKey plan row = some oldId)
    (hcoll : w'.pb.collections = w.pb.collections)
    (hlast : w'.lastPayload plan.pbCollection r.id = some (rowPayload plan row oldId)) :
    RecordOk m S carried plan w'
      (r.write (w.pb.accepted plan.pbCollection (rowPayload plan row oldId))) := by
  have hsame : w'.pb.hasField = w.pb.hasField := funext (PocketBase.hasField_of_collections hcoll)
  have hempty : ∀ n, w.pb.hasField plan.pbCollection n ≠ true → r.fields n = .empty := fun n hn =>
    by_contra fun hne => hn (hr n hne)
  have hrelation : ∀ col ∈ plan.columnPlans, ∀ rel, relationColumn? col = some rel →
      (r.write (w.pb.accepted plan.pbCollection (rowPayload plan row oldId))).fields rel.pbField =
        .empty := by
    intro col hcol rel hrel
    rw [write_accepted_fields, (rowPayload_fk hcol hrel hkey).1]
    split
    · rfl
    next hn => exact hempty _ hn
  refine ⟨fun n hn => ?_, fun rel hrel hn => ?_, row, oldId, hS, hkey, hlast, fun k hk => ?_,
    fun col hcol rel hrel => ?_⟩
  · rw [hsame]
    by_contra hnot
    rw [write_accepted_fields, if_neg hnot] at hn
    exact hn (hempty n hnot)
  · obtain ⟨col, hcol, hrel⟩ := List.mem_filterMap.mp hrel
    exact absurd (hrelation col hcol rel hrel) hn
  · rw [write_rowPayload_key hkey] at hk
    split at hk
    · exact (Option.some.inj hk).symm
    next hold =>
      rw [Record.key, hempty _ hold, Cell.toValue, normalizeOldId_empty] at hk
      cases hk
  · by_cases htemp : w.pb.hasField plan.pbCollection rel.fkTempField = true
    · refine Or.inl (Or.inl ⟨hrelation col hcol rel hrel, ?_⟩)
      rw [write_accepted_fields, if_pos htemp, (rowPayload_fk hcol hrel hkey).2]
      rfl
    · have hmem : rel ∈ fkColumns plan := List.mem_filterMap.mpr ⟨col, hcol, hrel⟩
      refine Or.inr ⟨fun hc => htemp (hcarried hc plan hplan rel hmem _ ?_),
        hrelation col hcol rel hrel, ?_⟩
      · exact List.mem_cons_of_mem _ List.mem_cons_self
      · rw [write_accepted_fields, if_neg htemp, hempty _ htemp]

/-- **A write of the first pass** keeps the invariant. -/
theorem Inv.rowWritten (h : Inv m S carried w) (hplan : plan ∈ m.plans) {row : Row}
    {oldId : String} {id : RecordId} (hS : S plan row)
    (hkey : rowKey plan row = some oldId)
    (hwritten : RowWritten plan row oldId id w w') : Inv m S carried w' := by
  have hsame : w'.pb.hasField = w.pb.hasField :=
    funext (PocketBase.hasField_of_collections hwritten.collections)
  refine ⟨fun hc q hq rel hrel n hn => hsame ▸ h.fields hc q hq rel hrel n hn,
    fun q hq r' hr' => ?_⟩
  have hfields : ∀ n, w.pb.hasField q.pbCollection n = true →
      w'.pb.hasField q.pbCollection n = true := fun n hn => hsame ▸ hn
  by_cases hne : q.pbCollection = plan.pbCollection
  · obtain rfl : q = plan := MigrationPlan.eq_of_pbCollection_eq hq hplan hne
    rcases hwritten.record r' hr' with ⟨hr', hlast⟩ | ⟨-, hlast, r, hr, rfl⟩
    · exact (h.records q hq r' hr').mono hfields hlast hwritten.keeps
    · refine RecordOk.of_write h.fields hq (fun n hn => ?_) hS hkey hwritten.collections hlast
      rcases hr with hr | rfl
      · exact (h.records q hq r hr).field n hn
      · exact absurd rfl hn
  · rw [hwritten.records _ hne] at hr'
    exact (h.records q hq r' hr').mono hfields (by rw [hwritten.lastPayload _ hne])
      hwritten.keeps

/-- A record stays in order when the second pass writes its patch. -/
theorem RecordOk.patch {r : Record} (h : RecordOk m S carried plan w r)
    (hcarried : carried → CarriesRelations m w) (hplan : plan ∈ m.plans) {maps : RelationMaps}
    (hmaps : MapsOf m maps w) :
    RecordOk m S carried plan w
      (r.write (w.pb.accepted plan.pbCollection (patchFrom maps r (fkColumns plan) []))) := by
  have hkeep : ∀ rel ∈ fkColumns plan, resolvedId maps r rel = none → ∀ n ∈ rel.names,
      (r.write (w.pb.accepted plan.pbCollection
        (patchFrom maps r (fkColumns plan) []))).fields n = r.fields n := by
    intro rel hrel hid n hn
    obtain ⟨hfield, htemp⟩ := patchFrom_get? maps r hrel
    have hnone : (patchFrom maps r (fkColumns plan) []).get? n = none := by
      rw [RelationColumn.names, List.mem_pair] at hn
      rcases hn with rfl | rfl
      · rw [hfield, hid, Option.map_none]
      · rw [htemp, hid, Option.map_none]
    rw [write_accepted_fields, hnone, Option.getD_none, ite_self]
  -- a column that resolves has a temporary field, since that field holds something
  have htemp : ∀ rel, (resolvedId maps r rel).isSome = true →
      w.pb.hasField plan.pbCollection rel.fkTempField = true := by
    intro rel hid
    refine h.field _ fun hempty => ?_
    rw [resolvedId, hempty] at hid
    exact absurd hid (by simp [Cell.isBlank])
  obtain ⟨row, oldId, hS, hkey, hpayload, hrkey, hcolumns⟩ := h.written
  refine ⟨fun n hn => ?_, fun rel hrel hn => ?_, row, oldId, hS, hkey, hpayload, fun k hk => ?_,
    fun col hcol rel hrel => ?_⟩
  · by_contra hnot
    rw [write_accepted_fields, if_neg hnot] at hn
    exact hnot (h.field n hn)
  · cases hid : resolvedId maps r rel with
    | none =>
        rw [hkeep rel hrel hid _ List.mem_cons_self] at hn
        exact h.temp rel hrel hn
    | some id => exact htemp rel (by rw [hid]; rfl)
  · rw [Record.key_write (by rw [PocketBase.accepted_get?, patchFrom_old_id, ite_self])] at hk
    exact hrkey k hk
  · have hmem : rel ∈ fkColumns plan := List.mem_filterMap.mpr ⟨col, hcol, hrel⟩
    cases hid : resolvedId maps r rel with
    | none =>
        have hfield' := hkeep rel hmem hid _ List.mem_cons_self
        have htemp' := hkeep rel hmem hid _ (List.mem_cons_of_mem _ List.mem_cons_self)
        rw [Conserved, Waiting, hfield', htemp']
        simp only [Resolved, hfield', htemp']
        exact hcolumns col hcol rel hrel
    | some id =>
        have htempField := htemp rel (by rw [hid]; rfl)
        rcases hcolumns col hcol rel hrel with hc | ⟨-, -, hempty⟩
        · by_cases hfield : w.pb.hasField plan.pbCollection rel.pbField = true
          · refine Or.inl (hc.patch hmaps hmem fun n hn => ?_)
            rw [RelationColumn.names, List.mem_pair] at hn
            rcases hn with rfl | rfl
            · exact hfield
            · exact htempField
          · obtain ⟨-, -, -, hfieldEmpty⟩ := hc.of_resolvedId hmaps hid
            refine Or.inr ⟨fun h' => hfield (hcarried h' plan hplan rel hmem _ List.mem_cons_self),
              ?_, ?_⟩
            · rw [write_accepted_fields, if_neg hfield, hfieldEmpty]
            · rw [write_accepted_fields, if_pos htempField, (patchFrom_get? maps r hmem).2, hid]
              rfl
        · rw [resolvedId, hempty] at hid
          exact absurd hid (by simp [Cell.isBlank])

/-- **A patch of the second pass** keeps the invariant. -/
theorem Inv.patch (h : Inv m S carried w) (hplan : plan ∈ m.plans) {record : Record}
    (hrecord : record ∈ w.records plan.pbCollection) {maps : RelationMaps}
    (hmaps : MapsOf m maps w) :
    Inv m S carried (w.editRecord plan.pbCollection record.id
      (patchFrom maps record (fkColumns plan) [])) := by
  have hkeeps : Keeps w (w.editRecord plan.pbCollection record.id
      (patchFrom maps record (fkColumns plan) [])) :=
    Keeps.of_idKeys fun n => World.editRecord_idKeys (patchFrom_old_id maps record plan) ..
  refine ⟨h.fields, fun q hq r' hr' => ?_⟩
  by_cases hne : q.pbCollection = plan.pbCollection
  · obtain rfl : q = plan := MigrationPlan.eq_of_pbCollection_eq hq hplan hne
    rw [World.editRecord_records_self] at hr'
    rcases mem_modifyAt.mp hr' with ⟨hr', -⟩ | ⟨r, hr, hid, rfl⟩
    · exact (h.records q hq r' hr').mono (fun _ hn => hn) rfl hkeeps
    · obtain rfl := eq_of_ident_eq (w.pb.ids_nodup _) hr hrecord hid
      exact ((h.records q hq r hr).patch h.fields hq hmaps).mono (fun _ hn => hn) rfl hkeeps
  · rw [World.editRecord_records_of_ne hne] at hr'
    exact (h.records q hq r' hr').mono (fun _ hn => hn) rfl hkeeps

end Steps

/-! ### Runs -/

/-- **Every run keeps the invariant**, wherever it is interrupted. -/
theorem migrate_inv (o : Oracle) (cfg : Config) (m : MigrationPlan) (source : Source)
    {S : TablePlan → Row → Prop}
    (hS : ∀ plan ∈ m.plans, ∀ row ∈ (source plan.table).rows, S plan row) (carried : Prop) :
    Triple (Inv m S carried) (migrate o cfg m source) (fun _ => Inv m S carried)
      (Inv m S carried) := by
  refine migrate_rule (fun plan hplan => ?_) (fun plan hplan => ?_) fun w w' hgrown h =>
    h.schemaGrown hgrown
  · refine migrateTablePass1_writes (J := fun _ => Inv m S carried) (fun _ _ h _ => h) ?_ ?_
      fun _ _ h => h
    · exact fun row hrow oldId hkey id map w w' _ h hwritten =>
        h.rowWritten hplan (hS plan hplan row hrow) hkey hwritten
    · exact fun row hrow oldId hkey map w w' h hwritten =>
        h.rowWritten hplan (hS plan hplan row hrow) hkey hwritten
  · exact resolveRelationsPass2_rule (fun w record maps h hrecord hmaps =>
      h.patch hplan hrecord hmaps) fun _ h => h

/-- **No foreign key is lost.** Start with collections that have no records but all relation and
temporary fields, and migrate any number of times, with any calls failing and any run cut off.
Then every record has been written by the first pass, and for every foreign-key column the value
of the last payload written to it waits in the temporary field or has become a relation to a
record of the referenced table with that key. -/
theorem foreignKeys_conserved (m : MigrationPlan) (w : World)
    (hreach : Reachable
      (fun w => (∀ plan ∈ m.plans, w.records plan.pbCollection = []) ∧ CarriesRelations m w)
      (fun run => ∃ o cfg source, run = migrate o cfg m source) w)
    (plan : TablePlan) (hplan : plan ∈ m.plans) (r : Record)
    (hr : r ∈ w.records plan.pbCollection) :
    ∃ p, w.lastPayload plan.pbCollection r.id = some p ∧ ∀ rel ∈ fkColumns plan,
      ∃ v, p.get? rel.fkTempField = some (.ofValue (oldIdValue v)) ∧ Conserved m w rel r v := by
  have hinv : Inv m (fun _ _ => True) True w := by
    refine hreach.invariant (I := Inv m (fun _ _ => True) True)
      (fun w hw => Inv.of_start hw.1 fun _ => hw.2) ?_
    rintro _ ⟨o, cfg, source, rfl⟩
    exact migrate_inv o cfg m source (fun _ _ _ _ => trivial) True
  obtain ⟨row, oldId, -, hkey, hpayload, -, hcolumns⟩ := (hinv.records plan hplan r hr).written
  refine ⟨_, hpayload, fun rel hrel => ?_⟩
  obtain ⟨col, hcol, hrel⟩ := List.mem_filterMap.mp hrel
  refine ⟨_, (rowPayload_fk hcol hrel hkey).2, ?_⟩
  exact (hcolumns col hcol rel hrel).resolve_right fun hlost => hlost.1 trivial

end Invariant

section Example

attribute [local instance] asciiLetterCase

/-- The collections of the notes, without records. -/
def notesCollections : World :=
  (ensureCollections allOk notesPlan.orderedPlans (fun _ => none) (World.initial schemaServer)).2

/-- The calls with which the second pass sets relations. -/
def isPatch : Call → Bool
  | .patchRecord _ _ => true
  | _ => false

/-- The foreign keys of a note, after a migration whose patches all fail. -/
theorem foreignKeys_conserved_notes :
    ∃ w, w = (migrate (failing isPatch) notesConfig notesPlan notesSource notesCollections).2 ∧
      ∃ r ∈ w.records "notes", ∃ p, w.lastPayload "notes" r.id = some p ∧
        ∀ rel ∈ fkColumns (notesTable "notes" (by decide)),
          ∃ v, p.get? rel.fkTempField = some (.ofValue (oldIdValue v)) ∧
            Conserved notesPlan w rel r v := by
  have hstart : (∀ plan ∈ notesPlan.plans, notesCollections.records plan.pbCollection = []) ∧
      CarriesRelations notesPlan notesCollections := by
    constructor
    · have hnil : ∀ plan ∈ notesPlan.plans,
          (notesCollections.records plan.pbCollection).length = 0 := by decide +kernel
      exact fun plan hplan => List.length_eq_zero_iff.mp (hnil plan hplan)
    · rw [CarriesRelations]
      decide +kernel
  have hlength : ((migrate (failing isPatch) notesConfig notesPlan notesSource
      notesCollections).2.records "notes").length = 1 := by decide +kernel
  obtain ⟨r, hr⟩ := List.length_eq_one_iff.mp hlength
  have hmem : r ∈ (migrate (failing isPatch) notesConfig notesPlan notesSource
      notesCollections).2.records "notes" := hr ▸ List.mem_cons_self
  have h := foreignKeys_conserved notesPlan _
    (.run (.start hstart) ⟨failing isPatch, notesConfig, notesSource, rfl⟩)
    (notesTable "notes" (by decide)) (notesTable_mem "notes" (by decide)) r
    (by rw [notesTable_pbCollection]; exact hmem)
  rw [notesTable_pbCollection] at h
  exact ⟨_, rfl, r, hmem, h⟩

end Example

end Mogo
