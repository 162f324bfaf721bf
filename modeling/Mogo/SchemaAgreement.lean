import Mogo.SchemaDelivery

/-!
# Schema and Payload

Two functions decide independently which fields a foreign-key column has: `buildDesiredFields`
looks at the collections that are known when the table is ensured, and `buildPass1RecordPayload`
at the plan. This module says when they agree, and when the fields that are asked for are there to
take the values.

## Main results

* `ensureCollections_arrives`: the fields the collections have after the schema step.
* `schemaAgrees_iff`: in a migration into an empty PocketBase schema and payload agree, and every
  foreign-key value is stored, exactly when every foreign-key column refers to a table that comes
  earlier and whose own step succeeded, and its temporary field arrives.
* `not_schemaAgrees_nodes`: for a table that refers to itself they do not agree; the temporary
  field, and with it the reference, is dropped.
-/

namespace Mogo

open Script

/-! ### The fields after the schema step -/

/-- **The schema step over new tables.** In the end a collection has, of the fields that were asked
for in its turn, those that arrive. -/
theorem ensureCollections_arrives {o : Oracle} (ho : o.Uninterrupted) {plans : List TablePlan}
    (hnodup : (plans.map TablePlan.pbCollection).Nodup) {byName : String → Option Collection}
    {w : World} (hnew : New plans byName w) :
    ∃ byName' w', ensureCollections o plans byName w = (some byName', w') ∧
      (∀ n ∉ plans.map TablePlan.pbCollection, w'.pb.collection? n = w.pb.collection? n) ∧
      ∀ pre plan post, plans = pre ++ plan :: post → ∀ byName₁ w₁,
        ensureCollections o pre byName w = (some byName₁, w₁) →
          ∀ f ∈ buildDesiredFields plan byName₁,
            w'.pb.hasField plan.pbCollection f.name = true ↔
              FieldArrives o w.pb.server plan.pbCollection f.name := by
  induction plans generalizing byName w with
  | nil => exact ⟨byName, w, rfl, fun _ _ => rfl, fun _ _ _ h => absurd h (by simp)⟩
  | cons plan plans ih =>
      obtain ⟨hnotin, hnodup⟩ := List.nodup_cons.mp hnodup
      obtain ⟨hnone, hfree⟩ := hnew plan List.mem_cons_self
      obtain ⟨byName₁, w₁, hrun, hgrown, hnew₁, -⟩ := ensureTable_run ho hnotin hnew
      obtain ⟨r, w₁', hcollection, harrives⟩ := ensureCollection_arrives ho hnone hfree
      have hcur : Current byName plan w := fun c hc => absurd hc (by rw [hnone]; simp)
      obtain ⟨hstep, -⟩ :=
        (ensureCollection_spec o plan byName w hcur).of_returned rfl hcollection
      obtain rfl : w₁' = w₁ := by
        rw [ensureTable, bind_run_of_eq hcollection] at hrun
        cases r with
        | none => exact (Prod.mk.inj hrun).2
        | some c => exact (Prod.mk.inj hrun).2
      obtain ⟨byName', w', hrun', hothers, hfields⟩ := ih hnodup hnew₁
      refine ⟨byName', w', ?_, fun n hn => ?_, ?_⟩
      · rw [ensureCollections, forEach_cons_run hrun]
        exact hrun'
      · rw [List.map_cons, List.mem_cons, not_or] at hn
        rw [hothers n hn.2, hstep.collection?_of_ne hn.1]
      · intro pre p post hsplit byName₂ w₂ hpre
        cases pre with
        | nil =>
            obtain ⟨rfl, -⟩ := List.cons.inj hsplit
            obtain ⟨hname, -⟩ := Prod.mk.inj hpre
            obtain rfl := Option.some.inj hname
            intro f hf
            rw [PocketBase.hasField, hothers _ hnotin]
            exact harrives f hf
        | cons p₀ pre =>
            rw [List.cons_append] at hsplit
            obtain ⟨rfl, htail⟩ := List.cons.inj hsplit
            rw [ensureCollections, forEach_cons_run hrun] at hpre
            rw [← hgrown.server]
            exact hfields pre p post htail byName₂ w₂ hpre

section Agreement

variable [LetterCase]

/-- The foreign-key values of a table are stored: whatever record the payload of a row is written
to, it has each of them in a field of the column, and the collection has that field. -/
def StoresReferences (w : World) (plan : TablePlan) : Prop :=
  ∀ row payload, buildPass1RecordPayload row plan = some payload →
    ∀ col ∈ plan.columnPlans, col.isForeignKey = true →
      ∀ k, normalizeOldId (row.get col.sourceColumn) = some k → ∀ (oldId : String) (r : Record),
        ∃ n ∈ col.fieldNames, w.pb.hasField plan.pbCollection n = true ∧
          (r.write (w.pb.accepted plan.pbCollection (payload.setOldId oldId))).fields n =
            .value (.string k)

/-- Schema and payload agree: every key of every payload of a table is the name of a field that is
asked for when the collection of the table is ensured, and after the schema step every foreign-key
value is stored. -/
def SchemaAgrees (o : Oracle) (m : MigrationPlan) (w : World) : Prop :=
  (∀ pre plan post, m.orderedPlans = pre ++ plan :: post →
    ∀ byName w', ensureCollections o pre (fun _ => none) w = (some byName, w') →
      ∀ row payload, buildPass1RecordPayload row plan = some payload →
        ∀ x ∈ payload, x.1 ∈ (buildDesiredFields plan byName).map Field.name) ∧
  ∀ byName w', ensureCollections o m.orderedPlans (fun _ => none) w = (some byName, w') →
    ∀ plan ∈ m.plans, StoresReferences w' plan

/-- Every foreign-key column can take its values: it refers to the collection of a table that comes
earlier in the order and whose own step succeeds, and its temporary field arrives. -/
def ReferencesEnsured (o : Oracle) (m : MigrationPlan) (server : PbServer) : Prop :=
  ∀ pre plan post, m.orderedPlans = pre ++ plan :: post →
    ∀ col ∈ plan.columnPlans, ∀ fk, col.fk = some fk →
      (∃ q ∈ pre, q.pbCollection = fk.pbCollection ∧ EnsureSucceeds o server q.pbCollection) ∧
      ∀ temp, col.fkTempField = some temp → FieldArrives o server plan.pbCollection temp

/-- The keys of a payload, as keys that can be looked up. -/
theorem exists_mem_payload_iff {row : Row} {plan : TablePlan} {payload : Payload}
    (h : buildPass1RecordPayload row plan = some payload) {n : String} :
    (∃ x ∈ payload, x.1 = n) ↔ n ∈ plan.columnPlans.flatMap ColumnPlan.fieldNames := by
  rw [← buildPass1RecordPayload_isSome_iff h, Payload.get?, List.lookup_isSome_iff]
  exact exists_congr fun x => and_congr_right fun _ => by rw [beq_iff_eq, eq_comm]

omit [LetterCase] in
/-- The temporary field of a column is asked for only if the collection the column refers to is
known. -/
theorem known_of_temp_mem {plan : TablePlan} {byName : String → Option Collection}
    {col : ColumnPlan} (hcol : col ∈ plan.columnPlans) {fk : PlannedForeignKey}
    (hfk : col.fk = some fk) {temp : String} (ht : col.fkTempField = some temp)
    (h : temp ∈ (buildDesiredFields plan byName).map Field.name) :
    (byName fk.pbCollection).isSome = true := by
  have htmem := TablePlan.temp_mem_fieldNames ht
  rw [buildDesiredFields, List.map_cons, List.map_flatMap, List.mem_cons] at h
  rcases h with h | h
  · rw [h] at htmem
    exact absurd htmem (TablePlan.old_id_notMem hcol)
  · obtain ⟨col', hcol', hn⟩ := List.mem_flatMap.mp h
    have hsub : temp ∈ col'.fieldNames := by
      rw [map_name_columnFields hcol'] at hn
      split at hn
      · exact hn
      · exact List.mem_cons.mpr (Or.inl (List.mem_singleton.mp hn))
    obtain rfl := TablePlan.eq_of_mem_fieldNames hcol hcol' htmem hsub
    rw [map_name_columnFields hcol] at hn
    split at hn
    next hknown => exact hknown fk hfk
    next => exact absurd (List.mem_singleton.mp hn).symm (TablePlan.pbField_ne_temp hcol ht)

/-- The text `1` is a key, and its own normal form. -/
theorem normalizeOldId_one : normalizeOldId (some (.string "1")) = some "1" := by
  have hlow : toLowerCase "1" = "1" :=
    (LetterCase.toLowerCase_ascii "1" (by simp)).trans (by decide)
  have htrim : trim "1" = "1" := by decide
  simp only [normalizeOldId, Value.toJsString, Option.bind_some, htrim, hlow]
  rfl

/-- **Where foreign-key values are stored.** They are if the temporary fields of their columns are
there, and only then. -/
theorem storesReferences_iff {w : World} {plan : TablePlan} :
    StoresReferences w plan ↔ ∀ col ∈ plan.columnPlans, ∀ temp, col.fkTempField = some temp →
      w.pb.hasField plan.pbCollection temp = true := by
  constructor
  · intro h col hcol temp ht
    -- a row with a value in this column only
    obtain ⟨payload, hpayload⟩ : ∃ payload,
        buildPass1RecordPayload [(col.sourceColumn, .string "1")] plan = some payload := by
      refine exists_payload_iff.mpr fun col' _ _ => ?_
      rw [Row.get, List.lookup_cons]
      split <;> rfl
    have hflag : col.isForeignKey = true := by
      rw [plan.isForeignKey_eq col hcol, ← plan.fkTempField_isSome col hcol, ht]
      rfl
    have hvalue : normalizeOldId
        (Row.get [(col.sourceColumn, .string "1")] col.sourceColumn) = some "1" := by
      rw [Row.get, List.lookup_cons, beq_self_eq_true]
      exact normalizeOldId_one
    obtain ⟨n, hn, hfield, hstored⟩ :=
      h _ payload hpayload col hcol hflag "1" hvalue "" ⟨0, fun _ => .empty⟩
    have hne : n ≠ "old_id" := fun he => TablePlan.old_id_notMem hcol (he ▸ hn)
    rw [write_accepted_fields, if_pos hfield, Payload.setOldId, Payload.get?_set_of_ne _ hne]
      at hstored
    rw [ColumnPlan.fieldNames, ht, Option.toList_some, List.mem_pair] at hn
    rcases hn with rfl | rfl
    · rw [(buildPass1RecordPayload_fk hcol ht hpayload).1] at hstored
      exact absurd hstored (by simp)
    · exact hfield
  · intro h row payload hpayload col hcol hflag k hk oldId r
    obtain ⟨temp, ht⟩ := Option.isSome_iff_exists.mp ((plan.fkTempField_isSome col hcol).trans
      ((plan.isForeignKey_eq col hcol).symm.trans hflag))
    have htmem := TablePlan.temp_mem_fieldNames ht
    have hne : temp ≠ "old_id" := fun he => TablePlan.old_id_notMem hcol (he ▸ htmem)
    refine ⟨temp, htmem, h col hcol temp ht, ?_⟩
    rw [write_accepted_fields, if_pos (h col hcol temp ht), Payload.setOldId,
      Payload.get?_set_of_ne _ hne, (buildPass1RecordPayload_fk hcol ht hpayload).2, hk]
    rfl

omit [LetterCase] in
/-- When a table has its turn, the collections that are known are those of the earlier tables whose
own steps have succeeded. -/
theorem known_before {o : Oracle} (ho : o.Uninterrupted) {m : MigrationPlan} {w : World}
    (hempty : w.pb.Empty) {pre post : List TablePlan} {plan : TablePlan}
    (hsplit : m.orderedPlans = pre ++ plan :: post) :
    ∃ byName w', ensureCollections o pre (fun _ => none) w = (some byName, w') ∧
      ∀ n, (byName n).isSome = true ↔
        ∃ q ∈ pre, q.pbCollection = n ∧ EnsureSucceeds o w.pb.server n := by
  have hnodup := orderedPlans_collections_nodup (m := m)
  rw [hsplit, List.map_append, List.nodup_append] at hnodup
  obtain ⟨byName, w', hrun, hmap⟩ := ensureCollections_names ho hnodup.1 (New.of_empty hempty pre)
  exact ⟨byName, w', hrun, fun n => (hmap n).trans (by simp)⟩

omit [LetterCase] in
/-- Where every foreign-key column can take its values, all fields of a table's columns are asked
for. -/
theorem ReferencesEnsured.asked {o : Oracle} (ho : o.Uninterrupted) {m : MigrationPlan}
    {w : World} (hempty : w.pb.Empty) (h : ReferencesEnsured o m w.pb.server)
    {pre post : List TablePlan} {plan : TablePlan} (hsplit : m.orderedPlans = pre ++ plan :: post)
    {byName : String → Option Collection} {w₁ : World}
    (hrun : ensureCollections o pre (fun _ => none) w = (some byName, w₁)) :
    (buildDesiredFields plan byName).map Field.name = plan.fieldNames := by
  obtain ⟨byName₀, w₀, hrun₀, hmap⟩ := known_before ho hempty hsplit
  obtain rfl : byName₀ = byName := (Option.some.inj (Prod.mk.inj (hrun.symm.trans hrun₀)).1).symm
  refine map_name_buildDesiredFields fun col hcol fk hfk => ?_
  obtain ⟨⟨q, hq, hqn, hsucc⟩, -⟩ := h pre plan post hsplit col hcol fk hfk
  exact (hmap _).mpr ⟨q, hq, hqn, hqn ▸ hsucc⟩

/-- Where schema and payload agree, the temporary field of every foreign-key column is asked for:
the payload of any row has it. -/
theorem SchemaAgrees.asked {o : Oracle} {m : MigrationPlan} {w : World} (h : SchemaAgrees o m w)
    {pre post : List TablePlan} {plan : TablePlan} (hsplit : m.orderedPlans = pre ++ plan :: post)
    {byName : String → Option Collection} {w₁ : World}
    (hrun : ensureCollections o pre (fun _ => none) w = (some byName, w₁))
    {col : ColumnPlan} (hcol : col ∈ plan.columnPlans) {temp : String}
    (ht : col.fkTempField = some temp) :
    temp ∈ (buildDesiredFields plan byName).map Field.name := by
  obtain ⟨payload, hpayload⟩ : ∃ payload, buildPass1RecordPayload [] plan = some payload :=
    exists_payload_iff.mpr fun _ _ _ => rfl
  obtain ⟨x, hx, rfl⟩ := (exists_mem_payload_iff hpayload).mpr
    (List.mem_flatMap.mpr ⟨col, hcol, TablePlan.temp_mem_fieldNames ht⟩)
  exact h.1 pre plan post hsplit byName w₁ hrun [] payload hpayload x hx

/-- **When schema and payload agree.** In a migration into an empty PocketBase, under any pattern
of failing calls, they agree and every foreign-key value is stored exactly when every foreign-key
column can take its values. -/
theorem schemaAgrees_iff (fails : Call → Bool) (m : MigrationPlan) (w : World)
    (hempty : w.pb.Empty) :
    SchemaAgrees (failing fails) m w ↔ ReferencesEnsured (failing fails) m w.pb.server := by
  have ho := failing_uninterrupted fails
  obtain ⟨byName', w', hrun', -, harrives⟩ := ensureCollections_arrives ho
    orderedPlans_collections_nodup (New.of_empty hempty m.orderedPlans)
  constructor
  · intro hagrees pre plan post hsplit col hcol fk hfk
    obtain ⟨byName, w₁, hrun, hmap⟩ := known_before ho hempty hsplit
    constructor
    · obtain ⟨temp, ht⟩ := Option.isSome_iff_exists.mp
        ((plan.fkTempField_isSome col hcol).trans (by rw [hfk]; rfl))
      obtain ⟨q, hq, hqn, hsucc⟩ :=
        (hmap _).mp (known_of_temp_mem hcol hfk ht (hagrees.asked hsplit hrun hcol ht))
      exact ⟨q, hq, hqn, hqn ▸ hsucc⟩
    · intro temp ht
      have hplan : plan ∈ m.plans := mem_orderedPlans.mp (hsplit ▸ by simp)
      obtain ⟨f, hf, rfl⟩ := List.mem_map.mp (hagrees.asked hsplit hrun hcol ht)
      exact (harrives pre plan post hsplit byName w₁ hrun f hf).mp
        (storesReferences_iff.mp (hagrees.2 byName' w' hrun' plan hplan) col hcol f.name ht)
  · intro hensured
    constructor
    · intro pre plan post hsplit byName w₁ hrun row payload hpayload x hx
      rw [hensured.asked ho hempty hsplit hrun]
      exact List.mem_cons_of_mem _ ((exists_mem_payload_iff hpayload).mp ⟨x, hx, rfl⟩)
    · intro byName w₂ hrun₂ plan hplan
      obtain rfl : w' = w₂ := (Prod.mk.inj (hrun'.symm.trans hrun₂)).2
      obtain ⟨pre, post, hsplit⟩ := List.append_of_mem (mem_orderedPlans.mpr hplan)
      obtain ⟨byName₁, w₁, hrun, -⟩ := known_before ho hempty hsplit
      refine storesReferences_iff.mpr fun col hcol temp ht => ?_
      obtain ⟨fk, hfk⟩ := Option.isSome_iff_exists.mp
        ((plan.fkTempField_isSome col hcol).symm.trans (by rw [ht]; rfl))
      have htemp : temp ∈ plan.fieldNames := List.mem_cons_of_mem "old_id"
        (List.mem_flatMap.mpr ⟨col, hcol, TablePlan.temp_mem_fieldNames ht⟩)
      rw [← hensured.asked ho hempty hsplit hrun] at htemp
      obtain ⟨f, hf, rfl⟩ := List.mem_map.mp htemp
      exact (harrives pre plan post hsplit byName₁ w₁ hrun f hf).mpr
        ((hensured pre plan post hsplit col hcol fk hfk).2 f.name ht)

end Agreement

/-! ### A table that refers to itself -/

attribute [local instance] asciiLetterCase

/-- A table of nodes with a declared foreign key `parent_id` to the table itself. -/
def nodesFound : TableDiscovery where
  columns := [⟨"id", some "text", none⟩, ⟨"parent_id", some "text", none⟩]
  primaryKey := "id"
  autoForeignKeys := [⟨"parent_id", ⟨"nodes", "id"⟩⟩]
  primaryKey_ne := id_ne_empty

/-- The migration of the nodes, a table that refers to itself. -/
def nodesPlan : MigrationPlan :=
  buildPlans ["nodes"] (by decide) (fun _ => []) fun t =>
    if t = "nodes" then some nodesFound else none

/-- The plan of the nodes writes a field that is not asked for. -/
theorem nodesPlan_orderedPlans : ∃ plan, nodesPlan.orderedPlans = [plan] ∧
    plan.columnPlans.flatMap ColumnPlan.fieldNames = ["parent_id", "parent_id_old"] ∧
    (buildDesiredFields plan fun _ => none).map Field.name = ["old_id", "parent_id"] :=
  ⟨_, rfl, by decide, by decide⟩

/-- **A reference that is dropped.** The collection of the nodes is not known when it is ensured,
so its temporary field is not asked for; the payload of every node names it all the same. -/
theorem not_schemaAgrees_nodes :
    ¬ SchemaAgrees allOk nodesPlan (World.initial schemaServer) := by
  rintro ⟨h, -⟩
  obtain ⟨plan, hplan, hkeys, hasked⟩ := nodesPlan_orderedPlans
  obtain ⟨payload, hpayload⟩ : ∃ payload, buildPass1RecordPayload [] plan = some payload :=
    exists_payload_iff.mpr fun _ _ _ => rfl
  obtain ⟨x, hx, hn⟩ : ∃ x ∈ payload, x.1 = "parent_id_old" :=
    (exists_mem_payload_iff hpayload).mpr (by rw [hkeys]; decide)
  have hin := h [] plan [] hplan (fun _ => none) (World.initial schemaServer) rfl [] payload
    hpayload x hx
  rw [hn, hasked] at hin
  exact absurd hin (by decide)

/-! ### Tables that refer to earlier ones -/

/-- A server of the newer kind, which accepts a collection without fields. -/
def fieldsServer : PbServer := ⟨.fields, true, id⟩

/-- The calls that bring fields to a collection: its creation with them, and the calls that add
them. -/
def bringsFields : Call → Bool
  | .createCollection .fields _ => true
  | call => addsFields call

/-- The references of the notes can take their values if one call for each field is answered. -/
theorem referencesEnsured_notes {fails : Call → Bool}
    (hcreate : ∀ name, fails (.createCollection .fields name) = false)
    (hget : ∀ name, fails (.getCollection name) = false) :
    ReferencesEnsured (failing fails) notesPlan fieldsServer := by
  have hmode : ∀ name, createMode? (failing fails) fieldsServer name = some .fields := by
    intro name
    simp [createMode?, failing, hcreate, fieldsServer, PbServer.takes, PbServer.reads]
  intro pre plan post hsplit col hcol fk hfk
  have hplan : plan ∈ notesPlan.plans := mem_orderedPlans.mp (hsplit ▸ by simp)
  obtain ⟨q, hq, htable⟩ := referencesPlanned_notes plan hplan col hcol fk hfk
  have hmem := plan.fk_mem col hcol fk hfk
  refine ⟨⟨q, MigrationPlan.orderedPlans_parents_first notesPlan_acyclic hsplit hmem hq htable.symm,
    (notesPlan.reference_collection plan hplan fk hmem q hq htable).symm, ?_, ?_⟩,
    fun temp _ => ⟨.fields, hmode _, Or.inl rfl⟩⟩
  · rw [hmode]
    rfl
  · simp [failing, hget]

/-- The notes: schema and payload agree when the updates fail and the creates bring the fields, but
not when the creates bring none. -/
theorem schemaAgrees_iff_notes :
    SchemaAgrees (failing addsFields) notesPlan (World.initial fieldsServer) ∧
      ¬ SchemaAgrees (failing bringsFields) notesPlan (World.initial fieldsServer) := by
  refine ⟨(schemaAgrees_iff addsFields notesPlan (World.initial fieldsServer)
    (PocketBase.installed_empty fieldsServer)).mpr
      (referencesEnsured_notes (fun _ => rfl) fun _ => rfl), fun h => ?_⟩
  have hensured := (schemaAgrees_iff bringsFields notesPlan (World.initial fieldsServer)
    (PocketBase.installed_empty fieldsServer)).mp h
  obtain ⟨pre, post, hsplit⟩ := List.append_of_mem
    (mem_orderedPlans.mpr (notesTable_mem "notes" (by decide)))
  obtain ⟨col, hcol, fk, hfk, temp, ht⟩ : ∃ col ∈ (notesTable "notes" (by decide)).columnPlans,
      ∃ fk, col.fk = some fk ∧ ∃ temp, col.fkTempField = some temp := by
    obtain ⟨col, hcol, hsome⟩ : ∃ col ∈ (notesTable "notes" (by decide)).columnPlans,
        col.fk.isSome = true ∧ col.fkTempField.isSome = true := by decide
    obtain ⟨fk, hfk⟩ := Option.isSome_iff_exists.mp hsome.1
    obtain ⟨temp, ht⟩ := Option.isSome_iff_exists.mp hsome.2
    exact ⟨col, hcol, fk, hfk, temp, ht⟩
  obtain ⟨mode, hmode, harrives⟩ := (hensured pre _ post hsplit col hcol fk hfk).2 temp ht
  obtain rfl : CreateMode.schema = mode := Option.some.inj (Eq.trans (by rfl) hmode)
  exact absurd harrives (by simp [failing, bringsFields, addsFields, PbServer.reads,
    World.initial, PocketBase.installed, fieldsServer])

end Mogo
