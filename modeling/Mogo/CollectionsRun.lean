import Mogo.Collections

/-!
# Runs of the Schema Step

What an uninterrupted run of the schema step does for tables whose collections do not exist yet:
which of them get a collection, and which fields these collections have.

## Main results

* `ensureCollections_names`: the collections the loop knows are those whose step succeeded.
* `map_name_buildDesiredFields`: when every collection a plan refers to is known, all its fields
  are asked for.
* `ensureCollections_fields`: with every call answered, the collections have the fields of every
  column whose reference comes first.
-/

namespace Mogo

open Script

/-! ### Runs from an empty PocketBase -/

/-- The first mode in which a collection can be created. -/
def createMode? (o : Oracle) (server : PbServer) (name : String) : Option CreateMode :=
  [CreateMode.fields, .schema, .bare].find? fun mode =>
    o (.createCollection mode name) = .ok && server.takes mode

/-- The calls `ensureCollection` cannot do without when the collection is new: one create, and
the fetch of the result. -/
def EnsureSucceeds (o : Oracle) (server : PbServer) (name : String) : Prop :=
  (createMode? o server name).isSome = true ∧ o (.getCollection name) = .ok

instance (o : Oracle) (server : PbServer) (name : String) :
    Decidable (EnsureSucceeds o server name) := inferInstanceAs (Decidable (_ ∧ _))

section Runs

variable {o : Oracle}

/-- The index is ensured in a call that comes back, unless the script is interrupted. -/
theorem ensureOldIdIndex_returns (ho : o.Uninterrupted) (c : Collection) :
    Returns (ensureOldIdIndex o c) := by
  rw [ensureOldIdIndex]
  split
  · exact Returns.pure ()
  · exact (Returns.call (ho _) _).bind fun _ => Returns.pure ()

/-- Adding fields comes back, unless the script is interrupted; failures are only logged. -/
theorem syncMissingFields_returns (ho : o.Uninterrupted) (c : Collection) (fields : List Field) :
    Returns (syncMissingFields o c fields) := by
  rw [syncMissingFields]
  split
  · exact Returns.pure ()
  · refine (Returns.call (ho _) _).bind ?_
    rintro (- | -)
    · exact Returns.forEach (fun _ _ => (Returns.call (ho _) _).bind fun _ => Returns.pure ()) _ _
    · exact Returns.pure ()

/-- A create under a free name succeeds when its call is answered and the server takes the mode. The
collection has the fields that the mode stores. -/
theorem call_create_run (ho : o.Uninterrupted) (mode : CreateMode) {name : String}
    (fields : List Field) {w : World} (hfree : ∀ c ∈ w.pb.collections, c.name ≠ name) :
    (∃ c w', call (o (.createCollection mode name)) (World.createCollection mode name fields) w =
        (some (some c), w') ∧ c.fields = w.pb.server.stored mode fields ∧
      (o (.createCollection mode name) = .ok && w.pb.server.takes mode) = true) ∨
    (call (o (.createCollection mode name)) (World.createCollection mode name fields) w =
        (some none, w) ∧
      (o (.createCollection mode name) = .ok && w.pb.server.takes mode) = false) := by
  rcases hfate : o (.createCollection mode name) with - | - | -
  · by_cases htakes : w.pb.server.takes mode = true
    · refine Or.inl ⟨_, _, call_ok_run (dif_pos ⟨htakes, hfree⟩), rfl, ?_⟩
      simpa using htakes
    · refine Or.inr ⟨?_, by simpa using htakes⟩
      have hrejected : World.createCollection mode name fields w = none :=
        dif_neg fun h => htakes h.1
      simp only [call, hrejected]
  · exact Or.inr ⟨rfl, by simp⟩
  · exact absurd hfate (ho _)

/-- The fields a new collection starts with. -/
def createdFields (o : Oracle) (server : PbServer) (name : String) (fields : List Field) :
    List Field :=
  match createMode? o server name with
  | some mode => server.stored mode fields
  | none => []

/-- A collection of a free name is created exactly when one of the three modes succeeds, and by the
first of them. -/
theorem createCollection_run (ho : o.Uninterrupted) {name : String} (fields : List Field)
    {w : World} (hfree : ∀ c ∈ w.pb.collections, c.name ≠ name) :
    ∃ r w', createCollection o name fields w = (some r, w') ∧
      r.isSome = (createMode? o w.pb.server name).isSome ∧
      (∀ c, r = some c → c.fields = createdFields o w.pb.server name fields) ∧
      (r = none → w' = w) := by
  rw [createCollection, createdFields, createMode?]
  rcases call_create_run ho .fields fields hfree with ⟨c, w', hrun, hc, hf⟩ | ⟨hrun, hf⟩
  · rw [bind_run_of_eq hrun, List.find?_cons_of_pos (by exact hf)]
    exact ⟨_, _, rfl, rfl, fun _ h => Option.some.inj h ▸ hc,
      fun h => absurd h (Option.some_ne_none _)⟩
  rw [bind_run_of_eq hrun, List.find?_cons_of_neg (by simpa using hf)]
  dsimp only
  rcases call_create_run ho .schema fields hfree with ⟨c, w', hrun, hc, hf⟩ | ⟨hrun, hf⟩
  · rw [bind_run_of_eq hrun, List.find?_cons_of_pos (by exact hf)]
    exact ⟨_, _, rfl, rfl, fun _ h => Option.some.inj h ▸ hc,
      fun h => absurd h (Option.some_ne_none _)⟩
  rw [bind_run_of_eq hrun, List.find?_cons_of_neg (by simpa using hf)]
  dsimp only
  rcases call_create_run ho .bare fields hfree with ⟨c, w', hrun, hc, hf⟩ | ⟨hrun, hf⟩
  · rw [hrun, List.find?_cons_of_pos (by exact hf)]
    exact ⟨_, _, rfl, rfl, fun _ h => Option.some.inj h ▸ hc,
      fun h => absurd h (Option.some_ne_none _)⟩
  · rw [hrun, List.find?_cons_of_neg (by simpa using hf)]
    exact ⟨_, _, rfl, rfl, fun c h => absurd h.symm (Option.some_ne_none c), fun _ => rfl⟩

/-- The fetch of a collection that is there is answered with a collection. -/
theorem call_getCollection_run {name : String} {c : Collection} {w : World}
    (hok : o (.getCollection name) = .ok) (hc : Present c w) :
    ∃ c' ∈ w.pb.collections,
      call (o (.getCollection name)) (World.getCollection c.id) w = (some (some c'), w) := by
  obtain ⟨c', hc', hid, -⟩ := hc
  rw [hok, ← hid]
  exact ⟨c', hc', call_ok_run (World.getCollection_of_mem hc')⟩

/-- A collection whose bulk update is answered has the desired fields. -/
theorem syncMissingFields_fields {c : Collection} {desiredFields : List Field} {w w' : World}
    (hok : o (.updateFields c.name) = .ok) (hc : c ∈ w.pb.collections)
    (h : syncMissingFields o c desiredFields w = (some (), w')) :
    ∀ f ∈ desiredFields, w'.pb.hasField c.name f.name = true := by
  intro f hf
  rw [syncMissingFields] at h
  split at h
  next hnone =>
    obtain ⟨-, rfl⟩ := Prod.mk.inj h
    rw [PocketBase.hasField_of_mem hc, List.any_eq_true]
    have hin : f.name ∈ c.fields.map Field.name := by
      simpa using List.filter_eq_nil_iff.mp hnone f hf
    obtain ⟨f', hf', hn⟩ := List.mem_map.mp hin
    exact ⟨f', hf', by simpa using hn⟩
  next =>
    generalize hmissing : desiredFields.filter _ = missing at h
    have hupdate : w.updateCollection c.id (fun _ => c.fields ++ missing) id =
        some ((), { w with pb := w.pb.editCollection c.id (fun _ => c.fields ++ missing) id }) :=
      if_pos ⟨c, hc, rfl⟩
    obtain ⟨-, hmem⟩ := World.updateCollection_spec hc hupdate (List.subset_append_left _ _)
    have hcall : call (o (.updateFields c.name))
        (World.updateCollection c.id (fun _ => c.fields ++ missing) id) w = _ :=
      hok ▸ call_ok_run hupdate
    rw [bind_run_of_eq hcall] at h
    obtain ⟨-, rfl⟩ := Prod.mk.inj h
    refine (PocketBase.hasField_of_mem hmem f.name).trans (List.any_eq_true.mpr ?_)
    by_cases hin : f.name ∈ c.fields.map Field.name
    · obtain ⟨f', hf', hn⟩ := List.mem_map.mp hin
      exact ⟨f', List.mem_append_left _ hf', by simpa using hn⟩
    · refine ⟨f, List.mem_append_right _ ?_, by simp⟩
      rw [← hmissing]
      exact List.mem_filter.mpr ⟨hf, by simpa using hin⟩

/-- **A new collection.** The step of a collection that does not exist succeeds exactly when one
of its creates and the fetch of the result do. If its bulk update is answered too, the collection
has the desired fields. -/
theorem ensureCollection_run (ho : o.Uninterrupted) {plan : TablePlan}
    {byName : String → Option Collection} {w : World} (hnone : byName plan.pbCollection = none)
    (hfree : ∀ c ∈ w.pb.collections, c.name ≠ plan.pbCollection) :
    ∃ r w', ensureCollection o plan byName w = (some r, w') ∧
      (r.isSome = true ↔ EnsureSucceeds o w.pb.server plan.pbCollection) ∧
      (r.isSome = true → o (.updateFields plan.pbCollection) = .ok →
        ∀ f ∈ buildDesiredFields plan byName,
          w'.pb.hasField plan.pbCollection f.name = true) := by
  rw [ensureCollection, hnone, EnsureSucceeds]
  dsimp only
  generalize buildDesiredFields plan byName = fields
  obtain ⟨r, w₁, hrun, hr, -⟩ := createCollection_run ho fields hfree
  have hspec := (createCollection_spec o plan.pbCollection fields w).of_returned rfl hrun
  rw [bind_run_of_eq hrun, ← hr]
  rcases r with - | created
  · exact ⟨none, w₁, rfl, by simp, by simp⟩
  · obtain ⟨hmem, hname⟩ := hspec.2 created rfl
    obtain ⟨⟨⟩, w₂, hsync⟩ := syncMissingFields_returns ho created fields w₁
    have hsyncSpec := (syncMissingFields_spec o created fields w hname).of_returned
      ⟨hspec.1, hmem⟩ hsync
    dsimp only
    rw [bind_run_of_eq hsync]
    rcases hfate : o (.getCollection plan.pbCollection) with - | - | -
    · obtain ⟨fresh, hfresh, hget⟩ := call_getCollection_run hfate hsyncSpec.2
      rw [hfate] at hget
      obtain ⟨⟨⟩, w₃, hindex⟩ := ensureOldIdIndex_returns ho fresh w₂
      rw [bind_run_of_eq hget]
      dsimp only
      rw [bind_run_of_eq hindex]
      refine ⟨some fresh, w₃, rfl, by simp, fun _ hok f hf => ?_⟩
      have hfields := syncMissingFields_fields (hname ▸ hok) hmem hsync f hf
      have hgrown := (ensureOldIdIndex_spec o fresh w₂ rfl).of_returned
        ⟨SchemaStep.refl _ w₂, fresh, hfresh, rfl, rfl⟩ hindex
      exact hgrown.1.fields _ _ (hname ▸ hfields)
    · exact ⟨none, w₂, rfl, by simp, by simp⟩
    · exact absurd hfate (ho _)

/-- The tables of a list are new: no collection of theirs is known or there. -/
def New (plans : List TablePlan) (byName : String → Option Collection) (w : World) : Prop :=
  ∀ plan ∈ plans, byName plan.pbCollection = none ∧
    ∀ c ∈ w.pb.collections, c.name ≠ plan.pbCollection

/-- In an empty PocketBase every table is new. -/
theorem New.of_empty {w : World} (hempty : w.pb.Empty) (plans : List TablePlan) :
    New plans (fun _ => none) w := fun _ _ =>
  ⟨rfl, fun _ hc => absurd (hempty.collections ▸ hc) List.not_mem_nil⟩

/-- One turn over a new table: the map learns the collection if its step succeeded, the
collection has the desired fields if the bulk update is answered too, and the tables behind it are
still new. -/
theorem ensureTable_run (ho : o.Uninterrupted) {plan : TablePlan} {plans : List TablePlan}
    {byName : String → Option Collection} {w : World}
    (hnotin : plan.pbCollection ∉ plans.map TablePlan.pbCollection)
    (hnew : New (plan :: plans) byName w) :
    ∃ byName' w', ensureTable o plan byName w = (some byName', w') ∧ SchemaGrown w w' ∧
      New plans byName' w' ∧
      (∀ n, (byName' n).isSome = true ↔ (byName n).isSome = true ∨
        plan.pbCollection = n ∧ EnsureSucceeds o w.pb.server n) ∧
      (EnsureSucceeds o w.pb.server plan.pbCollection →
        o (.updateFields plan.pbCollection) = .ok →
        ∀ f ∈ buildDesiredFields plan byName,
          w'.pb.hasField plan.pbCollection f.name = true) := by
  obtain ⟨hnone, hfree⟩ := hnew plan List.mem_cons_self
  obtain ⟨r, w', hrun, hr, hfields⟩ := ensureCollection_run ho hnone hfree
  have hcur : Current byName plan w := fun c hc => absurd hc (by rw [hnone]; simp)
  obtain ⟨hstep, hname⟩ := (ensureCollection_spec o plan byName w hcur).of_returned rfl hrun
  have hother : ∀ p ∈ plans, p.pbCollection ≠ plan.pbCollection := fun p hp he =>
    hnotin (he ▸ List.mem_map_of_mem hp)
  have hnew' : New plans byName w' := by
    refine fun p hp => ⟨(hnew p (List.mem_cons_of_mem plan hp)).1, fun c hc he => ?_⟩
    have hmem := (hstep.others c (he ▸ hother p hp)).mp hc
    exact (hnew p (List.mem_cons_of_mem plan hp)).2 c hmem he
  rw [ensureTable, bind_run_of_eq hrun]
  rcases r with - | c
  · refine ⟨byName, w', rfl, hstep.toSchemaGrown, hnew', fun n => ⟨Or.inl, ?_⟩, fun h =>
      absurd (hr.mpr h) (by simp)⟩
    rintro (h | ⟨rfl, h⟩)
    · exact h
    · exact absurd (hr.mpr h) (by simp)
  · have hcname : c.name = plan.pbCollection := hname c rfl
    refine ⟨Function.update byName plan.pbCollection (some c), w', by rw [← hcname]; rfl,
      hstep.toSchemaGrown, fun p hp => ⟨?_, (hnew' p hp).2⟩, fun n => ?_, fun _ => hfields rfl⟩
    · rw [Function.update_of_ne (hother p hp)]
      exact (hnew' p hp).1
    · by_cases hn : plan.pbCollection = n
      · subst hn
        rw [Function.update_self]
        exact ⟨fun _ => Or.inr ⟨rfl, hr.mp rfl⟩, fun _ => rfl⟩
      · rw [Function.update_of_ne (Ne.symm hn)]
        exact ⟨Or.inl, fun h => h.resolve_right fun h => hn h.1⟩

/-- **Which collections the loop knows.** A loop over new tables ends with a map that knows,
besides what it knew before, exactly the collections whose step succeeded. -/
theorem ensureCollections_names (ho : o.Uninterrupted) {plans : List TablePlan}
    (hnodup : (plans.map TablePlan.pbCollection).Nodup) {byName : String → Option Collection}
    {w : World} (hnew : New plans byName w) :
    ∃ byName' w', ensureCollections o plans byName w = (some byName', w') ∧
      ∀ n, (byName' n).isSome = true ↔ (byName n).isSome = true ∨
        ∃ plan ∈ plans, plan.pbCollection = n ∧ EnsureSucceeds o w.pb.server n := by
  induction plans generalizing byName w with
  | nil => exact ⟨byName, w, rfl, by simp⟩
  | cons plan plans ih =>
      obtain ⟨hnotin, hnodup⟩ := List.nodup_cons.mp hnodup
      obtain ⟨byName₁, w₁, hrun, hgrown, hnew₁, hmap₁, -⟩ := ensureTable_run ho hnotin hnew
      obtain ⟨byName', w', hrun', hmap'⟩ := ih hnodup hnew₁
      refine ⟨byName', w', ?_, fun n => ?_⟩
      · rw [ensureCollections, forEach_cons_run hrun]
        exact hrun'
      · rw [hmap' n, hmap₁ n, hgrown.server, or_assoc]
        simp only [List.mem_cons, exists_eq_or_imp]

/-! ### Runs in which every call is answered -/

/-- A server always takes one of the modes. -/
theorem ensureSucceeds_allOk (server : PbServer) (name : String) :
    EnsureSucceeds allOk server name := by
  refine ⟨List.find?_isSome.mpr ?_, rfl⟩
  rcases hkey : server.schemaKey with - | -
  · exact ⟨.fields, by simp, by simp [allOk, PbServer.takes, PbServer.reads, hkey]⟩
  · exact ⟨.schema, by simp, by simp [allOk, PbServer.takes, PbServer.reads, hkey]⟩

end Runs

/-! ### The fields of a plan are there -/

section Fields

variable {byName : String → Option Collection} {plan : TablePlan}

/-- The fields asked for a column are those it writes, unless it refers to a collection that is
not known; then the temporary field is not asked for. -/
theorem map_name_columnFields {col : ColumnPlan} (hcol : col ∈ plan.columnPlans) :
    (columnFields byName col).map Field.name =
      if ∀ fk, col.fk = some fk → (byName fk.pbCollection).isSome = true then col.fieldNames
      else [col.pbField] := by
  have hfk := plan.isForeignKey_eq col hcol
  have htemp := plan.fkTempField_isSome col hcol
  rw [columnFields, ColumnPlan.fieldNames]
  rcases hc : col.fk with - | fk
  · rw [hc] at htemp
    obtain hn := Option.not_isSome_iff_eq_none.mp (by rw [htemp]; exact Bool.false_ne_true)
    rw [if_pos (by simp), hn]
    cases col.isForeignKey <;> rfl
  · rw [hc] at hfk
    rw [hfk]
    rcases hb : byName fk.pbCollection with - | target
    · rw [if_neg]
      · simp only [Option.isSome_some, hb, List.map_cons, List.map_nil]
      · intro h
        exact absurd (h fk rfl) (by rw [hb]; simp)
    · rw [if_pos]
      · simp only [Option.isSome_some, hb, List.map_cons, List.map_map, Function.comp_def,
          List.map_id']
      · intro fk' h
        rw [← Option.some.inj h, hb]
        rfl

/-- When every collection a plan refers to is known, all its fields are asked for. -/
theorem map_name_buildDesiredFields
    (h : ∀ col ∈ plan.columnPlans, ∀ fk, col.fk = some fk →
      (byName fk.pbCollection).isSome = true) :
    (buildDesiredFields plan byName).map Field.name = plan.fieldNames := by
  rw [buildDesiredFields, TablePlan.fieldNames, List.map_cons, List.map_flatMap]
  refine congrArg _ (List.flatMap_congr fun col hcol => ?_)
  rw [map_name_columnFields hcol, if_pos (h col hcol)]

end Fields

/-- **The schema step, with every call answered.** Every collection has `old_id` in the end, and it
has the fields of a column that refers only to a collection that is known or comes before it. -/
theorem ensureCollections_fields {plans : List TablePlan}
    (hnodup : (plans.map TablePlan.pbCollection).Nodup) {byName : String → Option Collection}
    {w : World} (hnew : New plans byName w) :
    ∃ byName' w', ensureCollections allOk plans byName w = (some byName', w') ∧
      SchemaGrown w w' ∧ ∀ pre plan post, plans = pre ++ plan :: post →
        w'.pb.hasField plan.pbCollection "old_id" = true ∧
        ∀ col ∈ plan.columnPlans, (∀ fk, col.fk = some fk →
            (byName fk.pbCollection).isSome = true ∨ ∃ q ∈ pre, q.pbCollection = fk.pbCollection) →
          ∀ n ∈ col.fieldNames, w'.pb.hasField plan.pbCollection n = true := by
  induction plans generalizing byName w with
  | nil => exact ⟨byName, w, rfl, SchemaGrown.refl w, fun _ _ _ h => absurd h (by simp)⟩
  | cons plan plans ih =>
      obtain ⟨hnotin, hnodup⟩ := List.nodup_cons.mp hnodup
      obtain ⟨byName₁, w₁, hrun, hgrown, hnew₁, hmap₁, hasked⟩ :=
        ensureTable_run allOk_uninterrupted hnotin hnew
      have hasked := hasked (ensureSucceeds_allOk _ _) rfl
      obtain ⟨byName', w', hrun', hgrown', hfields⟩ := ih hnodup hnew₁
      refine ⟨byName', w', ?_, hgrown.trans hgrown', ?_⟩
      · rw [ensureCollections, forEach_cons_run hrun]
        exact hrun'
      · intro pre p post hsplit
        cases pre with
        | nil =>
            obtain ⟨rfl, -⟩ := List.cons.inj hsplit
            refine ⟨hgrown'.fields _ _ (hasked _ List.mem_cons_self), fun col hcol hrefs n hn => ?_⟩
            have hknown : ∀ fk, col.fk = some fk → (byName fk.pbCollection).isSome = true := by
              intro fk hfk
              refine (hrefs fk hfk).resolve_right ?_
              rintro ⟨q, hq, -⟩
              exact absurd hq List.not_mem_nil
            have hnames : (columnFields byName col).map Field.name = col.fieldNames :=
              (map_name_columnFields hcol).trans (if_pos hknown)
            rw [← hnames] at hn
            obtain ⟨f, hf, rfl⟩ := List.mem_map.mp hn
            exact hgrown'.fields _ _ (hasked f (List.mem_cons_of_mem _
              (List.mem_flatMap.mpr ⟨col, hcol, hf⟩)))
        | cons p₀ pre =>
            rw [List.cons_append] at hsplit
            obtain ⟨rfl, htail⟩ := List.cons.inj hsplit
            obtain ⟨hold, hcols⟩ := hfields pre p post htail
            refine ⟨hold, fun col hcol hrefs => hcols col hcol fun fk hfk => ?_⟩
            rw [hmap₁]
            rcases hrefs fk hfk with h | ⟨q, hq, hqn⟩
            · exact Or.inl (Or.inl h)
            · cases hq with
              | head => exact Or.inl (Or.inr ⟨hqn, ensureSucceeds_allOk _ _⟩)
              | tail _ hq => exact Or.inr ⟨q, hq, hqn⟩

end Mogo
