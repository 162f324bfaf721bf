import Mogo.Migrate

/-!
# The Index on Old Ids

Every run of the migration makes sure that a collection has its index on `old_id`: it looks for
its own index statement in the index list of the collection, and adds it when it is not there.
PocketBase keeps an index in a form of its own, with back-quoted identifiers, so the statement is
never found and every run adds it again.

## Main results

* `migrate_allOk`: a run in which every call is answered returns, and what it makes of the index
  lists.
* `migrateRuns_indexes`: any number of runs.
* `ensuredOnce_iff`: when the index is there once.
-/

namespace Mogo

open Script

/-- The index list of a collection; a collection that is not there has none. -/
def World.indexes (w : World) (name : String) : List String :=
  ((w.pb.collection? name).map Collection.indexes).getD []

/-- What a run makes of the index list of a planned collection. -/
def ensuredIndexes (server : PbServer) (name : String) (indexes : List String) : List String :=
  if buildOldIdIndexSql name ∈ indexes then indexes
  else (indexes ++ [buildOldIdIndexSql name]).map server.canonicalIndex

/-- A map of collections by name is right about the collections of some plans. -/
def Known (plans : List TablePlan) (byName : String → Option Collection) (w : World) : Prop :=
  ∀ plan ∈ plans, byName plan.pbCollection = w.pb.collection? plan.pbCollection

/-! ### Index lists -/

/-- The indexes that are read for a name are those of the collection of that name. -/
theorem World.indexes_of_mem {w : World} {c : Collection} (h : c ∈ w.pb.collections) :
    w.indexes c.name = c.indexes := by
  rw [World.indexes, PocketBase.collection?_of_mem h, Option.map_some, Option.getD_some]

/-- A step on one collection leaves the indexes of the others. -/
theorem SchemaStep.indexes_of_ne {name n : String} {w w' : World} (h : SchemaStep name w w')
    (hn : n ≠ name) : w'.indexes n = w.indexes n := by
  rw [World.indexes, h.collection?_of_ne hn, World.indexes]

/-- The map of the listing by names finds what the lookup in the list finds. -/
theorem indexOf_collections (w : World) (name : String) :
    indexOf (fun c : Collection => some c.name) id w.pb.collections name =
      w.pb.collection? name := by
  rcases hi : indexOf (fun c : Collection => some c.name) id w.pb.collections name with - | c
  · rcases hc : w.pb.collection? name with - | c
    · rfl
    · obtain ⟨hmem, rfl⟩ := PocketBase.mem_of_collection? hc
      have hsome : (indexOf (fun c : Collection => some c.name) id w.pb.collections
          c.name).isSome = true := indexOf_isSome_iff.mpr ⟨c, hmem, rfl⟩
      rw [hi] at hsome
      exact absurd hsome (by simp)
  · obtain ⟨c', hmem, hname, rfl⟩ := exists_of_indexOf_eq_some hi
    obtain rfl := Option.some.inj hname
    exact (PocketBase.collection?_of_mem hmem).symm

/-! ### One collection, with every call answered -/

/-- A collection that has just been created has no index yet. -/
theorem createCollection_indexes (o : Oracle) (name : String) (fields : List Field) :
    Triple (fun _ => True) (createCollection o name fields)
      (fun r _ => ∀ c, r = some c → c.indexes = []) fun _ => True := by
  have hcall : ∀ mode, Triple (fun _ => True)
      (call (o (.createCollection mode name)) (World.createCollection mode name fields))
      (fun r _ => ∀ c, r = some c → c.indexes = []) fun _ => True := by
    refine fun mode => Triple.call ?_ (fun _ _ _ h => absurd h (by simp)) fun _ _ => trivial
    intro w c w' _ h c' hc'
    obtain rfl := Option.some.inj hc'
    rw [World.createCollection] at h
    split at h
    · obtain ⟨rfl, -⟩ := Prod.mk.inj (Option.some.inj h)
      rfl
    · exact absurd h (by simp)
  have hnext {m : Script World (Option Collection)}
      (h : Triple (fun _ => True) m (fun r _ => ∀ c, r = some c → c.indexes = []) fun _ => True) :
      Triple (fun _ => ∀ c, (none : Option Collection) = some c → c.indexes = []) m
        (fun r _ => ∀ c, r = some c → c.indexes = []) fun _ => True :=
    h.consequence (fun _ _ => trivial) (fun _ _ h => h) fun _ h => h
  rw [createCollection]
  refine (hcall .fields).bind ?_
  rintro (- | created)
  · refine hnext ((hcall .schema).bind ?_)
    rintro (- | created)
    · exact hnext (hcall .bare)
    · exact Triple.pure fun _ h => h
  · exact Triple.pure fun _ h => h

/-- A sync: the collection keeps its indexes and gets the desired fields. -/
theorem syncMissingFields_allOk {w : World} {c : Collection} (hc : c ∈ w.pb.collections)
    (desiredFields : List Field) :
    ∃ w' fields, syncMissingFields allOk c desiredFields w = (some (), w') ∧
      SchemaStep c.name w w' ∧ { c with fields := fields } ∈ w'.pb.collections ∧
      ∀ f ∈ desiredFields, w'.pb.hasField c.name f.name = true := by
  suffices hrun : ∃ w' fields, syncMissingFields allOk c desiredFields w = (some (), w') ∧
      SchemaStep c.name w w' ∧ { c with fields := fields } ∈ w'.pb.collections by
    obtain ⟨w', fields, hrun, hstep, hmem⟩ := hrun
    exact ⟨w', fields, hrun, hstep, hmem, syncMissingFields_fields rfl hc hrun⟩
  rw [syncMissingFields]
  generalize desiredFields.filter (fun f => f.name ∉ c.fields.map Field.name) = missing
  by_cases hnil : missing = []
  · rw [if_pos hnil]
    exact ⟨w, c.fields, rfl, SchemaStep.refl _ w, hc⟩
  · rw [if_neg hnil]
    have hupdate : w.updateCollection c.id (fun _ => c.fields ++ missing) id =
        some ((), { w with pb := w.pb.editCollection c.id (fun _ => c.fields ++ missing) id }) :=
      if_pos ⟨c, hc, rfl⟩
    obtain ⟨hstep, hmem⟩ := World.updateCollection_spec hc hupdate (List.subset_append_left _ _)
    exact ⟨_, _, bind_run_of_eq (call_ok_run hupdate), hstep, hmem⟩

/-- The index step succeeds when all calls do, also for an older snapshot `c` of the collection
`c'`. -/
theorem ensureOldIdIndex_allOk {w : World} {c c' : Collection} (hc' : c' ∈ w.pb.collections)
    (hid : c'.id = c.id) (hname : c'.name = c.name) (hindexes : c'.indexes = c.indexes) :
    ∃ w', ensureOldIdIndex allOk c w = (some (), w') ∧ SchemaStep c.name w w' ∧
      { c' with indexes := ensuredIndexes w.pb.server c.name c.indexes } ∈ w'.pb.collections := by
  rw [ensureOldIdIndex, ensuredIndexes]
  by_cases hthere : buildOldIdIndexSql c.name ∈ c.indexes
  · rw [if_pos hthere, if_pos hthere, ← hindexes]
    exact ⟨w, rfl, SchemaStep.refl _ w, hc'⟩
  · rw [if_neg hthere, if_neg hthere, ← hid, ← hname]
    have hupdate : w.updateCollection c'.id id (fun _ =>
        (c.indexes ++ [buildOldIdIndexSql c'.name]).map w.pb.server.canonicalIndex) =
        some ((), { w with pb := w.pb.editCollection c'.id id fun _ =>
          (c.indexes ++ [buildOldIdIndexSql c'.name]).map w.pb.server.canonicalIndex }) :=
      if_pos ⟨c', hc', rfl⟩
    obtain ⟨hstep, hmem⟩ := World.updateCollection_spec hc' hupdate (List.Subset.refl _)
    exact ⟨_, bind_run_of_eq (call_ok_run hupdate), hstep, hmem⟩

/-- **One collection.** Its step succeeds; it has the field `old_id` and the ensured indexes, and
the other collections stay as they are. -/
theorem ensureCollection_allOk {w : World} {plan : TablePlan}
    {byName : String → Option Collection}
    (hknown : byName plan.pbCollection = w.pb.collection? plan.pbCollection) :
    ∃ c w', ensureCollection allOk plan byName w = (some (some c), w') ∧
      c.name = plan.pbCollection ∧ SchemaStep plan.pbCollection w w' ∧
      w'.pb.hasField plan.pbCollection "old_id" = true ∧
      w'.indexes plan.pbCollection =
        ensuredIndexes w.pb.server plan.pbCollection (w.indexes plan.pbCollection) := by
  have hold : (⟨"old_id", .text, true, none⟩ : Field) ∈ buildDesiredFields plan byName :=
    List.mem_cons_self
  rw [ensureCollection]
  generalize buildDesiredFields plan byName = desiredFields at hold
  rcases hc : w.pb.collection? plan.pbCollection with - | existing
  · have hnone := hknown.trans hc
    have hfree : ∀ c ∈ w.pb.collections, c.name ≠ plan.pbCollection := by
      intro c hmem he
      rw [← he, PocketBase.collection?_of_mem hmem] at hc
      exact absurd hc (by simp)
    obtain ⟨r, w₁, hcreate, hr, -⟩ := createCollection_run allOk_uninterrupted desiredFields hfree
    rw [(ensureSucceeds_allOk w.pb.server plan.pbCollection).1] at hr
    obtain ⟨created, rfl⟩ := Option.isSome_iff_exists.mp hr
    obtain ⟨hstep₁, hcreated⟩ :=
      (createCollection_spec allOk plan.pbCollection desiredFields w).of_returned rfl hcreate
    obtain ⟨hmem₁, hname⟩ := hcreated created rfl
    have hempty : created.indexes = [] :=
      (createCollection_indexes allOk _ _).of_returned trivial hcreate created rfl
    obtain ⟨w₂, fields, hsync, hstep₂, hmem₂, hfields⟩ :=
      syncMissingFields_allOk hmem₁ desiredFields
    obtain ⟨w₃, hindex, hstep₃, hmem₃⟩ := ensureOldIdIndex_allOk hmem₂ rfl rfl rfl
    have hget : call (allOk (.getCollection plan.pbCollection)) (World.getCollection created.id)
        w₂ = (some (some { created with fields := fields }), w₂) :=
      call_ok_run (World.getCollection_of_mem hmem₂)
    rw [hname] at hstep₂ hstep₃ hfields
    refine ⟨{ created with fields := fields }, w₃, ?_, hname,
      hstep₁.trans (hstep₂.trans hstep₃), hstep₃.fields _ _ (hfields _ hold), ?_⟩
    · rw [hnone]
      dsimp only
      rw [bind_run_of_eq hcreate]
      dsimp only
      rw [bind_run_of_eq hsync, bind_run_of_eq hget]
      dsimp only
      rw [bind_run_of_eq hindex]
      rfl
    · have hbefore : w.indexes plan.pbCollection = [] := by rw [World.indexes, hc]; rfl
      have hafter : w₃.indexes created.name =
          ensuredIndexes w₂.pb.server created.name created.indexes := World.indexes_of_mem hmem₃
      rwa [hname, hempty, hstep₂.server, hstep₁.server, ← hbefore] at hafter
  · obtain ⟨hmem, hname⟩ := PocketBase.mem_of_collection? hc
    obtain ⟨w₁, fields, hsync, hstep₁, hmem₁, hfields⟩ :=
      syncMissingFields_allOk hmem desiredFields
    obtain ⟨w₂, hindex, hstep₂, hmem₂⟩ :=
      ensureOldIdIndex_allOk (c := existing) hmem₁ rfl rfl rfl
    have hget : call (allOk (.getCollection plan.pbCollection)) (World.getCollection existing.id)
        w₂ = (some (some { existing with
          fields := fields
          indexes := ensuredIndexes w₁.pb.server existing.name existing.indexes }), w₂) :=
      call_ok_run (World.getCollection_of_mem hmem₂)
    rw [hname] at hstep₁ hstep₂ hfields
    refine ⟨{ existing with
        fields := fields
        indexes := ensuredIndexes w₁.pb.server existing.name existing.indexes }, w₂, ?_, hname,
      hstep₁.trans hstep₂, hstep₂.fields _ _ (hfields _ hold), ?_⟩
    · rw [hknown.trans hc]
      dsimp only
      rw [bind_run_of_eq hsync, bind_run_of_eq hindex]
      exact hget
    · have hafter : w₂.indexes existing.name =
          ensuredIndexes w₁.pb.server existing.name existing.indexes := World.indexes_of_mem hmem₂
      rwa [← World.indexes_of_mem hmem, hname, hstep₁.server] at hafter

/-! ### The schema step, with every call answered -/

/-- **The loop over the tables.** The planned collections have the field `old_id` and the ensured
indexes, and the other collections stay as they are. -/
theorem ensureCollections_allOk {plans : List TablePlan}
    (hnodup : (plans.map TablePlan.pbCollection).Nodup) {byName : String → Option Collection}
    {w : World} (hknown : Known plans byName w) :
    ∃ byName' w', ensureCollections allOk plans byName w = (some byName', w') ∧
      SchemaGrown w w' ∧
      (∀ plan ∈ plans, w'.pb.hasField plan.pbCollection "old_id" = true) ∧
      ∀ name, w'.indexes name = if name ∈ plans.map TablePlan.pbCollection then
        ensuredIndexes w.pb.server name (w.indexes name) else w.indexes name := by
  induction plans generalizing byName w with
  | nil => exact ⟨byName, w, rfl, SchemaGrown.refl w, by simp, by simp⟩
  | cons plan plans ih =>
      obtain ⟨hnotin, hnodup⟩ := List.nodup_cons.mp hnodup
      obtain ⟨c, w₁, hrun, hname, hstep, hold, hindexes⟩ :=
        ensureCollection_allOk (hknown plan List.mem_cons_self)
      have hother : ∀ p ∈ plans, p.pbCollection ≠ plan.pbCollection := fun p hp he =>
        hnotin (he ▸ List.mem_map_of_mem hp)
      have hknown₁ : Known plans (Function.update byName c.name (some c)) w₁ := by
        intro p hp
        rw [hname, Function.update_of_ne (hother p hp), hstep.collection?_of_ne (hother p hp)]
        exact hknown p (List.mem_cons_of_mem plan hp)
      obtain ⟨byName', w', hrun', hgrown', hold', hindexes'⟩ := ih hnodup hknown₁
      have hturn : ensureTable allOk plan byName w =
          (some (Function.update byName c.name (some c)), w₁) := by
        rw [ensureTable, bind_run_of_eq hrun]
        rfl
      refine ⟨byName', w', ?_, hstep.toSchemaGrown.trans hgrown', fun p hp => ?_, fun name => ?_⟩
      · rw [ensureCollections, forEach_cons_run hturn]
        exact hrun'
      · rcases List.mem_cons.mp hp with rfl | hp
        · exact hgrown'.fields _ _ hold
        · exact hold' p hp
      · rw [hindexes' name]
        by_cases hn : name = plan.pbCollection
        · rw [hn, if_neg hnotin, if_pos (List.mem_map_of_mem List.mem_cons_self), hindexes]
        · rw [hstep.indexes_of_ne hn, hstep.server]
          simp only [List.map_cons, List.mem_cons, hn, false_or]

/-! ### Runs of the migration -/

section Runs

variable [LetterCase]

/-- **A run with every call answered** returns, and ensures the index of every planned
collection. -/
theorem migrate_allOk (cfg : Config) {m : MigrationPlan} (hplans : m.plans ≠ []) (source : Source)
    (w : World) :
    ∃ w', migrate allOk cfg m source w = (some (), w') ∧ w'.pb.server = w.pb.server ∧
      ∀ name, w'.indexes name = if name ∈ m.plans.map TablePlan.pbCollection then
        ensuredIndexes w.pb.server name (w.indexes name) else w.indexes name := by
  have hlisted : getCollectionsByName allOk w =
      (some (some (indexOf (fun c : Collection => some c.name) id w.pb.collections)), w) := rfl
  have hknown : Known m.orderedPlans
      (indexOf (fun c : Collection => some c.name) id w.pb.collections) w :=
    fun plan _ => indexOf_collections w plan.pbCollection
  obtain ⟨byName', w₁, hensure, hgrown, hold, hindexes⟩ :=
    ensureCollections_allOk (orderedPlans_collections_nodup (m := m)) hknown
  have hold : ∀ plan ∈ m.plans, w₁.pb.hasField plan.pbCollection "old_id" = true :=
    fun plan hplan => hold plan (mem_orderedPlans.mpr hplan)
  obtain ⟨w₂, hpass1, hstep₁, -⟩ := pass1_allOk cfg source hold
  have hexists : Ensured m w₂ := Ensured.of_collections (fun plan hplan =>
    PocketBase.collection?_isSome_of_hasField (hold plan hplan)) hstep₁.collections
  obtain ⟨w₃, hpass2, hstep₂, -⟩ := pass2_allOk cfg hexists
  have hcollections := hstep₂.collections.trans hstep₁.collections
  refine ⟨w₃, ?_, (hstep₂.server.trans hstep₁.server).trans hgrown.server, fun name => ?_⟩
  · rw [migrate, if_neg hplans, bind_run_of_eq hlisted]
    dsimp only
    rw [bind_run_of_eq hensure, migrateRecords, bind_run_of_eq hpass1]
    exact hpass2
  · have hsame : w₃.indexes name = w₁.indexes name := by
      rw [World.indexes, World.indexes, PocketBase.collection?, PocketBase.collection?,
        hcollections]
    rw [hsame, hindexes]
    exact if_congr (m.orderedPlans_perm.map TablePlan.pbCollection).mem_iff rfl rfl

/-- What one run of the migration is given. -/
structure MigrationRun where
  cfg : Config
  m : MigrationPlan
  source : Source

/-- Runs of the migration, one after the other, with every call answered. -/
def migrateRuns (runs : List MigrationRun) : Script World Unit :=
  forEach runs () fun run _ => migrate allOk run.cfg run.m run.source

end Runs

/-! ### The index -/

/-- The form in which PocketBase keeps the statement of `buildOldIdIndexSql`. -/
def storedOldIdIndex (collectionName : String) : String :=
  "CREATE INDEX IF NOT EXISTS `idx_" ++ collectionName ++ "_old_id` ON `" ++ collectionName ++
    "` (`old_id`)"

/-- The text without its back-quotes. -/
def unquoted (text : String) : List Char := text.toList.filter fun c => c ≠ '`'

/-- The index statement creates the index `idx_<collection>_old_id`, back-quotes aside. -/
def createsOldIdIndex (collectionName entry : String) : Bool :=
  ["CREATE INDEX ", "CREATE INDEX IF NOT EXISTS ", "CREATE UNIQUE INDEX ",
    "CREATE UNIQUE INDEX IF NOT EXISTS "].any fun head =>
    (unquoted (head ++ "idx_" ++ collectionName ++ "_old_id ON ")).isPrefixOf (unquoted entry)

/-- PocketBase stores the index of a collection with its identifiers back-quoted, and keeps the
statements it has stored. -/
structure StoresQuoted (server : PbServer) (name : String) (indexes : List String) : Prop where
  saved : server.canonicalIndex (buildOldIdIndexSql name) = storedOldIdIndex name
  stored : ∀ entry ∈ storedOldIdIndex name :: indexes, server.canonicalIndex entry = entry

/-- After some runs exactly one entry of the list creates the index, and the earlier entries stand
unchanged before what was added. -/
structure EnsuredOnce (name : String) (before after : List String) : Prop where
  once : after.countP (createsOldIdIndex name) = 1
  earlier : before <+: after

/-- Quotes are taken out of two texts one after the other. -/
theorem unquoted_append (a b : String) : unquoted (a ++ b) = unquoted a ++ unquoted b := by
  rw [unquoted, String.toList_append, List.filter_append, unquoted, unquoted]

/-- The stored statement quotes the names of the index, of the collection and of `old_id`. -/
theorem toList_storedOldIdIndex (name : String) : (storedOldIdIndex name).toList =
    "CREATE INDEX IF NOT EXISTS `idx_".toList ++ name.toList ++ "_old_id` ON `".toList ++
      name.toList ++ "` (`old_id`)".toList := by
  delta storedOldIdIndex
  simp only [String.toList_append]

/-- The characters of the statement that is sent. -/
theorem toList_buildOldIdIndexSql (name : String) : (buildOldIdIndexSql name).toList =
    "CREATE INDEX IF NOT EXISTS idx_".toList ++ name.toList ++ "_old_id ON ".toList ++
      name.toList ++ " (old_id)".toList := by
  delta buildOldIdIndexSql
  simp only [String.toList_append]

/-- The stored statement is not the one that is sent: it has more back-quotes. -/
theorem storedOldIdIndex_ne (name : String) : storedOldIdIndex name ≠ buildOldIdIndexSql name := by
  intro h
  have hquotes := congrArg (fun text => text.toList.count '`') h
  have h₁ : "CREATE INDEX IF NOT EXISTS `idx_".toList.count '`' = 1 := by decide
  have h₂ : "_old_id` ON `".toList.count '`' = 2 := by decide
  have h₃ : "` (`old_id`)".toList.count '`' = 3 := by decide
  have h₄ : "CREATE INDEX IF NOT EXISTS idx_".toList.count '`' = 0 := by decide
  have h₅ : "_old_id ON ".toList.count '`' = 0 := by decide
  have h₆ : " (old_id)".toList.count '`' = 0 := by decide
  simp only [toList_storedOldIdIndex, toList_buildOldIdIndexSql, List.count_append, h₁, h₂, h₃,
    h₄, h₅, h₆] at hquotes
  omega

/-- The stored statement creates the index. -/
theorem createsOldIdIndex_stored (name : String) :
    createsOldIdIndex name (storedOldIdIndex name) = true := by
  refine List.any_eq_true.mpr ⟨"CREATE INDEX IF NOT EXISTS ", by simp, ?_⟩
  rw [List.isPrefixOf_iff_prefix]
  refine ⟨unquoted name ++ unquoted " (old_id)", ?_⟩
  have hhead : "CREATE INDEX IF NOT EXISTS `idx_".toList.filter (fun c => c ≠ '`') =
      unquoted "CREATE INDEX IF NOT EXISTS " ++ unquoted "idx_" := by decide
  have hon : "_old_id` ON `".toList.filter (fun c => c ≠ '`') = unquoted "_old_id ON " := by decide
  have htail : "` (`old_id`)".toList.filter (fun c => c ≠ '`') = unquoted " (old_id)" := by decide
  have hstored : unquoted (storedOldIdIndex name) =
      unquoted "CREATE INDEX IF NOT EXISTS " ++ unquoted "idx_" ++ unquoted name ++
        unquoted "_old_id ON " ++ unquoted name ++ unquoted " (old_id)" := by
    rw [unquoted, toList_storedOldIdIndex]
    simp only [List.filter_append, hhead, hon, htail]
    rfl
  rw [hstored]
  simp only [unquoted_append, List.append_assoc]

/-- The statement that is looked for is never in a list that the server has stored. -/
theorem StoresQuoted.notMem {server : PbServer} {name : String} {indexes : List String}
    (h : StoresQuoted server name indexes) : buildOldIdIndexSql name ∉ indexes := fun hmem =>
  storedOldIdIndex_ne name
    (h.saved.symm.trans (h.stored _ (List.mem_cons_of_mem _ hmem)))

/-- One run adds the stored statement to a list the server has stored. -/
theorem StoresQuoted.ensured {server : PbServer} {name : String} {indexes : List String}
    (h : StoresQuoted server name indexes) :
    ensuredIndexes server name indexes = indexes ++ [storedOldIdIndex name] ∧
      StoresQuoted server name (indexes ++ [storedOldIdIndex name]) := by
  constructor
  · rw [ensuredIndexes, if_neg h.notMem, List.map_append, List.map_singleton, h.saved]
    have hkept : indexes.map server.canonicalIndex = indexes.map id :=
      List.map_congr_left fun entry hentry => h.stored entry (List.mem_cons_of_mem _ hentry)
    rw [hkept, List.map_id]
  · refine ⟨h.saved, fun entry hentry => h.stored entry ?_⟩
    simp only [List.mem_cons, List.mem_append, List.not_mem_nil, or_false] at hentry ⊢
    tauto

section Runs

variable [LetterCase]

/-- **Any number of runs.** Each of them adds the stored statement once more. -/
theorem migrateRuns_indexes {name : String} (runs : List MigrationRun)
    (hruns : ∀ run ∈ runs, name ∈ run.m.plans.map TablePlan.pbCollection) {w : World}
    (hstores : StoresQuoted w.pb.server name (w.indexes name)) :
    ∃ w', migrateRuns runs w = (some (), w') ∧
      w'.indexes name = w.indexes name ++ List.replicate runs.length (storedOldIdIndex name) := by
  induction runs generalizing w with
  | nil => exact ⟨w, rfl, (List.append_nil _).symm⟩
  | cons run runs ih =>
      have hplanned := hruns run List.mem_cons_self
      have hplans : run.m.plans ≠ [] := by
        intro hnil
        rw [hnil] at hplanned
        exact absurd hplanned List.not_mem_nil
      obtain ⟨w₁, hrun, hserver, hindexes⟩ := migrate_allOk run.cfg hplans run.source w
      obtain ⟨hensured, hstores₁⟩ := hstores.ensured
      have hindexes₁ : w₁.indexes name = w.indexes name ++ [storedOldIdIndex name] :=
        ((hindexes name).trans (if_pos hplanned)).trans hensured
      rw [← hserver, ← hindexes₁] at hstores₁
      obtain ⟨w', hrest, hindexes'⟩ :=
        ih (fun r hr => hruns r (List.mem_cons_of_mem run hr)) hstores₁
      refine ⟨w', ?_, ?_⟩
      · rw [migrateRuns, forEach_cons_run hrun]
        exact hrest
      · rw [hindexes', hindexes₁, List.append_assoc, List.length_cons, List.replicate_succ,
          List.singleton_append]

/-- **When the index is ensured once.** Successive runs that plan a table into the collection, with
every call answered, return; and its index list has exactly one entry that creates the index, after
the earlier ones unchanged, if and only if there was one run and no such entry before. -/
theorem ensuredOnce_iff {name : String} {runs : List MigrationRun} (hsome : runs ≠ [])
    (hruns : ∀ run ∈ runs, name ∈ run.m.plans.map TablePlan.pbCollection) {w : World}
    (hstores : StoresQuoted w.pb.server name (w.indexes name)) :
    ∃ w', migrateRuns runs w = (some (), w') ∧
      (EnsuredOnce name (w.indexes name) (w'.indexes name) ↔
        runs.length = 1 ∧ ∀ entry ∈ w.indexes name, createsOldIdIndex name entry = false) := by
  obtain ⟨w', hrun, hindexes⟩ := migrateRuns_indexes runs hruns hstores
  refine ⟨w', hrun, ?_⟩
  have hcount : (w'.indexes name).countP (createsOldIdIndex name) =
      (w.indexes name).countP (createsOldIdIndex name) + runs.length := by
    rw [hindexes, List.countP_append, List.countP_replicate, if_pos (createsOldIdIndex_stored name)]
  have hpos : 0 < runs.length := List.length_pos_iff.mpr hsome
  have hnone : (∀ entry ∈ w.indexes name, createsOldIdIndex name entry = false) ↔
      (w.indexes name).countP (createsOldIdIndex name) = 0 := by
    rw [List.countP_eq_zero]
    simp only [Bool.not_eq_true]
  rw [hnone]
  constructor
  · rintro ⟨honce, -⟩
    omega
  · rintro ⟨hone, hzero⟩
    exact ⟨by omega, hindexes ▸ List.prefix_append _ _⟩

end Runs

section Example

attribute [local instance] asciiLetterCase

/-- A server that keeps the index of the watch history with its identifiers back-quoted. -/
def quotingServer : PbServer where
  schemaKey := .schema
  bareAllowed := false
  canonicalIndex sql :=
    if sql = buildOldIdIndexSql "watch_history" then storedOldIdIndex "watch_history" else sql

/-- The server that quotes names rewrites the definition of the index of the watch history only. -/
theorem quotingServer_canonicalIndex (sql : String) : quotingServer.canonicalIndex sql =
    if sql = buildOldIdIndexSql "watch_history" then storedOldIdIndex "watch_history" else sql :=
  rfl

/-- A migration of the watch history, which has a key and no rows yet. -/
def watchHistoryRun : MigrationRun where
  cfg := ⟨1000, 1, defaultBatchSize_pos, Nat.one_pos⟩
  m := buildPlans ["watch_history"] (by decide) (fun _ => []) fun _ =>
    some ⟨[⟨"id", some "uuid", none⟩], "id", [], id_ne_empty⟩
  source _ := .ofRows []

/-- The migration plans the table whose index is looked at. -/
theorem watchHistoryRun_planned :
    "watch_history" ∈ watchHistoryRun.m.plans.map TablePlan.pbCollection := by decide

/-- The server keeps the statement back-quoted, and then as it is. -/
theorem storesQuoted_watch_history : StoresQuoted (World.initial quotingServer).pb.server
    "watch_history" ((World.initial quotingServer).indexes "watch_history") where
  saved := (quotingServer_canonicalIndex _).trans (if_pos rfl)
  stored entry hentry := by
    obtain rfl : entry = storedOldIdIndex "watch_history" := List.mem_singleton.mp hentry
    exact (quotingServer_canonicalIndex _).trans (if_neg (storedOldIdIndex_ne _))

/-- **A second run adds the index again.** The list holds the same entry twice. -/
theorem not_ensuredOnce_watch_history :
    ∃ w', migrateRuns [watchHistoryRun, watchHistoryRun] (World.initial quotingServer) =
        (some (), w') ∧
      w'.indexes "watch_history" =
        [storedOldIdIndex "watch_history", storedOldIdIndex "watch_history"] ∧
      ¬ EnsuredOnce "watch_history" ((World.initial quotingServer).indexes "watch_history")
        (w'.indexes "watch_history") := by
  obtain ⟨w', hrun, hindexes⟩ := migrateRuns_indexes [watchHistoryRun, watchHistoryRun]
    (by simpa using watchHistoryRun_planned) storesQuoted_watch_history
  have htwice : w'.indexes "watch_history" =
      [storedOldIdIndex "watch_history", storedOldIdIndex "watch_history"] := hindexes
  refine ⟨w', hrun, htwice, fun hensured => ?_⟩
  have honce := hensured.once
  rw [htwice, List.countP_cons_of_pos (createsOldIdIndex_stored _),
    List.countP_singleton, if_pos (createsOldIdIndex_stored _)] at honce
  omega

/-- One run of the migration, over collections that are not there yet. -/
theorem ensuredOnce_iff_watch_history :
    ∃ w', migrateRuns [watchHistoryRun] (World.initial quotingServer) = (some (), w') ∧
      EnsuredOnce "watch_history" ((World.initial quotingServer).indexes "watch_history")
        (w'.indexes "watch_history") := by
  obtain ⟨w', hrun, honce⟩ := ensuredOnce_iff (List.cons_ne_nil watchHistoryRun [])
    (by simpa using watchHistoryRun_planned) storesQuoted_watch_history
  exact ⟨w', hrun, honce.mpr ⟨rfl, fun entry hentry => absurd hentry List.not_mem_nil⟩⟩

end Example

end Mogo
