import Mogo.PocketBase

/-!
# Collections

The schema step: for every table, in migration order, the script makes sure that a collection
with the fields of the plan exists. A foreign-key column becomes a relation field with a
temporary text field when the collection of the referenced table is already known, and a plain
text field when it is not.

## Main results

* `safeListCollections_spec`: the listing is complete, or it throws.
* `ensureCollection_spec`: whatever calls fail and wherever the process dies, the step of one
  collection loses no field, touches no record and leaves the other collections alone.
* `ensureCollections_spec`: the same for the loop over the tables.
-/

namespace Mogo

/-! ### The fields of a plan -/

/-- The fields asked for one column. A foreign-key column always has a foreign key. -/
def columnFields (collectionsByName : String → Option Collection) (col : ColumnPlan) :
    List Field :=
  match col.isForeignKey, col.fk with
  | true, some fk =>
    match collectionsByName fk.pbCollection with
    | some target =>
      ⟨col.pbField, .relation, false, some target.id⟩ ::
        col.fkTempField.toList.map fun temp => ⟨temp, .text, false, none⟩
    | none => [⟨col.pbField, .text, false, none⟩]
  | _, _ => [⟨col.pbField, col.pbType, false, none⟩]

/-- `buildDesiredFields`: the required `old_id` and the fields of the columns. -/
def buildDesiredFields (plan : TablePlan) (collectionsByName : String → Option Collection) :
    List Field :=
  ⟨"old_id", .text, true, none⟩ :: plan.columnPlans.flatMap (columnFields collectionsByName)

/-! ### The collection calls of PocketBase -/

namespace PbServer

/-- Whether a create in this mode sends the fields under the key the server reads. -/
def reads (server : PbServer) : CreateMode → Bool
  | .fields => server.schemaKey = .fields
  | .schema => server.schemaKey = .schema
  | .bare => false

/-- Whether a create in this mode is accepted: a server that sees no fields may insist on
some. -/
def takes (server : PbServer) (mode : CreateMode) : Bool := server.reads mode || server.bareAllowed

/-- The fields a create in this mode leaves in the collection. -/
def stored (server : PbServer) (mode : CreateMode) (fields : List Field) : List Field :=
  if server.reads mode then fields else []

end PbServer

namespace World

/-- `collections.getFullList` of the server. -/
def listCollections (w : World) : Option (List Collection × World) := some (w.pb.collections, w)

/-- `collections.getList`, with 200 collections to a page. -/
def listCollectionsPage (p : ℕ) (w : World) : Option (ListResult Collection × World) :=
  some (⟨page 200 p w.pb.collections, totalPages 200 w.pb.collections.length⟩, w)

/-- `collections.create`. A name that is taken is rejected. -/
def createCollection (mode : CreateMode) (name : String) (fields : List Field) (w : World) :
    Option (Collection × World) :=
  if h : w.pb.server.takes mode = true ∧ ∀ c ∈ w.pb.collections, c.name ≠ name then
    some (⟨w.pb.nextId, name, w.pb.server.stored mode fields, []⟩,
      { w with pb := w.pb.addCollection name (w.pb.server.stored mode fields) h.2 })
  else none

/-- `collections.update`; an unknown id is rejected. -/
def updateCollection (id : ℕ) (fields : List Field → List Field)
    (indexes : List String → List String) (w : World) : Option (Unit × World) :=
  if ∃ c ∈ w.pb.collections, c.id = id then
    some ((), { w with pb := w.pb.editCollection id fields indexes })
  else none

/-- `collections.getOne` of the server, `none` if no collection has the id. -/
def getCollection (id : ℕ) (w : World) : Option (Collection × World) :=
  (w.pb.collections.find? fun c => c.id = id).map fun c => (c, w)

end World

open Script

/-! ### The schema step -/

/-- The page loop of `safeListCollections`. -/
def listCollectionsFrom (o : Oracle) :
    (fuel : ℕ) → (p : ℕ) → List Collection → Script World (Option (List Collection))
  | 0, _, all => pure (some all)
  | fuel + 1, p, all => do
      match ← call (o (.listCollectionsPage p)) (World.listCollectionsPage p) with
      | none => pure none
      | some list =>
        if list.totalPages ≤ p then pure (some (all ++ list.items))
        else listCollectionsFrom o fuel (p + 1) (all ++ list.items)

/-- `safeListCollections`; `none` where it throws. -/
def safeListCollections (o : Oracle) : Script World (Option (List Collection)) := do
  match ← call (o .listCollections) World.listCollections with
  | some all => pure (some all)
  | none =>
    withState fun w =>
      listCollectionsFrom o (max 1 (totalPages 200 w.pb.collections.length)) 1 []

/-- `getCollectionsByName`: the listing as a map by names, `none` if it cannot be read. -/
def getCollectionsByName (o : Oracle) :
    Script World (Option (String → Option Collection)) := do
  match ← safeListCollections o with
  | none => pure none
  | some collections => pure (some (indexOf (fun c => some c.name) id collections))

/-- `createCollection`; `none` where it throws. -/
def createCollection (o : Oracle) (name : String) (fields : List Field) :
    Script World (Option Collection) := do
  match ← call (o (.createCollection .fields name)) (World.createCollection .fields name fields)
    with
  | some created => pure (some created)
  | none =>
    match ← call (o (.createCollection .schema name))
        (World.createCollection .schema name fields) with
    | some created => pure (some created)
    | none => call (o (.createCollection .bare name)) (World.createCollection .bare name fields)

/-- `buildOldIdIndexSql`: the statement for the index of a collection by `old_id`. -/
def buildOldIdIndexSql (collectionName : String) : String :=
  "CREATE INDEX IF NOT EXISTS idx_" ++ collectionName ++ "_old_id ON " ++ collectionName ++
    " (old_id)"

/-- `ensureOldIdIndex`. A failed update is only logged. -/
def ensureOldIdIndex (o : Oracle) (collection : Collection) : Script World Unit := do
  let sql := buildOldIdIndexSql collection.name
  if sql ∈ collection.indexes then pure ()
  else
    let _ ← call (o (.updateIndexes collection.name)) fun w =>
      w.updateCollection collection.id id fun _ =>
        (collection.indexes ++ [sql]).map w.pb.server.canonicalIndex
    pure ()

/-- `syncMissingFields`: one update for all missing fields, and one call for each where the
update fails. Both ways of sending the fields come to the same list. -/
def syncMissingFields (o : Oracle) (collection : Collection) (desiredFields : List Field) :
    Script World Unit := do
  let existingNames := collection.fields.map Field.name
  let missing := desiredFields.filter fun field => field.name ∉ existingNames
  if missing = [] then pure ()
  else
    match ← call (o (.updateFields collection.name))
        (World.updateCollection collection.id (fun _ => collection.fields ++ missing) id) with
    | some () => pure ()
    | none =>
      forEach missing () fun field _ => do
        let _ ← call (o (.addField collection.name field.name))
          (World.updateCollection collection.id (fun fields => fields ++ [field]) id)
        pure ()

/-- `ensureCollection`; `none` where it throws. -/
def ensureCollection (o : Oracle) (plan : TablePlan)
    (collectionsByName : String → Option Collection) : Script World (Option Collection) := do
  let desiredFields := buildDesiredFields plan collectionsByName
  match collectionsByName plan.pbCollection with
  | none =>
    match ← createCollection o plan.pbCollection desiredFields with
    | none => pure none
    | some created =>
      syncMissingFields o created desiredFields
      match ← call (o (.getCollection plan.pbCollection)) (World.getCollection created.id) with
      | none => pure none
      | some createdFresh =>
        ensureOldIdIndex o createdFresh
        pure (some createdFresh)
  | some existing =>
    syncMissingFields o existing desiredFields
    ensureOldIdIndex o existing
    call (o (.getCollection plan.pbCollection)) (World.getCollection existing.id)

/-- One turn of the schema loop of `main`. A table whose collection could not be ensured is
passed over. -/
def ensureTable (o : Oracle) (plan : TablePlan)
    (collectionsByName : String → Option Collection) :
    Script World (String → Option Collection) := do
  match ← ensureCollection o plan collectionsByName with
  | some collection =>
    pure (Function.update collectionsByName collection.name (some collection))
  | none => pure collectionsByName

/-- The schema loop of `main`: each table's collection is ensured, in the order of the plans. -/
def ensureCollections (o : Oracle) (plans : List TablePlan)
    (collectionsByName : String → Option Collection) :
    Script World (String → Option Collection) :=
  forEach plans collectionsByName (ensureTable o)

/-! ### What the schema step leaves alone -/

/-- The schema has grown: no record and no payload has changed, and no field is lost. -/
structure SchemaGrown (w w' : World) : Prop where
  server : w'.pb.server = w.pb.server
  records : w'.pb.records = w.pb.records
  lastPayload : w'.lastPayload = w.lastPayload
  fields : ∀ n f, w.pb.hasField n f = true → w'.pb.hasField n f = true

namespace SchemaGrown

/-- A schema that has not been touched has grown by nothing. -/
@[refl] theorem refl (w : World) : SchemaGrown w w := ⟨rfl, rfl, rfl, fun _ _ h => h⟩

/-- Growth of the schema adds up over two steps of the migration. -/
theorem trans {w w₁ w₂ : World} (h₁ : SchemaGrown w w₁) (h₂ : SchemaGrown w₁ w₂) :
    SchemaGrown w w₂ where
  server := h₂.server.trans h₁.server
  records := h₂.records.trans h₁.records
  lastPayload := h₂.lastPayload.trans h₁.lastPayload
  fields := fun n f h => h₂.fields n f (h₁.fields n f h)

/-- A collection goes on carrying its plan. -/
theorem carries {w w' : World} (h : SchemaGrown w w') {plan : TablePlan}
    (hc : w.pb.Carries plan) : w'.pb.Carries plan :=
  fun field hf => h.fields _ _ (hc field hf)

end SchemaGrown

/-- A step of the schema loop for the collection `name`: the schema has grown, and every other
collection stays as it was. -/
structure SchemaStep (name : String) (w w' : World) : Prop extends SchemaGrown w w' where
  others : ∀ c, c.name ≠ name → (c ∈ w'.pb.collections ↔ c ∈ w.pb.collections)

namespace SchemaStep

/-- A step that does nothing is a step on every collection. -/
@[refl] theorem refl (name : String) (w : World) : SchemaStep name w w :=
  ⟨SchemaGrown.refl w, fun _ _ => Iff.rfl⟩

/-- Two steps on one collection are one step on it. -/
theorem trans {name : String} {w w₁ w₂ : World} (h₁ : SchemaStep name w w₁)
    (h₂ : SchemaStep name w₁ w₂) : SchemaStep name w w₂ :=
  ⟨h₁.toSchemaGrown.trans h₂.toSchemaGrown, fun c hn => (h₂.others c hn).trans (h₁.others c hn)⟩

/-- A schema step leaves the other collections as they are. -/
theorem collection?_of_ne {name n : String} {w w' : World}
    (h : SchemaStep name w w') (hn : n ≠ name) :
    w'.pb.collection? n = w.pb.collection? n := by
  rcases hc : w.pb.collection? n with - | c
  · rcases hc' : w'.pb.collection? n with - | c'
    · rfl
    · obtain ⟨hmem, rfl⟩ := PocketBase.mem_of_collection? hc'
      rw [PocketBase.collection?_of_mem ((h.others c' hn).mp hmem)] at hc
      exact absurd hc (by simp)
  · obtain ⟨hmem, rfl⟩ := PocketBase.mem_of_collection? hc
    exact PocketBase.collection?_of_mem ((h.others c hn).mpr hmem)

end SchemaStep

namespace PocketBase

/-- A field is kept when every collection keeps its name and its fields. -/
theorem hasField_mono {pb pb' : PocketBase}
    (h : ∀ c ∈ pb.collections, ∃ c' ∈ pb'.collections, c'.name = c.name ∧ c.fields ⊆ c'.fields)
    {name field : String} (hf : pb.hasField name field = true) :
    pb'.hasField name field = true := by
  obtain ⟨c, hc⟩ := Option.isSome_iff_exists.mp (collection?_isSome_of_hasField hf)
  obtain ⟨hmem, rfl⟩ := mem_of_collection? hc
  obtain ⟨c', hmem', hn, hsub⟩ := h c hmem
  rw [hasField_of_mem hmem, List.any_eq_true] at hf
  obtain ⟨f, hf, hfn⟩ := hf
  rw [← hn, hasField_of_mem hmem', List.any_eq_true]
  exact ⟨f, hsub hf, hfn⟩

end PocketBase

namespace World

variable {w w' : World}

/-- A created collection is there, under its name. -/
theorem createCollection_spec {mode : CreateMode} {name : String} {fields : List Field}
    {c : Collection} (h : w.createCollection mode name fields = some (c, w')) :
    SchemaStep name w w' ∧ c ∈ w'.pb.collections ∧ c.name = name := by
  rw [createCollection] at h
  split at h
  next hnew =>
    obtain ⟨rfl, rfl⟩ := Prod.mk.inj (Option.some.inj h)
    refine ⟨⟨⟨rfl, rfl, rfl, fun n f => ?_⟩, fun c hn => ⟨fun hc => ?_, ?_⟩⟩,
      List.mem_append_right _ List.mem_cons_self, rfl⟩
    · exact PocketBase.hasField_mono fun c hc =>
        ⟨c, List.mem_append_left _ hc, rfl, List.Subset.refl _⟩
    · rcases List.mem_append.mp hc with hc | hc
      · exact hc
      · obtain rfl := List.mem_singleton.mp hc
        exact absurd rfl hn
    · exact fun hc => List.mem_append_left _ hc
  · exact absurd h (by simp)

/-- An update of a collection that loses none of its fields. -/
theorem updateCollection_spec {c : Collection} (hc : c ∈ w.pb.collections)
    {fields : List Field → List Field} {indexes : List String → List String}
    (h : w.updateCollection c.id fields indexes = some ((), w'))
    (hf : c.fields ⊆ fields c.fields) :
    SchemaStep c.name w w' ∧
      { c with fields := fields c.fields, indexes := indexes c.indexes } ∈ w'.pb.collections := by
  rw [updateCollection] at h
  split at h
  · obtain ⟨-, rfl⟩ := Prod.mk.inj (Option.some.inj h)
    have heq : ∀ c' ∈ w.pb.collections, c'.id = c.id → c' = c := fun c' hc' he =>
      eq_of_ident_eq w.pb.collectionIds_nodup hc' hc he
    have hmem : ∀ c', c' ∈ (w.pb.editCollection c.id fields indexes).collections ↔
        (c' ∈ w.pb.collections ∧ c'.id ≠ c.id) ∨
          { c with fields := fields c.fields, indexes := indexes c.indexes } = c' := by
      intro c'
      refine mem_modifyAt.trans (or_congr_right ⟨?_, ?_⟩)
      · rintro ⟨c₀, hc₀, hid, rfl⟩
        rw [heq c₀ hc₀ hid]
      · rintro rfl
        exact ⟨c, hc, rfl, rfl⟩
    refine ⟨⟨⟨rfl, rfl, rfl, fun n f => ?_⟩, fun c' hn => ⟨fun hc' => ?_, fun hc' => ?_⟩⟩,
      (hmem _).mpr (Or.inr rfl)⟩
    · refine PocketBase.hasField_mono fun c' hc' => ?_
      by_cases he : c'.id = c.id
      · rw [heq c' hc' he]
        exact ⟨_, (hmem _).mpr (Or.inr rfl), rfl, hf⟩
      · exact ⟨c', (hmem c').mpr (Or.inl ⟨hc', he⟩), rfl, List.Subset.refl _⟩
    · rcases (hmem c').mp hc' with ⟨hc', -⟩ | rfl
      · exact hc'
      · exact absurd rfl hn
    · refine (hmem c').mpr (Or.inl ⟨hc', fun he => hn ?_⟩)
      rw [heq c' hc' he]
  · exact absurd h (by simp)

/-- A collection that was fetched is one of the list. -/
theorem getCollection_spec {id : ℕ} {c : Collection}
    (h : w.getCollection id = some (c, w')) : w' = w ∧ c ∈ w.pb.collections ∧ c.id = id := by
  obtain ⟨c', hc', he⟩ := Option.map_eq_some_iff.mp h
  obtain ⟨rfl, rfl⟩ := Prod.mk.inj he
  exact ⟨rfl, List.mem_of_find?_eq_some hc', by simpa using List.find?_some hc'⟩

/-- A collection of the list can be fetched. -/
theorem getCollection_of_mem {c : Collection} (h : c ∈ w.pb.collections) :
    w.getCollection c.id = some (c, w) := by
  rw [getCollection]
  rcases hf : w.pb.collections.find? (fun c' => c'.id = c.id) with - | c'
  · exact absurd (List.find?_eq_none.mp hf c h) (by simp)
  · have hid : c'.id = c.id := by simpa using List.find?_some hf
    rw [hf, eq_of_ident_eq w.pb.collectionIds_nodup (List.mem_of_find?_eq_some hf) h hid]
    rfl

end World

/-! ### Specifications of the schema step -/

/-- The collection a snapshot was taken of is still there. -/
def Present (c : Collection) (w : World) : Prop :=
  ∃ c' ∈ w.pb.collections, c'.id = c.id ∧ c'.name = c.name

/-- The page loop of the listing returns all collections, if it returns any. -/
theorem listCollectionsFrom_spec (o : Oracle) (w₀ : World) {fuel p : ℕ}
    (hp : p < max 1 (totalPages 200 w₀.pb.collections.length))
    (hf : max 1 (totalPages 200 w₀.pb.collections.length) ≤ p + fuel) :
    Triple (fun w => w = w₀)
      (listCollectionsFrom o fuel (p + 1) (w₀.pb.collections.take (p * 200)))
      (fun r w => w = w₀ ∧ ∀ all, r = some all → all = w₀.pb.collections)
      (fun w => w = w₀) := by
  induction fuel generalizing p with
  | zero => omega
  | succ fuel ih =>
      rw [listCollectionsFrom]
      refine Triple.bind (Q := fun r w => w = w₀ ∧ ∀ list, r = some list →
        list.items = page 200 (p + 1) w₀.pb.collections ∧
          list.totalPages = totalPages 200 w₀.pb.collections.length)
        (Triple.call ?_ (fun w hw => ⟨hw, fun _ h => absurd h (by simp)⟩) fun w hw => hw) ?_
      · rintro w list w' rfl h
        obtain ⟨rfl, rfl⟩ := Prod.mk.inj (Option.some.inj h)
        refine ⟨rfl, fun list' h => ?_⟩
        obtain rfl := Option.some.inj h
        exact ⟨rfl, rfl⟩
      · rintro (- | list)
        · exact Triple.pure fun w hw => ⟨hw.1, fun _ h => absurd h (by simp)⟩
        · rintro w ⟨rfl, hlist⟩
          obtain ⟨hitems, htotal⟩ := hlist list rfl
          dsimp only
          rw [hitems, htotal, take_append_page]
          by_cases hlast : totalPages 200 w.pb.collections.length ≤ p + 1
          · rw [if_pos hlast]
            refine ⟨rfl, fun all h => ?_⟩
            rw [← Option.some.inj h, List.take_of_length_le]
            exact List.drop_eq_nil_iff.mp (drop_eq_nil_of_totalPages_le (by omega) hlast)
          · rw [if_neg hlast]
            exact ih (by omega) (by omega) w rfl

/-- The collections are listed completely, or the listing throws. -/
theorem safeListCollections_spec (o : Oracle) (w₀ : World) :
    Triple (fun w => w = w₀) (safeListCollections o)
      (fun r w => w = w₀ ∧ ∀ all, r = some all → all = w₀.pb.collections)
      (fun w => w = w₀) := by
  rw [safeListCollections]
  refine Triple.bind (Q := fun r w => w = w₀ ∧ ∀ all, r = some all → all = w₀.pb.collections)
    (Triple.call ?_ (fun w hw => ⟨hw, fun _ h => absurd h (by simp)⟩) fun w hw => hw) ?_
  · rintro w all w' rfl h
    obtain ⟨rfl, rfl⟩ := Prod.mk.inj (Option.some.inj h)
    exact ⟨rfl, fun all h => (Option.some.inj h).symm⟩
  · rintro (- | all)
    · refine Triple.withState fun w₁ => ?_
      rintro w ⟨rfl, rfl, -⟩
      exact listCollectionsFrom_spec o w (p := 0) (by omega) (by omega) w rfl
    · exact Triple.pure fun w hw => hw

/-- The map of the collections has current entries. -/
theorem getCollectionsByName_spec (o : Oracle) (w₀ : World) :
    Triple (fun w => w = w₀) (getCollectionsByName o)
      (fun r w => w = w₀ ∧ ∀ byName, r = some byName →
        byName = indexOf (fun c => some c.name) id w₀.pb.collections)
      (fun w => w = w₀) := by
  rw [getCollectionsByName]
  refine (safeListCollections_spec o w₀).bind ?_
  rintro (- | all)
  · exact Triple.pure fun w hw => ⟨hw.1, fun _ h => absurd h (by simp)⟩
  · refine Triple.pure fun w hw => ⟨hw.1, fun byName h => ?_⟩
    rw [← Option.some.inj h, hw.2 all rfl]

/-- `createCollection` takes one schema step, and returns a collection that is there. -/
theorem createCollection_spec (o : Oracle) (name : String) (fields : List Field) (w₀ : World) :
    Triple (fun w => w = w₀) (createCollection o name fields)
      (fun r w => SchemaStep name w₀ w ∧
        ∀ c, r = some c → c ∈ w.pb.collections ∧ c.name = name)
      (SchemaStep name w₀) := by
  have hcall : ∀ mode, Triple (fun w => w = w₀)
      (call (o (.createCollection mode name)) (World.createCollection mode name fields))
      (fun r w => SchemaStep name w₀ w ∧ (r = none → w = w₀) ∧
        ∀ c, r = some c → c ∈ w.pb.collections ∧ c.name = name)
      (SchemaStep name w₀) := by
    intro mode
    refine Triple.call ?_ ?_ ?_
    · rintro w c w' rfl h
      obtain ⟨hstep, hmem⟩ := World.createCollection_spec h
      refine ⟨hstep, fun h => absurd h (by simp), fun c' h => ?_⟩
      rwa [← Option.some.inj h]
    · rintro w rfl
      exact ⟨SchemaStep.refl name w, fun _ => rfl, fun _ h => absurd h (by simp)⟩
    · rintro w rfl
      exact SchemaStep.refl name w
  rw [createCollection]
  refine (hcall .fields).bind ?_
  rintro (- | created)
  · refine Triple.consequence ?_ (fun w hw => hw.2.1 rfl) (fun _ _ h => h) fun _ h => h
    refine (hcall .schema).bind ?_
    rintro (- | created)
    · exact (hcall .bare).consequence (fun w hw => hw.2.1 rfl)
        (fun _ _ h => ⟨h.1, h.2.2⟩) fun _ h => h
    · exact Triple.pure fun w hw => ⟨hw.1, hw.2.2⟩
  · exact Triple.pure fun w hw => ⟨hw.1, hw.2.2⟩

/-- An update that loses no field of a collection that is there takes a schema step. -/
theorem updateCollection_spec (fate : Fate) {name : String} (c : Collection) (w₀ : World)
    {fields : List Field → List Field} (indexes : World → List String → List String)
    (hname : c.name = name) (hf : ∀ c' : Collection, c'.fields ⊆ fields c'.fields) :
    Triple (fun w => SchemaStep name w₀ w ∧ Present c w)
      (call fate fun w => w.updateCollection c.id fields (indexes w))
      (fun _ w => SchemaStep name w₀ w ∧ Present c w) (SchemaStep name w₀) := by
  refine Triple.call ?_ (fun w hw => hw) fun w hw => hw.1
  rintro w ⟨⟩ w' ⟨hstep, c', hc', hid, hn⟩ h
  rw [← hid] at h
  obtain ⟨hstep', hmem⟩ := World.updateCollection_spec hc' h (hf c')
  rw [hn, hname] at hstep'
  exact ⟨hstep.trans hstep', _, hmem, hid, hn⟩

/-- `ensureOldIdIndex` takes a schema step. -/
theorem ensureOldIdIndex_spec (o : Oracle) {name : String} (c : Collection) (w₀ : World)
    (hname : c.name = name) :
    Triple (fun w => SchemaStep name w₀ w ∧ Present c w) (ensureOldIdIndex o c)
      (fun _ w => SchemaStep name w₀ w ∧ Present c w) (SchemaStep name w₀) := by
  rw [ensureOldIdIndex]
  split
  · exact Triple.pure fun w hw => hw
  · refine Triple.bind (updateCollection_spec _ c w₀ (fun w _ =>
      (c.indexes ++ [buildOldIdIndexSql c.name]).map w.pb.server.canonicalIndex) hname
        fun c' => List.Subset.refl c'.fields) ?_
    exact fun _ => Triple.pure fun w hw => hw

/-- `syncMissingFields` takes a schema step, given the collection as it is. -/
theorem syncMissingFields_spec (o : Oracle) {name : String} (c : Collection)
    (desiredFields : List Field) (w₀ : World) (hname : c.name = name) :
    Triple (fun w => SchemaStep name w₀ w ∧ c ∈ w.pb.collections)
      (syncMissingFields o c desiredFields)
      (fun _ w => SchemaStep name w₀ w ∧ Present c w) (SchemaStep name w₀) := by
  have hpresent : ∀ w : World, c ∈ w.pb.collections → Present c w := fun w hc =>
    ⟨c, hc, rfl, rfl⟩
  rw [syncMissingFields]
  split
  · exact Triple.pure fun w hw => ⟨hw.1, hpresent w hw.2⟩
  · refine Triple.bind (Q := fun _ w => SchemaStep name w₀ w ∧ Present c w)
      (Triple.call ?_ (fun w hw => ⟨hw.1, hpresent w hw.2⟩) fun w hw => hw.1) ?_
    · rintro w ⟨⟩ w' ⟨hstep, hc⟩ h
      obtain ⟨hstep', hmem⟩ := World.updateCollection_spec hc h (List.subset_append_left _ _)
      rw [hname] at hstep'
      exact ⟨hstep.trans hstep', _, hmem, rfl, rfl⟩
    · rintro (- | -)
      · refine Triple.forEach (I := fun _ _ w => SchemaStep name w₀ w ∧ Present c w) ?_ _ _
        intro field _ _
        exact (updateCollection_spec _ c w₀ (fun _ => id) hname fun c' =>
          List.subset_append_left _ _).bind fun _ => Triple.pure fun w hw => hw
      · exact Triple.pure fun w hw => hw

/-- A snapshot map has current entries for the collection of a plan. -/
def Current (collectionsByName : String → Option Collection) (plan : TablePlan) (w : World) :
    Prop :=
  ∀ c, collectionsByName plan.pbCollection = some c →
    c ∈ w.pb.collections ∧ c.name = plan.pbCollection

/-- **The step of one collection.** Whatever calls fail and wherever the process dies, the
collection of the plan is the only one that changes, no field is lost and no record is touched;
and the collection returned is that of the plan. -/
theorem ensureCollection_spec (o : Oracle) (plan : TablePlan)
    (collectionsByName : String → Option Collection) (w₀ : World)
    (hcurrent : Current collectionsByName plan w₀) :
    Triple (fun w => w = w₀) (ensureCollection o plan collectionsByName)
      (fun r w => SchemaStep plan.pbCollection w₀ w ∧
        ∀ c, r = some c → c.name = plan.pbCollection)
      (SchemaStep plan.pbCollection w₀) := by
  have hget : ∀ c : Collection, c.name = plan.pbCollection →
      Triple (fun w => SchemaStep plan.pbCollection w₀ w ∧ Present c w)
        (call (o (.getCollection plan.pbCollection)) (World.getCollection c.id))
        (fun r w => SchemaStep plan.pbCollection w₀ w ∧
          ∀ c', r = some c' → c' ∈ w.pb.collections ∧ c'.name = plan.pbCollection)
        (SchemaStep plan.pbCollection w₀) := by
    intro c hname
    refine Triple.call ?_ (fun w hw => ⟨hw.1, fun _ h => absurd h (by simp)⟩) fun w hw => hw.1
    rintro w c' w' ⟨hstep, c₀, hc₀, hid₀, hn₀⟩ h
    obtain ⟨rfl, hmem, hid⟩ := World.getCollection_spec h
    refine ⟨hstep, fun c'' h => ?_⟩
    obtain rfl := Option.some.inj h
    refine ⟨hmem, ?_⟩
    rw [eq_of_ident_eq w'.pb.collectionIds_nodup hmem hc₀ (hid.trans hid₀.symm), hn₀, hname]
  rw [ensureCollection]
  rcases hex : collectionsByName plan.pbCollection with - | existing
  · refine (createCollection_spec o _ _ w₀).bind ?_
    rintro (- | created)
    · exact Triple.pure fun w hw => ⟨hw.1, fun _ h => absurd h (by simp)⟩
    · rintro w ⟨hstep, hcreated⟩
      obtain ⟨hmem, hname⟩ := hcreated created rfl
      refine ((syncMissingFields_spec o created _ w₀ hname).bind fun _ =>
        (hget created hname).bind ?_) w ⟨hstep, hmem⟩
      rintro (- | fresh)
      · exact Triple.pure fun w hw => ⟨hw.1, fun _ h => absurd h (by simp)⟩
      · rintro w ⟨hstep, hfresh⟩
        obtain ⟨hmem, hname⟩ := hfresh fresh rfl
        refine ((ensureOldIdIndex_spec o fresh w₀ hname).bind fun _ =>
          Triple.pure fun w hw => ⟨hw.1, fun c h => ?_⟩) w ⟨hstep, fresh, hmem, rfl, rfl⟩
        rwa [← Option.some.inj h]
  · obtain ⟨hmem, hname⟩ := hcurrent existing hex
    refine Triple.consequence ?_
      (P := fun w => SchemaStep plan.pbCollection w₀ w ∧ existing ∈ w.pb.collections)
      (by rintro w rfl; exact ⟨SchemaStep.refl _ w, hmem⟩) (fun _ _ h => h) fun _ h => h
    refine (syncMissingFields_spec o existing _ w₀ hname).bind fun _ =>
      (ensureOldIdIndex_spec o existing w₀ hname).bind fun _ => ?_
    exact (hget existing hname).weaken fun _ _ hw => ⟨hw.1, fun c h => (hw.2 c h).2⟩

/-- **The schema loop.** Whatever calls fail and wherever the process dies, no field is lost and
no record is touched. -/
theorem ensureCollections_spec (o : Oracle) (plans : List TablePlan)
    (hnodup : (plans.map TablePlan.pbCollection).Nodup)
    (collectionsByName : String → Option Collection) (w₀ : World)
    (hcurrent : ∀ plan ∈ plans, Current collectionsByName plan w₀) :
    Triple (fun w => w = w₀) (ensureCollections o plans collectionsByName)
      (fun _ w => SchemaGrown w₀ w) (SchemaGrown w₀) := by
  rw [ensureCollections]
  refine Triple.consequence (Triple.forEach (C := SchemaGrown w₀) (I := fun rest byName w =>
    SchemaGrown w₀ w ∧ (rest.map TablePlan.pbCollection).Nodup ∧
      ∀ plan ∈ rest, Current byName plan w) ?_ plans collectionsByName)
    (by rintro w rfl; exact ⟨SchemaGrown.refl w, hnodup, hcurrent⟩) (fun _ _ h => h.1)
    fun _ h => h
  rintro plan rest byName w ⟨hgrown, hnodup, hcur⟩
  rw [List.map_cons, List.nodup_cons] at hnodup
  obtain ⟨hnotin, hnodup⟩ := hnodup
  have hother : ∀ p ∈ rest, p.pbCollection ≠ plan.pbCollection := fun p hp he =>
    hnotin (he ▸ List.mem_map_of_mem hp)
  have hstep := ensureCollection_spec o plan byName w (hcur plan List.mem_cons_self)
  refine Triple.bind (hstep.consequence (fun _ h => h) (fun _ _ h => h) fun w' h =>
    hgrown.trans h.toSchemaGrown) ?_ w rfl
  rintro (- | c)
  · refine Triple.pure fun w' ⟨hstep, _⟩ => ⟨hgrown.trans hstep.toSchemaGrown, hnodup, ?_⟩
    intro p hp c hc
    obtain ⟨hmem, hn⟩ := hcur p (List.mem_cons_of_mem plan hp) c hc
    exact ⟨(hstep.others c (hn ▸ hother p hp)).mpr hmem, hn⟩
  · refine Triple.pure fun w' ⟨hstep, hname⟩ => ⟨hgrown.trans hstep.toSchemaGrown, hnodup, ?_⟩
    intro p hp c' hc'
    rw [hname c rfl, Function.update_of_ne (hother p hp)] at hc'
    obtain ⟨hmem, hn⟩ := hcur p (List.mem_cons_of_mem plan hp) c' hc'
    exact ⟨(hstep.others c' (hn ▸ hother p hp)).mpr hmem, hn⟩

end Mogo
