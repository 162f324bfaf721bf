import Mogo.CollectionsRun
import Mogo.Fidelity

/-!
# What the Schema Step Delivers

The collection that `ensureCollection` returns has all the fields it had before. A desired field is
in it with its type, unless a field of its name was there with another type, or both the update of
all missing fields and the call for this one have failed: such failures are logged and passed over.

## Main results

* `syncMissingFields_run`: the fields after a sync, as a function of the calls that are answered.
* `ensureCollection_arrives`: which of them are there in a new collection.
* `ensureCollection_delivers`: which of the desired fields are delivered.
* `not_delivers`: an existing field of another type, and a field whose calls have failed.
-/

namespace Mogo

open Script

/-- The fields of a collection after a sync. -/
def syncedFields (o : Oracle) (name : String) (current desired : List Field) : List Field :=
  let missing := desired.filter fun f => f.name ∉ current.map Field.name
  current ++ if o (.updateFields name) = .ok then missing
    else missing.filter fun f => o (.addField name f.name) = .ok

/-- The fields of a collection when the missing ones are determined: those it has, or those it has
been created with. -/
def fieldsBefore (o : Oracle) (server : PbServer) (plan : TablePlan)
    (collectionsByName : String → Option Collection) : List Field :=
  match collectionsByName plan.pbCollection with
  | some existing => existing.fields
  | none => createdFields o server plan.pbCollection (buildDesiredFields plan collectionsByName)

/-- The collection of an id has these fields. -/
def FieldsAre (id : ℕ) (fields : List Field) (w : World) : Prop :=
  ∃ c ∈ w.pb.collections, c.id = id ∧ c.fields = fields

/-- The field `field` comes to a new collection: it is created with its fields, or without, and the
update of all missing ones or the call for this one is answered. -/
def FieldArrives (o : Oracle) (server : PbServer) (name field : String) : Prop :=
  ∃ mode, createMode? o server name = some mode ∧
    (server.reads mode = true ∨ o (.updateFields name) = .ok ∨ o (.addField name field) = .ok)

/-- After a synchronisation there are the fields from before, and those missing ones of which one of
the two calls has succeeded. -/
theorem mem_syncedFields {o : Oracle} {name : String} {current desired : List Field} {f : Field} :
    f ∈ syncedFields o name current desired ↔ f ∈ current ∨
      (f ∈ desired ∧ f.name ∉ current.map Field.name) ∧
        (o (.updateFields name) = .ok ∨ o (.addField name f.name) = .ok) := by
  rw [syncedFields, List.mem_append]
  refine or_congr_right ?_
  by_cases hbulk : o (.updateFields name) = .ok
  · simp [hbulk]
  · rw [if_neg hbulk, List.mem_filter, List.mem_filter]
    simp [hbulk]

/-- **What a sync delivers**, for one desired field. -/
theorem syncedFields_delivers {o : Oracle} {name : String} {current desired : List Field}
    {f : Field} (hf : f ∈ desired) :
    (∃ g ∈ syncedFields o name current desired, g.name = f.name ∧ g.type = f.type) ↔
      (∃ g ∈ current, g.name = f.name ∧ g.type = f.type) ∨
        (∀ g ∈ current, g.name ≠ f.name) ∧
          (o (.updateFields name) = .ok ∨ o (.addField name f.name) = .ok) := by
  have hnew : f.name ∉ current.map Field.name ↔ ∀ g ∈ current, g.name ≠ f.name := by simp
  constructor
  · rintro ⟨g, hg, hname, htype⟩
    rcases mem_syncedFields.mp hg with hg | ⟨⟨-, hnotin⟩, hadded⟩
    · exact Or.inl ⟨g, hg, hname, htype⟩
    · rw [hname] at hnotin hadded
      exact Or.inr ⟨hnew.mp hnotin, hadded⟩
  · rintro (⟨g, hg, hname, htype⟩ | ⟨hnotin, hadded⟩)
    · exact ⟨g, mem_syncedFields.mpr (Or.inl hg), hname, htype⟩
    · exact ⟨f, mem_syncedFields.mpr (Or.inr ⟨⟨hf, hnew.mpr hnotin⟩, hadded⟩), rfl, rfl⟩

/-- A field that is asked for is in a new collection after the sync exactly if it arrives. -/
theorem mem_syncedFields_created {o : Oracle} {server : PbServer} {name : String}
    {mode : CreateMode} (hmode : createMode? o server name = some mode) {desired : List Field}
    {f : Field} (hf : f ∈ desired) :
    f.name ∈ (syncedFields o name (createdFields o server name desired) desired).map Field.name ↔
      FieldArrives o server name f.name := by
  have hcreated : createdFields o server name desired =
      if server.reads mode then desired else [] := by
    rw [createdFields, hmode]
    rfl
  rw [hcreated, List.mem_map]
  constructor
  · rintro ⟨g, hg, hname⟩
    refine ⟨mode, hmode, ?_⟩
    by_cases hreads : server.reads mode = true
    · exact Or.inl hreads
    · rw [if_neg hreads, mem_syncedFields, hname] at hg
      exact Or.inr (hg.resolve_left List.not_mem_nil).2
  · rintro ⟨mode', hmode', h⟩
    obtain rfl := Option.some.inj (hmode.symm.trans hmode')
    refine ⟨f, mem_syncedFields.mpr ?_, rfl⟩
    by_cases hreads : server.reads mode = true
    · rw [if_pos hreads]
      exact Or.inl hf
    · rw [if_neg hreads]
      exact Or.inr ⟨⟨hf, List.not_mem_nil⟩, h.resolve_left hreads⟩

/-- The fields of a collection that is there under its name. -/
theorem FieldsAre.hasField_iff {w : World} {c : Collection} {fields : List Field}
    (h : FieldsAre c.id fields w) (hc : Present c w) (n : String) :
    w.pb.hasField c.name n = true ↔ n ∈ fields.map Field.name := by
  obtain ⟨c₁, hc₁, hid₁, rfl⟩ := h
  obtain ⟨c₂, hc₂, hid₂, hname⟩ := hc
  obtain rfl := eq_of_ident_eq w.pb.collectionIds_nodup hc₁ hc₂ (hid₁.trans hid₂.symm)
  rw [← hname, PocketBase.hasField_of_mem hc₁, List.any_eq_true]
  simp

/-! ### Runs -/

section Runs

variable {o : Oracle} (ho : o.Uninterrupted) {w : World}
include ho

/-- An update of a collection that is there takes effect when its call is answered. -/
theorem call_updateCollection_run (call' : Call) {id : ℕ} {before : List Field}
    (hbefore : FieldsAre id before w) (fields : List Field → List Field)
    (indexes : World → List String → List String) (hfields : before ⊆ fields before) :
    ∃ r w', call (o call') (fun w => w.updateCollection id fields (indexes w)) w = (some r, w') ∧
      ((o call' = .ok ∧ r = some () ∧ FieldsAre id (fields before) w') ∨
        o call' ≠ .ok ∧ r = none ∧ w' = w) := by
  obtain ⟨c, hc, rfl, rfl⟩ := hbefore
  cases hfate : o call' with
  | crash => exact absurd hfate (ho _)
  | fail => exact ⟨none, w, rfl, Or.inr ⟨by simp, rfl, rfl⟩⟩
  | ok =>
      have hupdate : w.updateCollection c.id fields (indexes w) =
          some ((), { w with pb := w.pb.editCollection c.id fields (indexes w) }) :=
        if_pos ⟨c, hc, rfl⟩
      obtain ⟨-, hmem⟩ := World.updateCollection_spec hc hupdate hfields
      exact ⟨some (), _, call_ok_run hupdate, Or.inl ⟨rfl, rfl, _, hmem, rfl, rfl⟩⟩

/-- The calls for single fields add those whose call is answered. -/
theorem addFields_run (name : String) {i : ℕ} (fields : List Field) {before : List Field}
    (hbefore : FieldsAre i before w) :
    ∃ w', forEach fields () (fun field _ => do
        let _ ← call (o (.addField name field.name))
          (World.updateCollection i (fun fields => fields ++ [field]) id)
        pure ()) w = (some (), w') ∧
      FieldsAre i (before ++ fields.filter fun f => o (.addField name f.name) = .ok) w' := by
  induction fields generalizing before w with
  | nil =>
      refine ⟨w, rfl, ?_⟩
      rwa [List.filter_nil, List.append_nil]
  | cons field fields ih =>
      obtain ⟨r, w₁, hrun, hafter⟩ := call_updateCollection_run ho (.addField name field.name)
        hbefore (fun fields => fields ++ [field]) (fun _ => id) (List.subset_append_left _ _)
      have hadded : FieldsAre i (before ++ [field].filter fun f =>
          o (.addField name f.name) = .ok) w₁ := by
        rcases hafter with ⟨hok, -, hfields⟩ | ⟨hfail, -, rfl⟩
        · simpa [hok] using hfields
        · simpa [hfail] using hbefore
      obtain ⟨w', hrun', hfields'⟩ := ih hadded
      refine ⟨w', (forEach_cons_run (bind_run_of_eq hrun)).trans hrun', ?_⟩
      rwa [List.append_assoc, ← List.filter_append] at hfields'

/-- **A sync** leaves the collection with its own fields and those of the missing ones that the
common request or their single requests have added. -/
theorem syncMissingFields_run {c : Collection} (hc : c ∈ w.pb.collections)
    (desired : List Field) :
    ∃ w', syncMissingFields o c desired w = (some (), w') ∧
      FieldsAre c.id (syncedFields o c.name c.fields desired) w' := by
  have hbefore : FieldsAre c.id c.fields w := ⟨c, hc, rfl, rfl⟩
  rw [syncMissingFields, syncedFields]
  generalize desired.filter (fun f => f.name ∉ c.fields.map Field.name) = missing
  by_cases hnil : missing = []
  · rw [if_pos hnil, hnil, List.filter_nil, ite_self, List.append_nil]
    exact ⟨w, rfl, hbefore⟩
  · rw [if_neg hnil]
    obtain ⟨r, w₁, hrun, hafter⟩ := call_updateCollection_run ho (.updateFields c.name) hbefore
      (fun _ => c.fields ++ missing) (fun _ => id) (List.subset_append_left _ _)
    rw [bind_run_of_eq hrun]
    rcases hafter with ⟨hok, rfl, hfields⟩ | ⟨hfail, rfl, rfl⟩
    · rw [if_pos hok]
      exact ⟨w₁, rfl, hfields⟩
    · rw [if_neg hfail]
      exact addFields_run ho c.name missing hbefore

/-- The index step leaves the fields alone. -/
theorem ensureOldIdIndex_run {c : Collection} {fields : List Field}
    (hfields : FieldsAre c.id fields w) :
    ∃ w', ensureOldIdIndex o c w = (some (), w') ∧ FieldsAre c.id fields w' := by
  rw [ensureOldIdIndex]
  split
  · exact ⟨w, rfl, hfields⟩
  · obtain ⟨r, w', hrun, hafter⟩ := call_updateCollection_run ho (.updateIndexes c.name) hfields
      id (fun w _ => (c.indexes ++ [buildOldIdIndexSql c.name]).map w.pb.server.canonicalIndex)
      (List.Subset.refl _)
    refine ⟨w', bind_run_of_eq hrun, ?_⟩
    rcases hafter with ⟨-, -, h⟩ | ⟨-, -, rfl⟩
    · exact h
    · exact hfields

/-- A collection that is fetched has the fields it has. -/
theorem call_getCollection_fields {name : String} {id : ℕ} {fields : List Field}
    (hfields : FieldsAre id fields w) {r : Option Collection} {w' : World}
    (hrun : call (o (.getCollection name)) (World.getCollection id) w = (some r, w')) :
    w' = w ∧ ∀ c, r = some c → c ∈ w.pb.collections ∧ c.id = id ∧ c.fields = fields := by
  obtain ⟨c, hc, rfl, rfl⟩ := hfields
  cases hfate : o (.getCollection name) with
  | crash => exact absurd hfate (ho _)
  | fail =>
      rw [hfate, call_fail_run] at hrun
      obtain ⟨hr, rfl⟩ := Prod.mk.inj hrun
      refine ⟨rfl, fun c' h => ?_⟩
      rw [← Option.some.inj hr] at h
      exact nomatch h
  | ok =>
      rw [hfate, call_ok_run (World.getCollection_of_mem hc)] at hrun
      obtain ⟨hr, rfl⟩ := Prod.mk.inj hrun
      refine ⟨rfl, fun c' h => ?_⟩
      rw [← Option.some.inj hr] at h
      obtain rfl := Option.some.inj h
      exact ⟨hc, rfl, rfl⟩

/-- **A new collection**, whether its step succeeds or not: a field that is asked for is there in
the end exactly if it arrives. -/
theorem ensureCollection_arrives {plan : TablePlan}
    {collectionsByName : String → Option Collection}
    (hnone : collectionsByName plan.pbCollection = none)
    (hfree : ∀ c ∈ w.pb.collections, c.name ≠ plan.pbCollection) :
    ∃ r w', ensureCollection o plan collectionsByName w = (some r, w') ∧
      ∀ f ∈ buildDesiredFields plan collectionsByName,
        w'.pb.hasField plan.pbCollection f.name = true ↔
          FieldArrives o w.pb.server plan.pbCollection f.name := by
  rw [ensureCollection, hnone]
  dsimp only
  generalize buildDesiredFields plan collectionsByName = desired
  obtain ⟨r, w₁, hcreate, hmode, hcreated, hsame⟩ := createCollection_run ho desired hfree
  have hspec := (createCollection_spec o plan.pbCollection desired w).of_returned rfl hcreate
  rw [bind_run_of_eq hcreate]
  cases r with
  | none =>
      obtain rfl := hsame rfl
      refine ⟨none, w₁, rfl, fun f _ => ⟨fun h => ?_, fun h => ?_⟩⟩
      · obtain ⟨c, hc⟩ := Option.isSome_iff_exists.mp
          (PocketBase.collection?_isSome_of_hasField h)
        obtain ⟨hmem, hname⟩ := PocketBase.mem_of_collection? hc
        exact absurd hname (hfree c hmem)
      · obtain ⟨mode, hmode', -⟩ := h
        rw [hmode'] at hmode
        exact absurd hmode (by simp)
  | some created =>
      obtain ⟨mode, hmode⟩ := Option.isSome_iff_exists.mp hmode.symm
      obtain ⟨hmem, hname⟩ := hspec.2 created rfl
      obtain ⟨w₂, hsync, hfields⟩ := syncMissingFields_run ho hmem desired
      have hpresent := ((syncMissingFields_spec o created desired w hname).of_returned
        ⟨hspec.1, hmem⟩ hsync).2
      rw [hname, hcreated created rfl] at hfields
      have hiff : ∀ {w' : World}, FieldsAre created.id (syncedFields o plan.pbCollection
          (createdFields o w.pb.server plan.pbCollection desired) desired) w' →
          Present created w' → ∀ f ∈ desired,
            w'.pb.hasField plan.pbCollection f.name = true ↔
              FieldArrives o w.pb.server plan.pbCollection f.name := by
        intro w' hfields hpresent f hf
        have hthere := hfields.hasField_iff hpresent f.name
        rw [hname] at hthere
        exact hthere.trans (mem_syncedFields_created hmode hf)
      dsimp only
      rw [bind_run_of_eq hsync]
      obtain ⟨got, w₃, hget⟩ := Returns.call (ho (.getCollection plan.pbCollection))
        (World.getCollection created.id) w₂
      rw [bind_run_of_eq hget]
      obtain ⟨rfl, hgot⟩ := call_getCollection_fields ho hfields hget
      cases got with
      | none => exact ⟨none, w₃, rfl, hiff hfields hpresent⟩
      | some fresh =>
          obtain ⟨hfresh, hid, hfresh'⟩ := hgot fresh rfl
          obtain ⟨w₄, hindex, hfields₄⟩ :=
            ensureOldIdIndex_run ho (c := fresh) ⟨fresh, hfresh, rfl, hfresh'⟩
          have hfreshName : fresh.name = created.name := by
            obtain ⟨c, hc, hcid, hcname⟩ := hpresent
            rw [eq_of_ident_eq w₃.pb.collectionIds_nodup hfresh hc (hid.trans hcid.symm), hcname]
          obtain ⟨-, c, hc, hcid, hcname⟩ := (ensureOldIdIndex_spec o fresh w₃ rfl).of_returned
            ⟨SchemaStep.refl _ w₃, fresh, hfresh, rfl, rfl⟩ hindex
          dsimp only
          rw [bind_run_of_eq hindex]
          exact ⟨some fresh, w₄, rfl, hiff (hid ▸ hfields₄)
            ⟨c, hc, hcid.trans hid, hcname.trans hfreshName⟩⟩

/-- Under a name that is taken, no mode creates a collection. -/
theorem createCollection_taken {name : String} (htaken : ∃ c ∈ w.pb.collections, c.name = name)
    (fields : List Field) : createCollection o name fields w = (some none, w) := by
  have hcall : ∀ mode, call (o (.createCollection mode name))
      (World.createCollection mode name fields) w = (some none, w) := by
    intro mode
    have hrejected : w.createCollection mode name fields = none := by
      obtain ⟨c, hc, hname⟩ := htaken
      exact dif_neg fun h => h.2 c hc hname
    cases hfate : o (.createCollection mode name) with
    | crash => exact absurd hfate (ho _)
    | fail => rfl
    | ok => rw [call, hrejected]
  rw [createCollection, bind_run_of_eq (hcall .fields)]
  dsimp only
  rw [bind_run_of_eq (hcall .schema)]
  exact hcall .bare

/-- **The schema step of one collection.** The fields of the collection it returns. -/
theorem ensureCollection_fields {plan : TablePlan} {collectionsByName : String → Option Collection}
    (hcurrent : Current collectionsByName plan w) {c : Collection} {w' : World}
    (hrun : ensureCollection o plan collectionsByName w = (some (some c), w')) :
    c.fields = syncedFields o plan.pbCollection
      (fieldsBefore o w.pb.server plan collectionsByName)
      (buildDesiredFields plan collectionsByName) := by
  rw [fieldsBefore]
  cases hexisting : collectionsByName plan.pbCollection with
  | some existing =>
      obtain ⟨hmem, hname⟩ := hcurrent existing hexisting
      obtain ⟨w₁, hsync, hfields₁⟩ := syncMissingFields_run ho hmem
        (buildDesiredFields plan collectionsByName)
      obtain ⟨w₂, hindex, hfields₂⟩ := ensureOldIdIndex_run ho hfields₁
      rw [ensureCollection, hexisting] at hrun
      dsimp only at hrun
      rw [bind_run_of_eq hsync, bind_run_of_eq hindex] at hrun
      obtain ⟨-, -, hc⟩ := (call_getCollection_fields ho hfields₂ hrun).2 c rfl
      rw [hc, hname]
  | none =>
      rw [ensureCollection, hexisting] at hrun
      dsimp only at hrun ⊢
      by_cases hfree : ∀ c ∈ w.pb.collections, c.name ≠ plan.pbCollection
      · obtain ⟨r, w₁, hcreate, -, hcreated, -⟩ := createCollection_run ho
          (buildDesiredFields plan collectionsByName) hfree
        rw [bind_run_of_eq hcreate] at hrun
        cases r with
        | none => cases hrun
        | some created =>
            have hspec := (createCollection_spec o plan.pbCollection
              (buildDesiredFields plan collectionsByName) w).of_returned rfl hcreate
            obtain ⟨hmem, hname⟩ := hspec.2 created rfl
            obtain ⟨w₂, hsync, hfields₂⟩ := syncMissingFields_run ho hmem
              (buildDesiredFields plan collectionsByName)
            dsimp only at hrun
            rw [bind_run_of_eq hsync, bind_run] at hrun
            rcases hget : call (o (.getCollection plan.pbCollection))
              (World.getCollection created.id) w₂ with ⟨- | - | fresh, w₃⟩
            · rw [hget] at hrun
              cases hrun
            · rw [hget] at hrun
              cases hrun
            · obtain ⟨-, -, hfresh⟩ := (call_getCollection_fields ho hfields₂ hget).2 fresh rfl
              obtain ⟨⟨⟩, w₄, hindex⟩ := ensureOldIdIndex_returns ho fresh w₃
              rw [hget] at hrun
              dsimp only at hrun
              rw [bind_run_of_eq hindex] at hrun
              obtain rfl := Option.some.inj (Option.some.inj (Prod.mk.inj hrun).1)
              rw [hfresh, hname, hcreated created rfl]
      · rw [bind_run_of_eq (createCollection_taken ho (by simpa using hfree) _)] at hrun
        cases hrun

end Runs

/-! ### Delivery -/

/-- **What is delivered.** Whatever collection calls fail, if `ensureCollection` returns, then the
collection has every field it had before, and a desired field is in it with its type exactly if it
was before, or no field of its name was and its update is answered. -/
theorem ensureCollection_delivers (o : Oracle) (ho : o.Uninterrupted) (plan : TablePlan)
    (collectionsByName : String → Option Collection) (w : World)
    (hcurrent : Current collectionsByName plan w) (c : Collection) (w' : World)
    (hrun : ensureCollection o plan collectionsByName w = (some (some c), w')) :
    (∀ existing, collectionsByName plan.pbCollection = some existing →
      existing.fields ⊆ c.fields) ∧
    ∀ f ∈ buildDesiredFields plan collectionsByName,
      (∃ g ∈ c.fields, g.name = f.name ∧ g.type = f.type) ↔
        (∃ g ∈ fieldsBefore o w.pb.server plan collectionsByName,
          g.name = f.name ∧ g.type = f.type) ∨
        (∀ g ∈ fieldsBefore o w.pb.server plan collectionsByName, g.name ≠ f.name) ∧
          (o (.updateFields plan.pbCollection) = .ok ∨
            o (.addField plan.pbCollection f.name) = .ok) := by
  rw [ensureCollection_fields ho hcurrent hrun]
  refine ⟨fun existing hexisting => ?_, fun f hf => syncedFields_delivers hf⟩
  rw [fieldsBefore, hexisting]
  exact List.subset_append_left _ _

/-- A returned collection has every desired field with its type, and every field it had before. -/
def Delivers (o : Oracle) (plan : TablePlan) (collectionsByName : String → Option Collection)
    (w : World) : Prop :=
  ∀ c w', ensureCollection o plan collectionsByName w = (some (some c), w') →
    (∀ f ∈ buildDesiredFields plan collectionsByName,
      ∃ g ∈ c.fields, g.name = f.name ∧ g.type = f.type) ∧
    ∀ existing, collectionsByName plan.pbCollection = some existing → existing.fields ⊆ c.fields

/-- A desired field among the names and types of the collection that is returned. -/
theorem Delivers.mem {o : Oracle} {plan : TablePlan}
    {collectionsByName : String → Option Collection} {w : World}
    (h : Delivers o plan collectionsByName w) (fields : List (String × PbType))
    (x : String × PbType)
    (hrun : (ensureCollection o plan collectionsByName w).1.map
      (Option.map fun c => c.fields.map fun g => (g.name, g.type)) = some (some fields))
    (hx : x ∈ (buildDesiredFields plan collectionsByName).map fun f => (f.name, f.type)) :
    x ∈ fields := by
  obtain ⟨f, hf, rfl⟩ := List.mem_map.mp hx
  rcases he : ensureCollection o plan collectionsByName w with ⟨- | - | c, w'⟩
  · rw [he] at hrun
    cases hrun
  · rw [he] at hrun
    cases hrun
  · rw [he] at hrun
    obtain rfl := Option.some.inj (Option.some.inj hrun)
    obtain ⟨g, hg, hname, htype⟩ := (h c w' he).1 f hf
    exact List.mem_map.mpr ⟨g, hg, by rw [hname, htype]⟩

section Example

attribute [local instance] asciiLetterCase

/-- A new PocketBase has no collections. -/
theorem installed_free (name : String) :
    ∀ c ∈ (PocketBase.installed schemaServer).collections, c.name ≠ name :=
  fun _ h => absurd h List.not_mem_nil

/-- The collections of the users and of the notes, from a time when the owner of a note was a
text. -/
def oldNotes : World :=
  let oldId : Field := ⟨"old_id", .text, true, none⟩
  let pb := (PocketBase.installed schemaServer).addCollection "users" [oldId]
    (installed_free "users")
  ⟨pb.addCollection "notes" [oldId, ⟨"owner", .text, false, none⟩] (by decide), fun _ _ => none⟩

/-- The collections of the older schema by name. -/
def oldNotesByName : String → Option Collection :=
  indexOf (fun c => some c.name) id oldNotes.pb.collections

/-- The calls that add fields to a collection: all the missing ones at once, or one of them. -/
def addsFields : Call → Bool
  | .updateFields _ => true
  | .addField _ _ => true
  | _ => false

/-- The update of all missing fields. -/
def isBulkUpdate : Call → Bool
  | .updateFields _ => true
  | _ => false

/-- The notes of an earlier run have the fields of their plan. -/
theorem current_oldNotes :
    Current oldNotesByName (notesTable "notes" (by decide)) oldNotes := by
  intro c hc
  obtain ⟨c', hc', hname, rfl⟩ := exists_of_indexOf_eq_some hc
  exact ⟨hc', Option.some.inj hname⟩

/-- The old notes, when the update of all missing fields fails: the fields are added one by one, and
the owner stays a text. -/
theorem ensureCollection_delivers_notes :
    ∃ c w', ensureCollection (failing isBulkUpdate) (notesTable "notes" (by decide))
        oldNotesByName oldNotes = (some (some c), w') ∧
      (∃ g ∈ c.fields, g.name = "owner_old" ∧ g.type = .text) ∧
      ¬ ∃ g ∈ c.fields, g.name = "owner" ∧ g.type = .relation := by
  have hreturned : (ensureCollection (failing isBulkUpdate) (notesTable "notes" (by decide))
      oldNotesByName oldNotes).1.map Option.isSome = some true := by decide +kernel
  rcases hrun : ensureCollection (failing isBulkUpdate) (notesTable "notes" (by decide))
      oldNotesByName oldNotes with ⟨- | - | c, w'⟩
  · rw [hrun] at hreturned
    cases hreturned
  · rw [hrun] at hreturned
    cases hreturned
  · obtain ⟨-, hfields⟩ := ensureCollection_delivers (failing isBulkUpdate)
      (failing_uninterrupted _) (notesTable "notes" (by decide)) oldNotesByName oldNotes
      current_oldNotes c w' hrun
    refine ⟨c, w', rfl, (hfields ⟨"owner_old", .text, false, none⟩ (by decide +kernel)).mpr ?_,
      fun h => ?_⟩
    · decide +kernel
    · have howner := (hfields ⟨"owner", .relation, false, some 0⟩ (by decide +kernel)).mp h
      revert howner
      decide +kernel

/-- **Fields that are not delivered.** The owner of a note is to be a relation to the users, but
stays the text it has been, with every call answered. And where the calls that add fields fail, the
author is missing from the collection that is returned. -/
theorem not_delivers :
    Current oldNotesByName (notesTable "notes" (by decide)) oldNotes ∧
      ¬ Delivers allOk (notesTable "notes" (by decide)) oldNotesByName oldNotes ∧
      ¬ Delivers (failing addsFields) (notesTable "notes" (by decide)) oldNotesByName oldNotes := by
  refine ⟨current_oldNotes, fun h => ?_, fun h => ?_⟩
  · have howner := h.mem [("old_id", .text), ("owner", .text), ("author", .relation),
      ("author_old", .text), ("user_id", .relation), ("user_id_old", .text), ("owner_old", .text)]
      ("owner", .relation) (by decide +kernel) (by decide +kernel)
    simp at howner
  · have hauthor := h.mem [("old_id", .text), ("owner", .text)] ("author", .relation)
      (by decide +kernel) (by decide +kernel)
    simp at hauthor

end Example

end Mogo
