import Mogo.Pass1

/-!
# The Second Pass

For one table, the second pass reads the records page by page. Where the temporary field of a
foreign-key column still holds a key, it looks the key up among the old ids of the referenced
collection and, if it is there, sets the relation and empties the temporary field. The maps of old
ids are built when they are first needed and kept for the rest of the table.

What a patch says is a pure function of the record and of the maps (`patchFrom`).

## Main results

* `patchFrom_get?`: what a patch says about a column.
* `resolveColumns_spec`: the column loop computes the patch, from maps it may have to build.
* `resolveRelationsPass2_rule`: the rule for invariants of the second pass.
* `resolvePages_fuel`: the page loop ends by itself, within its budget.
-/

namespace Mogo

open Script

variable [LetterCase]

/-! ### Patches -/

/-- A column of `fkColumns`: a foreign-key column with a temporary field. -/
structure RelationColumn where
  pbField : String
  fkTempField : String
  referencedTable : String
  deriving DecidableEq, Repr

/-- The fields a patch may set for a column. -/
def RelationColumn.names (col : RelationColumn) : List String := [col.pbField, col.fkTempField]

/-- A planned column as a relation column. -/
def relationColumn? (col : ColumnPlan) : Option RelationColumn :=
  match col.isForeignKey, col.fkTempField, col.fk with
  | true, some temp, some fk => some ⟨col.pbField, temp, fk.references.table⟩
  | _, _, _ => none

/-- `fkColumns`: the columns of the table that are foreign keys with a field for the old value. -/
def fkColumns (plan : TablePlan) : List RelationColumn :=
  plan.columnPlans.filterMap relationColumn?

/-- The maps of old ids, by referenced table. -/
abbrev RelationMaps := String → Option (String → Option RecordId)

/-- The record a column of `record` resolves to: `none` where the temporary field is blank, the
map is missing, or the key is not in it. -/
def resolvedId (maps : RelationMaps) (record : Record) (col : RelationColumn) :
    Option RecordId :=
  if (record.fields col.fkTempField).isBlank then none
  else
    (maps col.referencedTable).bind fun targetMap =>
      (normalizeOldId (some (record.fields col.fkTempField).toValue)).bind targetMap

/-- `patch[col.pbField] = resolvedId; patch[col.fkTempField] = null`. -/
def setRelation (patch : Payload) (col : RelationColumn) : Option RecordId → Payload
  | none => patch
  | some id => (patch.set col.pbField (.relation id)).set col.fkTempField .empty

/-- The patch of a record, from the maps. -/
def patchFrom (maps : RelationMaps) (record : Record) (cols : List RelationColumn)
    (patch : Payload) : Payload :=
  cols.foldl (fun patch col => setRelation patch col (resolvedId maps record col)) patch

/-! ### The pass -/

section Defs

variable (o : Oracle) (cfg : Config) (m : MigrationPlan) (plan : TablePlan)

/-- `getRelationMap`, with the maps built so far. -/
def getRelationMap (referencedTable : String) (relationMaps : RelationMaps) :
    Script World (Option (String → Option RecordId) × RelationMaps) :=
  match relationMaps referencedTable with
  | some map => pure (some map, relationMaps)
  | none =>
    match m.plansByTable referencedTable with
    | none => pure (none, relationMaps)
    | some referencedPlan => do
        let map ← buildOldIdToPocketIdMap o cfg plan.table referencedPlan.pbCollection
          ("PASS2/" ++ referencedPlan.pbCollection)
        pure (some map, Function.update relationMaps referencedTable (some map))

/-- The body of the column loop of `resolveRelationsPass2`. -/
def resolveColumn (record : Record) (col : RelationColumn) (s : Payload × RelationMaps) :
    Script World (Payload × RelationMaps) :=
  let oldRef := record.fields col.fkTempField
  if oldRef.isBlank then pure s
  else
    match m.plansByTable col.referencedTable with
    | none => pure s
    | some _ => do
        let (targetMap, relationMaps) ← getRelationMap o cfg m plan col.referencedTable s.2
        match targetMap with
        | none => pure (s.1, relationMaps)
        | some targetMap =>
          let resolved := (normalizeOldId (some oldRef.toValue)).bind targetMap
          pure (setRelation s.1 col resolved, relationMaps)

/-- The body of the record loop of `resolveRelationsPass2`. -/
def resolveRecord (record : Record) (relationMaps : RelationMaps) : Script World RelationMaps := do
  let (patch, relationMaps) ←
    forEach (fkColumns plan) ([], relationMaps) (resolveColumn o cfg m plan record)
  if patch = [] then pure relationMaps
  else
    let _ ← call (o (.patchRecord plan.table record.id))
      (World.update plan.pbCollection record.id patch)
    pure relationMaps

/-- The page loop of `resolveRelationsPass2`. -/
def resolvePages : (fuel : ℕ) → (p : ℕ) → RelationMaps → Script World Unit
  | 0, _, _ => pure ()
  | fuel + 1, p, relationMaps => do
      match ← call (o (.listRecords plan.table p))
          (World.getList plan.pbCollection cfg.pageSize p) with
      | none => pure ()
      | some list =>
        let relationMaps ← forEach list.items relationMaps (resolveRecord o cfg m plan)
        if list.totalPages ≤ p then pure ()
        else resolvePages fuel (p + 1) relationMaps

/-- `resolveRelationsPass2`: the relations of one table, page by page; a table without foreign keys
is skipped. -/
def resolveRelationsPass2 : Script World Unit :=
  if fkColumns plan = [] then pure ()
  else
    withState fun w =>
      resolvePages o cfg m plan
        (max 1 (totalPages cfg.pageSize (w.records plan.pbCollection).length)) 1 fun _ => none

end Defs

/-! ### What a patch says -/

section Patches

omit [LetterCase]

/-- A planned column that is a relation column. -/
theorem relationColumn?_eq_some {plan : TablePlan} {col : ColumnPlan}
    (hcol : col ∈ plan.columnPlans) {rel : RelationColumn} :
    relationColumn? col = some rel ↔
      ∃ fk, col.fk = some fk ∧ col.fkTempField = some rel.fkTempField ∧
        rel.pbField = col.pbField ∧ rel.referencedTable = fk.references.table := by
  have hflag := plan.isForeignKey_eq col hcol
  have htemp := plan.fkTempField_isSome col hcol
  rw [relationColumn?]
  cases hfk : col.fk with
  | none =>
      rw [hfk] at hflag
      rw [hflag]
      simp
  | some fk =>
      rw [hfk] at hflag htemp
      obtain ⟨temp, ht⟩ := Option.isSome_iff_exists.mp htemp
      rw [hflag, ht]
      obtain ⟨f, t, r⟩ := rel
      simp only [Option.isSome_some, Option.some.injEq, RelationColumn.mk.injEq]
      constructor
      · rintro ⟨rfl, rfl, rfl⟩
        exact ⟨fk, rfl, rfl, rfl, rfl⟩
      · rintro ⟨fk', rfl, rfl, rfl, rfl⟩
        exact ⟨rfl, rfl, rfl⟩

/-- The fields of a relation column are the fields of its column. -/
theorem names_of_relationColumn? {plan : TablePlan} {col : ColumnPlan}
    (hcol : col ∈ plan.columnPlans) {rel : RelationColumn} (h : relationColumn? col = some rel) :
    rel.names = col.fieldNames := by
  obtain ⟨fk, -, ht, hf, -⟩ := (relationColumn?_eq_some hcol).mp h
  rw [RelationColumn.names, ColumnPlan.fieldNames, ht, hf, Option.toList_some]

/-- No field is set for two relation columns. -/
theorem fkColumns_names_nodup (plan : TablePlan) :
    ((fkColumns plan).flatMap RelationColumn.names).Nodup := by
  have hsub : ∀ cols : List ColumnPlan, (∀ col ∈ cols, col ∈ plan.columnPlans) →
      ((cols.filterMap relationColumn?).flatMap RelationColumn.names).Sublist
        (cols.flatMap ColumnPlan.fieldNames) := by
    intro cols
    induction cols with
    | nil => exact fun _ => List.Sublist.refl _
    | cons col cols ih =>
        intro hmem
        have hrest := ih fun c hc => hmem c (List.mem_cons_of_mem col hc)
        cases hrel : relationColumn? col with
        | none =>
            rw [List.filterMap_cons_none hrel, List.flatMap_cons]
            exact hrest.trans (List.sublist_append_right _ _)
        | some rel =>
            rw [List.filterMap_cons_some hrel, List.flatMap_cons, List.flatMap_cons,
              names_of_relationColumn? (hmem col List.mem_cons_self) hrel]
            exact (List.Sublist.refl _).append hrest
  exact (hsub plan.columnPlans fun _ h => h).nodup (List.nodup_cons.mp plan.names_nodup).2

/-- The fields of a relation column are fields of the plan, and none is `old_id`. -/
theorem fkColumns_names_mem {plan : TablePlan} {rel : RelationColumn} (h : rel ∈ fkColumns plan)
    {n : String} (hn : n ∈ rel.names) : n ∈ plan.fieldNames ∧ n ≠ "old_id" := by
  obtain ⟨col, hcol, hrel⟩ := List.mem_filterMap.mp h
  rw [names_of_relationColumn? hcol hrel] at hn
  refine ⟨List.mem_cons_of_mem _ (List.mem_flatMap.mpr ⟨col, hcol, hn⟩), ?_⟩
  rintro rfl
  exact TablePlan.old_id_notMem hcol hn

/-- The two fields of a relation column are different. -/
theorem pbField_ne_fkTempField {plan : TablePlan} {rel : RelationColumn}
    (h : rel ∈ fkColumns plan) : rel.pbField ≠ rel.fkTempField := by
  obtain ⟨col, hcol, hrel⟩ := List.mem_filterMap.mp h
  obtain ⟨fk, -, ht, hf, -⟩ := (relationColumn?_eq_some hcol).mp hrel
  rw [hf]
  exact TablePlan.pbField_ne_temp hcol ht

/-- Setting a relation changes no field but its own. -/
theorem setRelation_of_notMem {col : RelationColumn} {n : String} (h : n ∉ col.names)
    (p : Payload) (id : Option RecordId) : (setRelation p col id).get? n = p.get? n := by
  rw [RelationColumn.names, List.mem_cons, not_or, List.mem_singleton] at h
  cases id with
  | none => rfl
  | some id => rw [setRelation, Payload.get?_set, if_neg h.2, Payload.get?_set, if_neg h.1]

end Patches

variable {maps : RelationMaps} {record : Record} {plan : TablePlan}

/-- A patch says nothing about other fields. -/
theorem patchFrom_of_notMem {n : String} (h : n ∉ (fkColumns plan).flatMap RelationColumn.names)
    (p : Payload) : (patchFrom maps record (fkColumns plan) p).get? n = p.get? n :=
  Payload.foldl_of_notMem (fun p _ _ h => setRelation_of_notMem h p _) h p

variable (maps record) in
/-- **What a patch says.** A column that resolves gets the relation and an empty temporary field;
the others are not mentioned. -/
theorem patchFrom_get? {col : RelationColumn} (hcol : col ∈ fkColumns plan) :
    (patchFrom maps record (fkColumns plan) []).get? col.pbField =
        (resolvedId maps record col).map .relation ∧
      (patchFrom maps record (fkColumns plan) []).get? col.fkTempField =
        (resolvedId maps record col).map fun _ => .empty := by
  have hne := pbField_ne_fkTempField hcol
  have hfold : ∀ n ∈ col.names, ∃ q : Payload, q.get? n = none ∧
      (patchFrom maps record (fkColumns plan) []).get? n =
        (setRelation q col (resolvedId maps record col)).get? n := fun n hn =>
    Payload.foldl_of_mem (fun p _ _ h => setRelation_of_notMem h p _)
      (fkColumns_names_nodup plan) hcol hn []
  obtain ⟨q, hq, hfield⟩ := hfold col.pbField List.mem_cons_self
  obtain ⟨q', hq', htemp⟩ :=
    hfold col.fkTempField (List.mem_cons_of_mem _ List.mem_cons_self)
  rw [hfield, htemp]
  cases resolvedId maps record col with
  | none => exact ⟨hq, hq'⟩
  | some id =>
      rw [setRelation, setRelation, Payload.get?_set_of_ne _ hne, Payload.get?_set_self,
        Payload.get?_set_self]
      exact ⟨rfl, rfl⟩

/-- A column whose temporary field holds a normalised value resolves to the record that the map has
for it. -/
theorem resolvedId_of_temp {col : RelationColumn} {x : Option Value}
    (h : record.fields col.fkTempField = .ofValue (oldIdValue (normalizeOldId x))) :
    resolvedId maps record col =
      (normalizeOldId x).bind fun k => (maps col.referencedTable).bind fun map => map k := by
  rw [resolvedId, h]
  cases hx : normalizeOldId x with
  | none => rfl
  | some k =>
      have hblank : (Cell.ofValue (oldIdValue (some k))).isBlank = false :=
        decide_eq_false (ne_empty_of_normalizeOldId hx)
      have hk : normalizeOldId (some (Cell.ofValue (oldIdValue (some k))).toValue) = some k :=
        normalizeOldId_normalized hx
      rw [if_neg (Bool.not_eq_true _ ▸ hblank), hk]
      rfl

/-! ### The column loop -/

section Columns

variable {o : Oracle} {cfg : Config} {m : MigrationPlan} {w₀ : World}
  {K : String → (String → Option RecordId) → Prop} {C : World → Prop}

/-- What is known of a cache of maps: a cached map is one of `K`, and its table is planned. -/
def CacheOk (m : MigrationPlan) (K : String → (String → Option RecordId) → Prop)
    (maps : RelationMaps) : Prop :=
  ∀ t map, maps t = some map → K t map ∧ (m.plansByTable t).isSome = true

/-- A cache has grown: what was cached still is. -/
def CacheGrown (maps maps' : RelationMaps) : Prop :=
  ∀ t map, maps t = some map → maps' t = some map

/-- The map a column needs is cached. -/
def Cached (m : MigrationPlan) (record : Record) (maps : RelationMaps) (col : RelationColumn) :
    Prop :=
  (record.fields col.fkTempField).isBlank = false →
    (m.plansByTable col.referencedTable).isSome = true →
      (maps col.referencedTable).isSome = true

omit [LetterCase] in
/-- A cache that has grown twice has grown. -/
theorem CacheGrown.trans {maps₁ maps₂ maps₃ : RelationMaps} (h₁ : CacheGrown maps₁ maps₂)
    (h₂ : CacheGrown maps₂ maps₃) : CacheGrown maps₁ maps₃ :=
  fun t map h => h₂ t map (h₁ t map h)

omit [LetterCase] in
/-- What is cached for a column stays cached when the cache grows. -/
theorem Cached.mono {maps' : RelationMaps} {col : RelationColumn}
    (h : Cached m record maps col) (hgrown : CacheGrown maps maps') :
    Cached m record maps' col := by
  intro hblank hplan
  obtain ⟨map, hmap⟩ := Option.isSome_iff_exists.mp (h hblank hplan)
  rw [hgrown _ map hmap]
  rfl

/-- A column resolves the same way in a larger cache, once its map is there. -/
theorem resolvedId_of_grown {maps' : RelationMaps} {col : RelationColumn}
    (hcached : Cached m record maps col) (hgrown : CacheGrown maps maps')
    (hok : CacheOk m K maps') : resolvedId maps record col = resolvedId maps' record col := by
  rw [resolvedId, resolvedId]
  cases hblank : (record.fields col.fkTempField).isBlank with
  | true => rfl
  | false =>
      have hsame : maps col.referencedTable = maps' col.referencedTable := by
        cases hmap : maps col.referencedTable with
        | some map => exact (hgrown _ map hmap).symm
        | none =>
            refine (Option.not_isSome_iff_eq_none.mp fun hsome => ?_).symm
            obtain ⟨map', hmap'⟩ := Option.isSome_iff_exists.mp hsome
            have hsome' := hcached hblank (hok _ map' hmap').2
            rw [hmap] at hsome'
            exact absurd hsome' (by simp)
      rw [hsame]

/-- The maps that are built in the world `w₀` are those of `K`. -/
def Builds (o : Oracle) (cfg : Config) (m : MigrationPlan) (plan : TablePlan) (w₀ : World)
    (K : String → (String → Option RecordId) → Prop) (C : World → Prop) : Prop :=
  ∀ t q, m.plansByTable t = some q → Triple (fun w => w = w₀)
    (buildOldIdToPocketIdMap o cfg plan.table q.pbCollection ("PASS2/" ++ q.pbCollection))
    (fun map w => w = w₀ ∧ K t map) C

/-- `getRelationMap` answers from the cache, and caches what it has to build. -/
theorem getRelationMap_spec (hbuild : Builds o cfg m plan w₀ K C) (hok : CacheOk m K maps)
    (t : String) :
    Triple (fun w => w = w₀) (getRelationMap o cfg m plan t maps)
      (fun s w => w = w₀ ∧ s.1 = s.2 t ∧ CacheGrown maps s.2 ∧ CacheOk m K s.2 ∧
        ((m.plansByTable t).isSome = true → (s.2 t).isSome = true))
      C := by
  rw [getRelationMap]
  cases hmap : maps t with
  | some map =>
      refine Triple.pure fun w hw => ⟨hw, hmap.symm, fun _ _ h => h, hok, fun _ => ?_⟩
      exact Option.isSome_iff_exists.mpr ⟨map, hmap⟩
  | none =>
      dsimp only
      cases hplan : m.plansByTable t with
      | none => exact Triple.pure fun w hw => ⟨hw, hmap.symm, fun _ _ h => h, hok, by simp⟩
      | some q =>
          refine (hbuild t q hplan).bind fun map => ?_
          refine Triple.pure fun w ⟨hw, hK⟩ => ⟨hw, ?_, ?_, ?_, fun _ => ?_⟩
          · exact (Function.update_self t (some map) maps).symm
          · intro t' map' h
            have hne : t' ≠ t := by
              rintro rfl
              rw [hmap] at h
              exact absurd h (by simp)
            exact (Function.update_of_ne hne ..).trans h
          · intro t' map' h
            dsimp only at h
            by_cases ht : t' = t
            · subst ht
              rw [Function.update_self] at h
              rw [← Option.some.inj h, hplan]
              exact ⟨hK, rfl⟩
            · rw [Function.update_of_ne ht] at h
              exact hok t' map' h
          · exact Option.isSome_iff_exists.mpr ⟨map, Function.update_self t (some map) maps⟩

variable (record) in
/-- One column: the patch gets what the column resolves to in the cache. -/
theorem resolveColumn_spec (hbuild : Builds o cfg m plan w₀ K C) {s : Payload × RelationMaps}
    (hok : CacheOk m K s.2) (col : RelationColumn) :
    Triple (fun w => w = w₀) (resolveColumn o cfg m plan record col s)
      (fun s' w => w = w₀ ∧ CacheGrown s.2 s'.2 ∧ CacheOk m K s'.2 ∧ Cached m record s'.2 col ∧
        s'.1 = setRelation s.1 col (resolvedId s'.2 record col))
      C := by
  rw [resolveColumn]
  cases hblank : (record.fields col.fkTempField).isBlank with
  | true =>
      refine Triple.pure fun w hw => ⟨hw, fun _ _ h => h, hok, ?_, ?_⟩
      · exact fun h => absurd (hblank.symm.trans h) (by simp)
      · rw [resolvedId, if_pos hblank]
        rfl
  | false =>
      rw [if_neg Bool.false_ne_true]
      cases hplan : m.plansByTable col.referencedTable with
      | none =>
          refine Triple.pure fun w hw => ⟨hw, fun _ _ h => h, hok, ?_, ?_⟩
          · exact fun _ h => absurd (hplan ▸ h) (by simp)
          · have hnone : s.2 col.referencedTable = none := by
              refine Option.not_isSome_iff_eq_none.mp fun hsome => ?_
              obtain ⟨map, hmap⟩ := Option.isSome_iff_exists.mp hsome
              have hsome' := (hok _ map hmap).2
              rw [hplan] at hsome'
              exact absurd hsome' (by simp)
            rw [resolvedId, hnone, Option.bind_none, ite_self]
            rfl
      | some q =>
          refine (getRelationMap_spec hbuild hok col.referencedTable).bind ?_
          rintro ⟨targetMap, maps'⟩ w ⟨hw, htarget, hgrown, hok', hcached⟩
          dsimp only at htarget hgrown hok' hcached ⊢
          have hcached' : Cached m record maps' col := fun _ => hcached
          cases htm : targetMap with
          | none =>
              rw [htm] at htarget
              have hsome := hcached (by rw [hplan]; rfl)
              rw [← htarget] at hsome
              exact absurd hsome (by simp)
          | some map =>
              rw [htm] at htarget
              refine ⟨hw, hgrown, hok', hcached', ?_⟩
              dsimp only
              rw [resolvedId, hblank, if_neg Bool.false_ne_true, ← htarget, Option.bind_some]

variable (record) in
/-- **The column loop** computes the patch of the record from the cache it ends with. -/
theorem resolveColumns_spec (hbuild : Builds o cfg m plan w₀ K C) {s : Payload × RelationMaps}
    (hok : CacheOk m K s.2) (cols : List RelationColumn) :
    Triple (fun w => w = w₀) (forEach cols s (resolveColumn o cfg m plan record))
      (fun s' w => w = w₀ ∧ CacheGrown s.2 s'.2 ∧ CacheOk m K s'.2 ∧
        (∀ col ∈ cols, Cached m record s'.2 col) ∧ s'.1 = patchFrom s'.2 record cols s.1)
      C := by
  induction cols generalizing s with
  | nil => exact Triple.pure fun w hw => ⟨hw, fun _ _ h => h, hok, by simp, rfl⟩
  | cons col cols ih =>
      refine (resolveColumn_spec record hbuild hok col).bind fun s₁ => ?_
      rintro w ⟨hw, hgrown₁, hok₁, hcached₁, hpatch₁⟩
      refine (ih hok₁).weaken (fun s' w' => ?_) w hw
      rintro ⟨hw', hgrown, hok', hcached, hpatch⟩
      refine ⟨hw', hgrown₁.trans hgrown, hok', ?_, ?_⟩
      · intro c hc
        cases hc with
        | head => exact hcached₁.mono hgrown
        | tail _ hc => exact hcached c hc
      · rw [hpatch, hpatch₁, resolvedId_of_grown hcached₁ hgrown hok']
        rfl

end Columns

/-! ### Patched records -/

/-- A payload that says nothing about `old_id` leaves the key alone. -/
theorem Record.key_write {p : Payload} (h : p.get? "old_id" = none) (r : Record) :
    (r.write p).key = r.key := by
  rw [Record.key, Record.key, Record.write_fields_of_none h]

/-- A patch says nothing about `old_id`. -/
theorem patchFrom_old_id (maps : RelationMaps) (record : Record) (plan : TablePlan) :
    (patchFrom maps record (fkColumns plan) []).get? "old_id" = none := by
  refine (patchFrom_of_notMem (fun h => ?_) []).trans (Payload.get?_nil "old_id")
  obtain ⟨rel, hrel, hn⟩ := List.mem_flatMap.mp h
  exact (fkColumns_names_mem hrel hn).2 rfl

/-- The identities and keys of the records of a collection. -/
def World.idKeys (name : String) (w : World) : List (RecordId × Option String) :=
  (w.records name).map fun r => (r.id, r.key)

/-- An edit that keeps the key of the record it edits changes no identity and no key. -/
theorem World.editRecord_idKeys_of_key {p : Payload} {name : String} {id : RecordId} {w : World}
    (h : ∀ r ∈ w.records name, r.id = id → (r.write (w.pb.accepted name p)).key = r.key)
    (n : String) : (w.editRecord name id p).idKeys n = w.idKeys n := by
  rw [World.idKeys, World.idKeys]
  by_cases hn : n = name
  · subst hn
    rw [World.editRecord_records_self]
    exact map_modifyAt fun r hr hid => by rw [Record.write_id, h r hr hid]
  · rw [World.editRecord_records_of_ne hn]

/-- A payload that says nothing about `old_id` changes no identity and no key. -/
theorem World.editRecord_idKeys {p : Payload} (h : p.get? "old_id" = none) (name : String)
    (id : RecordId) (w : World) (n : String) :
    (w.editRecord name id p).idKeys n = w.idKeys n := by
  refine World.editRecord_idKeys_of_key (fun r _ _ => Record.key_write ?_ r) n
  rw [PocketBase.accepted_get?, h, ite_self]

/-- A map stays true as long as identities and keys do. -/
theorem MapOf.congr {name : String} {map : String → Option RecordId} {w w' : World}
    (h : MapOf name map w) (hsame : w'.idKeys name = w.idKeys name) : MapOf name map w' := by
  intro k id hk
  obtain ⟨r, hr, hid, hkey⟩ := h k id hk
  have hmem : (r.id, r.key) ∈ w'.idKeys name := by
    rw [hsame]
    exact List.mem_map_of_mem hr
  obtain ⟨r', hr', hpair⟩ := List.mem_map.mp hmem
  obtain ⟨hid', hkey'⟩ := Prod.mk.inj hpair
  exact ⟨r', hr', hid'.trans hid, hkey'.trans hkey⟩

/-- The maps of a cache are true of the collections they were built for. -/
def MapsOf (m : MigrationPlan) (maps : RelationMaps) (w : World) : Prop :=
  CacheOk m (fun t map => ∃ q, m.plansByTable t = some q ∧ MapOf q.pbCollection map w) maps

/-- The maps of a plan depend on ids and row keys alone. -/
theorem MapsOf.congr {m : MigrationPlan} {w w' : World} (h : MapsOf m maps w)
    (hsame : ∀ n, w'.idKeys n = w.idKeys n) : MapsOf m maps w' := by
  intro t map ht
  obtain ⟨⟨q, hq, hmap⟩, hplan⟩ := h t map ht
  exact ⟨⟨q, hq, hmap.congr (hsame q.pbCollection)⟩, hplan⟩

/-! ### Invariants of the pass -/

section Rule

variable {o : Oracle} {cfg : Config} {m : MigrationPlan} {I C : World → Prop}

/-- The maps that the second pass builds from the listing are true of the world it starts in. -/
theorem builds_mapOf (w₀ : World) : Builds o cfg m plan w₀
    (fun t map => ∃ q, m.plansByTable t = some q ∧ MapOf q.pbCollection map w₀)
    (fun w => w = w₀) := fun _ q hq =>
  (buildOldIdToPocketIdMap_spec o cfg plan.table q.pbCollection _ w₀).weaken
    fun _ _ h => ⟨h.1, q, hq, h.2⟩

variable
  (hstep : ∀ w record maps, I w → record ∈ w.records plan.pbCollection → MapsOf m maps w →
    I (w.editRecord plan.pbCollection record.id (patchFrom maps record (fkColumns plan) [])))
  (hIC : ∀ w, I w → C w)
include hstep hIC

/-- **One record.** The step keeps the invariant, the cache stays true, and the other records stay
as they are. -/
theorem resolveRecord_rule {record : Record} {w₀ : World} (hI : I w₀)
    (hrecord : record ∈ w₀.records plan.pbCollection) (hmaps : MapsOf m maps w₀) :
    Triple (fun w => w = w₀) (resolveRecord o cfg m plan record maps)
      (fun maps' w => I w ∧ MapsOf m maps' w ∧ ∀ r ∈ w₀.records plan.pbCollection,
        r.id ≠ record.id → r ∈ w.records plan.pbCollection) C := by
  rw [resolveRecord]
  refine ((resolveColumns_spec record (s := ([], maps)) (builds_mapOf w₀) hmaps
    (fkColumns plan)).consequence
    (fun w hw => hw) (fun _ _ h => h) fun w hw => hw ▸ hIC w₀ hI).bind ?_
  rintro ⟨patch, maps'⟩ w ⟨rfl, -, hmaps', -, hpatch⟩
  have hmaps' : MapsOf m maps' w := hmaps'
  dsimp only at hpatch ⊢
  by_cases hnil : patch = []
  · rw [if_pos hnil]
    exact ⟨hI, hmaps', fun r hr _ => hr⟩
  · rw [if_neg hnil]
    refine Triple.bind (P := fun w' => w' = w) (Q := fun _ w' => I w' ∧ MapsOf m maps' w' ∧
      ∀ r ∈ w.records plan.pbCollection, r.id ≠ record.id →
        r ∈ w'.records plan.pbCollection)
      (Triple.call ?_ ?_ ?_) (fun _ => Triple.pure fun _ h => h) w rfl
    · rintro w₁ u w₂ rfl h
      rw [World.update] at h
      split at h
      · obtain ⟨-, rfl⟩ := Prod.mk.inj (Option.some.inj h)
        rw [hpatch]
        refine ⟨hstep w₁ record maps' hI hrecord hmaps', hmaps'.congr fun n =>
          World.editRecord_idKeys (patchFrom_old_id _ _ _) .., fun r hr hne => ?_⟩
        rw [World.editRecord_records_self]
        exact mem_modifyAt.mpr (Or.inl ⟨hr, hne⟩)
      · exact absurd h (by simp)
    · rintro w₁ rfl
      exact ⟨hI, hmaps', fun r hr _ => hr⟩
    · rintro w₁ rfl
      exact hIC w₁ hI

/-- **A page of records.** When the loop comes to a record of the page, that record is still as it
was when the page was read. -/
theorem resolveRecords_rule (items : List Record) (hnodup : (items.map Record.id).Nodup) :
    Triple (fun w => I w ∧ MapsOf m maps w ∧ ∀ r ∈ items, r ∈ w.records plan.pbCollection)
      (forEach items maps (resolveRecord o cfg m plan))
      (fun maps' w => I w ∧ MapsOf m maps' w) C := by
  induction items generalizing maps with
  | nil => exact Triple.pure fun w hw => ⟨hw.1, hw.2.1⟩
  | cons record items ih =>
      obtain ⟨hnotin, hnodup⟩ := List.nodup_cons.mp hnodup
      intro w₀ hw₀
      obtain ⟨hI, hmaps, hitems⟩ := hw₀
      refine ((resolveRecord_rule hstep hIC hI (hitems record List.mem_cons_self) hmaps).bind
        fun maps' => (ih hnodup).consequence ?_ (fun _ _ h => h) fun _ h => h) w₀ rfl
      rintro w ⟨hI', hmaps', hothers⟩
      refine ⟨hI', hmaps', fun r hr => hothers r (hitems r (List.mem_cons_of_mem record hr)) ?_⟩
      intro he
      exact hnotin (he ▸ List.mem_map_of_mem hr)

/-- The page loop keeps what each of its patches keeps, with maps that are true all the time. -/
theorem resolvePages_rule (fuel p : ℕ) :
    Triple (fun w => I w ∧ MapsOf m maps w) (resolvePages o cfg m plan fuel p maps)
      (fun _ => I) C := by
  induction fuel generalizing p maps with
  | zero => exact Triple.pure fun w hw => hw.1
  | succ fuel ih =>
      intro w₀ hw₀
      rw [resolvePages]
      refine ((World.call_getList_spec _ plan.pbCollection cfg.pageSize p w₀).consequence
        (fun w hw => hw) (fun _ _ h => h) fun w hw => hw ▸ hIC w₀ hw₀.1).bind ?_ w₀ rfl
      rintro (- | list)
      · exact Triple.pure fun w hw => hw.1 ▸ hw₀.1
      · rintro w ⟨rfl, hlist⟩
        have hsub : list.items.Sublist (w.records plan.pbCollection) := by
          rw [hlist list rfl]
          exact page_sublist ..
        have hnodup : (list.items.map Record.id).Nodup :=
          (hsub.map Record.id).nodup (w.pb.ids_nodup plan.pbCollection)
        refine ((resolveRecords_rule hstep hIC list.items hnodup).bind fun maps' => ?_) w
          ⟨hw₀.1, hw₀.2, fun r hr => hsub.subset hr⟩
        split
        · exact Triple.pure fun w hw => hw.1
        · exact ih (p + 1)

/-- **The rule for the second pass.** What every patch computed from true maps keeps is kept by
the pass, wherever it is interrupted. -/
theorem resolveRelationsPass2_rule :
    Triple I (resolveRelationsPass2 o cfg m plan) (fun _ => I) C := by
  rw [resolveRelationsPass2]
  split
  · exact Triple.pure fun w hw => hw
  · refine Triple.withState fun w₀ => (resolvePages_rule hstep hIC _ 1).consequence ?_
      (fun _ _ h => h) fun _ h => h
    exact fun w hw => ⟨hw.2, fun t map h => absurd h (by simp)⟩

end Rule

/-- The page loop ends by itself: behind the last page a larger budget changes nothing. -/
theorem resolvePages_fuel (o : Oracle) (cfg : Config) (m : MigrationPlan) (plan : TablePlan)
    {fuel p : ℕ} {w : World} (hmaps : MapsOf m maps w)
    (h : totalPages cfg.pageSize (w.records plan.pbCollection).length ≤ p + fuel) :
    resolvePages o cfg m plan (fuel + 2) p maps w =
      resolvePages o cfg m plan (fuel + 1) p maps w := by
  induction fuel generalizing p maps w with
  | zero =>
      have hget := World.call_getList_spec (o (.listRecords plan.table p)) plan.pbCollection
        cfg.pageSize p w w rfl
      rw [resolvePages, resolvePages, bind_run, bind_run]
      rcases hrun : call (o (.listRecords plan.table p))
        (World.getList plan.pbCollection cfg.pageSize p) w with ⟨- | - | list, w₁⟩
      · rfl
      · rfl
      · rw [hrun] at hget
        rw [Nat.add_zero] at h
        simp only [hget.2 list rfl, if_pos h]
  | succ fuel ih =>
      have hget := World.call_getList_spec (o (.listRecords plan.table p)) plan.pbCollection
        cfg.pageSize p w w rfl
      rw [resolvePages, resolvePages, bind_run, bind_run]
      rcases hrun : call (o (.listRecords plan.table p))
        (World.getList plan.pbCollection cfg.pageSize p) w with ⟨- | - | list, w₁⟩
      · rfl
      · rfl
      · rw [hrun] at hget
        obtain ⟨rfl, hlist⟩ := hget
        have hsub : list.items.Sublist (w₁.records plan.pbCollection) := by
          rw [hlist list rfl]
          exact page_sublist ..
        have hloop : Triple _ (forEach list.items maps (resolveRecord o cfg m plan)) _ fun _ =>
            True :=
          resolveRecords_rule
            (I := fun w' => (w'.records plan.pbCollection).length =
              (w₁.records plan.pbCollection).length)
            (fun w' r _ hI _ _ => by rw [World.editRecord_records_self, length_modifyAt, hI])
            (fun _ _ => trivial) list.items
            ((hsub.map Record.id).nodup (w₁.pb.ids_nodup plan.pbCollection))
        dsimp only
        rw [bind_run, bind_run]
        rcases hrecords : forEach list.items maps (resolveRecord o cfg m plan) w₁
          with ⟨- | maps', w₂⟩
        · rfl
        · have hafter := hloop.of_returned ⟨rfl, hmaps, fun r hr => hsub.subset hr⟩ hrecords
          dsimp only
          by_cases hlast : list.totalPages ≤ p
          · rw [if_pos hlast, if_pos hlast]
          · rw [if_neg hlast, if_neg hlast]
            exact ih hafter.2 (by rw [hafter.1]; omega)

end Mogo
