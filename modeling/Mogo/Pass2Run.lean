import Mogo.FreshRows
import Mogo.Pass2

/-!
# Runs of the Second Pass

With every call answered, the second pass writes to each record the patch that the complete maps
of the referenced collections give, whatever the paging, although it reads the pages while it is
changing the records on them.

## Main results

* `resolveRelationsPass2_run`: the closed form of the pass.
* `resolvedRecord_of_some`, `resolvedRecord_of_none`: what it makes of a relation column.
-/

namespace Mogo

open Script

variable [LetterCase]

/-- The maps of a pass in which every call is answered. -/
def targets (m : MigrationPlan) (w : World) : RelationMaps := fun t =>
  (m.plansByTable t).map fun q => indexOf Record.key Record.id (w.records q.pbCollection)

/-- What such a pass makes of a record of a collection that accepts the fields `accepts`. -/
def resolvedRecord (maps : RelationMaps) (plan : TablePlan) (accepts : String → Bool)
    (r : Record) : Record :=
  r.write ((patchFrom maps r (fkColumns plan) []).filter fun x => accepts x.1)

/-- Only the records of one collection have changed, and none its identity or its key. -/
structure PatchStep (name : String) (w w' : World) : Prop extends RecordStep name w w' where
  idKeys : ∀ n, w'.idKeys n = w.idKeys n

namespace PatchStep

variable {name : String} {w w₁ w₂ : World}

/-- A step that does nothing is a patch step on every collection. -/
@[refl] theorem refl (name : String) (w : World) : PatchStep name w w :=
  ⟨RecordStep.refl name w, fun _ => rfl⟩

/-- Two patch steps on one collection are one patch step on it. -/
theorem trans (h₁ : PatchStep name w w₁) (h₂ : PatchStep name w₁ w₂) : PatchStep name w w₂ :=
  ⟨h₁.toRecordStep.trans h₂.toRecordStep, fun n => (h₂.idKeys n).trans (h₁.idKeys n)⟩

end PatchStep

/-- The maps depend on the identities and keys only. -/
theorem targets_congr {w w' : World} (m : MigrationPlan) (h : ∀ n, w'.idKeys n = w.idKeys n) :
    targets m w' = targets m w := by
  funext t
  rw [targets, targets]
  congr 1
  funext q
  exact indexInto_congr (h q.pbCollection) _

/-! ### What the pass makes of a record -/

section Records

variable {maps : RelationMaps} {plan : TablePlan} {accepts : String → Bool}

/-- A field the patch says nothing about stays as it is. -/
theorem resolvedRecord_of_get?_eq_none {r : Record} {n : String}
    (h : (patchFrom maps r (fkColumns plan) []).get? n = none) :
    (resolvedRecord maps plan accepts r).fields n = r.fields n := by
  refine Record.write_fields_of_none ?_ r
  rw [Payload.get?_filter, h, ite_self]

/-- Resolving the relations of a record leaves its key. -/
theorem resolvedRecord_key (r : Record) : (resolvedRecord maps plan accepts r).key = r.key := by
  rw [Record.key, Record.key, resolvedRecord_of_get?_eq_none (patchFrom_old_id maps r plan)]

/-- A field of no relation column stays as it is. -/
theorem resolvedRecord_of_notMem {n : String}
    (h : n ∉ (fkColumns plan).flatMap RelationColumn.names) (r : Record) :
    (resolvedRecord maps plan accepts r).fields n = r.fields n :=
  resolvedRecord_of_get?_eq_none ((patchFrom_of_notMem h []).trans (Payload.get?_nil n))

variable (accepts) in
/-- A column that does not resolve stays as it is. -/
theorem resolvedRecord_of_none {col : RelationColumn} (hcol : col ∈ fkColumns plan) {r : Record}
    (h : resolvedId maps r col = none) :
    (resolvedRecord maps plan accepts r).fields col.pbField = r.fields col.pbField ∧
      (resolvedRecord maps plan accepts r).fields col.fkTempField =
        r.fields col.fkTempField := by
  obtain ⟨hfield, htemp⟩ := patchFrom_get? maps r hcol
  rw [h] at hfield htemp
  exact ⟨resolvedRecord_of_get?_eq_none hfield, resolvedRecord_of_get?_eq_none htemp⟩

/-- A column that resolves gets its relation, if the collection has its fields. -/
theorem resolvedRecord_of_some {col : RelationColumn} (hcol : col ∈ fkColumns plan)
    (hacc : ∀ n ∈ col.names, accepts n = true) {r : Record} {id : RecordId}
    (h : resolvedId maps r col = some id) :
    (resolvedRecord maps plan accepts r).fields col.pbField = .relation id ∧
      (resolvedRecord maps plan accepts r).fields col.fkTempField = .empty := by
  obtain ⟨hfield, htemp⟩ := patchFrom_get? maps r hcol
  rw [h] at hfield htemp
  constructor
  · refine Record.write_fields_of_some ?_ r
    rw [Payload.get?_filter, if_pos (hacc _ List.mem_cons_self), hfield]
    rfl
  · refine Record.write_fields_of_some ?_ r
    rw [Payload.get?_filter, if_pos (hacc _ (List.mem_cons_of_mem _ List.mem_cons_self)), htemp]
    rfl

/-- Columns that resolve alike give one patch. -/
theorem patchFrom_congr {maps' : RelationMaps} {r : Record} {cols : List RelationColumn}
    (h : ∀ col ∈ cols, resolvedId maps r col = resolvedId maps' r col) (p : Payload) :
    patchFrom maps r cols p = patchFrom maps' r cols p := by
  induction cols generalizing p with
  | nil => rfl
  | cons col cols ih =>
      rw [patchFrom, patchFrom, List.foldl_cons, List.foldl_cons, h col List.mem_cons_self]
      exact ih (fun c hc => h c (List.mem_cons_of_mem col hc)) _

end Records

/-! ### The run -/

section Run

variable {cfg : Config} {m : MigrationPlan} {plan : TablePlan} {w : World}
  {accepts : String → Bool}

/-- Every planned table has its collection. -/
def Ensured (m : MigrationPlan) (w : World) : Prop :=
  ∀ q ∈ m.plans, (w.pb.collection? q.pbCollection).isSome = true

omit [LetterCase] in
/-- Collections that are ensured stay ensured as long as the schema is the same. -/
theorem Ensured.of_collections {w' : World} (h : Ensured m w)
    (hsame : w'.pb.collections = w.pb.collections) : Ensured m w' := by
  intro q hq
  rw [PocketBase.collection?, hsame]
  exact h q hq

/-- The maps a cache of a run holds are the complete ones. -/
def TargetsOf (m : MigrationPlan) (maps : RelationMaps) (w : World) : Prop :=
  CacheOk m (fun t map => targets m w t = some map) maps

/-- The targets of a plan depend on ids and row keys alone. -/
theorem TargetsOf.congr {maps : RelationMaps} {w' : World} (h : TargetsOf m maps w)
    (hsame : ∀ n, w'.idKeys n = w.idKeys n) : TargetsOf m maps w' := by
  rw [TargetsOf, targets_congr m hsame]
  exact h

variable (cfg plan) in
/-- Maps that are built with every call answered are complete. -/
theorem builds_targets (hexists : Ensured m w) :
    Builds allOk cfg m plan w (fun t map => targets m w t = some map) fun _ => False := by
  rintro t q hq w₁ rfl
  rw [buildOldIdToPocketIdMap_run allOk_uninterrupted cfg
    (hexists q (MigrationPlan.mem_of_plansByTable hq).1), readRecords_allOk]
  exact ⟨rfl, congrArg (Option.map _) hq⟩

/-- **One record** gets the patch the complete maps give. -/
theorem resolveRecord_run (hexists : Ensured m w) (hplan : plan ∈ m.plans)
    (hacc : w.pb.hasField plan.pbCollection = accepts) {record : Record}
    (hrecord : record ∈ w.records plan.pbCollection) {maps : RelationMaps}
    (hmaps : TargetsOf m maps w) :
    ∃ maps' w', resolveRecord allOk cfg m plan record maps w = (some maps', w') ∧
      PatchStep plan.pbCollection w w' ∧ TargetsOf m maps' w ∧
      w'.records plan.pbCollection = modifyAt Record.id record.id
        (fun r => r.write ((patchFrom (targets m w) record (fkColumns plan) []).filter
          fun x => accepts x.1)) (w.records plan.pbCollection) := by
  obtain ⟨⟨patch, maps'⟩, w₁, hrun, rfl, -, hmaps', hcached, hpatch⟩ :=
    (resolveColumns_spec record (s := ([], maps)) (builds_targets cfg plan hexists) hmaps
      (fkColumns plan)).returns rfl
  have hpatch : patch = patchFrom (targets m w₁) record (fkColumns plan) [] := by
    refine hpatch.trans (patchFrom_congr (fun col hcol => ?_) [])
    refine resolvedId_of_grown (hcached col hcol) (fun t map h => (hmaps' t map h).1)
      (fun t map h => ⟨h, ?_⟩)
    exact (Option.isSome_map ..).symm.trans (Option.isSome_iff_exists.mpr ⟨map, h⟩)
  rw [resolveRecord, bind_run_of_eq hrun]
  dsimp only
  by_cases hnil : patch = []
  · rw [if_pos hnil]
    refine ⟨maps', w₁, rfl, PatchStep.refl _ _, hmaps', ?_⟩
    rw [← hpatch, hnil]
    exact (modifyAt_id _ _).symm
  · have hupdate : w₁.update plan.pbCollection record.id patch =
        some ((), w₁.editRecord plan.pbCollection record.id patch) :=
      if_pos ⟨hexists plan hplan, record, hrecord, rfl⟩
    have hcall : call (allOk (.patchRecord plan.table record.id))
        (World.update plan.pbCollection record.id patch) w₁ = _ := call_ok_run hupdate
    rw [if_neg hnil, bind_run_of_eq hcall]
    refine ⟨maps', _, rfl, ⟨⟨rfl, rfl, fun n hn => World.editRecord_records_of_ne hn ..⟩, fun n =>
      World.editRecord_idKeys (hpatch ▸ patchFrom_old_id ..) ..⟩, hmaps', ?_⟩
    rw [World.editRecord_records_self, PocketBase.accepted, hpatch, hacc]

variable (cfg) in
/-- **A page of records** is resolved record by record. -/
theorem resolveRecords_run (hexists : Ensured m w) (hplan : plan ∈ m.plans)
    (hacc : w.pb.hasField plan.pbCollection = accepts) {maps : RelationMaps}
    (hmaps : TargetsOf m maps w) {done items rest : List Record}
    (hrecords : w.records plan.pbCollection = done ++ items ++ rest) :
    ∃ maps' w', forEach items maps (resolveRecord allOk cfg m plan) w = (some maps', w') ∧
      PatchStep plan.pbCollection w w' ∧ TargetsOf m maps' w' ∧
      w'.records plan.pbCollection =
        done ++ items.map (resolvedRecord (targets m w) plan accepts) ++ rest := by
  induction items generalizing done maps w with
  | nil => exact ⟨maps, w, rfl, PatchStep.refl _ w, hmaps, hrecords⟩
  | cons record items ih =>
      have hsplit : w.records plan.pbCollection = done ++ record :: (items ++ rest) := by
        rw [hrecords, List.append_assoc, List.cons_append]
      have hrecord : record ∈ w.records plan.pbCollection :=
        hsplit ▸ List.mem_append_right done List.mem_cons_self
      obtain ⟨maps₁, w₁, hrun, hstep, hmaps₁, hedit⟩ :=
        resolveRecord_run hexists hplan hacc hrecord hmaps
      have hnodup := w.pb.ids_nodup plan.pbCollection
      rw [show w.pb.records plan.pbCollection = _ from hsplit] at hnodup
      rw [hsplit, modifyAt_split hnodup] at hedit
      have hexists₁ : Ensured m w₁ := hexists.of_collections hstep.collections
      have hnext : w₁.records plan.pbCollection =
          (done ++ [resolvedRecord (targets m w) plan accepts record]) ++ items ++ rest := by
        rw [hedit, List.append_assoc, List.append_assoc, List.singleton_append]
        rfl
      obtain ⟨maps', w', hrun', hstep', hmaps', hrecords'⟩ :=
        ih hexists₁ ((hstep.hasField _).trans hacc) (hmaps₁.congr hstep.idKeys) hnext
      refine ⟨maps', w', (forEach_cons_run hrun).trans hrun', hstep.trans hstep', hmaps', ?_⟩
      rw [hrecords', targets_congr m hstep.idKeys, List.map_cons, List.append_assoc done,
        List.singleton_append]

/-- The records of a pass that has come to the record `n`. -/
def halfResolved (maps : RelationMaps) (plan : TablePlan) (accepts : String → Bool) (n : ℕ)
    (l : List Record) : List Record :=
  (l.take n).map (resolvedRecord maps plan accepts) ++ l.drop n

/-- Behind the records that have been resolved the list is what it was. -/
theorem drop_halfResolved (maps : RelationMaps) (plan : TablePlan)
    (accepts : String → Bool) (n : ℕ) (l : List Record) :
    (halfResolved maps plan accepts n l).drop n = l.drop n := by
  have hlen : ((l.take n).map (resolvedRecord maps plan accepts)).length = min n l.length := by
    rw [List.length_map, List.length_take]
  rw [halfResolved, List.drop_append, List.drop_eq_nil_of_le (by omega), List.nil_append, hlen,
    List.drop_drop]
  rcases Nat.le_total n l.length with hle | hle
  · rw [Nat.min_eq_left hle, Nat.sub_self, Nat.add_zero]
  · rw [List.drop_eq_nil_of_le (by omega), List.drop_eq_nil_of_le hle]

/-- **The pages** from `p + 1` on, read while the records before them have been resolved. -/
theorem resolvePages_run {w₀ : World} (hexists : Ensured m w₀)
    (hplan : plan ∈ m.plans) (hacc : w₀.pb.hasField plan.pbCollection = accepts)
    {maps : RelationMaps} (hmaps : TargetsOf m maps w)
    (hstep : PatchStep plan.pbCollection w₀ w) {fuel p : ℕ}
    (hrecords : w.records plan.pbCollection = halfResolved (targets m w₀) plan accepts
      (p * cfg.pageSize) (w₀.records plan.pbCollection))
    (hp : p < max 1 (totalPages cfg.pageSize (w₀.records plan.pbCollection).length))
    (hfuel : max 1 (totalPages cfg.pageSize (w₀.records plan.pbCollection).length) ≤ p + fuel) :
    ∃ w', resolvePages allOk cfg m plan fuel (p + 1) maps w = (some (), w') ∧
      PatchStep plan.pbCollection w₀ w' ∧
      w'.records plan.pbCollection =
        (w₀.records plan.pbCollection).map (resolvedRecord (targets m w₀) plan accepts) := by
  induction fuel generalizing p maps w with
  | zero => omega
  | succ fuel ih =>
      have hexists₁ : Ensured m w := hexists.of_collections hstep.collections
      have hlen : (w.records plan.pbCollection).length =
          (w₀.records plan.pbCollection).length := by
        have hids := congrArg List.length (hstep.idKeys plan.pbCollection)
        rwa [World.idKeys, World.idKeys, List.length_map, List.length_map] at hids
      have hget : w.getList plan.pbCollection cfg.pageSize (p + 1) =
          some (⟨page cfg.pageSize (p + 1) (w₀.records plan.pbCollection),
            totalPages cfg.pageSize (w₀.records plan.pbCollection).length⟩, w) := by
        rw [World.getList, if_pos (hexists₁ plan hplan), page, Nat.add_sub_cancel,
          hrecords, drop_halfResolved, ← hrecords, hlen, page, Nat.add_sub_cancel]
      have hcall : call (allOk (.listRecords plan.table (p + 1)))
          (World.getList plan.pbCollection cfg.pageSize (p + 1)) w = _ := call_ok_run hget
      have hsplit : w.records plan.pbCollection =
          ((w₀.records plan.pbCollection).take (p * cfg.pageSize)).map
              (resolvedRecord (targets m w₀) plan accepts) ++
            page cfg.pageSize (p + 1) (w₀.records plan.pbCollection) ++
            (w₀.records plan.pbCollection).drop ((p + 1) * cfg.pageSize) := by
        rw [hrecords, halfResolved, List.append_assoc, page_append_drop]
      obtain ⟨maps', w', hrun, hstep', hmaps', hrecords'⟩ :=
        resolveRecords_run cfg hexists₁ hplan ((hstep.hasField _).trans hacc) hmaps hsplit
      rw [targets_congr m hstep.idKeys, ← List.map_append, take_append_page] at hrecords'
      rw [resolvePages, bind_run_of_eq hcall]
      dsimp only
      rw [bind_run_of_eq hrun]
      by_cases hlast : totalPages cfg.pageSize (w₀.records plan.pbCollection).length ≤ p + 1
      · rw [if_pos hlast]
        refine ⟨w', rfl, hstep.trans hstep', hrecords'.trans ?_⟩
        have hdrop := drop_eq_nil_of_totalPages_le cfg.pageSize_pos hlast
        have htake := List.take_append_drop ((p + 1) * cfg.pageSize)
          (w₀.records plan.pbCollection)
        rw [hdrop, List.append_nil] at htake
        rw [hdrop, List.append_nil, htake]
      · rw [if_neg hlast]
        exact ih hmaps' (hstep.trans hstep') hrecords' (by omega) (by omega)

/-- **The second pass of a table.** With every call answered and the collections there, every
record gets the patch that the complete maps give. -/
theorem resolveRelationsPass2_run (cfg : Config) (hexists : Ensured m w)
    (hplan : plan ∈ m.plans) (hacc : w.pb.hasField plan.pbCollection = accepts) :
    ∃ w', resolveRelationsPass2 allOk cfg m plan w = (some (), w') ∧
      PatchStep plan.pbCollection w w' ∧
      w'.records plan.pbCollection =
        (w.records plan.pbCollection).map (resolvedRecord (targets m w) plan accepts) := by
  rw [resolveRelationsPass2]
  by_cases hnil : fkColumns plan = []
  · rw [if_pos hnil]
    refine ⟨w, rfl, PatchStep.refl _ w, ?_⟩
    refine ((List.map_congr_left fun r _ => ?_).trans (List.map_id _)).symm
    rw [resolvedRecord, hnil]
    rfl
  · rw [if_neg hnil, withState_run]
    refine resolvePages_run hexists hplan hacc (p := 0) (fun t map h => absurd h (by simp))
      (PatchStep.refl _ w) ?_ (by omega) (by omega)
    rw [halfResolved, Nat.zero_mul, List.take_zero, List.drop_zero, List.map_nil, List.nil_append]

end Run

end Mogo
