import Mogo.Fidelity

/-!
# A Second Migration

With every call answered, migrating twice leaves the records as migrating once does, although the
first pass of the second run empties every relation that the second pass of the first run has set.

The reason is that a record the second run writes to is one the first run has written the same row
to last (`Upsert.upsertAll_settled`), so overwriting it undoes the second pass and nothing else;
and that a record no row is written to has nothing left to resolve.

## Main results

* `resolvedRecord_resolvedRecord`: resolving twice resolves once.
* `Upserted.again`: one table.
* `migrateRecords_idempotent`: the whole migration.
-/

namespace Mogo

open Script

section Tables

variable [LetterCase]

/-! ### One record -/

section Records

variable {maps : RelationMaps} {plan : TablePlan} {accepts : String → Bool}

/-- A column whose temporary field is blank does not resolve. -/
theorem resolvedId_of_isBlank {r : Record} {col : RelationColumn}
    (h : (r.fields col.fkTempField).isBlank = true) : resolvedId maps r col = none := by
  rw [resolvedId, if_pos h]

/-- What a column resolves to depends on its temporary field only. -/
theorem resolvedId_congr {r r' : Record} {col : RelationColumn}
    (h : r'.fields col.fkTempField = r.fields col.fkTempField) :
    resolvedId maps r' col = resolvedId maps r col := by
  rw [resolvedId, resolvedId, h]

/-- Columns that do not resolve give no patch. -/
theorem patchFrom_of_forall_none {r : Record} {cols : List RelationColumn}
    (h : ∀ col ∈ cols, resolvedId maps r col = none) (p : Payload) :
    patchFrom maps r cols p = p := by
  induction cols with
  | nil => rfl
  | cons col cols ih =>
      rw [patchFrom, List.foldl_cons, h col List.mem_cons_self]
      exact ih fun c hc => h c (List.mem_cons_of_mem col hc)

/-- **Resolving twice resolves once.** A column that has been resolved has an empty temporary
field, and one that could not be resolved cannot be resolved again. -/
theorem resolvedRecord_resolvedRecord (hacc : ∀ n ∈ plan.fieldNames, accepts n = true)
    (r : Record) :
    resolvedRecord maps plan accepts (resolvedRecord maps plan accepts r) =
      resolvedRecord maps plan accepts r := by
  have hnone : ∀ col ∈ fkColumns plan,
      resolvedId maps (resolvedRecord maps plan accepts r) col = none := by
    intro col hcol
    cases hres : resolvedId maps r col with
    | none =>
        rw [resolvedId_congr (resolvedRecord_of_none accepts hcol hres).2, hres]
    | some id =>
        have hfields : ∀ n ∈ col.names, accepts n = true := fun n hn =>
          hacc n (fkColumns_names_mem hcol hn).1
        refine resolvedId_of_isBlank ?_
        rw [(resolvedRecord_of_some hcol hfields hres).2]
        rfl
  conv_lhs => rw [resolvedRecord, patchFrom_of_forall_none hnone]
  rfl

/-- Writing a row over a resolved record leaves nothing of the resolution. -/
theorem write_resolvedRecord (a : KeyedRow plan) (r : Record) :
    (resolvedRecord maps plan accepts r).write (a.stored plan accepts) =
      r.write (a.stored plan accepts) := by
  refine Record.write_write (fun n hn => ?_) r
  rw [Payload.get?_filter] at hn
  rw [KeyedRow.stored_get?]
  split at hn
  next hacc =>
    rw [if_pos hacc]
    refine (rowPayload_isSome_iff a.oldId_eq).mpr ?_
    by_contra hnot
    refine absurd hn ?_
    rw [patchFrom_of_notMem]
    · simp
    · intro hmem
      obtain ⟨rel, hrel, hn⟩ := List.mem_flatMap.mp hmem
      exact hnot (fkColumns_names_mem hrel hn).1
  · exact absurd hn (by simp)

end Records

/-! ### One table -/

section Table

variable {cfg : Config} {src : SourceTable} {plan : TablePlan} {accepts : String → Bool}
  {maps : RelationMaps} {l l' l'' : List Record}

/-- **One table, migrated again.** The first pass of a second run changes no identity and no key,
and its second pass restores the records. -/
theorem Upserted.again (hacc : ∀ n ∈ plan.fieldNames, accepts n = true)
    (h₁ : Upserted cfg src plan accepts l l')
    (h₂ : Upserted cfg src plan accepts (l'.map (resolvedRecord maps plan accepts)) l'') :
    l''.map (fun r => (r.id, r.key)) = l'.map (fun r => (r.id, r.key)) ∧
      l''.map (resolvedRecord maps plan accepts) = l'.map (resolvedRecord maps plan accepts) := by
  obtain ⟨hold, s, hs, rfl, hindex, rfl⟩ := h₁
  obtain ⟨_, s₂, hs₂, htable₂, hindex₂, rfl⟩ := h₂
  have hs₂ : (rowUpsert plan hold).Sound s₂ := hs₂
  generalize hl : deliveredRows allOk cfg src plan = items at htable₂ hindex₂ ⊢
  have hok : ∀ a ∈ items, rowOk allOk plan a = true := fun _ _ => rfl
  have hpair : ∀ r : Record, (rowUpsert plan hold).pair (resolvedRecord maps plan accepts r) =
      (rowUpsert plan hold).pair r := fun r => Prod.ext rfl (resolvedRecord_key r)
  have hsame : s₂.index = ((rowUpsert plan hold).upsertAll (rowOk allOk plan) items s).index := by
    rw [hindex₂, Upsert.upsertAll_index hs hindex items]
    refine indexInto_congr ?_ _
    rw [List.map_map]
    exact List.map_congr_left fun r _ => hpair r
  have hknown : ∀ a ∈ items, (s₂.index ((rowUpsert plan hold).itemKey a)).isSome = true := by
    intro a ha
    rw [hsame]
    exact Upsert.upsertAll_knows hok ha
  rw [Upsert.upsertAll_known hs₂ hok hknown, htable₂]
  constructor
  · rw [List.map_map, List.map_map]
    refine List.map_congr_left fun r _ => ?_
    exact ((rowUpsert plan hold).pair_rewrite s₂.index items _).trans (hpair r)
  · rw [List.map_map, List.map_map]
    refine List.map_congr_left fun r hr => ?_
    simp only [Function.comp_apply, Upsert.rewrite]
    cases hw : (rowUpsert plan hold).written s₂.index items
        (resolvedRecord maps plan accepts r) with
    | none => exact resolvedRecord_resolvedRecord hacc r
    | some a =>
        obtain ⟨k, hk, hi, hlast, -⟩ := Upsert.written_eq_some hw
        have hsettled : r.write (a.stored plan accepts) = r := by
          refine Upsert.upsertAll_settled hs hok hr ((resolvedRecord_key r).symm.trans hk) ?_ hlast
          rw [← hsame]
          exact hi
        have hundone : (rowUpsert plan hold).edit a (resolvedRecord maps plan accepts r) = r :=
          (write_resolvedRecord a r).trans hsettled
        dsimp only
        rw [hundone]

end Table

/-! ### The whole migration -/

/-- **The migration is idempotent.** Let the collections carry the plans; the records may be
anything. With every call answered, migrating a source twice leaves the records as migrating it
once does. -/
theorem migrateRecords_idempotent (m : MigrationPlan) (source : Source) (cfg : Config) (w : World)
    (hcarries : ∀ plan ∈ m.plans, w.pb.Carries plan) :
    ∃ w' w'', migrateRecords allOk cfg m source w = (some (), w') ∧
      migrateRecords allOk cfg m source w' = (some (), w'') ∧
      ∀ n, w''.records n = w'.records n := by
  have hrun : ∀ w₀ : World, w₀.pb.collections = w.pb.collections →
      ∃ w₁ w₂ : World, migrateRecords allOk cfg m source w₀ = (some (), w₂) ∧
        w₂.pb.collections = w.pb.collections ∧ (∀ n, w₂.idKeys n = w₁.idKeys n) ∧
        (∀ n ∉ m.orderedPlans.map TablePlan.pbCollection,
          w₁.records n = w₀.records n ∧ w₂.records n = w₁.records n) ∧
        ∀ plan ∈ m.plans,
          Upserted cfg (source plan.table) plan (w.pb.hasField plan.pbCollection)
            (w₀.records plan.pbCollection) (w₁.records plan.pbCollection) ∧
          w₂.records plan.pbCollection = (w₁.records plan.pbCollection).map
            (resolvedRecord (targets m w₁) plan (w.pb.hasField plan.pbCollection)) := by
    intro w₀ hcoll
    have hfields : ∀ n, w₀.pb.hasField n = w.pb.hasField n :=
      PocketBase.hasField_of_collections hcoll
    obtain ⟨w₁, hrun₁, hstep₁, hrows⟩ := pass1_allOk cfg source fun plan hplan =>
      (congrFun (hfields plan.pbCollection) "old_id").trans
        (hcarries plan hplan "old_id" List.mem_cons_self)
    have hcoll₁ := hstep₁.collections.trans hcoll
    have hfields₁ : ∀ n, w₁.pb.hasField n = w.pb.hasField n :=
      PocketBase.hasField_of_collections hcoll₁
    have hexists : Ensured m w₁ :=
      Ensured.of_collections (fun plan hplan => (hcarries plan hplan).isSome) hcoll₁
    obtain ⟨w₂, hrun₂, hstep₂, hids, hresolved⟩ := pass2_allOk cfg hexists
    refine ⟨w₁, w₂, ?_, hstep₂.collections.trans hcoll₁, hids, fun n hn =>
      ⟨hstep₁.records n hn, hstep₂.records n hn⟩, fun plan hplan => ⟨?_, ?_⟩⟩
    · rw [migrateRecords, bind_run_of_eq hrun₁, hrun₂]
    · rw [← hfields]
      exact hrows plan hplan
    · rw [← hfields₁]
      exact hresolved plan hplan
  obtain ⟨w₁, w₂, hrun₁, hcoll₂, hids₂, hothers₁, hplans₁⟩ := hrun w rfl
  obtain ⟨w₃, w₄, hrun₂, -, -, hothers₂, hplans₂⟩ := hrun w₂ hcoll₂
  refine ⟨w₂, w₄, hrun₁, hrun₂, ?_⟩
  have hagain : ∀ plan ∈ m.plans, w₃.idKeys plan.pbCollection = w₁.idKeys plan.pbCollection ∧
      (w₃.records plan.pbCollection).map
          (resolvedRecord (targets m w₁) plan (w.pb.hasField plan.pbCollection)) =
        w₂.records plan.pbCollection := by
    intro plan hplan
    obtain ⟨hup₁, hres₁⟩ := hplans₁ plan hplan
    obtain ⟨hup₂, -⟩ := hplans₂ plan hplan
    rw [hres₁] at hup₂ ⊢
    exact Upserted.again (hcarries plan hplan) hup₁ hup₂
  have htargets : targets m w₃ = targets m w₁ := by
    refine targets_congr m fun n => ?_
    by_cases hn : n ∈ m.orderedPlans.map TablePlan.pbCollection
    · obtain ⟨plan, hplan, rfl⟩ := List.mem_map.mp hn
      exact (hagain plan (mem_orderedPlans.mp hplan)).1
    · rw [World.idKeys, World.idKeys, (hothers₂ n hn).1, (hothers₁ n hn).2]
  intro n
  by_cases hn : n ∈ m.orderedPlans.map TablePlan.pbCollection
  · obtain ⟨plan, hplan, rfl⟩ := List.mem_map.mp hn
    have hplan := mem_orderedPlans.mp hplan
    rw [(hplans₂ plan hplan).2, htargets, (hagain plan hplan).2]
  · rw [(hothers₂ n hn).2, (hothers₂ n hn).1]

end Tables

section Example

attribute [local instance] asciiLetterCase

/-- Migrating the notes twice, over what a source has left behind that answers with one row at a
time. -/
theorem migrateRecords_idempotent_notes :
    ∃ w' w'',
      migrateRecords allOk notesConfig notesPlan notesSource (notesWorld shortSource) =
        (some (), w') ∧
      migrateRecords allOk notesConfig notesPlan notesSource w' = (some (), w'') ∧
      ∀ n, w''.records n = w'.records n := by
  refine migrateRecords_idempotent notesPlan notesSource notesConfig (notesWorld shortSource) ?_
  simp only [PocketBase.Carries]
  decide +kernel

end Example

end Mogo
