import Mogo.CollectionsRun
import Mogo.Pass2Run

/-!
# The Migration

The whole run, from the plans on: the schema step, the first pass over all tables, and the second
pass over all tables, each in migration order.

## Main results

* `migrate_rule`: the rule for invariants of a run that may be interrupted anywhere.
* `tables_run`: a loop over the tables whose body changes the records of its own table only.
* `pass1_allOk`, `pass2_allOk`: the two passes, with every call answered.
-/

namespace Mogo

open Script

variable [LetterCase]

section Defs

variable (o : Oracle) (cfg : Config) (m : MigrationPlan) (source : Source)

/-- The first pass over all tables. -/
def pass1 : Script World Unit :=
  forEach m.orderedPlans () fun plan _ => migrateTablePass1 o cfg (source plan.table) plan

/-- The second pass over all tables. -/
def pass2 : Script World Unit :=
  forEach m.orderedPlans () fun plan _ => resolveRelationsPass2 o cfg m plan

/-- The two passes over the records: rows are written first, and their relations are set after
that. -/
def migrateRecords : Script World Unit := do
  pass1 o cfg m source
  pass2 o cfg m

/-- `main`, from the plans on. Without a plan, or without the list of collections, it stops. -/
def migrate : Script World Unit :=
  if m.plans = [] then pure ()
  else do
    match ← getCollectionsByName o with
    | none => pure ()
    | some collectionsByName =>
      let _ ← ensureCollections o m.orderedPlans collectionsByName
      migrateRecords o cfg m source

end Defs

/-! ### Invariants of a run -/

section Rule

variable {o : Oracle} {cfg : Config} {m : MigrationPlan} {source : Source} {I : World → Prop}

omit [LetterCase] in
/-- Sorting the plans loses none and invents none. -/
theorem mem_orderedPlans {plan : TablePlan} : plan ∈ m.orderedPlans ↔ plan ∈ m.plans :=
  m.orderedPlans_perm.mem_iff

omit [LetterCase] in
/-- The plans that are worked through are of different collections. -/
theorem orderedPlans_collections_nodup : (m.orderedPlans.map TablePlan.pbCollection).Nodup :=
  (m.orderedPlans_perm.map _).nodup_iff.mpr m.collections_nodup

variable
  (h₁ : ∀ plan ∈ m.plans,
    Triple I (migrateTablePass1 o cfg (source plan.table) plan) (fun _ => I) I)
  (h₂ : ∀ plan ∈ m.plans, Triple I (resolveRelationsPass2 o cfg m plan) (fun _ => I) I)
include h₁ h₂

/-- The rule for the two passes: what each request, each insert and each update keeps, the migration
of the records keeps. -/
theorem migrateRecords_rule : Triple I (migrateRecords o cfg m source) (fun _ => I) I :=
  (Triple.forEach_invariant (fun plan hplan _ => h₁ plan (mem_orderedPlans.mp hplan)) ()).bind
    fun _ => Triple.forEach_invariant (fun plan hplan _ => h₂ plan (mem_orderedPlans.mp hplan)) ()

/-- **The rule for a run.** What a growing schema and every table of both passes keep is kept by
the run, wherever it is interrupted. -/
theorem migrate_rule (h₀ : ∀ w w', SchemaGrown w w' → I w → I w') :
    Triple I (migrate o cfg m source) (fun _ => I) I := by
  rw [migrate]
  split
  · exact Triple.pure fun w hw => hw
  · intro w₀ hw₀
    refine ((getCollectionsByName_spec o w₀).consequence (fun w hw => hw) (fun _ _ h => h)
      fun w hw => hw ▸ hw₀).bind ?_ w₀ rfl
    rintro (- | byName)
    · exact Triple.pure fun w hw => hw.1 ▸ hw₀
    · rintro w ⟨rfl, hbyName⟩
      have hcurrent : ∀ plan ∈ m.orderedPlans, Current byName plan w := by
        intro plan _ c hc
        rw [hbyName byName rfl] at hc
        obtain ⟨c', hmem, hname, rfl⟩ := exists_of_indexOf_eq_some hc
        exact ⟨hmem, Option.some.inj hname⟩
      refine (((ensureCollections_spec o m.orderedPlans orderedPlans_collections_nodup byName w
        hcurrent).consequence (fun _ h => h) (fun _ _ h => h) fun w' h => h₀ w w' h hw₀).bind
          fun _ => ?_) w rfl
      exact (migrateRecords_rule h₁ h₂).consequence (fun w' h => h₀ w w' h hw₀) (fun _ _ h => h)
        fun _ h => h

end Rule

/-! ### Loops over the tables -/

section Tables

omit [LetterCase]

/-- Only the records of some collections have changed. -/
structure TablesStep (names : List String) (w w' : World) : Prop where
  server : w'.pb.server = w.pb.server
  collections : w'.pb.collections = w.pb.collections
  records : ∀ n ∉ names, w'.records n = w.records n

variable {body : TablePlan → Script World Unit} {I : World → Prop}
  {old : String → List Record} {R : TablePlan → List Record → Prop}

/-- **A loop over tables** with different collections. Its body finds the records of its table as
they were before the loop, keeps `I`, and leaves records of which `R` holds. -/
theorem tables_run {plans : List TablePlan} (hnodup : (plans.map TablePlan.pbCollection).Nodup)
    (hbody : ∀ plan ∈ plans, ∀ w, I w →
      w.records plan.pbCollection = old plan.pbCollection →
      ∃ w', body plan w = (some (), w') ∧ RecordStep plan.pbCollection w w' ∧ I w' ∧
        R plan (w'.records plan.pbCollection))
    {w : World} (hw : I w) (hold : ∀ plan ∈ plans,
      w.records plan.pbCollection = old plan.pbCollection) :
    ∃ w', forEach plans () (fun plan _ => body plan) w = (some (), w') ∧
      TablesStep (plans.map TablePlan.pbCollection) w w' ∧ I w' ∧
      ∀ plan ∈ plans, R plan (w'.records plan.pbCollection) := by
  induction plans generalizing w with
  | nil => exact ⟨w, rfl, ⟨rfl, rfl, fun _ _ => rfl⟩, hw, by simp⟩
  | cons plan plans ih =>
      obtain ⟨hnotin, hnodup⟩ := List.nodup_cons.mp hnodup
      have hne : ∀ p ∈ plans, p.pbCollection ≠ plan.pbCollection := fun p hp he =>
        hnotin (he ▸ List.mem_map_of_mem hp)
      obtain ⟨w₁, hrun₁, hstep₁, hI₁, hR₁⟩ :=
        hbody plan List.mem_cons_self w hw (hold plan List.mem_cons_self)
      obtain ⟨w', hrun, hstep, hI, hR⟩ :=
        ih hnodup (fun p hp => hbody p (List.mem_cons_of_mem plan hp)) hI₁ fun p hp =>
          (hstep₁.records _ (hne p hp)).trans (hold p (List.mem_cons_of_mem plan hp))
      refine ⟨w', (forEach_cons_run hrun₁).trans hrun, ⟨hstep.server.trans hstep₁.server,
        hstep.collections.trans hstep₁.collections, fun n hn => ?_⟩, hI, fun p hp => ?_⟩
      · rw [List.map_cons, List.mem_cons, not_or] at hn
        exact (hstep.records n hn.2).trans (hstep₁.records n hn.1)
      · cases hp with
        | head => rwa [hstep.records _ hnotin]
        | tail _ hp => exact hR p hp

end Tables

/-! ### The two passes, with every call answered -/

/-- The records a table has after the first pass, from those it had before. -/
def Upserted (cfg : Config) (src : SourceTable) (plan : TablePlan) (accepts : String → Bool)
    (l l' : List Record) : Prop :=
  ∃ (hold : accepts "old_id" = true) (s : UpsertState Record String),
    (rowUpsert plan hold).Sound s ∧ s.table = l ∧ s.index = indexOf Record.key Record.id l ∧
      l' = ((rowUpsert plan hold).upsertAll (rowOk allOk plan) (deliveredRows allOk cfg src plan)
        s).table

/-- **The first pass over all tables.** With every call answered, it is an upsert of the delivered
rows of each table, through the index of its collection. -/
theorem pass1_allOk (cfg : Config) {m : MigrationPlan} (source : Source) {w : World}
    (hold : ∀ plan ∈ m.plans, w.pb.hasField plan.pbCollection "old_id" = true) :
    ∃ w', pass1 allOk cfg m source w = (some (), w') ∧
      TablesStep (m.orderedPlans.map TablePlan.pbCollection) w w' ∧
      ∀ plan ∈ m.plans, Upserted cfg (source plan.table) plan (w.pb.hasField plan.pbCollection)
        (w.records plan.pbCollection) (w'.records plan.pbCollection) := by
  have hbody : ∀ plan ∈ m.orderedPlans, ∀ w₁, w₁.pb.collections = w.pb.collections →
      w₁.records plan.pbCollection = w.records plan.pbCollection →
      ∃ w₂, migrateTablePass1 allOk cfg (source plan.table) plan w₁ = (some (), w₂) ∧
        RecordStep plan.pbCollection w₁ w₂ ∧ w₂.pb.collections = w.pb.collections ∧
        Upserted cfg (source plan.table) plan (w.pb.hasField plan.pbCollection)
          (w.records plan.pbCollection) (w₂.records plan.pbCollection) := by
    intro plan hplan w₁ hcoll hsame
    have hold := hold plan (mem_orderedPlans.mp hplan)
    obtain ⟨map', w₂, hrun, hstep, hview⟩ := migrateTablePass1_allOk hold
      (PocketBase.hasField_of_collections hcoll plan.pbCollection) cfg (source plan.table)
    have hsound := view_sound plan hold allOk cfg plan.table "" w₁
    rw [readRecords_allOk] at hsound
    refine ⟨w₂, hrun, hstep, hstep.collections.trans hcoll, hold, _, hsound, hsame, ?_,
      congrArg UpsertState.table hview⟩
    rw [← hsame]
    rfl
  obtain ⟨w', hrun, hstep, -, hrows⟩ := tables_run
    (R := fun plan l => Upserted cfg (source plan.table) plan (w.pb.hasField plan.pbCollection)
      (w.records plan.pbCollection) l)
    orderedPlans_collections_nodup hbody rfl fun _ _ => rfl
  exact ⟨w', hrun, hstep, fun plan hplan => hrows plan (mem_orderedPlans.mpr hplan)⟩

/-- **The second pass over all tables**, in any order. With every call answered and the collections
there, every record gets the patch that the maps of the start give; identities and keys stay, so
these maps stay right throughout. -/
theorem resolveTables_allOk (cfg : Config) {m : MigrationPlan} {w : World} (hexists : Ensured m w)
    {plans : List TablePlan} (hperm : plans.Perm m.plans) :
    ∃ w', forEach plans () (fun plan _ => resolveRelationsPass2 allOk cfg m plan) w =
        (some (), w') ∧
      TablesStep (plans.map TablePlan.pbCollection) w w' ∧
      (∀ n, w'.idKeys n = w.idKeys n) ∧
      ∀ plan ∈ m.plans, w'.records plan.pbCollection = (w.records plan.pbCollection).map
        (resolvedRecord (targets m w) plan (w.pb.hasField plan.pbCollection)) := by
  have hbody : ∀ plan ∈ plans, ∀ w₁,
      (w₁.pb.collections = w.pb.collections ∧ ∀ n, w₁.idKeys n = w.idKeys n) →
      w₁.records plan.pbCollection = w.records plan.pbCollection →
      ∃ w₂, resolveRelationsPass2 allOk cfg m plan w₁ = (some (), w₂) ∧
        RecordStep plan.pbCollection w₁ w₂ ∧
        (w₂.pb.collections = w.pb.collections ∧ ∀ n, w₂.idKeys n = w.idKeys n) ∧
        w₂.records plan.pbCollection = (w.records plan.pbCollection).map
          (resolvedRecord (targets m w) plan (w.pb.hasField plan.pbCollection)) := by
    rintro plan hplan w₁ ⟨hcoll₁, hids₁⟩ hsame
    obtain ⟨w₂, hrun, hstep, hrecords⟩ :=
      resolveRelationsPass2_run cfg (hexists.of_collections hcoll₁) (hperm.mem_iff.mp hplan)
        (PocketBase.hasField_of_collections hcoll₁ plan.pbCollection)
    refine ⟨w₂, hrun, hstep.toRecordStep, ⟨hstep.collections.trans hcoll₁, fun n => ?_⟩, ?_⟩
    · exact (hstep.idKeys n).trans (hids₁ n)
    · rw [hrecords, hsame, targets_congr m hids₁]
  obtain ⟨w', hrun, hstep, hI, hR⟩ := tables_run
    (R := fun plan l => l = (w.records plan.pbCollection).map
      (resolvedRecord (targets m w) plan (w.pb.hasField plan.pbCollection)))
    ((hperm.map _).nodup_iff.mpr m.collections_nodup) hbody ⟨rfl, fun _ => rfl⟩ fun _ _ => rfl
  exact ⟨w', hrun, hstep, hI.2, fun plan hplan => hR plan (hperm.mem_iff.mpr hplan)⟩

/-- **The second pass**, in migration order. -/
theorem pass2_allOk (cfg : Config) {m : MigrationPlan} {w : World} (hexists : Ensured m w) :
    ∃ w', pass2 allOk cfg m w = (some (), w') ∧
      TablesStep (m.orderedPlans.map TablePlan.pbCollection) w w' ∧
      (∀ n, w'.idKeys n = w.idKeys n) ∧
      ∀ plan ∈ m.plans, w'.records plan.pbCollection = (w.records plan.pbCollection).map
        (resolvedRecord (targets m w) plan (w.pb.hasField plan.pbCollection)) :=
  resolveTables_allOk cfg hexists m.orderedPlans_perm

end Mogo
