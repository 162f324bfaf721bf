import Mogo.Conservation

/-!
# What a Migration Leaves Alone

A migration adds and overwrites. It deletes no record and drops no field, it keeps out of the
collections no table is planned for, and of a planned collection it writes only to the fields of its
plan: what somebody has added to a record by hand survives any number of migrations, also those in
which calls fail or which are cut off.

## Main results

* `Preserves`: what is left alone between two states.
* `RowWritten.preserves`, `patch_preserves`: the two ways in which a record changes.
* `migrate_preserves`: any number of runs.
-/

namespace Mogo

open Script

section Preservation

variable [LetterCase]

/-- Every field of a collection is still there, the collections that no table is planned for have
the records they had, and every record of a planned collection is still there, with its key and the
fields that are none of the plan. -/
structure Preserves (m : MigrationPlan) (w w' : World) : Prop where
  fields : ∀ n f, w.pb.hasField n f = true → w'.pb.hasField n f = true
  others : ∀ n, (∀ plan ∈ m.plans, plan.pbCollection ≠ n) → w'.records n = w.records n
  records : ∀ plan ∈ m.plans, ∀ r ∈ w.records plan.pbCollection,
    ∃ r' ∈ w'.records plan.pbCollection, r'.id = r.id ∧ r'.key = r.key ∧
      ∀ n ∉ plan.fieldNames, r'.fields n = r.fields n

namespace Preserves

variable {m : MigrationPlan} {w w₁ w₂ : World}

/-- Every world preserves itself, whatever the plan. -/
@[refl] theorem refl (m : MigrationPlan) (w : World) : Preserves m w w :=
  ⟨fun _ _ h => h, fun _ _ => rfl, fun _ _ r hr => ⟨r, hr, rfl, rfl, fun _ _ => rfl⟩⟩

/-- What is preserved by two steps is preserved by both together. -/
theorem trans (h₁ : Preserves m w w₁) (h₂ : Preserves m w₁ w₂) : Preserves m w w₂ where
  fields := fun n f h => h₂.fields n f (h₁.fields n f h)
  others := fun n hn => (h₂.others n hn).trans (h₁.others n hn)
  records := by
    intro plan hplan r hr
    obtain ⟨r₁, hr₁, hid₁, hkey₁, hfields₁⟩ := h₁.records plan hplan r hr
    obtain ⟨r₂, hr₂, hid₂, hkey₂, hfields₂⟩ := h₂.records plan hplan r₁ hr₁
    exact ⟨r₂, hr₂, hid₂.trans hid₁, hkey₂.trans hkey₁, fun n hn =>
      (hfields₂ n hn).trans (hfields₁ n hn)⟩

/-- A growing schema preserves everything. -/
theorem of_schemaGrown (h : SchemaGrown w w₁) : Preserves m w w₁ := by
  have hsame : ∀ n, w₁.records n = w.records n := fun n => congrFun h.records n
  refine ⟨h.fields, fun n _ => hsame n, fun plan _ r hr => ⟨r, ?_, rfl, rfl, fun _ _ => rfl⟩⟩
  rwa [hsame]

/-- The records of one planned collection change. -/
theorem of_plan {plan : TablePlan} (hplan : plan ∈ m.plans)
    (hcollections : w₁.pb.collections = w.pb.collections)
    (hothers : ∀ n, n ≠ plan.pbCollection → w₁.records n = w.records n)
    (hrecords : ∀ r ∈ w.records plan.pbCollection, ∃ r' ∈ w₁.records plan.pbCollection,
      r'.id = r.id ∧ r'.key = r.key ∧ ∀ n ∉ plan.fieldNames, r'.fields n = r.fields n) :
    Preserves m w w₁ where
  fields := fun n f h => by rwa [PocketBase.hasField_of_collections hcollections]
  others := fun n hn => hothers n (hn plan hplan).symm
  records := by
    intro q hq r hr
    by_cases hne : q.pbCollection = plan.pbCollection
    · obtain rfl : q = plan := MigrationPlan.eq_of_pbCollection_eq hq hplan hne
      exact hrecords r hr
    · rw [hothers _ hne]
      exact ⟨r, hr, rfl, rfl, fun _ _ => rfl⟩

end Preserves

section Steps

variable {m : MigrationPlan} {plan : TablePlan} {w w' : World}

/-- The write of a row preserves: it finds its record, or makes a new one. -/
theorem RowWritten.preserves {row : Row} {oldId : String} {id : RecordId}
    (hrowKey : rowKey plan row = some oldId) (h : RowWritten plan row oldId id w w')
    (hplan : plan ∈ m.plans) : Preserves m w w' := by
  refine Preserves.of_plan hplan h.collections h.records fun r hr => ?_
  obtain ⟨r', hr', hid, hkey⟩ := h.keeps.exists_record hr
  refine ⟨r', hr', hid, hkey, fun n hn => ?_⟩
  rcases h.record r' hr' with ⟨hold, -⟩ | ⟨-, -, r₀, hr₀, hwritten⟩
  · rw [eq_of_ident_eq (w.pb.ids_nodup _) hold hr hid]
  · have hid₀ : r₀.id = r.id := by rw [← hid, hwritten, Record.write_id]
    rcases hr₀ with hr₀ | rfl
    · obtain rfl := eq_of_ident_eq (w.pb.ids_nodup _) hr₀ hr hid₀
      have hnone : (rowPayload plan row oldId).get? n = none :=
        Option.not_isSome_iff_eq_none.mp fun hsome => hn ((rowPayload_isSome_iff hrowKey).mp hsome)
      rw [hwritten, write_accepted_fields, hnone, Option.getD_none, ite_self]
    · exact absurd hid₀ (w.pb.ids_lt _ r hr).ne'

/-- A patch of the second pass preserves: it names the fields of relations only. -/
theorem patch_preserves (hplan : plan ∈ m.plans) (record : Record) (maps : RelationMaps)
    (w : World) :
    Preserves m w (w.editRecord plan.pbCollection record.id
      (patchFrom maps record (fkColumns plan) [])) := by
  refine Preserves.of_plan hplan rfl (fun n hn => World.editRecord_records_of_ne hn ..) ?_
  intro r hr
  by_cases hid : r.id = record.id
  · refine ⟨r.write (w.pb.accepted plan.pbCollection (patchFrom maps record (fkColumns plan) [])),
      ?_, rfl, Record.key_write ?_ r, fun n hn => ?_⟩
    · rw [World.editRecord_records_self]
      exact mem_modifyAt.mpr (Or.inr ⟨r, hr, hid, rfl⟩)
    · rw [PocketBase.accepted_get?, patchFrom_old_id, ite_self]
    · have hnotin : n ∉ (fkColumns plan).flatMap RelationColumn.names := by
        intro hmem
        obtain ⟨rel, hrel, hnames⟩ := List.mem_flatMap.mp hmem
        exact hn (fkColumns_names_mem hrel hnames).1
      rw [write_accepted_fields, patchFrom_of_notMem hnotin, Payload.get?_nil, Option.getD_none,
        ite_self]
  · refine ⟨r, ?_, rfl, rfl, fun _ _ => rfl⟩
    rw [World.editRecord_records_self]
    exact mem_modifyAt.mpr (Or.inl ⟨hr, hid⟩)

end Steps

/-! ### Runs -/

/-- **A migration leaves alone what is not planned.** Take any state, and migrate any number of
times, from any sources, with any calls failing and any run cut off. No field and no record goes
away, a record keeps its key and every field that is none of its plan, and the collections that no
table is planned for keep their records. -/
theorem migrate_preserves (m : MigrationPlan) (w₀ w : World)
    (hreach : Reachable (fun w => w = w₀)
      (fun run => ∃ o cfg source, run = migrate o cfg m source) w) : Preserves m w₀ w := by
  refine hreach.invariant (fun w hw => hw ▸ Preserves.refl m w) ?_
  rintro _ ⟨o, cfg, source, rfl⟩
  refine migrate_rule (fun plan hplan => ?_) (fun plan hplan => ?_) fun w w' hgrown h =>
    h.trans (Preserves.of_schemaGrown hgrown)
  · refine migrateTablePass1_writes (J := fun _ => Preserves m w₀) (fun _ _ h _ => h) ?_ ?_
      fun _ _ h => h
    · exact fun row _ oldId hkey id map w w' _ h hwritten =>
        h.trans (hwritten.preserves hkey hplan)
    · exact fun row _ oldId hkey map w w' h hwritten => h.trans (hwritten.preserves hkey hplan)
  · exact resolveRelationsPass2_rule (fun w record maps h _ _ =>
      h.trans (patch_preserves hplan record maps w)) fun _ h => h

end Preservation

section Example

attribute [local instance] asciiLetterCase

/-- The notes, migrated over what an earlier migration has left, with all patches failing. -/
theorem migrate_preserves_notes :
    Preserves notesPlan (notesWorld notesSource)
      (migrate (failing isPatch) notesConfig notesPlan shortSource (notesWorld notesSource)).2 :=
  migrate_preserves notesPlan _ _
    (.run (.start rfl) ⟨failing isPatch, notesConfig, shortSource, rfl⟩)

end Example

end Mogo
