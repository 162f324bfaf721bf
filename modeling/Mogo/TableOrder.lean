import Mogo.Plan

/-!
# The Order of the Tables

`topologicalSortTables` takes the configured tables and the foreign keys of their plans to the
order of the migration. It is Kahn's algorithm: a table waits for the listed tables its foreign
keys refer to, other than itself, and a foreign key that refers to the table itself or to a table
that is not listed says nothing about the order.

## Main results

* `topologicalSortTables_correct`: the sort ends, permutes the list, puts every table after the
  tables it refers to when no chain of references comes back, and else leaves the list as it is.
* `MigrationPlan.topologicalSortTables_eq`: the order of a migration is this sort.
-/

open Relation

namespace Mogo

/-- The tables the foreign keys of a table refer to, as often as they do. -/
def foreignTables (foreignKeys : String → List PlannedForeignKey) (table : String) :
    List String := (foreignKeys table).map fun fk => fk.references.table

/-- `topologicalSortTables`, for the foreign keys of the plan of each table. -/
def topologicalSortTables (tables : List String)
    (foreignKeys : String → List PlannedForeignKey) : List String :=
  kahn tables (foreignTables foreignKeys)

/-- A listed table refers to another listed table. -/
def RefersTo (tables : List String) (foreignKeys : String → List PlannedForeignKey)
    (table parent : String) : Prop :=
  table ∈ tables ∧ parent ∈ tables ∧ table ≠ parent ∧
    ∃ fk ∈ foreignKeys table, fk.references.table = parent

/-- The `while (queue.length)` loop of the sort ends, with a list of sorted tables. -/
def SortEnds (tables : List String) (foreignKeys : String → List PlannedForeignKey)
    (result : List String) : Prop :=
  let g := kahnGraph tables (foreignTables foreignKeys)
  KahnRun g.children g.indegree (tables.filter fun t => g.indegree t = 0) [] result

variable {tables : List String} {foreignKeys : String → List PlannedForeignKey}

/-- The edges of the graph are the references between listed tables. -/
theorem edge_iff_refersTo {parent table : String} :
    Edge tables (foreignTables foreignKeys) parent table ↔
      RefersTo tables foreignKeys table parent := by
  rw [Edge, RefersTo, foreignTables, List.mem_map]
  constructor
  · rintro ⟨hparent, htable, hne, href⟩
    exact ⟨htable, hparent, hne.symm, href⟩
  · rintro ⟨htable, hparent, hne, href⟩
    exact ⟨hparent, htable, hne.symm, href⟩

/-- A cycle of edges is a cycle of references, read backwards. -/
theorem transGen_edge_iff {a b : String} :
    TransGen (Edge tables (foreignTables foreignKeys)) a b ↔
      TransGen (RefersTo tables foreignKeys) b a := by
  have hedge : Edge tables (foreignTables foreignKeys) =
      Function.swap (RefersTo tables foreignKeys) := by
    funext parent table
    exact propext edge_iff_refersTo
  rw [hedge, transGen_swap]

/-- **Table ordering.** The loop ends; what `topologicalSortTables` returns is a permutation of
the list; when no chain of references between listed tables comes back to its start, every table
comes after the listed tables it refers to; and when one does, the list is returned as it was. -/
theorem topologicalSortTables_correct (tables : List String) (htables : tables.Nodup)
    (foreignKeys : String → List PlannedForeignKey) :
    (∃ result, SortEnds tables foreignKeys result ∧
      topologicalSortTables tables foreignKeys =
        if result.length = tables.length then result else tables) ∧
      (topologicalSortTables tables foreignKeys).Perm tables ∧
      ((∀ t, ¬ TransGen (RefersTo tables foreignKeys) t t) →
        ∀ pre t post, topologicalSortTables tables foreignKeys = pre ++ t :: post →
          ∀ parent, RefersTo tables foreignKeys t parent → parent ∈ pre) ∧
      ((∃ t, TransGen (RefersTo tables foreignKeys) t t) →
        topologicalSortTables tables foreignKeys = tables) := by
  refine ⟨⟨_, (kahnResult_spec htables _).1, kahn_eq tables _⟩, kahn_perm htables _, ?_, ?_⟩
  · intro hacyclic pre t post hsplit parent href
    refine kahn_sorted htables (fun n hcycle => ?_) hsplit (edge_iff_refersTo.mpr href)
    exact hacyclic n (transGen_edge_iff.mp hcycle)
  · rintro ⟨t, hcycle⟩
    exact kahn_of_cycle htables (transGen_edge_iff.mpr hcycle)

/-- The keys of `matches` refer to `matches` itself, twice to `users`, and to a table that is not
listed. -/
def matchForeignKeys (table : String) : List PlannedForeignKey :=
  if table = "matches" then
    [⟨"user_id", ⟨"users", "id"⟩, "users"⟩, ⟨"rematch_of", ⟨"matches", "id"⟩, "matches"⟩,
      ⟨"winner_id", ⟨"users", "id"⟩, "users"⟩, ⟨"venue_id", ⟨"venues", "id"⟩, "venues"⟩]
  else []

/-- The table `matches`, listed first, is migrated after `users`. -/
theorem topologicalSortTables_correct_matches :
    ["matches", "users"].Nodup ∧
      (topologicalSortTables ["matches", "users"] matchForeignKeys).Perm ["matches", "users"] ∧
      topologicalSortTables ["matches", "users"] matchForeignKeys = ["users", "matches"] :=
  have hnodup : ["matches", "users"].Nodup := by simp
  ⟨hnodup, (topologicalSortTables_correct _ hnodup matchForeignKeys).2.1, by decide⟩

/-- The order of a migration is the sort of its planned tables by the keys of their plans. -/
theorem MigrationPlan.topologicalSortTables_eq (m : MigrationPlan) :
    m.topologicalSortTables = Mogo.topologicalSortTables (m.plans.map TablePlan.table)
      fun t => ((m.plansByTable t).map TablePlan.foreignKeys).getD [] := by
  have hrefs : m.referencedTables = foreignTables fun t =>
      ((m.plansByTable t).map TablePlan.foreignKeys).getD [] := by
    funext t
    rw [MigrationPlan.referencedTables, foreignTables]
    cases m.plansByTable t with
    | none => rfl
    | some p => rfl
  rw [MigrationPlan.topologicalSortTables, Mogo.topologicalSortTables, hrefs]

end Mogo
