import Mathlib.Logic.Equiv.Basic
import Mogo.RowIdentity

/-!
# Paging the Source

The batch loop of the first pass asks for ranges of the table, one after the other, in the order of
the primary key. Where such a query fails, it asks for the same range without an order, and then
the source may answer from any order of the rows. A source that answers a range in full, or has no
more rows than it answers with, is read completely if it fits into one batch or if no ordered query
fails; otherwise the rows of a range without an order may be rows of another range.

## Main results

* `migrateBatches_loop`: the batch loop is the row loop over the rows that are delivered.
* `sourcePaging`: when every row is processed once.
* `not_processesAll`: a short answer that ends the loop, and a range without an order.
-/

namespace Mogo

open Script

section Paging

variable {o : Oracle} {cfg : Config} {plan : TablePlan} {src : SourceTable}

/-- The rows the batch loop runs its body on, in order, with their positions. -/
def processedRows (o : Oracle) (cfg : Config) (src : SourceTable) (plan : TablePlan) :
    List (Row × ℕ) :=
  delivered o cfg src plan (src.rows.length + 1) 0

/-- Every row of the table is processed once. -/
def ProcessesAll (o : Oracle) (cfg : Config) (src : SourceTable) (plan : TablePlan) : Prop :=
  ((processedRows o cfg src plan).map Prod.fst).Perm src.rows

/-- The batch loop comes to its end, whatever its budget, and has run its body once for each of
these rows. -/
def LoopsOver [LetterCase] (o : Oracle) (cfg : Config) (src : SourceTable) (plan : TablePlan)
    (rows : List (Row × ℕ)) : Prop :=
  ∀ fuel, src.rows.length < fuel → ∀ map w,
    migrateBatches o cfg src plan fuel 0 map w =
      (forEach rows map (fun x map => migrateRow o plan x.1 x.2 map) >>= fun _ => pure ()) w

/-! ### The rows of the loop -/

/-- **The batch loop** is the row loop over the rows that are delivered. -/
theorem migrateBatches_loop [LetterCase] (ho : o.Uninterrupted) (fuel offset : ℕ)
    (map : String → Option RecordId) (w : World) :
    migrateBatches o cfg src plan fuel offset map w =
      (forEach (delivered o cfg src plan fuel offset) map
        (fun x map => migrateRow o plan x.1 x.2 map) >>= fun _ => pure ()) w := by
  induction fuel generalizing offset map w with
  | zero => rfl
  | succ fuel ih =>
      rw [migrateBatches, delivered, bind_run_of_eq (fetchSupabaseBatch_run ho ..)]
      cases fetched o src plan.table plan.primaryKey offset (offset + cfg.batchSize - 1) with
      | none => rfl
      | some rows =>
          dsimp only
          by_cases hnil : rows = []
          · rw [if_pos hnil, if_pos hnil]
            rfl
          · rw [if_neg hnil, if_neg hnil, bind_run, bind_run, forEach_append, bind_run]
            rcases forEach (rows.zipIdx offset) map
              (fun x map => migrateRow o plan x.1 x.2 map) w with ⟨- | map', w'⟩
            · rfl
            · dsimp only
              by_cases hlast : rows.length < cfg.batchSize
              · rw [if_pos hlast, if_pos hlast]
                rfl
              · rw [if_neg hlast, if_neg hlast]
                exact ih ..

/-- A budget that reaches behind the last row is as good as any larger one. -/
theorem delivered_fuel {fuel fuel' offset : ℕ} (h : src.rows.length < offset + fuel)
    (hle : fuel ≤ fuel') :
    delivered o cfg src plan fuel' offset = delivered o cfg src plan fuel offset := by
  induction fuel generalizing offset fuel' with
  | zero => rw [delivered_behind (by omega), delivered_behind (by omega)]
  | succ fuel ih =>
      have hpos := cfg.batchSize_pos
      cases fuel' with
      | zero => omega
      | succ fuel' => rw [delivered, delivered, ih (by omega) (Nat.le_of_succ_le_succ hle)]

/-- A row that is delivered is on one of the pages. -/
theorem mem_delivered {fuel offset : ℕ} {x : Row × ℕ}
    (h : x ∈ delivered o cfg src plan fuel offset) :
    ∃ k rows, fetched o src plan.table plan.primaryKey (offset + k * cfg.batchSize)
        (offset + k * cfg.batchSize + cfg.batchSize - 1) = some rows ∧ x.1 ∈ rows := by
  induction fuel generalizing offset with
  | zero => exact absurd h List.not_mem_nil
  | succ fuel ih =>
      rw [delivered] at h
      cases hfetched : fetched o src plan.table plan.primaryKey offset
          (offset + cfg.batchSize - 1) with
      | none =>
          rw [hfetched] at h
          exact absurd h List.not_mem_nil
      | some rows =>
          rw [hfetched] at h
          dsimp only at h
          split at h
          · exact absurd h List.not_mem_nil
          · rcases List.mem_append.mp h with h | h
            · refine ⟨0, rows, ?_, List.fst_mem_of_mem_zipIdx h⟩
              rwa [Nat.zero_mul, Nat.add_zero]
            · split at h
              · exact absurd h List.not_mem_nil
              · obtain ⟨k, rows', hfetched', hx⟩ := ih h
                refine ⟨k + 1, rows', ?_, hx⟩
                rwa [Nat.succ_mul, Nat.add_comm (k * _), ← Nat.add_assoc]

/-- A table that fits into one batch is processed in the order its query sees. -/
theorem processedRows_single (hbatch : src.rows.length ≤ cfg.batchSize)
    (hcap : src.rows.length ≤ src.maxRows)
    (hfetch : o (.fetchOrdered plan.table 0) = .ok ∨ o (.fetchUnordered plan.table 0) = .ok) :
    processedRows o cfg src plan = (pageOrder o src plan.table 0).zipIdx := by
  have hlength := (pageOrder_perm o src plan.table 0).length_eq
  have hfetched := fetched_eq cfg src hfetch
  rw [List.drop_zero, List.take_of_length_le (by omega)] at hfetched
  rw [processedRows, delivered, hfetched]
  dsimp only
  by_cases hnil : pageOrder o src plan.table 0 = []
  · rw [if_pos hnil, hnil, List.zipIdx_nil]
  · rw [if_neg hnil]
    by_cases hlast : (pageOrder o src plan.table 0).length < cfg.batchSize
    · rw [if_pos hlast, List.append_nil]
    · rw [if_neg hlast, delivered_behind (by omega), List.append_nil]

end Paging

/-! ### A range without an order -/

/-- Row `i` of a table of numbered rows. -/
def numberedRow (i : ℕ) : Row := [("id", .string (String.ofList (List.replicate i 'i')))]

/-- Numbered rows differ in their numbers. -/
theorem numberedRow_injective : Function.Injective numberedRow := by
  intro i j h
  have hids : String.ofList (List.replicate i 'i') = String.ofList (List.replicate j 'i') := by
    simpa [numberedRow] using h
  have hlength := congrArg String.length hids
  simpa using hlength

/-- The numbered rows, those of two numbers exchanged. -/
def exchangedRows (n i j : ℕ) : List Row :=
  (List.range n).map fun p => numberedRow (Equiv.swap i j p)

/-- Exchanging two rows is another order of the same rows. -/
theorem exchangedRows_perm {n i j : ℕ} (hi : i < n) (hj : j < n) :
    (exchangedRows n i j).Perm ((List.range n).map numberedRow) := by
  have hlt : ∀ p, p < n → Equiv.swap i j p < n := by
    intro p hp
    rw [Equiv.swap_apply_def]
    split_ifs <;> assumption
  have hrange : ((List.range n).map (Equiv.swap i j)).Perm (List.range n) := by
    refine (List.perm_ext_iff_of_nodup ?_ List.nodup_range).mpr fun p => ?_
    · exact List.nodup_range.map (Equiv.swap i j).injective
    · rw [List.mem_map, List.mem_range]
      constructor
      · rintro ⟨q, hq, rfl⟩
        exact hlt q (List.mem_range.mp hq)
      · exact fun hp => ⟨Equiv.swap i j p, List.mem_range.mpr (hlt p hp), Equiv.swap_apply_self ..⟩
  rw [exchangedRows, ← Function.comp_def numberedRow, ← List.map_map]
  exact hrange.map numberedRow

/-- A table of numbered rows, that sees two of them exchanged in the range from `start` when it is
asked without an order. -/
def exchangingSource (n m start other : ℕ) (hm : 0 < m) (hstart : start < n) (hother : other < n) :
    SourceTable where
  rows := (List.range n).map numberedRow
  unordered := fun i =>
    if i = start then exchangedRows n start other else (List.range n).map numberedRow
  unordered_perm := by
    intro i
    split
    · exact exchangedRows_perm hstart hother
    · exact List.Perm.refl _
  maxRows := m
  maxRows_pos := hm

/-- A row of a range of an enumerated table is the row at one of the range's positions. -/
theorem exists_of_mem_slice {f : ℕ → Row} {n i b : ℕ} {row : Row}
    (h : row ∈ (((List.range n).map f).drop i).take b) : ∃ p, i ≤ p ∧ p < i + b ∧ f p = row := by
  rw [← List.map_drop, ← List.map_take] at h
  obtain ⟨p, hp, rfl⟩ := List.mem_map.mp h
  obtain ⟨q, hq, rfl⟩ := List.mem_take_iff_getElem.mp hp
  rw [List.getElem_drop, List.getElem_range]
  exact ⟨i + q, by omega, by omega, rfl⟩

/-- Where the range from `k * batchSize` has to be asked for without an order, and the source
exchanges its first row with a row of another range, that row is not processed. -/
theorem not_processesAll_exchanging {o : Oracle} {cfg : Config} {plan : TablePlan}
    (hfallback : ∀ start, o (.fetchUnordered plan.table start) = .ok) {n m k other : ℕ}
    (hm : 0 < m) (hstart : k * cfg.batchSize < n) (hother : other < n)
    (hout : other < k * cfg.batchSize ∨ k * cfg.batchSize + cfg.batchSize ≤ other)
    (hfail : o (.fetchOrdered plan.table (k * cfg.batchSize)) ≠ .ok) :
    ¬ ProcessesAll o cfg (exchangingSource n m (k * cfg.batchSize) other hm hstart hother)
      plan := by
  intro hperm
  have hmem : numberedRow (k * cfg.batchSize) ∈ (List.range n).map numberedRow :=
    List.mem_map_of_mem (List.mem_range.mpr hstart)
  obtain ⟨x, hx, hrow⟩ := List.mem_map.mp (hperm.mem_iff.mpr hmem)
  obtain ⟨j, rows, hfetched, hrows⟩ := mem_delivered hx
  rw [Nat.zero_add, fetched_eq cfg _ (Or.inr (hfallback _))] at hfetched
  obtain rfl := Option.some.inj hfetched
  rw [hrow, pageOrder] at hrows
  by_cases hj : j * cfg.batchSize = k * cfg.batchSize
  · -- on its own page another row stands in its place
    have hself : (exchangingSource n m (k * cfg.batchSize) other hm hstart hother).unordered
        (k * cfg.batchSize) = exchangedRows n (k * cfg.batchSize) other := if_pos rfl
    rw [hj, if_neg hfail, hself] at hrows
    obtain ⟨p, hle, hlt, hp⟩ := exists_of_mem_slice hrows
    have hother : p = other := by
      rw [Equiv.swap_apply_eq_iff.mp (numberedRow_injective hp), Equiv.swap_apply_left]
    omega
  · -- the other pages hold the rows of their range
    have hpage : (if o (.fetchOrdered plan.table (j * cfg.batchSize)) = .ok then
        (exchangingSource n m (k * cfg.batchSize) other hm hstart hother).rows else
          (exchangingSource n m (k * cfg.batchSize) other hm hstart hother).unordered
            (j * cfg.batchSize)) = (List.range n).map numberedRow :=
      (ite_eq_left_iff.mpr fun _ => if_neg hj)
    rw [hpage] at hrows
    obtain ⟨p, hle, hlt, hp⟩ := exists_of_mem_slice hrows
    obtain rfl := numberedRow_injective hp
    have hjk : j ≤ k := Nat.le_of_mul_le_mul_right hle cfg.batchSize_pos
    have hkj : k < j + 1 := by
      refine Nat.lt_of_mul_lt_mul_right (a := cfg.batchSize) ?_
      rw [Nat.succ_mul]
      omega
    exact hj (by rw [show j = k by omega])

/-! ### When all rows are processed -/

/-- **Paging.** Take any number of rows, any batch size and any number of rows that the source
answers with, such that it answers batches in full or has no more rows than that; and any ordered
queries that fail, where no query without an order does. The batch loop comes to its end. Every row
of every such table is processed once, whatever order the queries without one see, exactly if the
table fits into one batch or every ordered query for a range that starts inside it is answered. -/
theorem sourcePaging [LetterCase] (o : Oracle) (ho : o.Uninterrupted) (cfg : Config)
    (plan : TablePlan) (hfallback : ∀ start, o (.fetchUnordered plan.table start) = .ok) (n m : ℕ)
    (hcap : cfg.batchSize ≤ m ∨ n ≤ m) :
    (∀ src : SourceTable, src.rows.length = n → src.maxRows = m →
      LoopsOver o cfg src plan (processedRows o cfg src plan)) ∧
    ((∀ src : SourceTable, src.rows.length = n → src.maxRows = m → ProcessesAll o cfg src plan) ↔
      n ≤ cfg.batchSize ∨
        ∀ k, k * cfg.batchSize < n → o (.fetchOrdered plan.table (k * cfg.batchSize)) = .ok) := by
  have hpos := cfg.batchSize_pos
  refine ⟨fun src _ _ fuel hfuel map w => ?_, fun hall => ?_, ?_⟩
  · rw [migrateBatches_loop ho, processedRows, delivered_fuel (by omega) hfuel]
  · by_contra hnot
    rw [not_or, not_le] at hnot
    obtain ⟨hn, hfails⟩ := hnot
    obtain ⟨k, hk⟩ := not_forall.mp hfails
    rw [Classical.not_imp] at hk
    obtain ⟨other, hother, hout⟩ : ∃ other < n,
        other < k * cfg.batchSize ∨ k * cfg.batchSize + cfg.batchSize ≤ other := by
      cases k with
      | zero => exact ⟨cfg.batchSize, hn, by omega⟩
      | succ k =>
          refine ⟨0, by omega, Or.inl ?_⟩
          rw [Nat.succ_mul]
          omega
    exact not_processesAll_exchanging hfallback (by omega) hk.1 hother hout hk.2
      (hall _ (by rw [exchangingSource, List.length_map, List.length_range]) rfl)
  · rintro hcond src rfl rfl
    by_cases hn : src.rows.length ≤ cfg.batchSize
    · rw [ProcessesAll, processedRows_single hn (by omega) (Or.inr (hfallback 0)),
        List.zipIdx_map_fst]
      exact pageOrder_perm o src plan.table 0
    · have hok := hcond.resolve_left hn
      rw [ProcessesAll, processedRows, delivered_ordered (by omega) (fun k hk => ?_) (by omega),
        List.drop_zero, List.zipIdx_map_fst]
      rw [Nat.zero_add] at hk ⊢
      exact hok k hk

section Example

attribute [local instance] asciiLetterCase

/-- A configuration with batches of as many rows. -/
def batchesOf (n : ℕ) (hn : 0 < n) : Config := ⟨n, 1, hn, Nat.one_pos⟩

/-- The ordered query for the range from `start` fails. -/
def orderFails (start : ℕ) : Call → Bool := fun c => c = .fetchOrdered "users" start

/-- Two users in one batch, in the order of a query without one. -/
theorem sourcePaging_users :
    LoopsOver (failing (orderFails 0)) (batchesOf 2 (by omega))
        (exchangingSource 2 2 0 1 (by omega) (by omega) (by omega)) usersPlan
        (processedRows (failing (orderFails 0)) (batchesOf 2 (by omega))
          (exchangingSource 2 2 0 1 (by omega) (by omega) (by omega)) usersPlan) ∧
      ProcessesAll (failing (orderFails 0)) (batchesOf 2 (by omega))
        (exchangingSource 2 2 0 1 (by omega) (by omega) (by omega)) usersPlan := by
  have h := sourcePaging (failing (orderFails 0)) (failing_uninterrupted _)
    (batchesOf 2 (by omega)) usersPlan (fun _ => rfl) 2 2 (Or.inl le_rfl)
  exact ⟨h.1 _ rfl rfl, h.2.mpr (Or.inl le_rfl) _ rfl rfl⟩

/-- **Rows that are not processed.** A source that answers with one row at a time ends the loop
after the first batch of two. And in batches of one, where the second range has to be asked for
without an order, the source may answer it with the first row once more. -/
theorem not_processesAll :
    ¬ ProcessesAll allOk (batchesOf 2 (by omega))
        (exchangingSource 2 1 0 1 (by omega) (by omega) (by omega)) usersPlan ∧
      (∀ start, failing (orderFails 1) (.fetchUnordered usersPlan.table start) = .ok) ∧
      ¬ ProcessesAll (failing (orderFails 1)) (batchesOf 1 (by omega))
        (exchangingSource 2 1000 1 0 (by omega) (by omega) (by omega)) usersPlan := by
  refine ⟨fun h => ?_, fun _ => rfl, fun h => ?_⟩
  · have hlength : ((processedRows allOk (batchesOf 2 (by omega))
        (exchangingSource 2 1 0 1 (by omega) (by omega) (by omega)) usersPlan).map
          Prod.fst).length = 1 := by decide +kernel
    rw [h.length_eq] at hlength
    exact absurd hlength (by decide)
  · exact not_processesAll_exchanging (k := 1) (fun _ => rfl) (by omega) (by decide) (by omega)
      (by decide) (by decide) h

end Example

end Mogo
