import Mathlib.Data.Set.Finite.Basic
import Mathlib.Data.List.Nodup
import Mathlib.Logic.Function.Basic
import Mathlib.Logic.Relation
import Mathlib.Order.WellFounded

/-!
# Kahn's Algorithm

A topological sort by counting. Every node carries the number of its parents that are not yet
sorted; the nodes whose count is zero wait in a queue; sorting the head of the queue lowers the
counts of its children and puts those that reach zero at the end of the queue. When the queue
runs empty before all nodes are sorted the graph has a cycle, and the input order is returned.

The graph is given by `refs`, the list of nodes a node refers to. References to the node itself
and to nodes outside the list are skipped, and repeated references count once.

The proof rests on one invariant, `KahnInv`: a count is the number of parents outside the
result, and a node stands in the result or in the queue exactly when its count is zero.

## Main results

* `kahn_perm`: the result is a permutation of the input.
* `kahn_sorted`: on an acyclic graph every node comes after its parents.
* `length_kahnResult_iff`, `kahn_of_cycle`: a cycle is exactly what makes the loop sort fewer
  nodes than there are, and then the result is the input.
* `kahnResult_spec`: the loop ends by itself, with an empty queue.
-/

open Relation

namespace Mogo

variable {α : Type} [DecidableEq α]

/-- The graph as the algorithm keeps it: for every node the nodes waiting for it, in the order
in which their references were met, and the number of nodes it waits for. -/
structure KahnGraph (α : Type) where
  children : α → List α
  indegree : α → ℕ

/-- Record that `child` waits for `parent`, once. -/
def KahnGraph.addEdge (g : KahnGraph α) (parent child : α) : KahnGraph α :=
  if child ∈ g.children parent then g
  else
    { children := Function.update g.children parent (g.children parent ++ [child])
      indegree := Function.update g.indegree child (g.indegree child + 1) }

/-- Record all references of one node. -/
def KahnGraph.addRefs (nodes : List α) (refs : α → List α) (g : KahnGraph α) (node : α) :
    KahnGraph α :=
  (refs node).foldl
    (fun g parent => if parent ∉ nodes ∨ parent = node then g else g.addEdge parent node) g

/-- The graph of a list of nodes, to which the references of one node after the other are added. -/
def kahnGraph (nodes : List α) (refs : α → List α) : KahnGraph α :=
  nodes.foldl (KahnGraph.addRefs nodes refs) ⟨fun _ => [], fun _ => 0⟩

/-- One child of the node just sorted: its count goes down, and at zero it is queued. -/
def relax (s : (α → ℕ) × List α) (child : α) : (α → ℕ) × List α :=
  (Function.update s.1 child (s.1 child - 1),
    if s.1 child - 1 = 0 then s.2 ++ [child] else s.2)

/-- The loop of the algorithm: sort the head of the queue until the queue is empty. -/
def kahnLoop (children : α → List α) :
    (fuel : ℕ) → (indegree : α → ℕ) → (queue result : List α) → List α
  | 0, _, _, result => result
  | _ + 1, _, [], result => result
  | fuel + 1, indegree, current :: queue, result =>
    let s := (children current).foldl relax (indegree, queue)
    kahnLoop children fuel s.1 s.2 (result ++ [current])

/-- The same loop without a bound on its turns: a run ends when the queue is empty. -/
inductive KahnRun (children : α → List α) : (α → ℕ) → List α → List α → List α → Prop
  | done (indegree : α → ℕ) (result : List α) : KahnRun children indegree [] result result
  | turn {indegree : α → ℕ} {current : α} {queue result final : List α}
      (h : KahnRun children ((children current).foldl relax (indegree, queue)).1
        ((children current).foldl relax (indegree, queue)).2 (result ++ [current]) final) :
      KahnRun children indegree (current :: queue) result final

/-- **Kahn's algorithm**, with the input order as the answer for a cyclic graph. -/
def kahn (nodes : List α) (refs : α → List α) : List α :=
  let g := kahnGraph nodes refs
  let result := kahnLoop g.children nodes.length g.indegree
    (nodes.filter fun n => g.indegree n = 0) []
  if result.length = nodes.length then result else nodes

/-- `parent` must be sorted before `child`: both are nodes, they differ, and `child` refers to
`parent`. -/
def Edge (nodes : List α) (refs : α → List α) (parent child : α) : Prop :=
  parent ∈ nodes ∧ child ∈ nodes ∧ parent ≠ child ∧ parent ∈ refs child

/-! ### Counting -/

omit [DecidableEq α] in
/-- A predicate that gains one element of a duplicate-free list counts one more. -/
theorem countP_gain {l : List α} (hl : l.Nodup) {p q : α → Bool} {a : α} (ha : a ∈ l)
    (hp : p a = false) (hq : q a = true) (hpq : ∀ b, b ≠ a → q b = p b) :
    l.countP q = l.countP p + 1 := by
  obtain ⟨l₁, l₂, rfl⟩ := List.append_of_mem ha
  rw [List.nodup_middle, List.nodup_cons] at hl
  have hne : ∀ b ∈ l₁ ++ l₂, b ≠ a := fun b hb he => hl.1 (he ▸ hb)
  have h₁ : l₁.countP q = l₁.countP p :=
    List.countP_congr fun b hb => by rw [hpq b (hne b (List.mem_append_left l₂ hb))]
  have h₂ : l₂.countP q = l₂.countP p :=
    List.countP_congr fun b hb => by rw [hpq b (hne b (List.mem_append_right l₁ hb))]
  rw [List.countP_append, List.countP_append, List.countP_cons_of_pos hq,
    List.countP_cons_of_neg (by rw [hp]; exact Bool.false_ne_true), h₁, h₂, Nat.add_assoc]

/-! ### The graph -/

/-- What the graph records of the edges met so far. -/
structure GraphInv (nodes : List α) (g : KahnGraph α) : Prop where
  nodup : ∀ p, (g.children p).Nodup
  mem_nodes : ∀ p c, c ∈ g.children p → p ∈ nodes
  indegree : ∀ c, g.indegree c = nodes.countP fun p => c ∈ g.children p

/-- An edge that has been recorded stays, and only the recorded edge is new. -/
theorem KahnGraph.mem_children_addEdge {g : KahnGraph α} {parent child p c : α} :
    c ∈ (g.addEdge parent child).children p ↔
      c ∈ g.children p ∨ (p = parent ∧ c = child) := by
  rw [KahnGraph.addEdge]
  split
  next hold =>
    constructor
    · exact Or.inl
    · rintro (h | ⟨rfl, rfl⟩)
      · exact h
      · exact hold
  next =>
    dsimp only
    by_cases hpp : p = parent
    · subst hpp
      rw [Function.update_self]
      simp only [List.mem_append, List.mem_singleton, true_and]
    · rw [Function.update_of_ne hpp]
      simp only [hpp, false_and, or_false]

/-- An edge between nodes keeps the counts right. -/
theorem GraphInv.addEdge {nodes : List α} (hn : nodes.Nodup) {g : KahnGraph α}
    (h : GraphInv nodes g) {parent : α} (hp : parent ∈ nodes) (child : α) :
    GraphInv nodes (g.addEdge parent child) := by
  by_cases hold : child ∈ g.children parent
  · rwa [KahnGraph.addEdge, if_pos hold]
  have hg' : g.addEdge parent child =
      { children := Function.update g.children parent (g.children parent ++ [child])
        indegree := Function.update g.indegree child (g.indegree child + 1) } := if_neg hold
  refine ⟨fun p => ?_, fun p c hc => ?_, fun c => ?_⟩
  · rw [hg']
    dsimp only
    by_cases hpp : p = parent
    · subst hpp
      rw [Function.update_self]
      exact List.nodup_append.mpr ⟨h.nodup p, List.nodup_singleton child, by
        rintro a ha b hb rfl
        rw [List.mem_singleton] at hb
        exact hold (hb ▸ ha)⟩
    · rw [Function.update_of_ne hpp]
      exact h.nodup p
  · rcases KahnGraph.mem_children_addEdge.mp hc with hc | ⟨rfl, -⟩
    · exact h.mem_nodes p c hc
    · exact hp
  · by_cases hcc : c = child
    · have hind : (g.addEdge parent child).indegree c = g.indegree child + 1 := by
        rw [hg', hcc]
        exact Function.update_self ..
      subst hcc
      rw [hind, h.indegree c]
      refine (countP_gain hn hp (decide_eq_false hold)
        (decide_eq_true (KahnGraph.mem_children_addEdge.mpr (Or.inr ⟨rfl, rfl⟩)))
        fun p hpp => decide_eq_decide.mpr ?_).symm
      rw [KahnGraph.mem_children_addEdge]
      simp only [hpp, false_and, or_false]
    · have hind : (g.addEdge parent child).indegree c = g.indegree c := by
        rw [hg']
        exact Function.update_of_ne hcc ..
      rw [hind, h.indegree c]
      refine List.countP_congr fun p _ => ?_
      rw [decide_eq_true_iff, decide_eq_true_iff, KahnGraph.mem_children_addEdge]
      simp only [hcc, and_false, or_false]

/-- Recording the references of one node, edge by edge, makes it a child of each of them that is
another node of the graph. -/
theorem addRefs_spec {nodes : List α} (hn : nodes.Nodup) (node : α) (rs : List α)
    {g : KahnGraph α} (h : GraphInv nodes g) :
    GraphInv nodes (rs.foldl (fun g parent =>
        if parent ∉ nodes ∨ parent = node then g else g.addEdge parent node) g) ∧
      ∀ p c, c ∈ (rs.foldl (fun g parent =>
          if parent ∉ nodes ∨ parent = node then g else g.addEdge parent node) g).children p ↔
        c ∈ g.children p ∨ (c = node ∧ p ∈ rs ∧ p ∈ nodes ∧ p ≠ node) := by
  induction rs generalizing g with
  | nil => exact ⟨h, fun p c => by simp only [List.foldl_nil, List.not_mem_nil, false_and,
      and_false, or_false]⟩
  | cons r rs ih =>
      rw [List.foldl_cons]
      split
      next hskip =>
        obtain ⟨hi, hc⟩ := ih h
        refine ⟨hi, fun p c => ?_⟩
        rw [hc, List.mem_cons]
        constructor
        · rintro (h | ⟨h1, h2, h3⟩)
          · exact Or.inl h
          · exact Or.inr ⟨h1, Or.inr h2, h3⟩
        · rintro (h | ⟨h1, rfl | h2, h3, h4⟩)
          · exact Or.inl h
          · exact absurd hskip (by simp only [h3, h4, not_true_eq_false, or_self,
              not_false_eq_true])
          · exact Or.inr ⟨h1, h2, h3, h4⟩
      next hadd =>
        obtain ⟨hmem, hne⟩ : r ∈ nodes ∧ r ≠ node := by
          rw [not_or, not_not] at hadd
          exact hadd
        obtain ⟨hi, hc⟩ := ih (h.addEdge hn hmem node)
        refine ⟨hi, fun p c => ?_⟩
        rw [hc, KahnGraph.mem_children_addEdge, List.mem_cons]
        constructor
        · rintro ((h | ⟨rfl, rfl⟩) | ⟨h1, h2, h3⟩)
          · exact Or.inl h
          · exact Or.inr ⟨rfl, Or.inl rfl, hmem, hne⟩
          · exact Or.inr ⟨h1, Or.inr h2, h3⟩
        · rintro (h | ⟨h1, rfl | h2, h3⟩)
          · exact Or.inl (Or.inl h)
          · exact Or.inl (Or.inr ⟨rfl, h1⟩)
          · exact Or.inr ⟨h1, h2, h3⟩

/-- The graph of a list: its counts are right, and its edges are the references of the nodes
of the list to other nodes of the list. -/
theorem kahnGraph_spec {nodes : List α} (hn : nodes.Nodup) (refs : α → List α) :
    GraphInv nodes (kahnGraph nodes refs) ∧
      ∀ p c, c ∈ (kahnGraph nodes refs).children p ↔ Edge nodes refs p c := by
  have hfold : ∀ (todo : List α) (g : KahnGraph α), GraphInv nodes g →
      GraphInv nodes (todo.foldl (KahnGraph.addRefs nodes refs) g) ∧
        ∀ p c, c ∈ (todo.foldl (KahnGraph.addRefs nodes refs) g).children p ↔
          c ∈ g.children p ∨ (c ∈ todo ∧ p ∈ refs c ∧ p ∈ nodes ∧ p ≠ c) := by
    intro todo
    induction todo with
    | nil =>
        exact fun g h => ⟨h, fun p c => by simp only [List.foldl_nil, List.not_mem_nil,
          false_and, or_false]⟩
    | cons node todo ih =>
        intro g h
        obtain ⟨hi, hc⟩ := addRefs_spec hn node (refs node) h
        obtain ⟨hi', hc'⟩ := ih (g.addRefs nodes refs node) hi
        refine ⟨hi', fun p c => ?_⟩
        rw [List.foldl_cons, hc', KahnGraph.addRefs, hc, List.mem_cons]
        constructor
        · rintro ((h | ⟨rfl, h⟩) | ⟨h1, h2⟩)
          · exact Or.inl h
          · exact Or.inr ⟨Or.inl rfl, h⟩
          · exact Or.inr ⟨Or.inr h1, h2⟩
        · rintro (h | ⟨rfl | h1, h2⟩)
          · exact Or.inl (Or.inl h)
          · exact Or.inl (Or.inr ⟨rfl, h2⟩)
          · exact Or.inr ⟨h1, h2⟩
  have hempty : GraphInv nodes (⟨fun _ => [], fun _ => 0⟩ : KahnGraph α) :=
    ⟨fun _ => List.nodup_nil, fun _ _ h => absurd h List.not_mem_nil, fun _ => by
      simp only [List.not_mem_nil, decide_false, List.countP_false, Function.const]⟩
  obtain ⟨hi, hc⟩ := hfold nodes _ hempty
  refine ⟨hi, fun p c => ?_⟩
  rw [kahnGraph, hc]
  constructor
  · rintro (h | ⟨h1, h2, h3, h4⟩)
    · exact absurd h List.not_mem_nil
    · exact ⟨h3, h1, h4, h2⟩
  · rintro ⟨h1, h2, h3, h4⟩
    exact Or.inr ⟨h2, h4, h1, h3⟩

/-! ### One turn of the loop -/

/-- What relaxing a duplicate-free list of children does to the counts and to the queue. -/
theorem foldl_relax (cs : List α) (hcs : cs.Nodup) (indegree : α → ℕ) (queue : List α) :
    (∀ c, (cs.foldl relax (indegree, queue)).1 c =
        if c ∈ cs then indegree c - 1 else indegree c) ∧
      (cs.foldl relax (indegree, queue)).2 =
        queue ++ cs.filter fun c => indegree c - 1 = 0 := by
  induction cs generalizing indegree queue with
  | nil => exact ⟨fun c => by rw [if_neg List.not_mem_nil]; rfl, (List.append_nil queue).symm⟩
  | cons a cs ih =>
      obtain ⟨ha, hcs⟩ := List.nodup_cons.mp hcs
      obtain ⟨hd, hq⟩ := ih hcs (Function.update indegree a (indegree a - 1))
        (if indegree a - 1 = 0 then queue ++ [a] else queue)
      have hrest : ∀ c ∈ cs, Function.update indegree a (indegree a - 1) c = indegree c := by
        intro c hc
        have hca : c ≠ a := by
          rintro rfl
          exact ha hc
        exact Function.update_of_ne hca _ _
      refine ⟨fun c => ?_, ?_⟩
      · rw [List.foldl_cons, relax, hd]
        by_cases hca : c = a
        · subst hca
          rw [if_neg ha, Function.update_self, if_pos List.mem_cons_self]
        · rw [Function.update_of_ne hca]
          simp only [List.mem_cons, hca, false_or]
      · have hfilter : (cs.filter fun c =>
              Function.update indegree a (indegree a - 1) c - 1 = 0) =
            cs.filter fun c => indegree c - 1 = 0 :=
          List.filter_congr fun c hc => by rw [hrest c hc]
        rw [List.foldl_cons, relax, hq, hfilter, List.filter_cons]
        by_cases hz : indegree a - 1 = 0
        · rw [if_pos hz, if_pos (decide_eq_true hz), List.append_assoc]
          rfl
        · rw [if_neg hz, if_neg (by simpa using hz)]

/-- The invariant of the loop: queue and result hold, once each, the nodes whose parents are all in
the result. -/
structure KahnInv (nodes : List α) (children : α → List α) (indegree : α → ℕ)
    (queue result : List α) : Prop where
  nodup : (result ++ queue).Nodup
  subset : ∀ n ∈ result ++ queue, n ∈ nodes
  /-- A count is the number of parents that are not in the result. -/
  count : ∀ n, indegree n = nodes.countP fun p => decide (n ∈ children p ∧ p ∉ result)
  /-- The nodes with count zero are the sorted and the queued ones. -/
  ready : ∀ n ∈ nodes, n ∈ result ++ queue ↔ indegree n = 0
  /-- A sorted node comes after its parents. -/
  sorted : ∀ l₁ n l₂, result = l₁ ++ n :: l₂ → ∀ p, n ∈ children p → p ∈ l₁

section Loop

variable {nodes : List α} {children : α → List α} (hn : nodes.Nodup)
  (hchildren : ∀ p, (children p).Nodup) (hmem : ∀ p c, c ∈ children p → p ∈ nodes ∧ c ∈ nodes)

include hmem in
/-- The parents of a node whose count is zero are all in the result. -/
theorem KahnInv.mem_result_of_indegree_eq_zero {indegree : α → ℕ} {queue result : List α}
    (h : KahnInv nodes children indegree queue result) {n p : α} (hz : indegree n = 0)
    (hp : n ∈ children p) : p ∈ result := by
  by_contra hnot
  have hc := h.count n
  rw [hz] at hc
  have := List.countP_eq_zero.mp hc.symm p (hmem p n hp).1
  simp only [hp, hnot, not_false_eq_true, and_self, decide_true, not_true_eq_false] at this

section Turn

variable {indegree : α → ℕ} {current : α} {queue result : List α}
  (h : KahnInv nodes children indegree (current :: queue) result)

include h in
/-- The head of the queue is a node that waits for nothing and is not sorted yet. -/
theorem KahnInv.head : current ∈ nodes ∧ current ∉ result ∧ indegree current = 0 := by
  have hnode : current ∈ nodes :=
    h.subset current (List.mem_append_right _ List.mem_cons_self)
  have hnodup := h.nodup
  rw [List.nodup_append] at hnodup
  exact ⟨hnode, fun hin => hnodup.2.2 current hin current List.mem_cons_self rfl,
    (h.ready current hnode).mp (List.mem_append_right _ List.mem_cons_self)⟩

include hn h in
/-- A child of the head still counts it. -/
theorem KahnInv.count_child {c : α} (hc : c ∈ children current) : indegree c =
    (nodes.countP fun p => decide (c ∈ children p ∧ p ∉ result ++ [current])) + 1 := by
  obtain ⟨hnode, hnot, -⟩ := h.head
  rw [h.count c]
  refine countP_gain hn hnode ?_ ?_ fun p hp => ?_
  · simp
  · simp [hc, hnot]
  · simp [hp]

include h in
/-- Another node does not count the head. -/
theorem KahnInv.count_other {c : α} (hc : c ∉ children current) : indegree c =
    nodes.countP fun p => decide (c ∈ children p ∧ p ∉ result ++ [current]) := by
  rw [h.count c]
  refine List.countP_congr fun p _ => ?_
  by_cases hp : p = current
  · subst hp
    simp [hc]
  · simp [hp]

include hn h in
/-- The turn queues the children that have waited for the head alone. -/
theorem KahnInv.mem_queued {c : α} :
    c ∈ (children current).filter (fun c => indegree c - 1 = 0) ↔
      c ∈ children current ∧ indegree c = 1 := by
  rw [List.mem_filter]
  refine and_congr_right fun hc => ?_
  have := h.count_child hn hc
  simp only [decide_eq_true_eq]
  omega

include hn h in
/-- No node is queued twice: what was sorted or queued before has count zero. -/
theorem KahnInv.nodup_turn (hchildren : (children current).Nodup) :
    (result ++ [current] ++
      (queue ++ (children current).filter fun c => indegree c - 1 = 0)).Nodup := by
  rw [List.append_assoc, List.singleton_append, ← List.cons_append, ← List.append_assoc,
    List.nodup_append]
  refine ⟨h.nodup, hchildren.filter _, ?_⟩
  rintro a ha b hb rfl
  have h1 := ((h.mem_queued hn).mp hb).2
  have h2 := (h.ready a (h.subset a ha)).mp ha
  omega

include hn h in
/-- After the turn the nodes with count zero are again the sorted and the queued ones. -/
theorem KahnInv.ready_turn {n : α} (hnode : n ∈ nodes) :
    n ∈ result ++ [current] ++
        (queue ++ (children current).filter fun c => indegree c - 1 = 0) ↔
      (if n ∈ children current then indegree n - 1 else indegree n) = 0 := by
  have hready := h.ready n hnode
  simp only [List.mem_append, List.mem_cons] at hready
  rw [List.mem_append, List.mem_append, List.mem_append, h.mem_queued hn, List.mem_singleton]
  split
  next hc =>
    have := h.count_child hn hc
    have := h.head.2.2
    constructor
    · rintro ((hr | rfl) | hr | hr)
      · have := hready.mp (Or.inl hr)
        omega
      · omega
      · have := hready.mp (Or.inr (Or.inr hr))
        omega
      · omega
    · intro hz
      exact Or.inr (Or.inr ⟨hc, by omega⟩)
  next hc =>
    rw [← hready]
    constructor
    · rintro ((hr | hr) | hr | hr)
      · exact Or.inl hr
      · exact Or.inr (Or.inl hr)
      · exact Or.inr (Or.inr hr)
      · exact absurd hr.1 hc
    · rintro (hr | hr | hr)
      · exact Or.inl (Or.inl hr)
      · exact Or.inl (Or.inr hr)
      · exact Or.inr (Or.inl hr)

include hmem h in
/-- The head is sorted after its parents, since it waits for none of them. -/
theorem KahnInv.sorted_turn {l₁ l₂ : List α} {n p : α}
    (heq : result ++ [current] = l₁ ++ n :: l₂) (hp : n ∈ children p) : p ∈ l₁ := by
  rcases List.eq_nil_or_concat l₂ with rfl | ⟨l₂', z, rfl⟩
  · obtain ⟨rfl, hne⟩ := List.append_inj' heq rfl
    obtain rfl : current = n := List.singleton_inj.mp hne
    exact h.mem_result_of_indegree_eq_zero hmem h.head.2.2 hp
  · rw [List.concat_eq_append, ← List.cons_append, ← List.append_assoc] at heq
    obtain ⟨hres, -⟩ := List.append_inj' heq rfl
    exact h.sorted l₁ n l₂' hres p hp

include hn hchildren hmem h in
/-- One turn of the loop keeps the invariant. -/
theorem KahnInv.step :
    KahnInv nodes children ((children current).foldl relax (indegree, queue)).1
      ((children current).foldl relax (indegree, queue)).2 (result ++ [current]) := by
  obtain ⟨hcount, hqueue⟩ := foldl_relax (children current) (hchildren current) indegree queue
  refine ⟨?_, fun n hin => ?_, fun n => ?_, fun n hnode => ?_,
    fun l₁ n l₂ heq p hp => h.sorted_turn hmem heq hp⟩
  · rw [hqueue]
    exact h.nodup_turn hn (hchildren current)
  · rw [hqueue, List.mem_append, List.mem_append, List.mem_append, List.mem_singleton] at hin
    rcases hin with (hr | rfl) | hr | hr
    · exact h.subset n (List.mem_append_left _ hr)
    · exact h.head.1
    · exact h.subset n (List.mem_append_right _ (List.mem_cons_of_mem _ hr))
    · exact (hmem current n ((h.mem_queued hn).mp hr).1).2
  · rw [hcount]
    split
    next hc => rw [h.count_child hn hc, Nat.add_sub_cancel]
    next hc => exact h.count_other hc
  · rw [hcount, hqueue]
    exact h.ready_turn hn hnode

end Turn

include hn hchildren hmem in
/-- **The run of the loop.** With a turn for every node that is not sorted yet the queue runs
empty, and the invariant holds with an empty queue. -/
theorem KahnInv.run {fuel : ℕ} {indegree : α → ℕ} {queue result : List α}
    (h : KahnInv nodes children indegree queue result)
    (hf : nodes.length ≤ fuel + result.length) :
    KahnRun children indegree queue result (kahnLoop children fuel indegree queue result) ∧
      ∃ indegree', KahnInv nodes children indegree' []
        (kahnLoop children fuel indegree queue result) := by
  have hle : (result ++ queue).length ≤ nodes.length :=
    (List.subperm_of_subset h.nodup h.subset).length_le
  rw [List.length_append] at hle
  induction fuel generalizing indegree queue result with
  | zero =>
      obtain rfl : queue = [] := List.length_eq_zero_iff.mp (by omega)
      rw [kahnLoop]
      exact ⟨KahnRun.done indegree result, indegree, h⟩
  | succ fuel ih =>
      cases queue with
      | nil =>
          rw [kahnLoop]
          exact ⟨KahnRun.done indegree result, indegree, h⟩
      | cons current queue =>
          rw [kahnLoop]
          have hstep := h.step hn hchildren hmem
          obtain ⟨hrun, hinv⟩ := ih hstep
            (by rw [List.length_append, List.length_singleton]; omega)
            (by
              rw [← List.length_append]
              exact (List.subperm_of_subset hstep.nodup hstep.subset).length_le)
          exact ⟨KahnRun.turn hrun, hinv⟩

end Loop

/-! ### The sort -/

/-- The nodes the loop of a run sorts. -/
def kahnResult (nodes : List α) (refs : α → List α) : List α :=
  kahnLoop (kahnGraph nodes refs).children nodes.length (kahnGraph nodes refs).indegree
    (nodes.filter fun n => (kahnGraph nodes refs).indegree n = 0) []

/-- The order that is returned is the one of the queue if all nodes were taken, else the nodes as
they were given. -/
theorem kahn_eq (nodes : List α) (refs : α → List α) : kahn nodes refs =
    if (kahnResult nodes refs).length = nodes.length then kahnResult nodes refs else nodes := rfl

/-- The loop of a run on a list of nodes ends, with the invariant and an empty queue. -/
theorem kahnResult_spec {nodes : List α} (hn : nodes.Nodup) (refs : α → List α) :
    KahnRun (kahnGraph nodes refs).children (kahnGraph nodes refs).indegree
        (nodes.filter fun n => (kahnGraph nodes refs).indegree n = 0) []
        (kahnResult nodes refs) ∧
      ∃ indegree, KahnInv nodes (kahnGraph nodes refs).children indegree []
        (kahnResult nodes refs) := by
  obtain ⟨hg, hedge⟩ := kahnGraph_spec hn refs
  have hmem : ∀ p c, c ∈ (kahnGraph nodes refs).children p → p ∈ nodes ∧ c ∈ nodes :=
    fun p c hc => ⟨((hedge p c).mp hc).1, ((hedge p c).mp hc).2.1⟩
  refine KahnInv.run hn hg.nodup hmem ⟨?_, ?_, ?_, ?_, ?_⟩ (by simp)
  · rw [List.nil_append]
    exact hn.filter _
  · intro n h
    rw [List.nil_append] at h
    exact (List.mem_filter.mp h).1
  · intro n
    rw [hg.indegree n]
    simp
  · intro n hnn
    simp [hnn]
  · intro l₁ n l₂ h
    exact absurd h (by simp)

/-- What the loop sorts are different nodes. -/
theorem KahnInv.subperm {nodes : List α} {children : α → List α} {indegree : α → ℕ}
    {result : List α} (h : KahnInv nodes children indegree [] result) : result.Subperm nodes := by
  have hnodup := h.nodup
  rw [List.append_nil] at hnodup
  exact List.subperm_of_subset hnodup fun n hm => h.subset n (List.mem_append_left _ hm)

/-- **The result is a permutation of the input.** -/
theorem kahn_perm {nodes : List α} (hn : nodes.Nodup) (refs : α → List α) :
    (kahn nodes refs).Perm nodes := by
  obtain ⟨-, indegree, h⟩ := kahnResult_spec hn refs
  rw [kahn_eq]
  split
  next hlen => exact h.subperm.perm_of_length_le hlen.ge
  next => exact List.Perm.refl nodes

/-- On an acyclic graph the loop sorts every node. -/
theorem KahnInv.complete {nodes : List α} {children : α → List α} {indegree : α → ℕ}
    {result : List α} (h : KahnInv nodes children indegree [] result)
    (hacyclic : ∀ n, ¬ TransGen (fun p c => c ∈ children p) n n) :
    ∀ n ∈ nodes, n ∈ result := by
  let R : {n // n ∈ nodes} → {n // n ∈ nodes} → Prop :=
    fun a b => TransGen (fun p c => c ∈ children p) a.1 b.1
  have : Finite {n // n ∈ nodes} := (List.finite_toSet nodes).to_subtype
  have : IsTrans _ R := ⟨fun _ _ _ => TransGen.trans⟩
  have : Std.Irrefl R := ⟨fun a => hacyclic a.1⟩
  have hwf : WellFounded R := Finite.wellFounded_of_trans_of_irrefl R
  suffices hall : ∀ a : {n // n ∈ nodes}, a.1 ∈ result from fun n hn => hall ⟨n, hn⟩
  intro a
  induction a using hwf.induction with
  | _ a ih =>
      have hz : indegree a.1 = 0 := by
        rw [h.count a.1, List.countP_eq_zero]
        intro p hp hpc
        obtain ⟨hc, hnot⟩ := of_decide_eq_true hpc
        exact hnot (ih ⟨p, hp⟩ (TransGen.single hc))
      have := (h.ready a.1 a.2).mpr hz
      rwa [List.append_nil] at this

/-- A list in which every node comes after its parents stands for an acyclic graph: the place of
a node is a rank. -/
theorem acyclic_of_sorted {r : α → α → Prop} {result : List α}
    (hsorted : ∀ l₁ n l₂, result = l₁ ++ n :: l₂ → ∀ p, r p n → p ∈ l₁)
    (hmem : ∀ p n, r p n → n ∈ result) (n : α) : ¬ TransGen r n n := by
  have hstep : ∀ p c, r p c → result.idxOf p < result.idxOf c := by
    intro p c hpc
    obtain ⟨l₁, l₂, hsplit, hnot⟩ := List.eq_append_cons_of_mem (hmem p c hpc)
    have hp : p ∈ l₁ := hsorted l₁ c l₂ hsplit p hpc
    calc result.idxOf p = l₁.idxOf p := by rw [hsplit, List.idxOf_append_of_mem hp]
      _ < l₁.length := List.idxOf_lt_length_of_mem hp
      _ = result.idxOf c := by
          rw [hsplit, List.idxOf_append_of_notMem hnot, List.idxOf_cons_self, Nat.add_zero]
  have hchain : ∀ a b, TransGen r a b → result.idxOf a < result.idxOf b := by
    intro a b hab
    induction hab with
    | single hlast => exact hstep _ _ hlast
    | tail _ hlast ih => exact ih.trans (hstep _ _ hlast)
  exact fun hcycle => Nat.lt_irrefl _ (hchain n n hcycle)

section Sorted

variable {nodes : List α} (hn : nodes.Nodup) {refs : α → List α}
include hn

/-- The recorded children are the edges. -/
theorem kahnGraph_children :
    (fun p c => c ∈ (kahnGraph nodes refs).children p) = Edge nodes refs := by
  funext p c
  exact propext ((kahnGraph_spec hn refs).2 p c)

/-- **A cycle is exactly what makes the result short.** -/
theorem length_kahnResult_iff :
    (kahnResult nodes refs).length = nodes.length ↔
      ∀ n, ¬ TransGen (Edge nodes refs) n n := by
  obtain ⟨-, indegree, h⟩ := kahnResult_spec hn refs
  rw [← kahnGraph_children hn]
  constructor
  · intro hlen
    have hperm : (kahnResult nodes refs).Perm nodes := h.subperm.perm_of_length_le hlen.ge
    refine acyclic_of_sorted h.sorted fun p c hc => hperm.mem_iff.mpr ?_
    exact (((kahnGraph_spec hn refs).2 p c).mp hc).2.1
  · intro hacyclic
    exact le_antisymm h.subperm.length_le
      (List.subperm_of_subset hn (h.complete hacyclic)).length_le

/-- **Topological order.** On an acyclic graph every node of the result comes after its
parents. -/
theorem kahn_sorted (hacyclic : ∀ n, ¬ TransGen (Edge nodes refs) n n) {l₁ l₂ : List α} {n p : α}
    (hsplit : kahn nodes refs = l₁ ++ n :: l₂) (hp : Edge nodes refs p n) : p ∈ l₁ := by
  obtain ⟨-, indegree, h⟩ := kahnResult_spec hn refs
  rw [kahn_eq, if_pos ((length_kahnResult_iff hn).mpr hacyclic)] at hsplit
  exact h.sorted l₁ n l₂ hsplit p (((kahnGraph_spec hn refs).2 p n).mpr hp)

/-- **The fallback.** On a cyclic graph the result is the input. -/
theorem kahn_of_cycle {n : α} (hcycle : TransGen (Edge nodes refs) n n) :
    kahn nodes refs = nodes := by
  rw [kahn_eq, if_neg fun hlen => (length_kahnResult_iff hn).mp hlen n hcycle]

end Sorted

end Mogo
