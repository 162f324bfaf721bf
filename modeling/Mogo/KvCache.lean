import Mathlib.Data.Finset.Basic
import Mathlib.Data.List.Zip
import Mathlib.Data.Multiset.Filter
import Mathlib.Data.Multiset.MapFold
import Mogo.RingSearch

/-!
# The Cache of Keys and Values

A network that extends a sequence by a token attends to the tokens before it through their keys
and values. Whisper keeps these in the cells of a cache. Each cell has a position and the
identities of the sequences it belongs to; sequences that begin alike share their cells. A batch of
tokens is put into free cells in a row, and the mask of a token leaves the cells of its sequence up
to its position.

What the keys and values of a token have been computed from is kept with them here: the positions
and tokens of the cells that its mask has left.

## Main results

* `findSlot_isSome_iff`: a batch has room exactly if there are enough free cells in a row.
* `view_seqRm`, `view_seqCp`: sequences are removed and copied without touching one another.
* `view_decodeInternal`: a sequence that has heard itself goes on to hear itself.
-/

namespace Mogo

open RingSearch

/-! ### Cells -/

/-- What the tensors of a cell hold: the keys and values of a token, and what it has heard. -/
structure KvEntry where
  token : ℤ
  heard : Multiset (ℤ × ℤ)
  deriving DecidableEq

/-- `whisper_kv_cell`, with its part of the tensors. -/
structure KvCell where
  pos : ℤ
  seqId : Finset ℕ
  entry : KvEntry
  deriving DecidableEq

/-- `whisper_kv_cache`. Its `size` is the number of its cells. -/
structure KvCache where
  head : ℕ
  cells : List KvCell
  deriving DecidableEq

/-- A token of a `whisper_batch`; every one belongs to one sequence. -/
structure BatchToken where
  token : ℤ
  pos : ℤ
  seqId : ℕ
  deriving DecidableEq, Repr

/-- The position of the cell is in the range; a negative bound is none. -/
def KvCell.InRange (p0 p1 : ℤ) (c : KvCell) : Prop :=
  (if p0 < 0 then 0 else p0) ≤ c.pos ∧ (0 ≤ p1 → c.pos < p1)

instance (p0 p1 : ℤ) (c : KvCell) : Decidable (c.InRange p0 p1) :=
  inferInstanceAs (Decidable (_ ∧ _))

namespace KvCache

def size (cache : KvCache) : ℕ := cache.cells.length

/-- `whisper_kv_cache_clear`: all cells are free and the search starts at the first. -/
def clear (cache : KvCache) : KvCache where
  head := 0
  cells := cache.cells.map fun c => { c with pos := -1, seqId := ∅ }

/-- `whisper_kv_cache_seq_rm`, of one sequence. A cell without a sequence is free. -/
def seqRm (cache : KvCache) (seqId : ℕ) (p0 p1 : ℤ) : KvCache where
  head := (cache.cells.findIdx? fun c =>
    c.InRange p0 p1 ∧ seqId ∈ c.seqId ∧ c.seqId.erase seqId = ∅).getD cache.head
  cells := cache.cells.map fun c =>
    if c.InRange p0 p1 ∧ seqId ∈ c.seqId then
      { c with
        pos := if c.seqId.erase seqId = ∅ then -1 else c.pos
        seqId := c.seqId.erase seqId }
    else c

/-- `whisper_kv_cache_seq_cp`: the cells of one sequence within a range of positions become cells of
another as well. -/
def seqCp (cache : KvCache) (seqIdSrc seqIdDst : ℕ) (p0 p1 : ℤ) : KvCache where
  head := 0
  cells := cache.cells.map fun c =>
    if seqIdSrc ∈ c.seqId ∧ c.InRange p0 p1 then { c with seqId := insert seqIdDst c.seqId } else c

/-- The cells of a slot are changed, each with the token of the batch that is put there. -/
def inSlot (cells : List KvCell) (head : ℕ) (batch : List BatchToken)
    (f : BatchToken → KvCell → KvCell) : List KvCell :=
  cells.take head ++ List.zipWith f batch (cells.drop head) ++ cells.drop (head + batch.length)

/-- The cell at an index is free: its position is negative. -/
def free (cache : KvCache) (i : ℕ) : Bool := cache.cells[i]?.any fun c => c.pos < 0

/-- `whisper_kv_cache_find_slot`: the cache with the batch in the first run of free cells after the
head, `none` if there is no such run. -/
def findSlot (cache : KvCache) (batch : List BatchToken) : Option KvCache :=
  if cache.size < batch.length then none
  else
    (search cache.free cache.size batch.length (2 * cache.size + 2) cache.head 0).map fun head =>
      { head := head
        cells := inSlot cache.cells head batch fun b c =>
          { c with pos := b.pos, seqId := insert b.seqId c.seqId } }

/-- The cell at an index is used: it has a position and a sequence. -/
def used (cache : KvCache) (i : ℕ) : Bool := cache.cells[i]?.any fun c => 0 ≤ c.pos ∧ c.seqId ≠ ∅

/-- `whisper_kv_cache_cell_max`: one more than the last used cell, and 1 for a cache without one. -/
def cellMax (cache : KvCache) : ℕ :=
  ((List.range' 1 (cache.size - 1)).reverse.find? cache.used).elim 1 (· + 1)

/-- `GGML_PAD`; `n` is a power of two. -/
def ggmlPad (x n : ℕ) : ℕ := (x + n - 1) / n * n

/-- `n_kv`, the number of cells that are looked at. -/
def nKv (pad : ℕ) (cache : KvCache) : ℕ := min cache.size (max pad (ggmlPad cache.cellMax pad))

/-- The cells that the mask of a token leaves. -/
def visible (pad : ℕ) (cache : KvCache) (b : BatchToken) : List KvCell :=
  (cache.cells.take (cache.nKv pad)).filter fun c => ¬ (b.seqId ∉ c.seqId ∨ b.pos < c.pos)

/-- The positions and tokens of these cells: what a token with this mask hears. -/
def heard (pad : ℕ) (cache : KvCache) (b : BatchToken) : Multiset (ℤ × ℤ) :=
  ((cache.visible pad b).map fun c => (c.pos, c.entry.token) : List (ℤ × ℤ))

/-- `whisper_decode_internal`, as far as the cache is concerned: the keys and values of the batch
are put into a slot, and each token attends to the cells its mask leaves. -/
def decodeInternal (pad : ℕ) (cache : KvCache) (batch : List BatchToken) : Option KvCache :=
  (cache.findSlot batch).map fun found =>
    let stored : KvCache :=
      { found with
        cells := inSlot found.cells found.head batch fun b c => { c with entry := ⟨b.token, 0⟩ } }
    { stored with
      cells := inSlot stored.cells stored.head batch fun b c =>
        { c with entry := ⟨b.token, stored.heard pad b⟩ } }

/-! ### What a sequence sees -/

/-- Used cells have sequences, and free ones do not. -/
def WF (cells : List KvCell) : Prop := ∀ c ∈ cells, 0 ≤ c.pos ↔ c.seqId ≠ ∅

/-- The positions and entries of the cells of a sequence. -/
def viewOf (s : ℕ) (cells : List KvCell) : Multiset (ℤ × KvEntry) :=
  ((cells.filter fun c => s ∈ c.seqId).map fun c => (c.pos, c.entry) : List (ℤ × KvEntry))

/-- The positions and entries of the cells of a sequence in a cache. -/
def view (cache : KvCache) (s : ℕ) : Multiset (ℤ × KvEntry) := viewOf s cache.cells

section Views

variable {cells cells' : List KvCell} {cache : KvCache} {s t : ℕ}

/-- What a sequence sees in two runs of cells adds up. -/
theorem viewOf_append : viewOf s (cells ++ cells') = viewOf s cells + viewOf s cells' := by
  rw [viewOf, List.filter_append, List.map_append, ← Multiset.coe_add]
  rfl

/-- A cell is seen by the sequences it belongs to. -/
theorem viewOf_cons (c : KvCell) :
    viewOf s (c :: cells) = (if s ∈ c.seqId then {(c.pos, c.entry)} else 0) + viewOf s cells := by
  rw [← List.singleton_append, viewOf_append]
  congr 1
  rw [viewOf, List.filter_singleton]
  split
  next h =>
    rw [decide_eq_true h]
    rfl
  next h =>
    rw [decide_eq_false h]
    rfl

/-- A sequence sees nothing exactly when it is in no cell. -/
theorem viewOf_eq_zero : viewOf s cells = 0 ↔ ∀ c ∈ cells, s ∉ c.seqId := by
  rw [viewOf, Multiset.coe_eq_zero, List.map_eq_nil_iff, List.filter_eq_nil_iff]
  simp

/-- A change that gives a sequence the cells of another one, as they are. -/
theorem viewOf_map {f : KvCell → KvCell}
    (h : ∀ c ∈ cells, (s ∈ (f c).seqId ↔ t ∈ c.seqId) ∧
      (t ∈ c.seqId → (f c).pos = c.pos ∧ (f c).entry = c.entry)) :
    viewOf s (cells.map f) = viewOf t cells := by
  induction cells with
  | nil => rfl
  | cons c cells ih =>
      obtain ⟨hmem, hsame⟩ := h c List.mem_cons_self
      rw [List.map_cons, viewOf_cons, viewOf_cons,
        ih fun c' hc' => h c' (List.mem_cons_of_mem c hc')]
      by_cases ht : t ∈ c.seqId
      · rw [if_pos (hmem.mpr ht), if_pos ht, (hsame ht).1, (hsame ht).2]
      · rw [if_neg fun hs => ht (hmem.mp hs), if_neg ht]

/-- Without bounds, every used cell is in the range. -/
theorem inRange_of_mem (hwf : WF cache.cells) {c : KvCell} (hc : c ∈ cache.cells)
    (hs : s ∈ c.seqId) : c.InRange (-1) (-1) :=
  ⟨(hwf c hc).mpr fun hempty => absurd (hempty ▸ hs) (Finset.notMem_empty s), fun h => by omega⟩

/-- **A copy** of a sequence to an identity that is not used sees what the sequence sees. -/
theorem view_seqCp (hwf : WF cache.cells) (hempty : cache.view t = 0) :
    (cache.seqCp s t (-1) (-1)).view t = cache.view s := by
  refine viewOf_map fun c hc => ⟨?_, fun _ => ?_⟩
  · by_cases hs : s ∈ c.seqId
    · rw [if_pos ⟨hs, inRange_of_mem hwf hc hs⟩]
      exact iff_of_true (Finset.mem_insert_self _ _) hs
    · rw [if_neg fun h => hs h.1]
      exact iff_of_false (viewOf_eq_zero.mp hempty c hc) hs
  · split
    · exact ⟨rfl, rfl⟩
    · exact ⟨rfl, rfl⟩

/-- Copying a sequence makes no difference to what other sequences see. -/
theorem view_seqCp_of_ne {u : ℕ} (h : u ≠ t) :
    (cache.seqCp s t (-1) (-1)).view u = cache.view u := by
  refine viewOf_map fun c _ => ?_
  split
  · exact ⟨by rw [Finset.mem_insert, or_iff_right h], fun _ => ⟨rfl, rfl⟩⟩
  · exact ⟨Iff.rfl, fun _ => ⟨rfl, rfl⟩⟩

/-- **A sequence that is removed** sees nothing. -/
theorem view_seqRm (hwf : WF cache.cells) : (cache.seqRm s (-1) (-1)).view s = 0 := by
  refine viewOf_eq_zero.mpr fun c hmem => ?_
  obtain ⟨c, hc, rfl⟩ := List.mem_map.mp hmem
  split
  next => exact Finset.notMem_erase s c.seqId
  next h => exact fun hs => h ⟨inRange_of_mem hwf hc hs, hs⟩

/-- Removing a sequence changes nothing for the others. -/
theorem view_seqRm_of_ne (h : t ≠ s) : (cache.seqRm s (-1) (-1)).view t = cache.view t := by
  refine viewOf_map fun c _ => ?_
  split
  · refine ⟨by rw [Finset.mem_erase, and_iff_right h], fun ht => ⟨if_neg fun hempty => ?_, rfl⟩⟩
    exact absurd (hempty ▸ Finset.mem_erase.mpr ⟨h, ht⟩) (Finset.notMem_empty t)
  · exact ⟨Iff.rfl, fun _ => ⟨rfl, rfl⟩⟩

/-- A copy leaves the cells well formed: only cells that are in use are shared. -/
theorem wf_seqCp (hwf : WF cache.cells) : WF (cache.seqCp s t (-1) (-1)).cells := by
  intro c hmem
  obtain ⟨c, hc, rfl⟩ := List.mem_map.mp hmem
  split
  next h =>
    exact iff_of_true ((hwf c hc).mpr fun hempty => absurd (hempty ▸ h.1) (Finset.notMem_empty s))
      (Finset.insert_ne_empty _ _)
  next => exact hwf c hc

/-- Removing a sequence leaves the cells well formed: a cell without a sequence is emptied. -/
theorem wf_seqRm (hwf : WF cache.cells) : WF (cache.seqRm s (-1) (-1)).cells := by
  intro c hmem
  obtain ⟨c, hc, rfl⟩ := List.mem_map.mp hmem
  split
  next h =>
    dsimp only
    split
    next hempty => exact iff_of_false (show ¬ (0 : ℤ) ≤ -1 by decide) fun hne => hne hempty
    next hne =>
      exact iff_of_true ((hwf c hc).mpr fun hempty => absurd (hempty ▸ h.2) (Finset.notMem_empty s))
        hne
  next => exact hwf c hc

/-- A cache that has been cleared is well formed. -/
theorem wf_clear (cache : KvCache) : WF cache.clear.cells := by
  intro c hmem
  obtain ⟨c, -, rfl⟩ := List.mem_map.mp hmem
  exact iff_of_false (show ¬ (0 : ℤ) ≤ -1 by decide) fun h => h rfl

/-- In a cache that has been cleared no sequence sees anything. -/
theorem view_clear (cache : KvCache) (s : ℕ) : cache.clear.view s = 0 := by
  refine viewOf_eq_zero.mpr fun c hc => ?_
  obtain ⟨c, -, rfl⟩ := List.mem_map.mp hc
  exact Finset.notMem_empty s

end Views

/-! ### What a batch adds -/

section Slots

variable {cache cache' : KvCache} {batch : List BatchToken} {head : ℕ}
  {cells before slot after : List KvCell} {s pad : ℕ}

/-- A slot of the cells: as many of them as the batch has tokens. -/
structure IsSlot (cells : List KvCell) (head : ℕ) (batch : List BatchToken)
    (before slot after : List KvCell) : Prop where
  cells_eq : cells = before ++ slot ++ after
  head_eq : before.length = head
  length : slot.length = batch.length

/-- A change in a slot leaves the other cells alone. -/
theorem IsSlot.inSlot (h : IsSlot cells head batch before slot after)
    (f : BatchToken → KvCell → KvCell) :
    IsSlot (inSlot cells head batch f) head batch before (List.zipWith f batch slot) after := by
  obtain ⟨rfl, rfl, hlength⟩ := h
  have hdrop : (before ++ slot ++ after).drop (before.length + batch.length) = after := by
    rw [← hlength, ← List.length_append]
    exact List.drop_left
  have hzip : List.zipWith f batch (slot ++ after) = List.zipWith f batch slot := by
    have := @List.zipWith_append _ _ _ f batch [] slot after hlength.symm
    rwa [List.append_nil, List.zipWith_nil_left, List.append_nil] at this
  refine ⟨?_, rfl, by rw [List.length_zipWith, hlength, Nat.min_self]⟩
  rw [KvCache.inSlot, hdrop, List.append_assoc before, List.take_left, List.drop_left, hzip]

/-- The slot that the search finds lies within the cache, and all of its cells are free. -/
theorem exists_slot (hfind : search cache.free cache.size batch.length (2 * cache.size + 2)
      cache.head 0 = some head) :
    ∃ before slot after, IsSlot cache.cells head batch before slot after ∧
      ∀ c ∈ slot, c.pos < 0 := by
  obtain ⟨hfits, hfree⟩ := of_search hfind
  have hsize : cache.cells.length = cache.size := rfl
  refine ⟨cache.cells.take head, (cache.cells.drop head).take batch.length,
    cache.cells.drop (head + batch.length), ⟨?_, ?_, ?_⟩, fun c hc => ?_⟩
  · rw [List.append_assoc, ← List.drop_drop, List.take_append_drop, List.take_append_drop]
  · rw [List.length_take]
    omega
  · rw [List.length_take, List.length_drop]
    omega
  · obtain ⟨i, hi, rfl⟩ := List.mem_iff_getElem.mp hc
    have hlt : i < batch.length := by
      rw [List.length_take] at hi
      omega
    have := hfree i hlt
    rw [KvCache.free, List.getElem?_eq_getElem (by omega)] at this
    rw [List.getElem_take, List.getElem_drop]
    simpa using this

/-- **A batch has room** exactly if there are enough free cells in a row. -/
theorem findSlot_isSome_iff (hhead : cache.head ≤ cache.size) (hne : batch ≠ []) :
    (cache.findSlot batch).isSome = true ↔
      ∃ a, a + batch.length ≤ cache.size ∧ ∀ i < batch.length, cache.free (a + i) = true := by
  rw [← search_isSome_iff (List.length_pos_iff.mpr hne) hhead, findSlot]
  split
  next hlt =>
    refine iff_of_false (by simp) fun h => ?_
    obtain ⟨a, ha⟩ := Option.isSome_iff_exists.mp h
    have := (of_search ha).1
    omega
  next => rw [Option.isSome_map]

/-- The cells of a batch, after they have been put into a slot. -/
def placed (hears : BatchToken → Multiset (ℤ × ℤ)) (b : BatchToken) (c : KvCell) : KvCell where
  pos := b.pos
  seqId := insert b.seqId c.seqId
  entry := ⟨b.token, hears b⟩

/-- **What a decoded batch leaves behind**: its cells in a slot that was free, first without what
they hear, and then with what they hear in that cache. -/
theorem decodeInternal_spec (h : cache.decodeInternal pad batch = some cache') :
    ∃ head before slot after, ∃ stored : KvCache,
      IsSlot cache.cells head batch before slot after ∧ (∀ c ∈ slot, c.pos < 0) ∧
        stored.cells = before ++ List.zipWith (placed fun _ => 0) batch slot ++ after ∧
        cache'.cells = before ++ List.zipWith (placed (stored.heard pad)) batch slot ++ after := by
  obtain ⟨found, hfound, rfl⟩ := Option.map_eq_some_iff.mp h
  rw [findSlot] at hfound
  split at hfound
  next => cases hfound
  next =>
    obtain ⟨head, hfind, rfl⟩ := Option.map_eq_some_iff.mp hfound
    obtain ⟨before, slot, after, hslot, hfree⟩ := exists_slot hfind
    have hstored := (hslot.inSlot fun b c =>
      { c with pos := b.pos, seqId := insert b.seqId c.seqId }).inSlot fun b c =>
        { c with entry := ⟨b.token, 0⟩ }
    rw [List.zipWith_zipWith_right, List.zipWith3_same_left] at hstored
    refine ⟨head, before, slot, after, ⟨head, _⟩, hslot, hfree, hstored.cells_eq, ?_⟩
    refine (hstored.inSlot _).cells_eq.trans ?_
    rw [List.zipWith_zipWith_right, List.zipWith3_same_left]
    rfl

/-- What a sequence sees of a batch. -/
def entries (s : ℕ) (batch : List BatchToken) (hears : BatchToken → Multiset (ℤ × ℤ)) :
    Multiset (ℤ × KvEntry) :=
  ((batch.filter fun b => b.seqId = s).map fun b => (b.pos, ⟨b.token, hears b⟩) :
    List (ℤ × KvEntry))

section Placed

variable {hears : BatchToken → Multiset (ℤ × ℤ)} (hlength : slot.length = batch.length)
  (hempty : ∀ c ∈ slot, c.seqId = ∅)

include hlength hempty

/-- A cell of the batch belongs to the sequence of its token alone. -/
theorem viewOf_placed :
    viewOf s (List.zipWith (placed hears) batch slot) = entries s batch hears := by
  induction batch generalizing slot with
  | nil => rfl
  | cons b batch ih =>
      obtain ⟨c, slot, rfl⟩ := List.exists_cons_of_length_eq_add_one hlength
      have hrest := ih (Nat.succ.inj hlength) fun c' hc' => hempty c' (List.mem_cons_of_mem c hc')
      have hseq : (placed hears b c).seqId = {b.seqId} := by
        rw [placed, hempty c List.mem_cons_self]
        rfl
      rw [List.zipWith_cons_cons, viewOf_cons, hrest, hseq, entries, entries, List.filter_cons]
      by_cases hs : b.seqId = s
      · rw [if_pos (Finset.mem_singleton.mpr hs.symm), if_pos (decide_eq_true hs)]
        rfl
      · rw [if_neg fun h => hs (Finset.mem_singleton.mp h).symm, if_neg (by simpa using hs)]
        exact Multiset.zero_add _

omit hlength in
/-- In a slot of empty cells no sequence sees anything. -/
theorem viewOf_empty : viewOf s slot = 0 :=
  viewOf_eq_zero.mpr fun c hc => hempty c hc ▸ Finset.notMem_empty s

end Placed

/-- Two runs of cells are well formed when each of them is. -/
theorem WF.append {cells cells' : List KvCell} :
    WF (cells ++ cells') ↔ WF cells ∧ WF cells' := List.forall_mem_append

/-- The cells that a batch is written to are in order: each is used, and has the sequences of its
token. -/
theorem wf_placed (hears : BatchToken → Multiset (ℤ × ℤ)) (hpos : ∀ b ∈ batch, 0 ≤ b.pos)
    (slot : List KvCell) : WF (List.zipWith (placed hears) batch slot) := by
  intro c hc
  rw [← List.map_uncurry_zip_eq_zipWith] at hc
  obtain ⟨⟨b, c⟩, hmem, rfl⟩ := List.mem_map.mp hc
  exact iff_of_true (hpos b (List.of_mem_zip hmem).1) (Finset.insert_ne_empty _ _)

/-- A used cell lies before `cellMax`, the end of the part that attention looks at. -/
theorem lt_cellMax {i : ℕ} {c : KvCell} (hc : cache.cells[i]? = some c)
    (hused : 0 ≤ c.pos ∧ c.seqId ≠ ∅) : i < cache.cellMax := by
  rw [cellMax]
  have hlt : i < cache.size := (List.getElem?_eq_some_iff.mp hc).1
  have huses : cache.used i = true := by
    rw [used, hc]
    exact decide_eq_true hused
  rcases Nat.eq_zero_or_pos i with rfl | hpos
  · cases List.find? _ _
    · exact Nat.one_pos
    · exact Nat.succ_pos _
  · have hmem : i ∈ (List.range' 1 (cache.size - 1)).reverse := by
      rw [List.mem_reverse, List.mem_range'_1]
      omega
    obtain ⟨k, hk⟩ := Option.isSome_iff_exists.mp (List.find?_isSome.mpr ⟨i, hmem, huses⟩)
    rw [hk]
    obtain ⟨-, front, rest, hlist, hfront⟩ := List.find?_eq_some_iff_append.mp hk
    -- The indices are looked at from the last one on.
    have hsorted : (List.range' 1 (cache.size - 1)).reverse.Pairwise (· > ·) :=
      List.pairwise_reverse.mpr List.pairwise_lt_range'
    rw [hlist] at hmem hsorted
    rcases List.mem_append.mp hmem with hi | hi
    · exact absurd huses (by simpa using hfront i hi)
    · rcases List.mem_cons.mp hi with rfl | hi
      · exact Nat.lt_succ_self i
      · have := List.rel_of_pairwise_cons (List.pairwise_append.mp hsorted).2.1 hi
        exact Nat.lt_succ_of_lt this

/-- Padding never makes a size smaller. -/
theorem le_ggmlPad {n : ℕ} (hn : 0 < n) (x : ℕ) : x ≤ ggmlPad x n := by
  have := Nat.div_add_mod (x + n - 1) n
  have := Nat.mod_lt (x + n - 1) hn
  rw [ggmlPad, Nat.mul_comm]
  omega

/-- Behind the cells that are looked at, none is used. -/
theorem free_of_mem_drop_nKv (hwf : WF cache.cells) (hpad : 0 < pad) {c : KvCell}
    (hc : c ∈ cache.cells.drop (cache.nKv pad)) : c.seqId = ∅ := by
  by_contra hne
  have hused := (hwf c (List.mem_of_mem_drop hc)).mpr hne
  obtain ⟨i, hi⟩ := List.mem_iff_getElem?.mp hc
  rw [List.getElem?_drop] at hi
  have hmax := lt_cellMax hi ⟨hused, hne⟩
  have hsize : cache.nKv pad + i < cache.size := (List.getElem?_eq_some_iff.mp hi).1
  have hceil := le_ggmlPad hpad cache.cellMax
  rw [nKv] at hmax hsize
  omega

/-- **What a token hears** is what its sequence sees, up to its position. -/
theorem heard_eq (hwf : WF cache.cells) (hpad : 0 < pad) (b : BatchToken) :
    cache.heard pad b =
      ((cache.view b.seqId).map fun x => (x.1, x.2.token)).filter fun x => x.1 ≤ b.pos := by
  have hvisible : cache.visible pad b =
      cache.cells.filter fun c => ¬ (b.seqId ∉ c.seqId ∨ b.pos < c.pos) := by
    conv_rhs => rw [← List.take_append_drop (cache.nKv pad) cache.cells, List.filter_append]
    have hnone : (cache.cells.drop (cache.nKv pad)).filter
        (fun c => ¬ (b.seqId ∉ c.seqId ∨ b.pos < c.pos)) = [] := by
      refine List.filter_eq_nil_iff.mpr fun c hc => ?_
      have := free_of_mem_drop_nKv hwf hpad hc
      simp [this]
    rw [hnone, List.append_nil]
    rfl
  rw [heard, hvisible, view, viewOf, Multiset.map_coe, Multiset.filter_coe, List.map_map,
    List.filter_map, List.filter_filter]
  congr 3
  funext c
  dsimp only [Function.comp]
  rw [← Bool.decide_and]
  exact decide_eq_decide.mpr (by rw [not_or, not_not, Int.not_lt, and_comm])

end Slots

/-! ### Sequences that hear themselves -/

/-- The tokens with their positions. -/
def positions (tokens : List ℤ) : Multiset (ℤ × ℤ) :=
  (tokens.zipIdx.map fun x => ((x.2 : ℤ), x.1) : List (ℤ × ℤ))

/-- What a sequence sees that has heard itself: at every position its token, whose keys and values
have been computed from the tokens up to there, each at its position, and from nothing else. -/
def trace (tokens : List ℤ) : Multiset (ℤ × KvEntry) :=
  (tokens.zipIdx.map fun x => ((x.2 : ℤ), ⟨x.1, positions (tokens.take (x.2 + 1))⟩) :
    List (ℤ × KvEntry))

/-- The tokens of a batch for a sequence that has this many tokens. -/
def batchOf (seqId : ℕ) (nPast : ℕ) (tokens : List ℤ) : List BatchToken :=
  (tokens.zipIdx nPast).map fun x => ⟨x.1, x.2, seqId⟩

section Traces

variable {cache cache' : KvCache} {batch : List BatchToken} {s pad : ℕ} {past tokens : List ℤ}

/-- The trace of a text has its tokens at their positions. -/
theorem map_trace (tokens : List ℤ) :
    (trace tokens).map (fun x => (x.1, x.2.token)) = positions tokens := by
  rw [trace, Multiset.map_coe, List.map_map]
  rfl

/-- Up to a position there are the tokens up to there. -/
theorem filter_positions (tokens : List ℤ) (m : ℕ) :
    (positions tokens).filter (fun x => x.1 ≤ (m : ℤ)) = positions (tokens.take (m + 1)) := by
  rw [positions, Multiset.filter_coe, List.filter_map, positions]
  congr 2
  conv_lhs => rw [← List.take_append_drop (m + 1) tokens, List.zipIdx_append, List.filter_append]
  have hfront : ((tokens.take (m + 1)).zipIdx).filter
      ((fun x : ℤ × ℤ => decide (x.1 ≤ m)) ∘ fun x => ((x.2 : ℤ), x.1)) =
        (tokens.take (m + 1)).zipIdx := by
    refine List.filter_eq_self.mpr fun x hx => decide_eq_true ?_
    have := (List.mem_zipIdx hx).2.1
    rw [List.length_take] at this
    dsimp only
    omega
  have hback : (((tokens.drop (m + 1)).zipIdx (0 + (tokens.take (m + 1)).length))).filter
      ((fun x : ℤ × ℤ => decide (x.1 ≤ m)) ∘ fun x => ((x.2 : ℤ), x.1)) = [] := by
    refine List.filter_eq_nil_iff.mpr fun x hx => ?_
    have hle := (List.mem_zipIdx hx).1
    have hlt := (List.mem_zipIdx hx).2.1
    rw [List.length_take] at hle hlt
    rw [List.length_drop] at hlt
    have : ¬ (x.2 : ℤ) ≤ m := by omega
    simpa using this
  rw [hfront, hback, List.append_nil]

/-- The positions of a text go on where those of its beginning end. -/
theorem positions_append (past tokens : List ℤ) :
    positions (past ++ tokens) = positions past +
      ((tokens.zipIdx past.length).map fun x => ((x.2 : ℤ), x.1) : List (ℤ × ℤ)) := by
  rw [positions, List.zipIdx_append, List.map_append, ← Multiset.coe_add, Nat.zero_add]
  rfl

/-- A sequence that goes on adds the entries of its new tokens, each with the positions before
it. -/
theorem trace_append (past tokens : List ℤ) :
    trace (past ++ tokens) = trace past + ((tokens.zipIdx past.length).map fun x =>
      ((x.2 : ℤ), (⟨x.1, positions ((past ++ tokens).take (x.2 + 1))⟩ : KvEntry)) :
        List (ℤ × KvEntry)) := by
  rw [trace, List.zipIdx_append, List.map_append, ← Multiset.coe_add, Nat.zero_add]
  congr 2
  refine List.map_congr_left fun x hx => ?_
  have := (List.mem_zipIdx hx).2.1
  rw [List.take_append_of_le_length (by omega)]

/-- **A sequence that has heard itself** goes on to hear itself, when the tokens of a batch that
belong to it come behind its own. -/
theorem view_decodeInternal (hpad : 0 < pad) (hwf : WF cache.cells)
    (hpos : ∀ b ∈ batch, 0 ≤ b.pos) (hview : cache.view s = trace past)
    (hbatch : (batch.filter fun b => b.seqId = s) = batchOf s past.length tokens)
    (h : cache.decodeInternal pad batch = some cache') :
    cache'.view s = trace (past ++ tokens) := by
  obtain ⟨head, before, slot, after, stored, ⟨hcells, -, hlength⟩, hfree, hstored, hcells'⟩ :=
    decodeInternal_spec h
  rw [hcells, WF.append, WF.append] at hwf
  obtain ⟨⟨hbefore, hslot⟩, hafter⟩ := hwf
  have hempty : ∀ c ∈ slot, c.seqId = ∅ := by
    intro c hc
    by_contra hne
    exact absurd ((hslot c hc).mpr hne) (Int.not_le.mpr (hfree c hc))
  have hadded : ∀ hears, viewOf s (before ++ List.zipWith (placed hears) batch slot ++ after) =
      cache.view s + entries s batch hears := by
    intro hears
    rw [view, hcells, viewOf_append, viewOf_append, viewOf_append, viewOf_append,
      viewOf_placed hlength hempty, viewOf_empty hempty, Multiset.add_zero, Multiset.add_assoc,
      Multiset.add_comm (entries s batch hears), ← Multiset.add_assoc]
  have hstoredWF : WF stored.cells := by
    rw [hstored, WF.append, WF.append]
    exact ⟨⟨hbefore, wf_placed _ hpos slot⟩, hafter⟩
  -- What each of the new tokens hears.
  have hheard : ∀ x ∈ tokens.zipIdx past.length, stored.heard pad ⟨x.1, x.2, s⟩ =
      positions ((past ++ tokens).take (x.2 + 1)) := by
    intro x _
    rw [heard_eq hstoredWF hpad, view, hstored, hadded, Multiset.map_add, hview, map_trace,
      entries, hbatch, batchOf, List.map_map, Multiset.map_coe, List.map_map,
      ← filter_positions, positions_append]
    rfl
  rw [view, hcells', hadded, hview, trace_append, entries, hbatch, batchOf, List.map_map]
  congr 2
  refine List.map_congr_left fun x hx => ?_
  rw [← hheard x hx]
  rfl

/-- Decoding a batch leaves the cache in order. -/
theorem wf_decodeInternal (hwf : WF cache.cells) (hpos : ∀ b ∈ batch, 0 ≤ b.pos)
    (h : cache.decodeInternal pad batch = some cache') : WF cache'.cells := by
  obtain ⟨head, before, slot, after, stored, ⟨hcells, -, -⟩, -, -, hcells'⟩ :=
    decodeInternal_spec h
  rw [hcells, WF.append, WF.append] at hwf
  rw [hcells', WF.append, WF.append]
  exact ⟨⟨hwf.1.1, wf_placed _ hpos slot⟩, hwf.2⟩

end Traces

end KvCache

end Mogo
