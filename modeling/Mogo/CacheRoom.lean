import Mogo.BeamSearch

/-!
# Room for all Decoders

The free cells of the cache are not together: sequences are dropped in an order of their own, and
a batch needs cells in a row. The cache is allocated larger than needed for that. In fact no batch
gets behind the place that all the batches before it would have reached in a row, so there is
always room for the next one.

## Main results

* `Room.decodeInternal`: a batch finds a slot that is not behind the free end of the cache.
* `Beam.Roomy.turn`, `Beam.roomy_of_reach`: the decoders of a window have room in every turn.
-/

namespace Mogo

open Transition

namespace KvCache

open RingSearch

/-- The cells of the cache are free from a place on, and the search begins not behind it. -/
structure Room (size m : ℕ) (cache : KvCache) : Prop where
  size_eq : cache.size = size
  head_le : cache.head ≤ m
  free : ∀ i c, m ≤ i → cache.cells[i]? = some c → c.pos < 0

/-- The cells are what they were, from a place on. -/
structure SameFrom (m : ℕ) (cells cells' : List KvCell) : Prop where
  length_eq : cells'.length = cells.length
  getElem?_eq : ∀ i, m ≤ i → cells'[i]? = cells[i]?

section Slots

variable {cells cells' : List KvCell} {head : ℕ} {batch : List BatchToken}

/-- Nothing has changed in cells that were not touched. -/
theorem SameFrom.refl (m : ℕ) (cells : List KvCell) : SameFrom m cells cells :=
  ⟨rfl, fun _ _ => rfl⟩

/-- Writing a batch into its slot changes no cell behind the slot. -/
theorem SameFrom.inSlot (h : SameFrom (head + batch.length) cells cells')
    (hfits : head + batch.length ≤ cells.length) (f : BatchToken → KvCell → KvCell) :
    SameFrom (head + batch.length) cells (inSlot cells' head batch f) := by
  have hlength := h.length_eq
  refine ⟨?_, fun i hi => ?_⟩
  · rw [KvCache.inSlot, List.length_append, List.length_append, List.length_take,
      List.length_zipWith, List.length_drop, List.length_drop]
    omega
  · have hfront : (cells'.take head ++ List.zipWith f batch (cells'.drop head)).length =
        head + batch.length := by
      rw [List.length_append, List.length_take, List.length_zipWith, List.length_drop]
      omega
    rw [KvCache.inSlot, List.getElem?_append_right (hfront.trans_le hi), hfront,
      List.getElem?_drop, Nat.add_sub_cancel' hi, h.getElem?_eq i hi]

end Slots

namespace Room

variable {size m m' : ℕ} {cache : KvCache} {s t : ℕ} {p0 p1 : ℤ} {batch : List BatchToken}

/-- Cells that are free from a place on are free from every later place on. -/
theorem mono (h : cache.Room size m) (hle : m ≤ m') : cache.Room size m' :=
  ⟨h.size_eq, h.head_le.trans hle, fun i c hi => h.free i c (hle.trans hi)⟩

/-- A cache that has been cleared has room from its first cell on. -/
theorem clear (cache : KvCache) : cache.clear.Room cache.size 0 := by
  refine ⟨List.length_map _, Nat.le_refl 0, fun i c _ hc => ?_⟩
  obtain ⟨c, -, rfl⟩ := List.mem_map.mp (List.mem_of_getElem? hc)
  exact Int.negSucc_lt_zero 0

/-- Copying a sequence occupies no cell: the copy shares the cells of the original. -/
theorem seqCp (h : cache.Room size m) : (cache.seqCp s t p0 p1).Room size m := by
  refine ⟨(List.length_map _).trans h.size_eq, Nat.zero_le m, fun i c hi hc => ?_⟩
  rw [KvCache.seqCp, List.getElem?_map] at hc
  obtain ⟨c, hcell, rfl⟩ := Option.map_eq_some_iff.mp hc
  have := h.free i c hi hcell
  split
  · exact this
  · exact this

/-- The search goes on at a cell that has been used. -/
theorem seqRm (h : cache.Room size m) : (cache.seqRm s p0 p1).Room size m := by
  refine ⟨(List.length_map _).trans h.size_eq, ?_, fun i c hi hc => ?_⟩
  · rw [KvCache.seqRm]
    cases hfind : cache.cells.findIdx? _ with
    | none => exact h.head_le
    | some i =>
        obtain ⟨hi, hfreed, -⟩ := List.findIdx?_eq_some_iff_getElem.mp hfind
        by_contra hlt
        have hpos := h.free i _ (Nat.le_of_not_le hlt) (List.getElem?_eq_getElem hi)
        obtain ⟨⟨hlow, -⟩, -⟩ := of_decide_eq_true hfreed
        split at hlow
        · omega
        · omega
  · rw [KvCache.seqRm, List.getElem?_map] at hc
    obtain ⟨c, hcell, rfl⟩ := Option.map_eq_some_iff.mp hc
    have := h.free i c hi hcell
    split
    · dsimp only
      split
      · exact Int.negSucc_lt_zero 0
      · exact this
    · exact this

/-- **A batch finds a slot** that is not behind the free end of the cache. -/
theorem decodeInternal (h : cache.Room size m) (hne : batch ≠ [])
    (hroom : m + batch.length ≤ size) (pad : ℕ) :
    ∃ cache', cache.decodeInternal pad batch = some cache' ∧
      cache'.Room size (m + batch.length) := by
  have hpos := List.length_pos_iff.mpr hne
  have hsize : cache.cells.length = size := h.size_eq
  have hfree : ∀ i < batch.length, cache.free (m + i) = true := by
    intro i hi
    rw [KvCache.free, List.getElem?_eq_getElem (by omega)]
    exact decide_eq_true (h.free _ _ (Nat.le_add_right m i) (List.getElem?_eq_getElem (by omega)))
  obtain ⟨head, hle, hfound⟩ : ∃ head ≤ m, search cache.free cache.size batch.length
      (2 * cache.size + 2) cache.head 0 = some head :=
    search_ahead (h.size_eq ▸ hroom) hfree h.head_le (by rw [h.size_eq]; omega)
      (by rw [h.size_eq]; omega)
  have hfits : head + batch.length ≤ cache.cells.length := by omega
  have hdecoded : ∃ cache', cache.decodeInternal pad batch = some cache' ∧ cache'.head = head ∧
      SameFrom (head + batch.length) cache.cells cache'.cells := by
    rw [KvCache.decodeInternal, findSlot, if_neg (by rw [h.size_eq]; omega), hfound]
    refine ⟨_, rfl, rfl, ?_⟩
    exact (((SameFrom.refl _ _).inSlot hfits _).inSlot hfits _).inSlot hfits _
  obtain ⟨cache', hcache', hhead, hsame⟩ := hdecoded
  refine ⟨cache', hcache', hsame.length_eq.trans h.size_eq, by omega, fun i c hi hc => ?_⟩
  rw [hsame.getElem?_eq i (by omega)] at hc
  exact h.free i c (by omega) hc

end Room

end KvCache

open KvCache

section Beams

variable {vocab : WhisperVocab} {maxInitialTid : Option ℤ} {seek seekEnd : ℤ}
  {maxTokens nMax pad nDecoders size m : ℕ} {prompt : List ℤ} {beamSearch : Bool}
  {pool : List Decoder} {choices : List (ℕ × WhisperToken)} {cache : KvCache}

/-- Any number of copies leave the room of the cache as it was. -/
theorem room_copies (h : cache.Room size m) (pairs : List (ℕ × ℕ)) :
    (copies cache pairs).Room size m :=
  List.foldlRecOn pairs _ h fun _ h _ _ => h.seqCp

/-- Sequences are shared out within the cells that they have. -/
theorem room_shareOut (h : cache.Room size m) (sources : List (ℕ × ℕ)) :
    (shareOut cache sources).Room size m :=
  List.foldlRecOn _ _ (room_copies h _) fun _ h _ _ => h.seqRm.seqCp.seqRm

/-- The place that all batches so far would reach in a row. -/
def Beam.Roomy (size : ℕ) (prompt : List ℤ) (nDecoders : ℕ) (st : Beam) : Prop :=
  st.cache.Room size (prompt.length + nDecoders * st.i)

/-- **The prompt** finds room when the cache has a cell for each of its tokens. -/
theorem Beam.Roomy.init (pad nDecoders : ℕ) (hprompt : prompt ≠ [])
    (hroom : prompt.length ≤ cache.size) :
    ∃ st, Beam.init pad prompt nDecoders cache = some st ∧
      st.Roomy cache.size prompt nDecoders := by
  have hlength : (batchOf 0 0 prompt).length = prompt.length := by
    rw [batchOf, List.length_map, List.length_zipIdx]
  have hne : batchOf 0 0 prompt ≠ [] :=
    List.ne_nil_of_length_pos (hlength ▸ List.length_pos_iff.mpr hprompt)
  obtain ⟨decoded, hdecoded, hfree⟩ :=
    (Room.clear cache).decodeInternal hne (by omega) pad
  refine ⟨_, by rw [Beam.init, hdecoded]; rfl, ?_⟩
  exact room_copies (hfree.mono (by dsimp only; omega)) _

/-- There are no more tokens in a batch than decoders. -/
theorem length_nextBatch_le (pool : List Decoder) (nPast : ℕ) :
    (nextBatch pool nPast).length ≤ pool.length := by
  rw [nextBatch, List.length_map]
  exact (List.length_filter_le _ _).trans_eq List.length_zipIdx

/-- **A turn** that the decoders can take finds room. -/
theorem Beam.Roomy.turn {st : Beam} (hroom : prompt.length + nDecoders * nMax ≤ size)
    (hhears : st.Hears nMax prompt nDecoders) (h : st.Roomy size prompt nDecoders)
    (hown : beamSearch = true ∨ ∀ x ∈ sources st.pool choices, x.1 = x.2)
    (hpool : decodeStep vocab maxInitialTid seek seekEnd maxTokens nMax st.pool choices =
      some pool) :
    ∃ st', st.turn vocab maxInitialTid seek seekEnd maxTokens nMax pad prompt beamSearch choices =
        some st' ∧ st'.Roomy size prompt nDecoders := by
  have hshared : (if beamSearch then shareOut st.cache (sources st.pool choices)
      else st.cache).Room size (prompt.length + nDecoders * st.i) := by
    split
    · exact room_shareOut h _
    · exact h
  have hnext : prompt.length + nDecoders * (st.i + 1) =
      prompt.length + nDecoders * st.i + nDecoders := by
    rw [Nat.mul_succ, Nat.add_assoc]
  rw [Beam.turn, if_pos hown, hpool, Option.bind_some]
  dsimp only
  split
  next => exact ⟨_, rfl, hshared.mono (by dsimp only; omega)⟩
  next hwork =>
    obtain ⟨d, hd, hdwork⟩ : ∃ d ∈ pool, d.finished = false := by simpa using hwork
    obtain ⟨j, hj⟩ := List.mem_iff_getElem?.mp hd
    have hne : nextBatch pool (prompt.length + st.i) ≠ [] := by
      have hmem : (d, j) ∈ pool.zipIdx.filter fun x => !x.1.finished :=
        List.mem_filter.mpr ⟨List.mem_zipIdx_iff_getElem?.mpr hj, by rw [hdwork]; rfl⟩
      exact List.ne_nil_of_mem (List.mem_map_of_mem hmem)
    -- A decoder is at work, so this is not the last turn.
    obtain ⟨src, candidate, token, -, hcandidate, hcwork, hlt, -⟩ := exists_source hpool hj hdwork
    obtain ⟨hlen, -, -⟩ := hhears.hears src candidate hcandidate hcwork
    have hturns : nDecoders * (st.i + 1) ≤ nDecoders * nMax := Nat.mul_le_mul_left _ (by omega)
    have hlength : pool.length = nDecoders := (length_decodeStep hpool).trans hhears.size
    have hle := length_nextBatch_le pool (prompt.length + st.i)
    obtain ⟨decoded, hdecoded, hfree⟩ := hshared.decodeInternal hne (by omega) pad
    rw [hdecoded]
    exact ⟨_, rfl, hfree.mono (by dsimp only; omega)⟩

/-- So it is in every run: the decoders have room. -/
theorem Beam.roomy_of_reach (hpad : 0 < pad) (hn : nDecoders ≤ WHISPER_MAX_DECODERS)
    (hprompt : prompt ≠ []) (hroom : prompt.length + nDecoders * nMax ≤ cache.size) {st₀ st : Beam}
    (hinit : Beam.init pad prompt nDecoders cache = some st₀)
    (h : Reach (Beam.turn vocab maxInitialTid seek seekEnd maxTokens nMax pad prompt beamSearch)
      (fun _ _ => True) st₀ st) :
    st.Hears nMax prompt nDecoders ∧ st.Roomy cache.size prompt nDecoders := by
  have hstart : st₀.Roomy cache.size prompt nDecoders := by
    obtain ⟨st, hst, hroomy⟩ := Beam.Roomy.init pad nDecoders hprompt (Nat.le_of_add_right_le hroom)
    exact Option.some.inj (hst.symm.trans hinit) ▸ hroomy
  refine h.invariant (I := fun st => st.Hears nMax prompt nDecoders ∧
    st.Roomy cache.size prompt nDecoders) ⟨.init hpad hn hinit, hstart⟩
    fun st choices st' _ hkept hstep => ⟨hkept.1.turn hpad hn hstep, ?_⟩
  have hturn := hstep
  rw [Beam.turn] at hturn
  obtain ⟨hown, hturn⟩ := Option.ite_none_right_eq_some.mp hturn
  obtain ⟨pool, hpool, -⟩ := Option.bind_eq_some_iff.mp hturn
  obtain ⟨st'', hst'', hroomy⟩ := hkept.2.turn hroom hkept.1 hown hpool
  exact Option.some.inj (hst''.symm.trans hstep) ▸ hroomy

end Beams

end Mogo
