import Mogo.Decoding
import Mogo.KvCache

/-!
# Decoders that Share a Cache

The decoders of a window share one cache. At first they all see the prompt. In a turn of the beam
search each decoder that is still at work takes over the sequence of one of them, and the cache is
told so: the sequence is copied to an identity of its own, and only when all of them have been
copied are the old ones replaced. Then the new tokens are decoded in one batch.

## Main results

* `view_copies`: copies to identities that are not used.
* `view_shareOut`: every decoder sees what the decoder it takes over has seen.
* `decoders_hear_themselves`: a decoder is never given anything but its own sequence to hear.
-/

namespace Mogo

open Transition KvCache

/-- `WHISPER_MAX_DECODERS`: sequences from this number on are the copies that are made while beams
are shared out. -/
def WHISPER_MAX_DECODERS : ℕ := 8

/-! ### The sequences are shared out -/

section ShareOut

/-- Sequences are copied, each pair from its second to its first component. -/
def copies (cache : KvCache) (pairs : List (ℕ × ℕ)) : KvCache :=
  pairs.foldl (fun cache x => cache.seqCp x.2 x.1 (-1) (-1)) cache

/-- The sequence of a decoder is replaced by the copy that has been made for it. -/
def replaceSeq (cache : KvCache) (j : ℕ) : KvCache :=
  ((cache.seqRm j (-1) (-1)).seqCp (WHISPER_MAX_DECODERS + j) j (-1) (-1)).seqRm
    (WHISPER_MAX_DECODERS + j) (-1) (-1)

/-- The update of the cache in the beam search; every decoder that is at work comes with the one it
takes over. -/
def shareOut (cache : KvCache) (sources : List (ℕ × ℕ)) : KvCache :=
  (sources.map Prod.fst).foldl replaceSeq
    (copies cache (sources.map fun x => (WHISPER_MAX_DECODERS + x.1, x.2)))

variable {cache : KvCache} {pairs sources : List (ℕ × ℕ)} {decoders : List ℕ} {j : ℕ}

/-- **Copies** to identities that are not used, one after the other. -/
theorem view_copies (hwf : WF cache.cells) (hnodup : (pairs.map Prod.fst).Nodup)
    (hempty : ∀ x ∈ pairs, cache.view x.1 = 0)
    (hsource : ∀ x ∈ pairs, x.2 ∉ pairs.map Prod.fst) :
    WF (copies cache pairs).cells ∧
      (∀ x ∈ pairs, (copies cache pairs).view x.1 = cache.view x.2) ∧
      ∀ s, s ∉ pairs.map Prod.fst → (copies cache pairs).view s = cache.view s := by
  induction pairs generalizing cache with
  | nil => exact ⟨hwf, by rintro _ ⟨⟩, fun _ _ => rfl⟩
  | cons x pairs ih =>
      rw [List.map_cons, List.nodup_cons] at hnodup
      have hkeep : ∀ s, s ≠ x.1 → (cache.seqCp x.2 x.1 (-1) (-1)).view s = cache.view s :=
        fun s hs => view_seqCp_of_ne hs
      have hne : ∀ y ∈ pairs, y.1 ≠ x.1 := fun y hy heq =>
        hnodup.1 (heq ▸ List.mem_map_of_mem hy)
      have hne' : ∀ y ∈ x :: pairs, y.2 ≠ x.1 := fun y hy heq =>
        hsource y hy (heq ▸ List.mem_cons_self)
      obtain ⟨hwf', hcopied, hothers⟩ := ih (wf_seqCp (s := x.2) (t := x.1) hwf) hnodup.2
        (fun y hy => (hkeep _ (hne y hy)).trans (hempty y (List.mem_cons_of_mem x hy)))
        fun y hy hmem => hsource y (List.mem_cons_of_mem x hy) (List.mem_cons_of_mem _ hmem)
      refine ⟨hwf', fun y hy => ?_, fun s hs => ?_⟩
      · rcases List.mem_cons.mp hy with rfl | hy
        · exact (hothers _ hnodup.1).trans (view_seqCp hwf (hempty _ List.mem_cons_self))
        · exact (hcopied y hy).trans (hkeep _ (hne' y (List.mem_cons_of_mem x hy)))
      · rw [List.map_cons, List.mem_cons, not_or] at hs
        exact (hothers s hs.2).trans (hkeep s hs.1)

/-- The copy that has been made for a decoder becomes its sequence. -/
theorem view_replaceSeq (hwf : WF cache.cells) (j : ℕ) :
    WF (replaceSeq cache j).cells ∧
      (replaceSeq cache j).view j = cache.view (WHISPER_MAX_DECODERS + j) ∧
      (replaceSeq cache j).view (WHISPER_MAX_DECODERS + j) = 0 ∧
      ∀ s, s ≠ j → s ≠ WHISPER_MAX_DECODERS + j → (replaceSeq cache j).view s = cache.view s := by
  have hne : j ≠ WHISPER_MAX_DECODERS + j := by
    rw [WHISPER_MAX_DECODERS]
    omega
  have hremoved : WF (cache.seqRm j (-1) (-1)).cells := wf_seqRm hwf
  have hcopied := wf_seqCp (s := WHISPER_MAX_DECODERS + j) (t := j) hremoved
  refine ⟨wf_seqRm hcopied, ?_, view_seqRm hcopied, fun s hs hs' => ?_⟩
  · rw [replaceSeq, view_seqRm_of_ne hne, view_seqCp hremoved (view_seqRm hwf),
      view_seqRm_of_ne hne.symm]
  · rw [replaceSeq, view_seqRm_of_ne hs', view_seqCp_of_ne hs, view_seqRm_of_ne hs]

/-- Replacing the decoders one after another gives each of them the copy that was made for it, frees
that copy, and leaves all other sequences as they are. -/
theorem view_replaceSeqs (hwf : WF cache.cells) (hnodup : decoders.Nodup)
    (hlt : ∀ j ∈ decoders, j < WHISPER_MAX_DECODERS) :
    WF (decoders.foldl replaceSeq cache).cells ∧
      (∀ j ∈ decoders, (decoders.foldl replaceSeq cache).view j =
          cache.view (WHISPER_MAX_DECODERS + j) ∧
        (decoders.foldl replaceSeq cache).view (WHISPER_MAX_DECODERS + j) = 0) ∧
      ∀ s, (∀ j ∈ decoders, s ≠ j ∧ s ≠ WHISPER_MAX_DECODERS + j) →
        (decoders.foldl replaceSeq cache).view s = cache.view s := by
  induction decoders generalizing cache with
  | nil => exact ⟨hwf, by rintro _ ⟨⟩, fun _ _ => rfl⟩
  | cons i decoders ih =>
      rw [List.nodup_cons] at hnodup
      obtain ⟨hwf₁, hview, hcopy, hkeep⟩ := view_replaceSeq hwf i
      have hlt' : ∀ j ∈ decoders, j < WHISPER_MAX_DECODERS :=
        fun j hj => hlt j (List.mem_cons_of_mem i hj)
      obtain ⟨hwf', hreplaced, hothers⟩ := ih hwf₁ hnodup.2 hlt'
      have hi := hlt i List.mem_cons_self
      have hapart : ∀ j ∈ decoders, j ≠ i ∧ j < WHISPER_MAX_DECODERS :=
        fun j hj => ⟨fun heq => hnodup.1 (heq ▸ hj), hlt' j hj⟩
      refine ⟨hwf', fun j hj => ?_, fun s hs => ?_⟩
      · rcases List.mem_cons.mp hj with rfl | hj
        · have hfirst := hothers j fun k hk => ⟨(hapart k hk).1.symm, by omega⟩
          have hsecond := hothers (WHISPER_MAX_DECODERS + j) fun k hk =>
            ⟨by have := (hapart k hk).2; omega, by have := (hapart k hk).1; omega⟩
          exact ⟨hfirst.trans hview, hsecond.trans hcopy⟩
        · obtain ⟨hfirst, hsecond⟩ := hreplaced j hj
          have := hapart j hj
          exact ⟨hfirst.trans (hkeep _ (by omega) (by omega)), hsecond⟩
      · obtain ⟨hne, hne'⟩ := hs i List.mem_cons_self
        exact (hothers s fun j hj => hs j (List.mem_cons_of_mem i hj)).trans (hkeep s hne hne')

/-- **The sequences are shared out**: every decoder that is at work sees what the one it takes over
has seen, whoever has replaced that one. -/
theorem view_shareOut (hwf : WF cache.cells) (hnodup : (sources.map Prod.fst).Nodup)
    (hlt : ∀ x ∈ sources, x.1 < WHISPER_MAX_DECODERS ∧ x.2 < WHISPER_MAX_DECODERS)
    (hempty : ∀ s, WHISPER_MAX_DECODERS ≤ s → cache.view s = 0) :
    WF (shareOut cache sources).cells ∧
      (∀ x ∈ sources, (shareOut cache sources).view x.1 = cache.view x.2) ∧
      ∀ s, WHISPER_MAX_DECODERS ≤ s → (shareOut cache sources).view s = 0 := by
  have hfst : (sources.map fun x => (WHISPER_MAX_DECODERS + x.1, x.2)).map Prod.fst =
      (sources.map Prod.fst).map (WHISPER_MAX_DECODERS + ·) := by
    rw [List.map_map, List.map_map]
    rfl
  have hnodup' : ((sources.map fun x => (WHISPER_MAX_DECODERS + x.1, x.2)).map Prod.fst).Nodup :=
    hfst ▸ hnodup.map fun _ _ h => Nat.add_left_cancel h
  have hempty' : ∀ x ∈ sources.map fun x => (WHISPER_MAX_DECODERS + x.1, x.2),
      cache.view x.1 = 0 := by
    intro x hx
    obtain ⟨y, -, rfl⟩ := List.mem_map.mp hx
    exact hempty _ (Nat.le_add_right _ _)
  have hsource : ∀ x ∈ sources.map fun x => (WHISPER_MAX_DECODERS + x.1, x.2),
      x.2 ∉ (sources.map fun x => (WHISPER_MAX_DECODERS + x.1, x.2)).map Prod.fst := by
    intro x hx hmem
    obtain ⟨y, hy, rfl⟩ := List.mem_map.mp hx
    rw [hfst] at hmem
    obtain ⟨k, -, hk⟩ := List.mem_map.mp hmem
    have := (hlt y hy).2
    dsimp only at hk
    omega
  obtain ⟨hwf₁, hcopied, hothers⟩ := view_copies hwf hnodup' hempty' hsource
  have hat : ∀ j ∈ sources.map Prod.fst, j < WHISPER_MAX_DECODERS := by
    intro j hj
    obtain ⟨x, hx, rfl⟩ := List.mem_map.mp hj
    exact (hlt x hx).1
  obtain ⟨hwf₂, hreplaced, hkept⟩ := view_replaceSeqs hwf₁ hnodup hat
  refine ⟨hwf₂, fun x hx => ?_, fun s hs => ?_⟩
  · exact (hreplaced _ (List.mem_map_of_mem hx)).1.trans (hcopied _ (List.mem_map_of_mem hx))
  · by_cases hmem : s ∈ (sources.map Prod.fst).map (WHISPER_MAX_DECODERS + ·)
    · obtain ⟨j, hj, rfl⟩ := List.mem_map.mp hmem
      exact (hreplaced j hj).2
    · have hkeep : ∀ j ∈ sources.map Prod.fst, s ≠ j ∧ s ≠ WHISPER_MAX_DECODERS + j := by
        intro j hj
        have := hat j hj
        exact ⟨by omega, fun heq => hmem (heq ▸ List.mem_map_of_mem hj)⟩
      exact (hkept s hkeep).trans ((hothers s (hfst ▸ hmem)).trans (hempty s hs))

end ShareOut

/-! ### Turns of the decoding loop -/

/-- The decoders of a window, the cache they share, and the number of the turn. -/
structure Beam where
  pool : List Decoder
  cache : KvCache
  i : ℕ

/-- The decoders that are at work, each with the one it takes over. -/
def sources (pool : List Decoder) (choices : List (ℕ × WhisperToken)) : List (ℕ × ℕ) :=
  ((pool.zip choices).zipIdx.filter fun x => !x.1.1.finished).map fun x => (x.2, x.1.2.1)

/-- The batch of the last tokens of the decoders that are still at work. -/
def nextBatch (pool : List Decoder) (nPast : ℕ) : List BatchToken :=
  (pool.zipIdx.filter fun x => !x.1.finished).map fun x =>
    ⟨x.1.tokens.getLast?.elim 0 WhisperToken.id, nPast, x.2⟩

section Turns

variable (vocab : WhisperVocab) (maxInitialTid : Option ℤ) (seek seekEnd : ℤ)
  (maxTokens nMax pad : ℕ) (prompt : List ℤ) (beamSearch : Bool)

/-- Before the loop: the prompt is decoded for the first decoder, and the others get copies. -/
def Beam.init (nDecoders : ℕ) (cache : KvCache) : Option Beam :=
  (cache.clear.decodeInternal pad (batchOf 0 0 prompt)).map fun cache =>
    { pool := List.replicate nDecoders Decoder.init
      cache := copies cache ((List.range' 1 (nDecoders - 1)).map fun j => (j, 0))
      i := 0 }

/-- A turn of the loop, with its cache. Without beam search a decoder goes on with its own
sequence. When all are finished, nothing is decoded. -/
def Beam.turn (st : Beam) (choices : List (ℕ × WhisperToken)) : Option Beam :=
  if beamSearch = true ∨ ∀ x ∈ sources st.pool choices, x.1 = x.2 then
    (decodeStep vocab maxInitialTid seek seekEnd maxTokens nMax st.pool choices).bind fun pool =>
      let cache := if beamSearch then shareOut st.cache (sources st.pool choices) else st.cache
      if pool.all Decoder.finished then some ⟨pool, cache, st.i + 1⟩
      else
        (cache.decodeInternal pad (nextBatch pool (prompt.length + st.i))).map fun cache =>
          ⟨pool, cache, st.i + 1⟩
  else none

end Turns

/-! ### Lists with their indices -/

section Lists

variable {α β : Type} {f : α → Option β} {l : List α} {l' : List β} {a : α} {j : ℕ}

/-- The results of a map that may fail stand at the places of their arguments. -/
theorem getElem?_mapM (h : l.mapM f = some l') : ∀ j : ℕ, l'[j]? = l[j]?.bind f := by
  induction l generalizing l' with
  | nil =>
      obtain rfl := Option.some.inj h
      exact fun _ => rfl
  | cons a l ih =>
      rw [List.mapM_cons] at h
      obtain ⟨b, hb, hrest⟩ := Option.bind_eq_some_iff.mp h
      obtain ⟨bs, hbs, heq⟩ := Option.bind_eq_some_iff.mp hrest
      obtain rfl := Option.some.inj heq
      rintro (- | j)
      · exact hb.symm
      · exact ih hbs j

/-- A map that may fail, and has not, loses no element. -/
theorem length_mapM (h : l.mapM f = some l') : l'.length = l.length := by
  induction l generalizing l' with
  | nil =>
      obtain rfl := Option.some.inj h
      rfl
  | cons a l ih =>
      rw [List.mapM_cons] at h
      obtain ⟨b, hb, hrest⟩ := Option.bind_eq_some_iff.mp h
      obtain ⟨bs, hbs, heq⟩ := Option.bind_eq_some_iff.mp hrest
      obtain rfl := Option.some.inj heq
      exact congrArg Nat.succ (ih hbs)

/-- Of the elements paired with their indices, the filter for one index keeps the element at it. -/
theorem filter_zipIdx (h : l[j]? = some a) (k : ℕ) :
    ((l.zipIdx k).filter fun x => x.2 = k + j) = [(a, k + j)] := by
  induction l generalizing j k with
  | nil => cases h
  | cons b l ih =>
      rw [List.zipIdx_cons]
      cases j with
      | zero =>
          obtain rfl := Option.some.inj h
          rw [List.filter_cons_of_pos (by simp), List.filter_eq_nil_iff.mpr]
          · rfl
          · intro x hx
            have := (List.mem_zipIdx hx).1
            simp
            omega
      | succ j =>
          rw [List.filter_cons_of_neg (by simp)]
          have := ih h (k + 1)
          rwa [Nat.add_right_comm, Nat.add_assoc k j 1] at this

end Lists

/-! ### What the decoders hear -/

section Hearing

variable {vocab : WhisperVocab} {maxInitialTid : Option ℤ} {seek seekEnd : ℤ}
  {maxTokens nMax pad : ℕ} {prompt : List ℤ} {beamSearch : Bool} {pool pool' : List Decoder}
  {choices : List (ℕ × WhisperToken)} {j nDecoders : ℕ}

/-- An update leaves the sequence alone. -/
theorem Decoder.tokens_update (d : Decoder) :
    (d.update vocab seek seekEnd maxTokens nMax).tokens = d.tokens := by
  rw [update]
  split
  next => rfl
  next token _ =>
    dsimp only
    split
    next => rfl
    next =>
      rw [(finish_eq vocab seek seekEnd maxTokens nMax (d.slide vocab token _) token _).1, slide]
      split
      · rfl
      · rfl

/-- A round of the search keeps the number of decoders, whatever each of them has chosen. -/
theorem length_decodeStep
    (h : decodeStep vocab maxInitialTid seek seekEnd maxTokens nMax pool choices = some pool') :
    pool'.length = pool.length := by
  obtain ⟨hchoices, hmap⟩ := Option.ite_none_right_eq_some.mp h
  rw [length_mapM hmap, List.length_zip, hchoices, Nat.min_self]

/-- **What a decoder that is at work has become** in a turn: it has taken over the sequence of a
decoder that was at work, and a token. -/
theorem exists_source
    (h : decodeStep vocab maxInitialTid seek seekEnd maxTokens nMax pool choices = some pool')
    {d' : Decoder} (hd' : pool'[j]? = some d') (hwork : d'.finished = false) :
    ∃ src candidate token, (j, src) ∈ sources pool choices ∧ pool[src]? = some candidate ∧
      candidate.finished = false ∧ candidate.tokens.length < nMax ∧
      d'.tokens = candidate.tokens ++ [token] := by
  obtain ⟨-, hmap⟩ := Option.ite_none_right_eq_some.mp h
  rw [getElem?_mapM hmap] at hd'
  obtain ⟨⟨d, src, token⟩, hzip, hone⟩ := Option.bind_eq_some_iff.mp hd'
  rw [decodeOne] at hone
  split at hone
  next hfinished =>
    obtain rfl := Option.some.inj hone
    rw [hfinished] at hwork
    cases hwork
  next hunfinished =>
    obtain ⟨candidate, hcandidate, hpush⟩ := Option.bind_eq_some_iff.mp hone
    obtain ⟨⟨hfinished, hlength, -⟩, heq⟩ := Option.ite_none_right_eq_some.mp hpush
    obtain rfl := Option.some.inj heq
    refine ⟨src, candidate, token, ?_, hcandidate, hfinished, hlength, ?_⟩
    · refine List.mem_map.mpr ⟨((d, src, token), j), List.mem_filter.mpr ⟨?_, ?_⟩, rfl⟩
      · exact List.mem_zipIdx_iff_getElem?.mpr hzip
      · simpa using hunfinished
    · rw [Decoder.tokens_update, Decoder.push]

/-- The decoders that are at work are of the pool, and take over decoders of the pool that are at
work. -/
theorem of_mem_sources
    (h : decodeStep vocab maxInitialTid seek seekEnd maxTokens nMax pool choices = some pool')
    {x : ℕ × ℕ} (hx : x ∈ sources pool choices) :
    x.1 < pool.length ∧ ∃ d, pool[x.2]? = some d ∧ d.finished = false := by
  obtain ⟨-, hmap⟩ := Option.ite_none_right_eq_some.mp h
  obtain ⟨⟨⟨d, src, token⟩, j⟩, hmem, rfl⟩ := List.mem_map.mp hx
  obtain ⟨hmem, hwork⟩ := List.mem_filter.mp hmem
  have hzip := List.mem_zipIdx_iff_getElem?.mp hmem
  have hlt := (List.getElem?_eq_some_iff.mp hzip).1
  refine ⟨by rw [List.length_zip] at hlt; dsimp only; omega, ?_⟩
  have hsome := getElem?_mapM hmap j
  rw [hzip, List.getElem?_eq_getElem (by rw [length_mapM hmap]; exact hlt)] at hsome
  have hone := hsome.symm
  rw [Option.bind_some, decodeOne, if_neg (by simpa using hwork)] at hone
  obtain ⟨candidate, hcandidate, hpush⟩ := Option.bind_eq_some_iff.mp hone
  exact ⟨candidate, hcandidate, (Option.ite_none_right_eq_some.mp hpush).1.1⟩

/-- Every decoder that is at work has one source. -/
theorem nodup_sources (pool : List Decoder) (choices : List (ℕ × WhisperToken)) :
    ((sources pool choices).map Prod.fst).Nodup := by
  have hindices : ((pool.zip choices).zipIdx.map Prod.snd).Nodup := by
    rw [List.zipIdx_map_snd]
    exact List.nodup_range'
  rw [sources, List.map_map]
  exact hindices.sublist (List.filter_sublist.map _)

/-- The next batch has the last token of every decoder that is at work. -/
theorem filter_nextBatch {d : Decoder} (hd : pool[j]? = some d) (hwork : d.finished = false)
    {tokens : List WhisperToken} {token : WhisperToken} (htokens : d.tokens = tokens ++ [token])
    (nPast : ℕ) :
    (nextBatch pool nPast).filter (fun b => b.seqId = j) = batchOf j nPast [token.id] := by
  have hone := filter_zipIdx hd 0
  rw [Nat.zero_add] at hone
  rw [nextBatch, List.filter_map, List.filter_filter]
  have hcomm : (pool.zipIdx.filter fun x => ((fun b : BatchToken => decide (b.seqId = j)) ∘ fun x =>
      (⟨x.1.tokens.getLast?.elim 0 WhisperToken.id, nPast, x.2⟩ : BatchToken)) x &&
        !x.1.finished) = [(d, j)] := by
    have : (pool.zipIdx.filter fun x => x.2 = j).filter (fun x => !x.1.finished) = [(d, j)] := by
      rw [hone, List.filter_cons_of_pos (by rw [hwork]; rfl)]
      rfl
    rw [List.filter_filter] at this
    rw [← this]
    congr 1
    funext x
    exact Bool.and_comm _ _
  rw [hcomm, List.map_singleton, htokens, List.getLast?_concat]
  rfl

/-- Every token of the next batch has a position that is not negative. -/
theorem pos_nextBatch (pool : List Decoder) (nPast : ℕ) :
    ∀ b ∈ nextBatch pool nPast, 0 ≤ b.pos := by
  intro b hb
  obtain ⟨x, -, rfl⟩ := List.mem_map.mp hb
  exact Int.natCast_nonneg _

/-- The decoders that are at work have heard themselves, and no sequence is left over. -/
structure Beam.Hears (nMax : ℕ) (prompt : List ℤ) (nDecoders : ℕ) (st : Beam) : Prop where
  size : st.pool.length = nDecoders
  wf : WF st.cache.cells
  spare : ∀ s, WHISPER_MAX_DECODERS ≤ s → st.cache.view s = 0
  hears : ∀ j d, st.pool[j]? = some d → d.finished = false →
    d.tokens.length = st.i ∧ st.i ≤ nMax ∧
      st.cache.view j = trace (prompt ++ d.tokens.map WhisperToken.id)

/-- Identities that no decoder of the pool has are not in the next batch. -/
theorem filter_nextBatch_of_le (hsize : pool.length ≤ j) (nPast : ℕ) :
    (nextBatch pool nPast).filter (fun b => b.seqId = j) = [] := by
  refine List.filter_eq_nil_iff.mpr fun b hb => ?_
  obtain ⟨x, hx, rfl⟩ := List.mem_map.mp hb
  have := (List.mem_zipIdx (List.mem_filter.mp hx).1).2.1
  simp
  omega

/-- **The prompt** is heard by the first decoder, in a cache that has been cleared. -/
theorem view_decodePrompt (hpad : 0 < pad) {cache decoded : KvCache}
    (h : cache.clear.decodeInternal pad (batchOf 0 0 prompt) = some decoded) :
    WF decoded.cells ∧ decoded.view 0 = trace prompt ∧ ∀ s, s ≠ 0 → decoded.view s = 0 := by
  have hwf := wf_clear cache
  have hbatch : ∀ b ∈ batchOf 0 0 prompt, 0 ≤ b.pos ∧ b.seqId = 0 := by
    intro b hb
    obtain ⟨x, -, rfl⟩ := List.mem_map.mp hb
    exact ⟨Int.natCast_nonneg _, rfl⟩
  have hpos := fun b hb => (hbatch b hb).1
  refine ⟨wf_decodeInternal hwf hpos h, ?_, fun s hs => ?_⟩
  · have hall : (batchOf 0 0 prompt).filter (fun b => b.seqId = 0) = batchOf 0 0 prompt :=
      List.filter_eq_self.mpr fun b hb => decide_eq_true (hbatch b hb).2
    have hfirst : decoded.view 0 = trace ([] ++ prompt) :=
      view_decodeInternal hpad hwf hpos (view_clear cache 0) hall h
    exact hfirst
  · have hnone : (batchOf 0 0 prompt).filter (fun b => b.seqId = s) = [] :=
      List.filter_eq_nil_iff.mpr fun b hb => by
        rw [(hbatch b hb).2]
        simpa using hs.symm
    have hother : decoded.view s = trace ([] ++ []) :=
      view_decodeInternal hpad hwf hpos (view_clear cache s) hnone h
    exact hother

/-- **At first** all decoders have heard the prompt. -/
theorem Beam.Hears.init (hpad : 0 < pad) (hn : nDecoders ≤ WHISPER_MAX_DECODERS)
    {cache : KvCache} {st : Beam} (h : Beam.init pad prompt nDecoders cache = some st) :
    st.Hears nMax prompt nDecoders := by
  obtain ⟨decoded, hdecoded, rfl⟩ := Option.map_eq_some_iff.mp h
  obtain ⟨hwf, hfirst, hothers⟩ := view_decodePrompt hpad hdecoded
  have hfst : ((List.range' 1 (nDecoders - 1)).map fun j => (j, 0)).map Prod.fst =
      List.range' 1 (nDecoders - 1) := by
    rw [List.map_map]
    exact List.map_id _
  have hpair : ∀ x ∈ (List.range' 1 (nDecoders - 1)).map fun j => (j, 0), x.1 ≠ 0 ∧ x.2 = 0 := by
    intro x hx
    obtain ⟨j, hj, rfl⟩ := List.mem_map.mp hx
    have := List.mem_range'_1.mp hj
    exact ⟨by dsimp only; omega, rfl⟩
  obtain ⟨hwf', hcopied, hkept⟩ := view_copies hwf
    (by rw [hfst]; exact List.nodup_range') (fun x hx => hothers _ (hpair x hx).1)
    fun x hx hmem => by
      rw [hfst, (hpair x hx).2] at hmem
      have := List.mem_range'_1.mp hmem
      omega
  refine ⟨List.length_replicate, hwf', fun s hs => ?_, fun j d hd _ => ?_⟩
  · rw [WHISPER_MAX_DECODERS] at hs hn
    refine (hkept s fun hmem => ?_).trans (hothers s (by omega))
    rw [hfst, List.mem_range'_1] at hmem
    omega
  · obtain ⟨hlt, rfl⟩ : j < nDecoders ∧ Decoder.init = d := by
      rw [List.getElem?_replicate] at hd
      exact Option.ite_none_right_eq_some.mp hd |>.imp id Option.some.inj
    refine ⟨rfl, Nat.zero_le _, ?_⟩
    rw [Decoder.init, List.map_nil, List.append_nil, ← hfirst]
    rcases Nat.eq_zero_or_pos j with rfl | hj
    · exact hkept 0 fun hmem => by
        rw [hfst, List.mem_range'_1] at hmem
        omega
    · refine hcopied (j, 0) (List.mem_map.mpr ⟨j, List.mem_range'_1.mpr ⟨hj, ?_⟩, rfl⟩)
      omega

/-- Before the next batch, a decoder that is at work sees what the one it takes over has seen. -/
theorem Beam.Hears.shared (hn : nDecoders ≤ WHISPER_MAX_DECODERS) {st : Beam}
    (h : st.Hears nMax prompt nDecoders)
    (hown : beamSearch = true ∨ ∀ x ∈ sources st.pool choices, x.1 = x.2)
    (hpool : decodeStep vocab maxInitialTid seek seekEnd maxTokens nMax st.pool choices =
      some pool) {cache : KvCache}
    (hcache : cache = if beamSearch then shareOut st.cache (sources st.pool choices)
      else st.cache) :
    WF cache.cells ∧ (∀ x ∈ sources st.pool choices, cache.view x.1 = st.cache.view x.2) ∧
      ∀ s, WHISPER_MAX_DECODERS ≤ s → cache.view s = 0 := by
  cases beamSearch with
  | true =>
      rw [hcache]
      refine view_shareOut h.wf (nodup_sources _ _) (fun x hx => ?_) h.spare
      obtain ⟨hlt, d, hd, -⟩ := of_mem_sources hpool hx
      have := (List.getElem?_eq_some_iff.mp hd).1
      have := h.size
      omega
  | false =>
      rw [hcache]
      refine ⟨h.wf, fun x hx => ?_, h.spare⟩
      rw [hown.resolve_left (by decide) x hx]
      rfl

/-- **A turn** keeps what the decoders hear apart. -/
theorem Beam.Hears.turn (hpad : 0 < pad) (hn : nDecoders ≤ WHISPER_MAX_DECODERS) {st st' : Beam}
    (h : st.Hears nMax prompt nDecoders)
    (hstep : st.turn vocab maxInitialTid seek seekEnd maxTokens nMax pad prompt beamSearch choices =
      some st') : st'.Hears nMax prompt nDecoders := by
  rw [Beam.turn] at hstep
  obtain ⟨hown, hturn⟩ := Option.ite_none_right_eq_some.mp hstep
  obtain ⟨pool, hpool, hrest⟩ := Option.bind_eq_some_iff.mp hturn
  have hsize : pool.length = nDecoders := (length_decodeStep hpool).trans h.size
  obtain ⟨cache, hcache⟩ : ∃ cache, cache =
      if beamSearch then shareOut st.cache (sources st.pool choices) else st.cache := ⟨_, rfl⟩
  obtain ⟨hwf, hview, hspare⟩ := h.shared hn hown hpool hcache
  rw [← hcache] at hrest
  dsimp only at hrest
  split at hrest
  next hfinished =>
    obtain rfl := Option.some.inj hrest
    refine ⟨hsize, hwf, hspare, fun j d hd hwork => ?_⟩
    rw [List.all_eq_true.mp hfinished d (List.mem_of_getElem? hd)] at hwork
    cases hwork
  next =>
    obtain ⟨decoded, hdecoded, rfl⟩ := Option.map_eq_some_iff.mp hrest
    have hpos := pos_nextBatch pool (prompt.length + st.i)
    refine ⟨hsize, wf_decodeInternal hwf hpos hdecoded, fun s hs => ?_, fun j d hd hwork => ?_⟩
    · -- No decoder has this identity, so the batch has nothing for it.
      have hkept : decoded.view s = trace ([] ++ []) := by
        refine view_decodeInternal hpad hwf hpos (hspare s hs) ?_ hdecoded
        exact filter_nextBatch_of_le (by omega) _
      exact hkept
    · obtain ⟨src, candidate, token, hsource, hcandidate, hcwork, hlt, htokens⟩ :=
        exists_source hpool hd hwork
      obtain ⟨hlen, -, hheard⟩ := h.hears src candidate hcandidate hcwork
      refine ⟨by rw [htokens, List.length_append, hlen]; rfl, hlen ▸ hlt, ?_⟩
      have hpast : (prompt ++ candidate.tokens.map WhisperToken.id).length =
          prompt.length + st.i := by
        rw [List.length_append, List.length_map, hlen]
      rw [htokens, List.map_append, ← List.append_assoc]
      refine view_decodeInternal hpad hwf hpos ((hview _ hsource).trans hheard) ?_ hdecoded
      rw [hpast]
      exact filter_nextBatch hd hwork htokens _

/-- In every state that a beam reaches from its prompt, each decoder hears the prompt and its own
tokens. -/
theorem Beam.hears_of_reach (hpad : 0 < pad) (hn : nDecoders ≤ WHISPER_MAX_DECODERS)
    {cache : KvCache} {st₀ st : Beam} (hinit : Beam.init pad prompt nDecoders cache = some st₀)
    (h : Reach (Beam.turn vocab maxInitialTid seek seekEnd maxTokens nMax pad prompt beamSearch)
      (fun _ _ => True) st₀ st) : st.Hears nMax prompt nDecoders :=
  h.invariant (.init hpad hn hinit) fun _ _ _ _ hs hstep => hs.turn hpad hn hstep

/-- **The decoders hear themselves.** Whatever the network draws and the beam search shares out,
whatever was in the cache before: what a decoder that is at work attends to is the prompt and its
own tokens, each once and at its position, with keys and values that were computed from just the
tokens up to there; and there are no more of them than the turns of the loop allow. -/
theorem decoders_hear_themselves (hpad : 0 < pad) (hn : nDecoders ≤ WHISPER_MAX_DECODERS)
    {cache : KvCache} {st₀ st : Beam} (hinit : Beam.init pad prompt nDecoders cache = some st₀)
    (h : Reach (Beam.turn vocab maxInitialTid seek seekEnd maxTokens nMax pad prompt beamSearch)
      (fun _ _ => True) st₀ st) {d : Decoder} (hd : st.pool[j]? = some d)
    (hwork : d.finished = false) :
    st.cache.view j = trace (prompt ++ d.tokens.map WhisperToken.id) ∧ d.tokens.length ≤ nMax := by
  obtain ⟨hlength, hle, hview⟩ := (Beam.hears_of_reach hpad hn hinit h).hears j d hd hwork
  exact ⟨hview, hlength ▸ hle⟩

end Hearing

section Example

/-- A cache of sixteen free cells. -/
def hiCache : KvCache := ⟨0, List.replicate 16 ⟨-1, ∅, ⟨0, 0⟩⟩⟩

/-- After two turns the second decoder has taken over from the first, and shares two cells with
it. -/
theorem decoders_hear_themselves_hi :
    ∃ (st : Beam) (d : Decoder), st.pool[1]? = some d ∧ d.tokens.map WhisperToken.id = [5, 1] ∧
      st.cache.cells.map (fun c => (c.pos, c.seqId)) =
        [(0, {0, 1}), (1, {0, 1}), (2, {0}), (2, {1})] ++ List.replicate 12 (-1, ∅) ∧
      st.cache.view 1 = trace [3, 5, 1] := by
  obtain ⟨st₀, st, d, hinit, hrun, hd, hwork, htokens, hcells⟩ : ∃ (st₀ st : Beam) (d : Decoder),
      Beam.init 1 [3] 2 hiCache = some st₀ ∧
      run (Beam.turn hiVocab (some 50) 0 500 0 220 1 [3] true) st₀ (hiChoices.take 2) = some st ∧
      st.pool[1]? = some d ∧ d.finished = false ∧ d.tokens.map WhisperToken.id = [5, 1] ∧
      st.cache.cells.map (fun c => (c.pos, c.seqId)) =
        [(0, {0, 1}), (1, {0, 1}), (2, {0}), (2, {1})] ++ List.replicate 12 (-1, ∅) :=
    ⟨_, _, _, rfl, rfl, rfl, rfl, rfl, by decide⟩
  have hreach := Reach.run .start (fun _ _ _ => trivial) hrun
  have hview := (decoders_hear_themselves (by decide) (by decide) hinit hreach hd hwork).1
  rw [htokens] at hview
  exact ⟨st, d, hd, htokens, hcells, hview⟩

end Example

end Mogo
