import Mogo.Decoding

/-!
# Transcribing a Recording

Whisper moves a window over the recording. What is decoded of a window is cut into segments at its
timestamps; of the two timestamps between segments, the second one is passed over. Then the window
moves to the last timestamp, so that what stands behind it is heard again, or past the whole chunk,
if it ends with a single timestamp.

What the network makes of a window may depend on all that was decoded before. All that is asked of
it is that it comes from a pool of decoders.

## Main results

* `windowSegments_spoken`, `windowSegments_inOrder`: the segments of a window.
* `transcribe_faithful`: the segments of a recording.
-/

namespace Mogo

open Transition

/-! ### The segments of a window -/

/-- What is decoded of a window: `tokens_cur`, `seek_delta` and `is_no_speech`. -/
structure Window where
  tokens : List WhisperToken
  seekDelta : ℤ
  isNoSpeech : Bool
  deriving DecidableEq, Repr

section Segments

variable (vocab : WhisperVocab) (seek : ℤ)

/-- The loop over the tokens of a window. At a timestamp a segment ends, if it has a text, and the
timestamps that follow are skipped. -/
def segmentLoop (seekDelta : ℤ) : (skipping : Bool) → (t0 : ℤ) → (text : List UInt8) →
    (tokens : List WhisperToken) → List WhisperToken → List WhisperSegment
  | _, t0, text, tokens, [] =>
    if text = [] then []
    else
      [{ t0 := t0
         t1 := seek + seekDelta
         text := text
         tokens := tokens
         speakerTurnNext := false }]
  | skipping, t0, text, tokens, token :: rest =>
    if skipping = true ∧ vocab.tokenBeg < token.id then
      segmentLoop seekDelta true t0 text tokens rest
    else
      let text := if token.id < vocab.tokenEot then text ++ vocab.tokenToStr token.id else text
      let tokens := tokens ++ [token]
      if vocab.tokenBeg < token.id then
        let t1 := seek + 2 * (token.tid - vocab.tokenBeg)
        (if text = [] then []
          else
            [{ t0 := t0
               t1 := t1
               text := text
               tokens := tokens
               speakerTurnNext := false }]) ++
          segmentLoop seekDelta true t1 [] [] rest
      else segmentLoop seekDelta false t0 text tokens rest

/-- The segments of a window, with the options the server starts whisper with for a video. -/
def windowSegments (w : Window) : List WhisperSegment :=
  match w.tokens with
  | [] => []
  | front :: _ =>
    if w.isNoSpeech then []
    else
      segmentLoop vocab seek w.seekDelta false (seek + 2 * (front.tid - vocab.tokenBeg)) [] []
        w.tokens

/-- `single_timestamp_ending`: of the last two tokens of the window only the last is a timestamp. -/
def singleTimestampEnding (w : Window) : Bool :=
  match w.tokens.reverse with
  | last :: penultimate :: _ => penultimate.id < vocab.tokenBeg ∧ vocab.tokenBeg < last.id
  | _ => false

/-- Where the next window begins: behind this one, or at its last pair of timestamps. -/
def nextSeek (seekEnd : ℤ) (w : Window) : ℤ :=
  seek + if singleTimestampEnding vocab w then min (seekEnd - seek) (100 * 30) else w.seekDelta

end Segments

/-! ### The main loop -/

/-- The window comes from a decoder of a pool: its whole sequence, or its result. -/
def Window.DecodedAt (vocab : WhisperVocab) (maxInitialTid : Option ℤ) (maxTokens nMax : ℕ)
    (seekEnd seek : ℤ) (w : Window) : Prop :=
  ∃ n pool d, Reach (decodeStep vocab maxInitialTid seek seekEnd maxTokens nMax) (fun _ _ => True)
      (List.replicate n Decoder.init) pool ∧ d ∈ pool ∧ w.seekDelta = d.seekDelta ∧
    (w.tokens = d.tokens ∨ w.tokens = d.tokens.take d.resultLen)

/-- The network: what is decoded at a place of the recording, after these windows. -/
structure Network (vocab : WhisperVocab) (maxInitialTid : Option ℤ) (maxTokens nMax : ℕ)
    (seekEnd : ℤ) where
  decode : List Window → ℤ → Window
  decodedAt : ∀ windows seek,
    (decode windows seek).DecodedAt vocab maxInitialTid maxTokens nMax seekEnd seek

/-- How far a transcription has come. -/
structure Transcript where
  seek : ℤ
  resultAll : List WhisperSegment
  windows : List Window

section Loop

variable {vocab : WhisperVocab} {maxInitialTid : Option ℤ} {maxTokens nMax : ℕ} {seekEnd : ℤ}
  (net : Network vocab maxInitialTid maxTokens nMax seekEnd)

/-- A turn of the main loop: a window is decoded, its segments are appended, and `seek` moves on. -/
def transcribeNext (t : Transcript) : Transcript :=
  let w := net.decode t.windows t.seek
  { seek := nextSeek vocab t.seek seekEnd w
    resultAll := t.resultAll ++ windowSegments vocab t.seek w
    windows := t.windows ++ [w] }

/-- The main loop: with a tenth of a second left it stops. -/
def transcribeFrom : (fuel : ℕ) → Transcript → Transcript
  | 0, t => t
  | fuel + 1, t =>
    if seekEnd ≤ t.seek + 10 then t else transcribeFrom fuel (transcribeNext net t)

/-- `whisper_full_with_state` from a start on, with a turn for each hundredth of a second at
most. -/
def transcribe (seekStart : ℤ) : Transcript :=
  transcribeFrom net (seekEnd - seekStart).toNat ⟨seekStart, [], []⟩

end Loop

/-! ### What the segments of a window say -/

section Spoken

variable {vocab : WhisperVocab} {seek seekDelta : ℤ}

/-- A timestamp token says nothing. -/
theorem spoken_stamp {token : WhisperToken} (h : vocab.tokenBeg < token.id) :
    vocab.spoken [token] = [] :=
  spoken_singleton_of_le (Int.le_of_lt (Int.lt_trans vocab.eot_lt_beg h))

/-- The text so far, with that of the next token, is what both say. -/
theorem text_push (text : List UInt8) (token : WhisperToken) :
    (if token.id < vocab.tokenEot then text ++ vocab.tokenToStr token.id else text) =
      text ++ vocab.spoken [token] := by
  split
  next h => rw [spoken_singleton_of_lt h]
  next h => rw [spoken_singleton_of_le (Int.not_lt.mp h), List.append_nil]

/-- A segment without text adds nothing to what is said, so it may be left out. -/
theorem flatMap_text_ite (segment : WhisperSegment) (segments : List WhisperSegment) :
    ((if segment.text = [] then [] else [segment]) ++ segments).flatMap WhisperSegment.text =
      segment.text ++ segments.flatMap WhisperSegment.text := by
  split
  next h => rw [h, List.nil_append, List.nil_append]
  next => rw [List.singleton_append, List.flatMap_cons]

/-- **The segments of a window** say what its tokens say. -/
theorem segmentLoop_spoken (skipping : Bool) (t0 : ℤ) (text : List UInt8)
    (tokens rest : List WhisperToken) :
    (segmentLoop vocab seek seekDelta skipping t0 text tokens rest).flatMap WhisperSegment.text =
      text ++ vocab.spoken rest := by
  induction rest generalizing skipping t0 text tokens with
  | nil =>
      rw [segmentLoop]
      split
      next h => rw [h]; rfl
      next => rw [List.flatMap_singleton]; exact (List.append_nil text).symm
  | cons token rest ih =>
      rw [← List.singleton_append, spoken_append, List.singleton_append, segmentLoop]
      split
      next h => rw [ih, spoken_stamp h.2, List.nil_append]
      next =>
        dsimp only
        rw [text_push]
        split
        next h =>
          rw [flatMap_text_ite ⟨_, _, _, _, _⟩, ih, spoken_stamp h]
          exact congrArg (· ++ _) (List.append_nil text)
        next => rw [ih, List.append_assoc]

/-- Every segment says what its own tokens say. -/
theorem segmentLoop_text (skipping : Bool) (t0 : ℤ) {text : List UInt8}
    {tokens : List WhisperToken} (htext : text = vocab.spoken tokens) (rest : List WhisperToken) :
    ∀ s ∈ segmentLoop vocab seek seekDelta skipping t0 text tokens rest,
      s.text = vocab.spoken s.tokens ∧ s.text ≠ [] := by
  have hnil : [] = vocab.spoken [] := rfl
  induction rest generalizing skipping t0 text tokens with
  | nil =>
      intro s hs
      rw [segmentLoop] at hs
      split at hs
      next => cases hs
      next h => exact List.mem_singleton.mp hs ▸ ⟨htext, h⟩
  | cons token rest ih =>
      intro s hs
      have hpush : text ++ vocab.spoken [token] = vocab.spoken (tokens ++ [token]) := by
        rw [htext, spoken_append]
      rw [segmentLoop] at hs
      split at hs
      next => exact ih _ _ htext s hs
      next =>
        dsimp only at hs
        rw [text_push] at hs
        split at hs
        next =>
          rcases List.mem_append.mp hs with hs | hs
          · split at hs
            next => cases hs
            next h => exact List.mem_singleton.mp hs ▸ ⟨hpush, h⟩
          · exact ih _ _ hnil s hs
        next => exact ih _ _ hpush s hs

/-- What the segments of a window say is what the window says, unless it was taken for silence. -/
theorem windowSegments_spoken (w : Window) :
    (windowSegments vocab seek w).flatMap WhisperSegment.text =
      if w.isNoSpeech then [] else vocab.spoken w.tokens := by
  rw [windowSegments]
  split
  next h => rw [h]; exact (ite_self _).symm
  next h =>
    split
    next => rfl
    next => exact segmentLoop_spoken _ _ _ _ _

/-- Every segment of a window says what its tokens say, and says something. -/
theorem windowSegments_text (w : Window) :
    ∀ s ∈ windowSegments vocab seek w, s.text = vocab.spoken s.tokens ∧ s.text ≠ [] := by
  have hnil : [] = vocab.spoken [] := rfl
  rw [windowSegments]
  split
  next => rintro _ ⟨⟩
  next =>
    split
    next => rintro _ ⟨⟩
    next => exact segmentLoop_text _ _ hnil _

end Spoken

/-! ### Segments in order -/

/-- Segments that come one after the other, within bounds. -/
structure InOrder (lo hi : ℤ) (segments : List WhisperSegment) : Prop where
  pairwise : segments.Pairwise fun s s' => s.t1 ≤ s'.t0
  bounds : ∀ s ∈ segments, lo ≤ s.t0 ∧ s.t0 ≤ s.t1 ∧ s.t1 ≤ hi

namespace InOrder

variable {lo mid mid' hi : ℤ} {segments segments' : List WhisperSegment}

/-- An empty list is in order between any bounds. -/
theorem nil : InOrder lo hi [] := ⟨List.Pairwise.nil, by rintro _ ⟨⟩⟩

/-- Segments in order, followed by later segments in order, are in order. -/
theorem append (h : InOrder lo mid segments) (h' : InOrder mid' hi segments')
    (hmid : mid ≤ mid') (hlo : lo ≤ mid') (hhi : mid ≤ hi) :
    InOrder lo hi (segments ++ segments') := by
  refine ⟨List.pairwise_append.mpr ⟨h.pairwise, h'.pairwise, fun s hs s' hs' => ?_⟩,
    fun s hs => ?_⟩
  · exact Int.le_trans (Int.le_trans (h.bounds s hs).2.2 hmid) (h'.bounds s' hs').1
  · rcases List.mem_append.mp hs with hs | hs
    · have hb := h.bounds s hs
      exact ⟨hb.1, hb.2.1, Int.le_trans hb.2.2 hhi⟩
    · have hb := h'.bounds s hs
      exact ⟨Int.le_trans hlo hb.1, hb.2⟩

/-- A window's segment, which is left out when it has no text, is in order. -/
theorem of_ite (segment : WhisperSegment) (h : segment.t0 ≤ segment.t1) :
    InOrder segment.t0 segment.t1 (if segment.text = [] then [] else [segment]) := by
  split
  · exact nil
  · refine ⟨List.pairwise_singleton _ _, fun s hs => ?_⟩
    obtain rfl := List.mem_singleton.mp hs
    exact ⟨Int.le_refl _, h, Int.le_refl _⟩

end InOrder

section Order

variable {vocab : WhisperVocab} {seek seekDelta : ℤ}

/-- **Timestamps in order** cut segments in order. -/
theorem segmentLoop_inOrder (skipping : Bool) {t0 : ℤ} (text : List UInt8)
    (tokens : List WhisperToken) {rest : List WhisperToken}
    (hsorted : (rest.filter fun t => vocab.tokenBeg < t.id).Pairwise fun t t' => t.id ≤ t'.id)
    (htid : ∀ t ∈ rest, vocab.tokenBeg < t.id → t.tid = t.id)
    (hlo : ∀ t ∈ rest, vocab.tokenBeg < t.id → t0 ≤ seek + 2 * (t.id - vocab.tokenBeg))
    (hhi : ∀ t ∈ rest, vocab.tokenBeg < t.id → 2 * (t.id - vocab.tokenBeg) ≤ seekDelta)
    (ht0 : t0 ≤ seek + seekDelta) :
    InOrder t0 (seek + seekDelta)
      (segmentLoop vocab seek seekDelta skipping t0 text tokens rest) := by
  induction rest generalizing skipping t0 text tokens with
  | nil =>
      rw [segmentLoop]
      exact .of_ite ⟨t0, seek + seekDelta, text, tokens, false⟩ ht0
  | cons token rest ih =>
      have hrest : (rest.filter fun t => vocab.tokenBeg < t.id).Pairwise fun t t' => t.id ≤ t'.id :=
        hsorted.sublist ((List.sublist_cons_self token rest).filter _)
      have htid' := fun t ht => htid t (List.mem_cons_of_mem token ht)
      have hlo' := fun t ht => hlo t (List.mem_cons_of_mem token ht)
      have hhi' := fun t ht => hhi t (List.mem_cons_of_mem token ht)
      rw [segmentLoop]
      split
      next => exact ih _ _ _ hrest htid' hlo' hhi' ht0
      next =>
        dsimp only
        split
        next hstamp =>
          have ht1 : seek + 2 * (token.tid - vocab.tokenBeg) =
              seek + 2 * (token.id - vocab.tokenBeg) := by
            rw [htid token List.mem_cons_self hstamp]
          have hle := hlo token List.mem_cons_self hstamp
          have hlast := hhi token List.mem_cons_self hstamp
          rw [ht1]
          have hhead : ∀ text tokens, InOrder t0 (seek + 2 * (token.id - vocab.tokenBeg))
              (if text = [] then [] else
                [⟨t0, seek + 2 * (token.id - vocab.tokenBeg), text, tokens, false⟩]) :=
            fun text tokens => .of_ite ⟨t0, _, text, tokens, false⟩ hle
          refine (hhead _ _).append (ih true [] [] hrest htid' (fun t ht hid => ?_) hhi' (by omega))
            (Int.le_refl _) hle (by omega)
          -- What follows is not before this timestamp.
          rw [List.filter_cons_of_pos (by simpa using hstamp)] at hsorted
          have := (List.pairwise_cons.mp hsorted).1 t (List.mem_filter.mpr ⟨ht, by simpa using hid⟩)
          omega
        next => exact ih _ _ _ hrest htid' hlo' hhi' ht0

/-- The window begins with a timestamp. -/
def Window.Opens (vocab : WhisperVocab) (w : Window) : Prop :=
  ∀ front ∈ w.tokens.head?, vocab.tokenBeg ≤ front.id

section Decoded

variable {maxInitialTid : Option ℤ} {maxTokens nMax : ℕ} {seekEnd : ℤ} {w : Window}

/-- What a decoder gives has its timestamps in order. -/
theorem Window.DecodedAt.ordered
    (h : w.DecodedAt vocab maxInitialTid maxTokens nMax seekEnd seek) :
    ∃ d : Decoder, d.Ordered vocab ∧ w.seekDelta = d.seekDelta ∧ w.tokens.Sublist d.tokens := by
  obtain ⟨n, pool, d, hreach, hd, hdelta, htokens⟩ := h
  refine ⟨d, ordered_of_reach hreach d hd, hdelta, ?_⟩
  rcases htokens with heq | heq
  · rw [heq]
  · rw [heq]
    exact List.take_sublist _ _

/-- The window moves on: past what was decoded, or to the end. -/
theorem Window.DecodedAt.nextSeek
    (h : w.DecodedAt vocab maxInitialTid maxTokens nMax seekEnd seek)
    (hmore : seek + 10 < seekEnd) :
    seek < Mogo.nextSeek vocab seek seekEnd w ∧
      (seek + w.seekDelta ≤ Mogo.nextSeek vocab seek seekEnd w ∨
        seekEnd ≤ Mogo.nextSeek vocab seek seekEnd w) := by
  obtain ⟨d, hordered, hdelta, -⟩ := h.ordered
  have hbounds := hordered.seekDelta_bounds
  rw [Mogo.nextSeek]
  split
  · omega
  · omega

/-- **The segments of a window** come one after the other, if it begins with a timestamp. -/
theorem windowSegments_inOrder
    (h : w.DecodedAt vocab maxInitialTid maxTokens nMax seekEnd seek) (hopens : w.Opens vocab) :
    InOrder seek (seek + w.seekDelta) (windowSegments vocab seek w) := by
  obtain ⟨d, hordered, hdelta, hsub⟩ := h.ordered
  have hpos := hordered.seekDelta_bounds.1
  have hsorted := hordered.sorted.sublist (hsub.filter fun t => vocab.tokenBeg < t.id)
  rw [windowSegments]
  split
  next => exact .nil
  next front rest htokens =>
    split
    next => exact .nil
    next =>
      have hfront : front ∈ d.tokens := hsub.subset (htokens ▸ List.mem_cons_self)
      have hbeg : vocab.tokenBeg ≤ front.id := hopens front (by rw [htokens]; rfl)
      have hfirst : ∀ t ∈ w.tokens, vocab.tokenBeg < t.id → front.id ≤ t.id := by
        intro t ht hid
        rcases Int.lt_or_eq_of_le hbeg with hlt | heq
        · rw [htokens, List.filter_cons_of_pos (by simpa using hlt)] at hsorted
          rw [htokens] at ht
          rcases List.mem_cons.mp ht with rfl | ht
          · exact Int.le_refl _
          · exact (List.pairwise_cons.mp hsorted).1 t
              (List.mem_filter.mpr ⟨ht, by simpa using hid⟩)
        · omega
      have ht0 : 2 * (front.id - vocab.tokenBeg) ≤ w.seekDelta := by
        rcases Int.lt_or_eq_of_le hbeg with hlt | heq
        · rw [hdelta]
          exact hordered.le front hfront hlt
        · omega
      rw [hordered.tid front hfront hbeg]
      have hloop : InOrder (seek + 2 * (front.id - vocab.tokenBeg)) (seek + w.seekDelta)
          (segmentLoop vocab seek w.seekDelta false (seek + 2 * (front.id - vocab.tokenBeg)) [] []
            w.tokens) := by
        refine segmentLoop_inOrder _ _ _ hsorted (fun t ht hid => ?_) (fun t ht hid => ?_)
          (fun t ht hid => ?_) (by omega)
        · exact hordered.tid t (hsub.subset ht) (Int.le_of_lt hid)
        · have := hfirst t ht hid
          omega
        · rw [hdelta]
          exact hordered.le t (hsub.subset ht) hid
      have hnil : InOrder seek seek [] := .nil
      exact hnil.append hloop (by omega) (by omega) (by omega)

end Decoded

end Order

/-! ### The segments of a recording -/

section Recording

variable {vocab : WhisperVocab} {maxInitialTid : Option ℤ} {maxTokens nMax : ℕ} {seekEnd : ℤ}
  (net : Network vocab maxInitialTid maxTokens nMax seekEnd)

/-- What every turn of the loop keeps holds at its end. -/
theorem transcribeFrom_invariant {P : Transcript → Prop}
    (hnext : ∀ t, t.seek + 10 < seekEnd → P t → P (transcribeNext net t)) (fuel : ℕ)
    {t : Transcript} (ht : P t) : P (transcribeFrom net fuel t) := by
  induction fuel generalizing t with
  | zero => exact ht
  | succ fuel ih =>
      rw [transcribeFrom]
      split
      next => exact ht
      next h => exact ih (hnext t (Int.not_le.mp h) ht)

/-- **The loop ends**: every turn moves the window. -/
theorem transcribeFrom_ends {fuel : ℕ} {t : Transcript} (hfuel : seekEnd - t.seek ≤ fuel) :
    seekEnd ≤ (transcribeFrom net fuel t).seek + 10 := by
  induction fuel generalizing t with
  | zero =>
      rw [transcribeFrom]
      omega
  | succ fuel ih =>
      rw [transcribeFrom]
      split
      next h => exact h
      next h =>
        have hmove := ((net.decodedAt t.windows t.seek).nextSeek (Int.not_le.mp h)).1
        refine ih ?_
        rw [transcribeNext]
        dsimp only
        omega

/-- What a transcription has got from its windows. -/
structure Transcript.Faithful (vocab : WhisperVocab) (t : Transcript) : Prop where
  text : t.resultAll.flatMap WhisperSegment.text =
    t.windows.flatMap fun w => if w.isNoSpeech then [] else vocab.spoken w.tokens
  spoken : ∀ s ∈ t.resultAll, s.text = vocab.spoken s.tokens ∧ s.text ≠ []

/-- One more window keeps the transcript faithful. -/
theorem Transcript.Faithful.next {t : Transcript} (h : t.Faithful vocab) :
    (transcribeNext net t).Faithful vocab := by
  refine ⟨?_, fun s hs => ?_⟩
  · rw [transcribeNext]
    dsimp only
    rw [List.flatMap_append, List.flatMap_append, h.text, windowSegments_spoken,
      List.flatMap_singleton]
  · rcases List.mem_append.mp hs with hs | hs
    · exact h.spoken s hs
    · exact windowSegments_text _ s hs

/-- **The text of a transcription** is what was decoded of its windows. -/
theorem transcribe_text (seekStart : ℤ) : (transcribe net seekStart).Faithful vocab :=
  transcribeFrom_invariant net (fun _ _ h => h.next net) _ ⟨rfl, by rintro _ ⟨⟩⟩

/-- A transcription whose segments come one after the other, up to where it has come, if it is to
go on; the last window may reach behind the end. -/
structure Transcript.Timely (seekStart seekEnd : ℤ) (t : Transcript) : Prop where
  start : seekStart ≤ t.seek
  inOrder : ∃ hi, InOrder seekStart hi t.resultAll ∧ (hi ≤ t.seek ∨ seekEnd ≤ t.seek) ∧
    hi ≤ max seekStart (seekEnd + 100 * 30)

/-- One more window that opens with a time stamp keeps the transcript timely. -/
theorem Transcript.Timely.next {seekStart : ℤ} {t : Transcript} (h : t.Timely seekStart seekEnd)
    (hmore : t.seek + 10 < seekEnd) (hopens : (net.decode t.windows t.seek).Opens vocab) :
    (transcribeNext net t).Timely seekStart seekEnd := by
  have hdecoded := net.decodedAt t.windows t.seek
  obtain ⟨hmove, hreach⟩ := hdecoded.nextSeek hmore
  have hwindow := windowSegments_inOrder hdecoded hopens
  obtain ⟨d, hordered, hdelta, -⟩ := hdecoded.ordered
  obtain ⟨hpos, hmost⟩ := hordered.seekDelta_bounds
  have hstart := h.start
  obtain ⟨hi, hbefore, hhi, -⟩ := h.inOrder
  have hle : hi ≤ t.seek := by omega
  refine ⟨?_, t.seek + (net.decode t.windows t.seek).seekDelta,
    hbefore.append hwindow hle hstart (by omega), hreach, by omega⟩
  rw [transcribeNext]
  dsimp only
  omega

/-- The windows of a transcription stay. -/
theorem windows_stay (fuel : ℕ) (t : Transcript) :
    t.windows <+: (transcribeFrom net fuel t).windows :=
  transcribeFrom_invariant (P := fun t' => t.windows <+: t'.windows) net
    (fun _ _ h => h.trans (List.prefix_append _ _)) fuel List.prefix_rfl

/-- The loop over the windows keeps the transcript timely, by induction over its budget. -/
theorem transcribeFrom_timely {seekStart : ℤ} {fuel : ℕ} {t : Transcript}
    (ht : t.Timely seekStart seekEnd)
    (hopens : ∀ w ∈ (transcribeFrom net fuel t).windows, w.Opens vocab) :
    (transcribeFrom net fuel t).Timely seekStart seekEnd := by
  induction fuel generalizing t with
  | zero => exact ht
  | succ fuel ih =>
      rw [transcribeFrom] at hopens ⊢
      split
      next => exact ht
      next h =>
        rw [if_neg h] at hopens
        refine ih (ht.next net (Int.not_le.mp h) (hopens _ ?_)) hopens
        refine (windows_stay net fuel _).subset ?_
        exact List.mem_append_right _ List.mem_cons_self

/-- A transcription begins with no segments. -/
theorem Transcript.Timely.init (seekStart seekEnd : ℤ) :
    Transcript.Timely seekStart seekEnd ⟨seekStart, [], []⟩ :=
  ⟨Int.le_refl _, seekStart, .nil, Or.inl (Int.le_refl _), Int.le_max_left _ _⟩

/-- **A transcription is faithful.** Whatever the network makes of the recording, the loop hears it
to the end, but for a tenth of a second. The segments say, one after the other, what was decoded of
the windows with speech, nothing twice and nothing left out; each of them says what its tokens say,
and none is empty. If every window begins with a timestamp, they come in order: none ends before it
begins, or behind the beginning of the next. -/
theorem transcribe_faithful (seekStart : ℤ) :
    seekEnd ≤ (transcribe net seekStart).seek + 10 ∧
      (transcribe net seekStart).resultAll.flatMap WhisperSegment.text =
        (transcribe net seekStart).windows.flatMap (fun w =>
          if w.isNoSpeech then [] else vocab.spoken w.tokens) ∧
      (∀ s ∈ (transcribe net seekStart).resultAll,
        s.text = vocab.spoken s.tokens ∧ s.text ≠ []) ∧
      ((∀ w ∈ (transcribe net seekStart).windows, w.Opens vocab) →
        (transcribe net seekStart).resultAll.Pairwise (fun s s' => s.t1 ≤ s'.t0) ∧
          ∀ s ∈ (transcribe net seekStart).resultAll, seekStart ≤ s.t0 ∧ s.t0 ≤ s.t1) := by
  have hfaithful := transcribe_text net seekStart
  refine ⟨transcribeFrom_ends net (Int.self_le_toNat _), hfaithful.text, hfaithful.spoken,
    fun hopens => ?_⟩
  obtain ⟨hi, horder, -⟩ := (transcribeFrom_timely net (.init _ _) hopens).inOrder
  exact ⟨horder.pairwise, fun s hs => ⟨(horder.bounds s hs).1, (horder.bounds s hs).2.1⟩⟩

end Recording

section Example

/-- A window that says one token, from 0.00 to 1.00. Where more is to come, the next segment is
announced by a second timestamp. -/
def oneWord (id : ℤ) (more : Bool) : Window where
  tokens := [⟨5, 5, 0⟩, ⟨id, 20, 0⟩, ⟨55, 55, 0⟩] ++ if more then [⟨55, 55, 0⟩] else []
  seekDelta := 100
  isNoSpeech := false

/-- A decoder that has said one token. -/
def oneWordSpoken (id : ℤ) : Decoder :=
  { Decoder.init with tokens := [⟨5, 5, 0⟩, ⟨id, 20, 0⟩] }

/-- The decoder once it has drawn the timestamp of 1.00, where the recording goes on. -/
def oneWordStamped (id : ℤ) : Decoder :=
  { Decoder.init with
    tokens := [⟨5, 5, 0⟩, ⟨id, 20, 0⟩, ⟨55, 55, 0⟩]
    seekDelta := 100
    resultLen := 3
    hasTs := true }

/-- The decoder goes on as long as there is some audio behind the timestamp. -/
theorem oneWord_update (id : ℤ) {seek : ℤ} (hmore : seek + 110 < 300) :
    ((oneWordSpoken id).push ⟨55, 55, 0⟩).update hiVocab seek 300 0 220 = oneWordStamped id := by
  have hgoes : ¬ (300 ≤ seek + 100 + 10) := by omega
  change Decoder.finish hiVocab seek 300 0 220 (oneWordStamped id) ⟨55, 55, 0⟩ 2 = _
  rw [Decoder.finish, if_neg, if_neg]
  · exact fun h => absurd h.1 (by decide)
  · rintro (h | h | h)
    · exact absurd h (by decide)
    · exact absurd h.1 (by decide)
    · exact hgoes h.2

/-- Such a window can be decoded wherever the loop has come to. -/
theorem oneWord_decodedAt (seek : ℤ) {id : ℤ} (hid : id = 0 ∨ id = 1) :
    (oneWord id (seek + 110 < 300)).DecodedAt hiVocab (some 50) 0 220 300 seek := by
  have hspoken : run (decodeStep hiVocab (some 50) seek 300 0 220) (List.replicate 1 Decoder.init)
      [[(0, ⟨5, 5, 0⟩)], [(0, ⟨id, 20, 0⟩)]] = some [oneWordSpoken id] := by
    rcases hid with rfl | rfl <;> rfl
  have hreach : Reach (decodeStep hiVocab (some 50) seek 300 0 220) (fun _ _ => True)
      (List.replicate 1 Decoder.init) [oneWordSpoken id] :=
    Reach.run .start (fun _ _ _ => trivial) hspoken
  have hmoved : Decoder.Moved hiVocab (oneWordSpoken id) ⟨55, 55, 0⟩
      (((oneWordSpoken id).push ⟨55, 55, 0⟩).update hiVocab seek 300 0 220) :=
    Decoder.update_push fun _ h => by cases h.1
  have hstamped := hreach.step (e := [(0, ⟨55, 55, 0⟩)]) trivial
    (show _ = some [((oneWordSpoken id).push ⟨55, 55, 0⟩).update hiVocab seek 300 0 220] by
      rcases hid with rfl | rfl <;> rfl)
  by_cases hmore : seek + 110 < 300
  · rw [oneWord_update id hmore] at hstamped
    have hagain : Decoder.Moved hiVocab (oneWordStamped id) ⟨55, 55, 0⟩
        (((oneWordStamped id).push ⟨55, 55, 0⟩).update hiVocab seek 300 0 220) :=
      Decoder.update_push fun _ h =>
        absurd h.2.1 (show ¬ (2 * (55 - 5) : ℤ) < 100 by decide)
    refine ⟨1, _, _, hstamped.step (e := [(0, ⟨55, 55, 0⟩)]) trivial
      (show _ = some [((oneWordStamped id).push ⟨55, 55, 0⟩).update hiVocab seek 300 0 220] by
        rcases hid with rfl | rfl <;> rfl), List.mem_singleton_self _,
      (hagain.stamp (by decide)).1.symm, Or.inl ?_⟩
    rw [hagain.tokens, oneWord, decide_eq_true hmore]
    rfl
  · refine ⟨1, _, _, hstamped, List.mem_singleton_self _, (hmoved.stamp (by decide)).1.symm,
      Or.inl ?_⟩
    rw [hmoved.tokens, oneWord, decide_eq_false hmore]
    rfl

/-- A network that hears " hi" first, and " you" from then on. -/
def hiNetwork : Network hiVocab (some 50) 0 220 300 where
  decode windows seek := oneWord (if windows = [] then 0 else 1) (seek + 110 < 300)
  decodedAt windows seek := oneWord_decodedAt seek (by split <;> simp)

/-- The windows of this network begin with a timestamp. -/
theorem hiNetwork_opens : ∀ w ∈ (transcribe hiNetwork 0).windows, w.Opens hiVocab := by
  have hwindows : (transcribe hiNetwork 0).windows =
      [oneWord 0 true, oneWord 1 true, oneWord 1 false] := rfl
  have hword (id : ℤ) (more : Bool) : (oneWord id more).Opens hiVocab := by
    intro front hfront
    obtain rfl := Option.some.inj hfront
    decide
  rw [hwindows]
  simp only [List.mem_cons, List.not_mem_nil, or_false, forall_eq_or_imp, forall_eq]
  exact ⟨hword 0 true, hword 1 true, hword 1 false⟩

/-- In a recording of three seconds the loop hears three windows, whose segments follow one
another. -/
theorem transcribe_faithful_hi :
    (transcribe hiNetwork 0).resultAll.flatMap WhisperSegment.text =
        [0x20, 0x68, 0x69, 0x20, 0x79, 0x6F, 0x75, 0x20, 0x79, 0x6F, 0x75] ∧
      (transcribe hiNetwork 0).resultAll.map (fun s => (s.t0, s.t1)) =
        [(0, 100), (100, 200), (200, 300)] ∧
      (transcribe hiNetwork 0).resultAll.Pairwise (fun s s' => s.t1 ≤ s'.t0) := by
  obtain ⟨-, htext, -, horder⟩ := transcribe_faithful hiNetwork 0
  exact ⟨htext, rfl, (horder hiNetwork_opens).1⟩

end Example

end Mogo
