import Mogo.CaptionWrap
import Mogo.Transition

/-!
# Decoding a Window

Whisper listens to a window of thirty seconds at a time. A pool of decoders extends sequences of
tokens; among the tokens are timestamps, which say where in the window a segment begins or ends.
Before a token is drawn, the logits of what may not follow are set to minus infinity. Which of the
other tokens is drawn, and which sequence a decoder takes over in the beam search, is up to the
network: here these are the choices of a step.

A decoder that is given a timestamp before the one it has fails. The filters see to it that this
never happens.

## Main results

* `update_push`: what a token makes of a decoder.
* `Decoder.Ordered.update_push`: a token that may follow keeps the timestamps in order.
* `decoders_in_order`: so they are in every decoder of every pool.
-/

namespace Mogo

open Transition

/-! ### Decoders -/

/-- The vocabulary of a model, with its timestamps: they are the last tokens, one for every second
hundredth of a second of a window. -/
structure WhisperVocab extends WhisperContext where
  tokenBeg : ℤ
  tokenBlank : ℤ
  /-- `token_not`, `token_sot`, `token_nosp`, `token_solm`, `token_translate`, `token_transcribe`,
  `token_prev` and the tokens of the languages. -/
  suppressed : List ℤ
  nVocab : ℤ
  eot_lt_beg : tokenEot < tokenBeg
  nVocab_le : nVocab ≤ tokenBeg + 1501

/-- `whisper_decoder`, with its sequence. -/
structure Decoder where
  tokens : List WhisperToken
  resultLen : ℕ
  seekDelta : ℤ
  hasTs : Bool
  failed : Bool
  completed : Bool
  deriving DecidableEq, Repr

namespace Decoder

/-- A decoder before its first token. The window is `WHISPER_CHUNK_SIZE` seconds long. -/
def init : Decoder where
  tokens := []
  resultLen := 0
  seekDelta := 100 * 30
  hasTs := false
  failed := false
  completed := false

/-- The decoder takes no further tokens. -/
def finished (d : Decoder) : Bool := d.completed || d.failed

/-- The token is added to the sequence. -/
def push (d : Decoder) (token : WhisperToken) : Decoder := { d with tokens := d.tokens ++ [token] }

section Filters

variable (vocab : WhisperVocab) (maxInitialTid : Option ℤ)

/-- `last_was_timestamp`: the last token of the decoder is a timestamp. -/
def lastWasTimestamp (d : Decoder) : Bool :=
  d.tokens.getLast?.any fun token => vocab.tokenBeg ≤ token.id

/-- `penultimate_was_timestamp`, which also holds when there is no token before the last. -/
def penultimateWasTimestamp (d : Decoder) : Bool :=
  d.tokens.dropLast.getLast?.all fun token => vocab.tokenBeg ≤ token.id

/-- The filters of `whisper_process_logits`: the token keeps its logit. -/
def Allows (d : Decoder) (id : ℤ) : Prop :=
  (0 ≤ id ∧ id < vocab.nVocab) ∧
  (d.tokens = [] → id ≠ vocab.tokenEot ∧ id ≠ vocab.tokenBlank) ∧
  id ∉ vocab.suppressed ∧
  (d.lastWasTimestamp vocab = true →
    if d.penultimateWasTimestamp vocab = true then id < vocab.tokenBeg else vocab.tokenEot ≤ id) ∧
  (d.tokens = [] → ∀ tid0 ∈ maxInitialTid, id ≤ vocab.tokenBeg + tid0) ∧
  (d.hasTs = true → ¬ (vocab.tokenBeg ≤ id ∧ id < vocab.tokenBeg + d.seekDelta / 2))

instance (d : Decoder) (id : ℤ) : Decidable (d.Allows vocab maxInitialTid id) :=
  inferInstanceAs (Decidable (_ ∧ _))

/-- What `whisper_sample_token` and `whisper_sample_token_topk` may return. -/
def Samples (d : Decoder) (token : WhisperToken) : Prop :=
  d.Allows vocab maxInitialTid token.id ∧ (vocab.tokenBeg ≤ token.id → token.tid = token.id)

instance (d : Decoder) (token : WhisperToken) : Decidable (d.Samples vocab maxInitialTid token) :=
  inferInstanceAs (Decidable (_ ∧ _))

end Filters

/-! ### The update of a decoder -/

section Update

variable (vocab : WhisperVocab) (seek seekEnd : ℤ) (maxTokens nMax : ℕ)

/-- The token goes back in time, for which the decoder stops as failed. -/
def GoesBack (d : Decoder) (token : WhisperToken) (i : ℕ) : Prop :=
  d.hasTs = true ∧ 2 * (token.id - vocab.tokenBeg) < d.seekDelta ∧ d.resultLen < i

instance (d : Decoder) (token : WhisperToken) (i : ℕ) : Decidable (d.GoesBack vocab token i) :=
  inferInstanceAs (Decidable (_ ∧ _))

/-- A timestamp updates the sliding window. -/
def slide (d : Decoder) (token : WhisperToken) (i : ℕ) : Decoder :=
  if vocab.tokenBeg < token.id then
    { d with
      seekDelta := 2 * (token.id - vocab.tokenBeg)
      resultLen := i + 1
      hasTs := true }
  else d

/-- Is the sequence completed, or has it failed? Less than `delta_min` of audio is no audio. -/
def finish (d : Decoder) (token : WhisperToken) (i : ℕ) : Decoder :=
  if token.id = vocab.tokenEot ∨ (0 < maxTokens ∧ maxTokens ≤ i) ∨
      (d.hasTs = true ∧ seekEnd ≤ seek + d.seekDelta + 10) then
    if d.resultLen = 0 then
      if seekEnd ≤ seek + d.seekDelta + 10 then { d with resultLen := i + 1, completed := true }
      else { d with failed := true }
    else { d with completed := true }
  else if i + 1 = nMax ∧ (d.resultLen = 0 ∨ d.seekDelta < 100 * 30 / 2) then
    { d with failed := true }
  else d

/-- The update of a decoder after a token. -/
def update (d : Decoder) : Decoder :=
  match d.tokens.getLast? with
  | none => d
  | some token =>
    let i := d.tokens.length - 1
    if vocab.tokenBeg < token.id ∧ d.GoesBack vocab token i then { d with failed := true }
    else (d.slide vocab token i).finish vocab seek seekEnd maxTokens nMax token i

end Update

/-! ### What a token makes of a decoder -/

section Facts

variable {vocab : WhisperVocab} {maxInitialTid : Option ℤ} {seek seekEnd : ℤ}
  {maxTokens nMax : ℕ} {d : Decoder} {token : WhisperToken}

/-- The end of an update leaves the sequence and the window alone. At most it takes the whole
sequence for the result. -/
theorem finish_eq (vocab : WhisperVocab) (seek seekEnd : ℤ) (maxTokens nMax : ℕ) (d : Decoder)
    (token : WhisperToken) (i : ℕ) :
    let d' := d.finish vocab seek seekEnd maxTokens nMax token i
    d'.tokens = d.tokens ∧ d'.seekDelta = d.seekDelta ∧ d'.hasTs = d.hasTs ∧
      (d'.resultLen = d.resultLen ∨ d'.resultLen = i + 1) := by
  rw [finish]
  split
  · split
    · split
      · exact ⟨rfl, rfl, rfl, Or.inr rfl⟩
      · exact ⟨rfl, rfl, rfl, Or.inl rfl⟩
    · exact ⟨rfl, rfl, rfl, Or.inl rfl⟩
  · split
    · exact ⟨rfl, rfl, rfl, Or.inl rfl⟩
    · exact ⟨rfl, rfl, rfl, Or.inl rfl⟩

variable (vocab) in
/-- What a decoder is after a token that does not go back in time. -/
structure Moved (d : Decoder) (token : WhisperToken) (d' : Decoder) : Prop where
  tokens : d'.tokens = d.tokens ++ [token]
  stamp : vocab.tokenBeg < token.id → d'.seekDelta = 2 * (token.id - vocab.tokenBeg) ∧
    d'.hasTs = true ∧ d'.resultLen = d.tokens.length + 1
  text : token.id ≤ vocab.tokenBeg → d'.seekDelta = d.seekDelta ∧ d'.hasTs = d.hasTs ∧
    (d'.resultLen = d.resultLen ∨ d'.resultLen = d.tokens.length + 1)

/-- **A token that does not go back in time** moves the window, if it is a timestamp. -/
theorem update_push (hback : vocab.tokenBeg < token.id → ¬ d.GoesBack vocab token d.tokens.length) :
    Moved vocab d token ((d.push token).update vocab seek seekEnd maxTokens nMax) := by
  have hlast : (d.push token).tokens.getLast? = some token := List.getLast?_concat
  have hlen : (d.push token).tokens.length - 1 = d.tokens.length := by
    rw [push, List.length_append, List.length_singleton, Nat.add_sub_cancel]
  have hupdate : (d.push token).update vocab seek seekEnd maxTokens nMax =
      ((d.push token).slide vocab token d.tokens.length).finish vocab seek seekEnd maxTokens nMax
        token d.tokens.length := by
    rw [update, hlast]
    dsimp only
    rw [hlen]
    exact if_neg fun h => hback h.1 h.2
  rw [hupdate]
  obtain ⟨htokens, hdelta, hts, hresult⟩ := finish_eq vocab seek seekEnd maxTokens nMax
    ((d.push token).slide vocab token d.tokens.length) token d.tokens.length
  by_cases hid : vocab.tokenBeg < token.id
  · rw [slide, if_pos hid] at htokens hdelta hts hresult
    exact ⟨by rw [slide, if_pos hid]; exact htokens,
      fun _ => by rw [slide, if_pos hid]; exact ⟨hdelta, hts, hresult.elim id id⟩,
      fun h => absurd hid (Int.not_lt.mpr h)⟩
  · rw [slide, if_neg hid] at htokens hdelta hts hresult
    exact ⟨by rw [slide, if_neg hid]; exact htokens, fun h => absurd h hid,
      fun _ => by rw [slide, if_neg hid]; exact ⟨hdelta, hts, hresult⟩⟩

/-- The tokens after a move are the ones before it and the token that was drawn. -/
theorem Moved.mem_tokens {d' : Decoder} (hmoved : Moved vocab d token d') {t : WhisperToken} :
    t ∈ d'.tokens ↔ t ∈ d.tokens ∨ t = token := by
  rw [hmoved.tokens, List.mem_append, List.mem_singleton]

/-- What holds of the tokens before a move and of the token that was drawn holds of all. -/
theorem Moved.forall_tokens {d' : Decoder} (hmoved : Moved vocab d token d')
    {P : WhisperToken → Prop} (hbefore : ∀ t ∈ d.tokens, P t) (htoken : P token) :
    ∀ t ∈ d'.tokens, P t := by
  intro t ht
  rcases hmoved.mem_tokens.mp ht with ht | rfl
  · exact hbefore t ht
  · exact htoken

/-! ### Timestamps in order -/

variable (vocab) in
/-- The timestamps of a decoder are in order, and the last one says how far the window moves. -/
structure Ordered (d : Decoder) : Prop where
  sorted : (d.tokens.filter fun t => vocab.tokenBeg < t.id).Pairwise fun t t' => t.id ≤ t'.id
  le : ∀ t ∈ d.tokens, vocab.tokenBeg < t.id → 2 * (t.id - vocab.tokenBeg) ≤ d.seekDelta
  unmoved : d.hasTs = false → d.seekDelta = 100 * 30 ∧ ∀ t ∈ d.tokens, t.id ≤ vocab.tokenBeg
  moved : d.hasTs = true →
    ∃ t ∈ d.tokens, vocab.tokenBeg < t.id ∧ d.seekDelta = 2 * (t.id - vocab.tokenBeg)
  tid : ∀ t ∈ d.tokens, vocab.tokenBeg ≤ t.id → t.tid = t.id
  lt : ∀ t ∈ d.tokens, t.id < vocab.nVocab
  pairs : ∀ a b c, [a, b, c] <:+: d.tokens →
    a.id < vocab.tokenBeg ∨ b.id < vocab.tokenBeg ∨ c.id < vocab.tokenBeg
  kept : ∀ t ∈ d.tokens.drop d.resultLen, t.id ≤ vocab.tokenBeg
  resultLen_le : d.resultLen ≤ d.tokens.length

/-- A decoder that has said nothing is in order. -/
theorem Ordered.init : init.Ordered vocab where
  sorted := List.Pairwise.nil
  le := by rintro _ ⟨⟩
  unmoved _ := ⟨rfl, by rintro _ ⟨⟩⟩
  moved h := by cases h
  tid := by rintro _ ⟨⟩
  lt := by rintro _ ⟨⟩
  pairs a b c h := by cases List.infix_nil.mp h
  kept := by rintro _ ⟨⟩
  resultLen_le := Nat.le_refl _

namespace Ordered

/-- The window always moves, and never by more than its length. -/
theorem seekDelta_bounds (h : d.Ordered vocab) : 0 < d.seekDelta ∧ d.seekDelta ≤ 100 * 30 := by
  cases hts : d.hasTs with
  | false =>
      rw [(h.unmoved hts).1]
      decide
  | true =>
      obtain ⟨t, ht, hlt, heq⟩ := h.moved hts
      have hvocab := h.lt t ht
      have hbound := vocab.nVocab_le
      omega

/-- A timestamp that the filters leave is not before the last one. -/
theorem seekDelta_le (h : d.Ordered vocab) (hsample : d.Samples vocab maxInitialTid token)
    (hstamp : vocab.tokenBeg < token.id) (hts : d.hasTs = true) :
    d.seekDelta ≤ 2 * (token.id - vocab.tokenBeg) := by
  have hincreasing := hsample.1.2.2.2.2.2 hts
  obtain ⟨t, -, -, heq⟩ := h.moved hts
  omega

/-- **The filters keep time.** No token that may be drawn goes back. -/
theorem not_goesBack (h : d.Ordered vocab) (hsample : d.Samples vocab maxInitialTid token)
    (hstamp : vocab.tokenBeg < token.id) (i : ℕ) : ¬ d.GoesBack vocab token i := by
  rintro ⟨hts, hback, -⟩
  have hle := h.seekDelta_le hsample hstamp hts
  omega

/-- After two timestamps in a row comes none. -/
theorem pairs_push (h : d.Ordered vocab) (hsample : d.Samples vocab maxInitialTid token)
    {a b c : WhisperToken} (hin : [a, b, c] <:+: d.tokens ++ [token]) :
    a.id < vocab.tokenBeg ∨ b.id < vocab.tokenBeg ∨ c.id < vocab.tokenBeg := by
  rcases List.infix_concat_iff.mp hin with hsuffix | hbefore
  · obtain ⟨before, hsplit⟩ := hsuffix
    have hlast : d.tokens = before ++ [a, b] ∧ token = c := by
      have hconcat : (before ++ [a, b]) ++ [c] = d.tokens ++ [token] := by
        rw [← hsplit, List.append_assoc]
        rfl
      obtain ⟨hinit, hlast⟩ := List.append_inj' hconcat rfl
      exact ⟨hinit.symm, (List.singleton_inj.mp hlast).symm⟩
    obtain ⟨htokens, rfl⟩ := hlast
    by_contra hnone
    rw [not_or, not_or, Int.not_lt, Int.not_lt, Int.not_lt] at hnone
    obtain ⟨ha, hb, hc⟩ := hnone
    have hlastWas : d.lastWasTimestamp vocab = true := by
      rw [lastWasTimestamp, htokens]
      simpa using hb
    have hpenultimate : d.penultimateWasTimestamp vocab = true := by
      rw [penultimateWasTimestamp, htokens]
      simpa using ha
    have hfilter := hsample.1.2.2.2.1 hlastWas
    rw [if_pos hpenultimate] at hfilter
    omega
  · exact h.pairs a b c hbefore

section Moves

variable {d' : Decoder}

/-- A timestamp that may be drawn is not before any other. -/
theorem id_le (h : d.Ordered vocab) (hsample : d.Samples vocab maxInitialTid token)
    (hstamp : vocab.tokenBeg < token.id) :
    ∀ t ∈ d.tokens, vocab.tokenBeg < t.id → t.id ≤ token.id := by
  intro t ht hid
  cases hts : d.hasTs with
  | false => exact absurd hid (Int.not_lt.mpr ((h.unmoved hts).2 t ht))
  | true =>
      have hbefore := h.le t ht hid
      have hafter := h.seekDelta_le hsample hstamp hts
      omega

/-- After two timestamps in a row comes none, whatever is drawn. -/
theorem pairs_of_moved (h : d.Ordered vocab) (hsample : d.Samples vocab maxInitialTid token)
    (hmoved : Moved vocab d token d') (a b c : WhisperToken) (hin : [a, b, c] <:+: d'.tokens) :
    a.id < vocab.tokenBeg ∨ b.id < vocab.tokenBeg ∨ c.id < vocab.tokenBeg := by
  rw [hmoved.tokens] at hin
  exact h.pairs_push hsample hin

/-- A timestamp comes last among the timestamps. -/
theorem sorted_of_stamp (h : d.Ordered vocab) (hsample : d.Samples vocab maxInitialTid token)
    (hmoved : Moved vocab d token d') (hstamp : vocab.tokenBeg < token.id) :
    (d'.tokens.filter fun t => vocab.tokenBeg < t.id).Pairwise fun t t' => t.id ≤ t'.id := by
  rw [hmoved.tokens, List.filter_append, List.pairwise_append]
  refine ⟨h.sorted, List.Pairwise.filter _ (List.pairwise_singleton _ _), ?_⟩
  intro t ht t' ht'
  obtain rfl := List.mem_singleton.mp (List.mem_of_mem_filter ht')
  obtain ⟨ht, hid⟩ := List.mem_filter.mp ht
  exact h.id_le hsample hstamp t ht (of_decide_eq_true hid)

/-- **A timestamp that may be drawn** keeps the timestamps in order: it becomes the last one, says
how far the window moves, and everything up to it is the result. -/
theorem of_stamp (h : d.Ordered vocab) (hsample : d.Samples vocab maxInitialTid token)
    (hmoved : Moved vocab d token d') (hstamp : vocab.tokenBeg < token.id) :
    d'.Ordered vocab := by
  obtain ⟨hdelta, hts, hresult⟩ := hmoved.stamp hstamp
  refine ⟨h.sorted_of_stamp hsample hmoved hstamp, ?_, fun hno => ?_, fun _ => ?_,
    hmoved.forall_tokens h.tid hsample.2, hmoved.forall_tokens h.lt hsample.1.1.2,
    h.pairs_of_moved hsample hmoved, ?_, ?_⟩
  · rw [hdelta]
    refine hmoved.forall_tokens (fun t ht hid => ?_) fun _ => Int.le_refl _
    have := h.id_le hsample hstamp t ht hid
    omega
  · rw [hts] at hno
    cases hno
  · exact ⟨token, hmoved.mem_tokens.mpr (Or.inr rfl), hstamp, hdelta⟩
  · rw [hresult, hmoved.tokens, List.drop_eq_nil_of_le (by simp)]
    rintro _ ⟨⟩
  · rw [hresult, hmoved.tokens, List.length_append, List.length_singleton]

/-- What a token that is no timestamp leaves out of the result says no time. -/
theorem kept_of_text (h : d.Ordered vocab) (hmoved : Moved vocab d token d')
    (htext : token.id ≤ vocab.tokenBeg) :
    (∀ t ∈ d'.tokens.drop d'.resultLen, t.id ≤ vocab.tokenBeg) ∧
      d'.resultLen ≤ d'.tokens.length := by
  rw [hmoved.tokens, List.length_append, List.length_singleton]
  rcases (hmoved.text htext).2.2 with hsame | hall
  · rw [hsame, List.drop_append_of_le_length h.resultLen_le]
    refine ⟨fun t ht => ?_, Nat.le_succ_of_le h.resultLen_le⟩
    rcases List.mem_append.mp ht with ht | ht
    · exact h.kept t ht
    · exact List.mem_singleton.mp ht ▸ htext
  · rw [hall, List.drop_eq_nil_of_le (by simp)]
    exact ⟨by rintro _ ⟨⟩, Nat.le_refl _⟩

/-- **Another token that may be drawn** leaves the timestamps and the window as they are. -/
theorem of_text (h : d.Ordered vocab) (hsample : d.Samples vocab maxInitialTid token)
    (hmoved : Moved vocab d token d') (htext : token.id ≤ vocab.tokenBeg) :
    d'.Ordered vocab := by
  obtain ⟨hdelta, hts, -⟩ := hmoved.text htext
  obtain ⟨hkept, hlen⟩ := h.kept_of_text hmoved htext
  refine ⟨?_, ?_, fun hno => ?_, fun hyes => ?_, hmoved.forall_tokens h.tid hsample.2,
    hmoved.forall_tokens h.lt hsample.1.1.2, h.pairs_of_moved hsample hmoved, hkept, hlen⟩
  · rw [hmoved.tokens, List.filter_append, List.filter_singleton,
      decide_eq_false (Int.not_lt.mpr htext)]
    simpa using h.sorted
  · rw [hdelta]
    exact hmoved.forall_tokens h.le fun hid => absurd hid (Int.not_lt.mpr htext)
  · rw [hts] at hno
    rw [hdelta]
    exact ⟨(h.unmoved hno).1, hmoved.forall_tokens (h.unmoved hno).2 htext⟩
  · rw [hts] at hyes
    rw [hdelta]
    obtain ⟨t, ht, hlast⟩ := h.moved hyes
    exact ⟨t, hmoved.mem_tokens.mpr (Or.inl ht), hlast⟩

/-- **A token that may be drawn** keeps the timestamps in order. -/
theorem of_moved (h : d.Ordered vocab) (hsample : d.Samples vocab maxInitialTid token)
    (hmoved : Moved vocab d token d') : d'.Ordered vocab := by
  by_cases hstamp : vocab.tokenBeg < token.id
  · exact h.of_stamp hsample hmoved hstamp
  · exact h.of_text hsample hmoved (Int.not_lt.mp hstamp)

end Moves

end Ordered

end Facts

end Decoder

/-! ### Pools -/

section Pool

variable (vocab : WhisperVocab) (maxInitialTid : Option ℤ) (seek seekEnd : ℤ)
  (maxTokens nMax : ℕ)

/-- What a decoder becomes. It takes over the sequence of a decoder of the pool, itself or, in the
beam search, another one, with a token that is drawn for it. -/
def decodeOne (pool : List Decoder) (d : Decoder) (choice : ℕ × WhisperToken) : Option Decoder :=
  if d.finished then some d
  else
    pool[choice.1]?.bind fun candidate =>
      if candidate.finished = false ∧ candidate.tokens.length < nMax ∧
          candidate.Samples vocab maxInitialTid choice.2 then
        some ((candidate.push choice.2).update vocab seek seekEnd maxTokens nMax)
      else none

/-- One turn of the decoding loop, with a choice for every decoder. -/
def decodeStep (pool : List Decoder) (choices : List (ℕ × WhisperToken)) :
    Option (List Decoder) :=
  if choices.length = pool.length then
    (pool.zip choices).mapM fun dc =>
      decodeOne vocab maxInitialTid seek seekEnd maxTokens nMax pool dc.1 dc.2
  else none

end Pool

section Runs

variable {vocab : WhisperVocab} {maxInitialTid : Option ℤ} {seek seekEnd : ℤ}
  {maxTokens nMax : ℕ} {pool pool' : List Decoder}

/-- Every result of a map that may fail comes from an argument. -/
theorem exists_of_mem_mapM {α β : Type} {f : α → Option β} {l : List α} {l' : List β}
    (h : l.mapM f = some l') : ∀ b ∈ l', ∃ a ∈ l, f a = some b := by
  induction l generalizing l' with
  | nil =>
      obtain rfl := Option.some.inj h
      rintro _ ⟨⟩
  | cons a l ih =>
      rw [List.mapM_cons] at h
      obtain ⟨b, hb, hrest⟩ := Option.bind_eq_some_iff.mp h
      obtain ⟨bs, hbs, heq⟩ := Option.bind_eq_some_iff.mp hrest
      obtain rfl := Option.some.inj heq
      intro b' hb'
      rcases List.mem_cons.mp hb' with rfl | hb'
      · exact ⟨a, List.mem_cons_self, hb⟩
      · obtain ⟨a', ha', hfa'⟩ := ih hbs b' hb'
        exact ⟨a', List.mem_cons_of_mem a ha', hfa'⟩

/-- A decoder that copies another one of the pool and takes its own choice stays in order. -/
theorem ordered_decodeOne {d d' : Decoder} {choice : ℕ × WhisperToken}
    (hpool : ∀ d ∈ pool, d.Ordered vocab) (hd : d.Ordered vocab)
    (h : decodeOne vocab maxInitialTid seek seekEnd maxTokens nMax pool d choice = some d') :
    d'.Ordered vocab := by
  rw [decodeOne] at h
  split at h
  · exact Option.some.inj h ▸ hd
  · obtain ⟨candidate, hcandidate, hpush⟩ := Option.bind_eq_some_iff.mp h
    obtain ⟨⟨-, -, hsample⟩, heq⟩ := Option.ite_none_right_eq_some.mp hpush
    obtain rfl := Option.some.inj heq
    have hordered := hpool candidate (List.mem_of_getElem? hcandidate)
    exact hordered.of_moved hsample
      (Decoder.update_push fun hstamp => hordered.not_goesBack hsample hstamp _)

/-- A turn keeps every decoder in order. -/
theorem ordered_decodeStep {choices : List (ℕ × WhisperToken)}
    (hpool : ∀ d ∈ pool, d.Ordered vocab)
    (h : decodeStep vocab maxInitialTid seek seekEnd maxTokens nMax pool choices = some pool') :
    ∀ d ∈ pool', d.Ordered vocab := by
  obtain ⟨-, hmap⟩ := Option.ite_none_right_eq_some.mp h
  intro d' hd'
  obtain ⟨⟨d, choice⟩, hmem, hone⟩ := exists_of_mem_mapM hmap d' hd'
  exact ordered_decodeOne hpool (hpool d (List.of_mem_zip hmem).1) hone

/-- The decoders of every pool are in order. -/
theorem ordered_of_reach {n : ℕ}
    (h : Reach (decodeStep vocab maxInitialTid seek seekEnd maxTokens nMax) (fun _ _ => True)
      (List.replicate n Decoder.init) pool) : ∀ d ∈ pool, d.Ordered vocab :=
  h.invariant (I := fun pool => ∀ d ∈ pool, d.Ordered vocab)
    (fun _ hd => List.eq_of_mem_replicate hd ▸ Decoder.Ordered.init)
    fun _ _ _ _ hpool hstep => ordered_decodeStep hpool hstep

/-- **The decoders keep time.** Whatever the network draws, and whatever sequences the beam search
shares out, the timestamps of a decoder come in order, never three in a row, and the window moves
as far as the last of them says, by some and by no more than its length. What the result leaves out
says no time, and no token that may be drawn goes back. -/
theorem decoders_in_order {n : ℕ}
    (h : Reach (decodeStep vocab maxInitialTid seek seekEnd maxTokens nMax) (fun _ _ => True)
      (List.replicate n Decoder.init) pool) {d : Decoder} (hd : d ∈ pool) :
    d.Ordered vocab ∧ (0 < d.seekDelta ∧ d.seekDelta ≤ 100 * 30) ∧
      ∀ token i, d.Samples vocab maxInitialTid token → vocab.tokenBeg < token.id →
        ¬ d.GoesBack vocab token i := by
  have hordered := ordered_of_reach h d hd
  exact ⟨hordered, hordered.seekDelta_bounds, fun token i hsample hstamp =>
    hordered.not_goesBack hsample hstamp i⟩

end Runs

section Example

/-- A vocabulary of " hi", " you", "!", the end of the text, a token that is never drawn, and the
timestamps. -/
def hiVocab : WhisperVocab where
  toWhisperContext := hiContext
  tokenBeg := 5
  tokenBlank := -1
  suppressed := [4]
  nVocab := 1506
  eot_lt_beg := by decide
  nVocab_le := by decide

/-- Two decoders begin at 0.00; the second takes over from the first, which goes on to 1.00. -/
def hiChoices : List (List (ℕ × WhisperToken)) :=
  [[(0, ⟨5, 5, 0⟩), (1, ⟨1, 9, 0⟩)], [(0, ⟨0, 20, 0⟩), (0, ⟨1, 30, 0⟩)],
    [(0, ⟨55, 55, 0⟩), (0, ⟨2, 40, 0⟩)]]

/-- Both have taken over from the first, and each keeps its tokens in order. -/
theorem decoders_in_order_hi :
    ∃ pool, run (decodeStep hiVocab (some 50) 0 500 0 220) (List.replicate 2 Decoder.init)
        hiChoices = some pool ∧
      pool.map Decoder.seekDelta = [100, 3000] ∧ ∀ d ∈ pool, d.Ordered hiVocab := by
  have hrun : run (decodeStep hiVocab (some 50) 0 500 0 220) (List.replicate 2 Decoder.init)
      hiChoices = some _ := rfl
  refine ⟨_, hrun, rfl, fun d hd => ?_⟩
  exact (decoders_in_order (Reach.run .start (fun _ _ _ => trivial) hrun) hd).1

end Example

end Mogo
