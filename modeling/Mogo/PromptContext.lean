import Mathlib.Data.Rat.Defs
import Mathlib.Algebra.Order.Ring.Rat
import Mathlib.Data.List.Infix
import Mogo.CacheRoom
import Mogo.Transcription

/-!
# What a Window is Prompted With

Before a window is decoded, the network is prompted with what has been said so far: a marker, the
initial prompt if it is carried along, and the last tokens of the windows before. How much of them
is taken depends on the size of the text context, of which one half is left to the window. When
there is little left of the recording, everything that has been said is forgotten.

## Main results

* `prompts_continue`: a prompt is a continuation of what has been said, and fits the context.
* `windows_have_room`: no window is given up because there is no room for its tokens.
-/

namespace Mogo

open Transition KvCache

/-- `WHISPER_HISTORY_CONDITIONING_TEMP_CUTOFF`. -/
def WHISPER_HISTORY_CONDITIONING_TEMP_CUTOFF : ℚ := 1 / 2

/-- The parameters of a transcription and of its model that the prompts depend on. -/
structure PromptContext where
  nTextCtx : ℕ
  nMaxTextCtx : ℤ
  noContext : Bool
  carryInitialPrompt : Bool
  promptTokens : List ℤ
  isMultilingual : Bool
  translate : Bool
  noTimestamps : Bool
  tokenSot : ℤ
  tokenPrev : ℤ
  tokenLang : ℤ
  tokenTranslate : ℤ
  tokenTranscribe : ℤ
  tokenNot : ℤ
  sot_ne_prev : tokenSot ≠ tokenPrev

/-- `prompt_past0` and `prompt_past1`: the initial prompt that is carried along, and what has been
said. -/
structure PromptPast where
  past0 : List ℤ
  past1 : List ℤ
  deriving DecidableEq, Repr

/-- A window that has been decoded: where it begins, the temperature that was tried last, and the
part of its tokens that is the result. -/
structure PromptTurn where
  seek : ℤ
  tCur : ℚ
  window : Window
  resultLen : ℕ

/-- The tokens of the window that are kept. -/
def PromptTurn.said (e : PromptTurn) : List ℤ :=
  if e.window.isNoSpeech then [] else (e.window.tokens.take e.resultLen).map WhisperToken.id

/-- Shortly before the end of the recording the past is forgotten. -/
def PromptPast.forget (seekStart seekEnd seek : ℤ) (past : PromptPast) : PromptPast :=
  if seekStart < seek ∧ seekEnd ≤ seek + 500 then ⟨[], []⟩ else past

namespace PromptContext

variable (ctx : PromptContext)

/-- `max_prompt_ctx`: the tokens of the past that a prompt may hold, half of the context at most. -/
def maxPromptCtx : ℤ := min ctx.nMaxTextCtx (ctx.nTextCtx / 2 : ℕ)

/-- `n_max`, the number of tokens that a window may have. -/
def nMax : ℕ := ctx.nTextCtx / 2 - 4

/-- The past of the first window. An initial prompt that is carried along loses its front, if it is
too long. -/
def begin (past : PromptPast) : PromptPast :=
  let past := if ctx.noContext then ⟨[], []⟩ else past
  if ctx.promptTokens = [] then past
  else if ctx.carryInitialPrompt then
    if past.past0 = [] then
      let nTokens := min (ctx.promptTokens.length : ℤ) (max 1 (ctx.maxPromptCtx - 1))
      { past with past0 := ctx.promptTokens.drop (ctx.promptTokens.length - nTokens.toNat) }
    else past
  else { past with past1 := ctx.promptTokens ++ past.past1 }

/-- `prompt_init`, the tokens that determine the task. -/
def promptInit : List ℤ :=
  [ctx.tokenSot] ++
    (if ctx.isMultilingual then
      [ctx.tokenLang, if ctx.translate then ctx.tokenTranslate else ctx.tokenTranscribe]
    else []) ++
    if ctx.noTimestamps then [ctx.tokenNot] else []

/-- The prompt of a window. If less than nothing were to be taken of the past, its iterators would
be out of range. -/
def prompt (past : PromptPast) (tCur : ℚ) : Option (List ℤ) :=
  let canTake0 : Bool := ctx.carryInitialPrompt ∧ past.past0 ≠ []
  let canTake1 : Bool := past.past1 ≠ []
  if 0 < ctx.nMaxTextCtx ∧ tCur < WHISPER_HISTORY_CONDITIONING_TEMP_CUTOFF ∧
      0 < ctx.maxPromptCtx ∧ (canTake0 ∨ canTake1) then
    let taken0 := if canTake0 then past.past0 else []
    let nTake1 := min (ctx.maxPromptCtx - taken0.length - 1) past.past1.length
    if nTake1 < 0 then none
    else
      some ([ctx.tokenPrev] ++ taken0 ++ past.past1.drop (past.past1.length - nTake1.toNat) ++
        ctx.promptInit)
  else some ctx.promptInit

/-- What a window leaves of the past: what its prompt has taken of it, unless the initial prompt is
carried along, and what it has said itself. -/
def next (seekStart seekEnd : ℤ) (past : PromptPast) (e : PromptTurn) : Option PromptPast :=
  (ctx.prompt (past.forget seekStart seekEnd e.seek) e.tCur).map fun prompt =>
    { past.forget seekStart seekEnd e.seek with
      past1 :=
        (if !ctx.carryInitialPrompt ∧ prompt.head? = some ctx.tokenPrev then
          (prompt.take (prompt.length - ctx.promptInit.length)).drop 1
        else []) ++ e.said }

/-- All that has been said: the initial prompt, if it is not carried along, and the windows. -/
def said (es : List PromptTurn) : List ℤ :=
  (if ctx.carryInitialPrompt then [] else ctx.promptTokens) ++ es.flatMap PromptTurn.said

variable {ctx}

/-- The initial prompt begins with the token for the start of a transcript. -/
theorem head?_promptInit : ctx.promptInit.head? = some ctx.tokenSot := rfl

/-- The initial prompt has four tokens at most: start, language, task and the one without time
stamps. -/
theorem length_promptInit_le : ctx.promptInit.length ≤ 4 := by
  have hlast : (if ctx.noTimestamps then [ctx.tokenNot] else []).length ≤ 1 := by
    split
    · exact Nat.le_refl 1
    · exact Nat.zero_le 1
  rw [promptInit, List.length_append]
  refine Nat.add_le_add (b := 3) ?_ hlast
  split
  · exact Nat.le_refl 3
  · exact Nat.le_of_ble_eq_true rfl

/-- What is kept of the past: a part of the initial prompt that leaves room for the marker, and the
last part of what has been said. -/
structure Keeps (ctx : PromptContext) (said : List ℤ) (past : PromptPast) : Prop where
  past0 : past.past0 <:+ ctx.promptTokens
  length : (past.past0.length : ℤ) ≤ max 1 (ctx.maxPromptCtx - 1)
  past1 : past.past1 <:+ said

/-- The prompt goes on where the past has ended. -/
def Continues (ctx : PromptContext) (said prompt : List ℤ) : Prop :=
  prompt = ctx.promptInit ∨ ∃ carried recent : List ℤ,
    carried <:+ ctx.promptTokens ∧ (ctx.carryInitialPrompt = false → carried = []) ∧
      recent <:+ said ∧ (carried.length + recent.length + 1 : ℤ) ≤ ctx.maxPromptCtx ∧
      prompt = ctx.tokenPrev :: (carried ++ recent) ++ ctx.promptInit

section Prompts

variable {past : PromptPast} {said prompt : List ℤ} {seekStart seekEnd seek : ℤ}

/-- Before anything is said there is nothing to carry. -/
theorem Keeps.nil : ctx.Keeps said ⟨[], []⟩ :=
  ⟨List.nil_suffix, Int.le_trans (by decide) (Int.le_max_left 1 _), List.nil_suffix⟩

/-- A run that carries no context begins with the initial prompt at most. -/
theorem Keeps.begin (hctx : ctx.noContext = true) (past : PromptPast) :
    ctx.Keeps (ctx.said []) (ctx.begin past) := by
  rw [PromptContext.begin, if_pos hctx]
  dsimp only
  by_cases hempty : ctx.promptTokens = []
  · rw [if_pos hempty]
    exact .nil
  · rw [if_neg hempty]
    cases hcarry : ctx.carryInitialPrompt with
    | true =>
        rw [if_pos rfl, if_pos rfl]
        refine ⟨List.drop_suffix _ _, ?_, List.nil_suffix⟩
        rw [List.length_drop]
        omega
    | false =>
        rw [if_neg (by decide), List.append_nil]
        refine ⟨List.nil_suffix, Int.le_trans Int.one_nonneg (Int.le_max_left 1 _), ?_⟩
        rw [PromptContext.said, hcarry, if_neg (by decide), List.flatMap_nil, List.append_nil]

/-- The past may be forgotten shortly before the end: what is left of it was said. -/
theorem Keeps.forget (h : ctx.Keeps said past) :
    ctx.Keeps said (past.forget seekStart seekEnd seek) := by
  rw [PromptPast.forget]
  split
  next => exact .nil
  next => exact h

/-- **A prompt** goes on where the past has ended, if an initial prompt that is carried along has
room beside the marker. -/
theorem Keeps.exists_prompt (h : ctx.Keeps said past)
    (hone : ctx.carryInitialPrompt = true → ctx.maxPromptCtx ≠ 1) (tCur : ℚ) :
    ∃ prompt, ctx.prompt past tCur = some prompt ∧ ctx.Continues said prompt := by
  rw [PromptContext.prompt]
  dsimp only
  split
  next htake =>
    obtain ⟨-, -, hpos, -⟩ := htake
    obtain ⟨taken0, htaken0⟩ : ∃ taken0, taken0 =
        if decide (ctx.carryInitialPrompt ∧ past.past0 ≠ []) then past.past0 else [] := ⟨_, rfl⟩
    -- What is carried leaves room for the marker, so no less than nothing is taken of the past.
    have hcarried : taken0 <:+ ctx.promptTokens ∧ (ctx.carryInitialPrompt = false → taken0 = []) ∧
        (taken0.length : ℤ) + 1 ≤ ctx.maxPromptCtx := by
      rw [htaken0]
      split
      next hcarry =>
        have := h.length
        have := hone (of_decide_eq_true hcarry).1
        refine ⟨h.past0, fun hfalse => ?_, by omega⟩
        rw [(of_decide_eq_true hcarry).1] at hfalse
        cases hfalse
      next => exact ⟨List.nil_suffix, fun _ => rfl, by rw [List.length_nil]; omega⟩
    obtain ⟨hsuffix, hnone, hlength⟩ := hcarried
    rw [← htaken0, if_neg (by omega)]
    refine ⟨_, rfl, .inr ⟨taken0, _, hsuffix, hnone, (List.drop_suffix _ _).trans h.past1, ?_, rfl⟩⟩
    rw [List.length_drop]
    omega
  next => exact ⟨_, rfl, .inl rfl⟩

/-- A prompt that continues what was said is not empty, since it ends with the initial prompt. -/
theorem Continues.ne_nil (h : ctx.Continues said prompt) : prompt ≠ [] := by
  rcases h with rfl | ⟨carried, recent, -, -, -, -, rfl⟩
  · exact List.ne_nil_of_mem List.mem_cons_self
  · exact List.cons_ne_nil _ _

/-- A prompt leaves half of the context to its window. -/
theorem Continues.length_le (h : ctx.Continues said prompt) :
    prompt.length ≤ ctx.nTextCtx / 2 + 4 := by
  have hinit : ctx.promptInit.length ≤ 4 := length_promptInit_le
  rcases h with rfl | ⟨carried, recent, -, -, -, hle, rfl⟩
  · omega
  · rw [maxPromptCtx] at hle
    rw [List.length_append, List.length_cons, List.length_append]
    omega

/-- A prompt that continues what was said leaves room for the tokens of a window. -/
theorem Continues.fits (h : ctx.Continues said prompt) (hsize : 8 ≤ ctx.nTextCtx) :
    prompt.length + ctx.nMax ≤ ctx.nTextCtx := by
  have := h.length_le
  rw [nMax]
  omega

/-- What has been taken of the past is read off a prompt. -/
theorem Continues.taken_suffix (h : ctx.Continues said prompt) :
    (if !ctx.carryInitialPrompt ∧ prompt.head? = some ctx.tokenPrev then
      (prompt.take (prompt.length - ctx.promptInit.length)).drop 1 else []) <:+ said := by
  split
  next htaken =>
    obtain ⟨hcarry, hhead⟩ := htaken
    rcases h with rfl | ⟨carried, recent, -, hnone, hrecent, -, rfl⟩
    · rw [head?_promptInit] at hhead
      exact absurd (Option.some.inj hhead) ctx.sot_ne_prev
    · obtain rfl := hnone (by simpa using hcarry)
      rw [List.length_append, Nat.add_sub_cancel, List.take_left]
      exact hrecent
  next => exact List.nil_suffix

/-- **A window** leaves a past that ends with what it has said. -/
theorem Keeps.next (h : ctx.Keeps said past)
    (hone : ctx.carryInitialPrompt = true → ctx.maxPromptCtx ≠ 1) (e : PromptTurn) :
    ∃ past', ctx.next seekStart seekEnd past e = some past' ∧ ctx.Keeps (said ++ e.said) past' := by
  have hforget : ctx.Keeps said (past.forget seekStart seekEnd e.seek) := h.forget
  obtain ⟨prompt, hprompt, hcontinues⟩ := hforget.exists_prompt hone e.tCur
  rw [PromptContext.next, hprompt]
  refine ⟨_, rfl, hforget.past0, hforget.length, ?_⟩
  obtain ⟨front, hfront⟩ := hcontinues.taken_suffix
  exact ⟨front, by rw [← List.append_assoc, hfront]⟩

/-- What is said in two runs of turns is said one after the other. -/
theorem said_append (es es' : List PromptTurn) :
    ctx.said (es ++ es') = ctx.said es ++ es'.flatMap PromptTurn.said := by
  rw [PromptContext.said, PromptContext.said, List.flatMap_append, List.append_assoc]

/-- After all windows of a run the past is still the end of what was said, behind a part of the
initial prompt that leaves room for the marker. -/
theorem exists_keeps (hctx : ctx.noContext = true)
    (hone : ctx.carryInitialPrompt = true → ctx.maxPromptCtx ≠ 1) (past : PromptPast)
    (es : List PromptTurn) :
    ∃ past', run (ctx.next seekStart seekEnd) (ctx.begin past) es = some past' ∧
      ctx.Keeps (ctx.said es) past' := by
  induction es using List.reverseRecOn with
  | nil => exact ⟨_, rfl, .begin hctx past⟩
  | append_singleton es e ih =>
      obtain ⟨past', hrun, hkeeps⟩ := ih
      obtain ⟨past'', hnext, hkeeps'⟩ := hkeeps.next hone e
      refine ⟨past'', ?_, ?_⟩
      · rw [run_append, hrun, Option.bind_some, run_cons, hnext]
        rfl
      · rw [said_append, List.flatMap_singleton]
        exact hkeeps'

/-- **Prompts continue** what has been said. Whatever the windows have said and whatever was tried:
a prompt is the task alone, or the marker, a part of the initial prompt if it is carried along, the
last part of what has been said, and the task; and together with all tokens its window may have it
fits the context of the model. -/
theorem prompts_continue (hsize : 8 ≤ ctx.nTextCtx) (hctx : ctx.noContext = true)
    (hone : ctx.carryInitialPrompt = true → ctx.maxPromptCtx ≠ 1) (seekStart seekEnd : ℤ)
    (past : PromptPast) (es : List PromptTurn) :
    ∃ past', run (ctx.next seekStart seekEnd) (ctx.begin past) es = some past' ∧
      ∀ seek tCur, ∃ prompt, ctx.prompt (past'.forget seekStart seekEnd seek) tCur = some prompt ∧
        ctx.Continues (ctx.said es) prompt ∧ prompt.length + ctx.nMax ≤ ctx.nTextCtx := by
  obtain ⟨past', hrun, hkeeps⟩ := exists_keeps hctx hone past es
  refine ⟨past', hrun, fun seek tCur => ?_⟩
  obtain ⟨prompt, hprompt, hcontinues⟩ := hkeeps.forget.exists_prompt hone tCur
  exact ⟨prompt, hprompt, hcontinues, hcontinues.fits hsize⟩

end Prompts

/-! ### Room for the windows -/

/-- The number of cells of `kv_self`, when there have been windows with so many decoders. -/
def kvSelfSize (ctx : PromptContext) (kvSelfNDec : ℕ) : ℕ :=
  ggmlPad ctx.nTextCtx 256 * if 1 < kvSelfNDec then kvSelfNDec + 2 else 1

section Room

variable {vocab : WhisperVocab} {maxInitialTid : Option ℤ} {seekStart seekEnd seek : ℤ}
  {maxTokens pad nDecoders kvSelfNDec : ℕ} {beamSearch : Bool} {past past' : PromptPast}
  {prompt : List ℤ} {cache : KvCache}

/-- The cache is larger than all the batches of a window. -/
theorem le_kvSelfSize (hsize : 8 ≤ ctx.nTextCtx) (hdec : nDecoders ≤ kvSelfNDec)
    (hprompt : prompt.length ≤ ctx.nTextCtx / 2 + 4) :
    prompt.length + nDecoders * ctx.nMax ≤ ctx.kvSelfSize kvSelfNDec := by
  have hpad := le_ggmlPad (n := 256) (by decide) ctx.nTextCtx
  have hhalf : ctx.nMax + 4 = ctx.nTextCtx / 2 := by
    rw [nMax]
    omega
  rw [kvSelfSize]
  split
  next =>
    calc prompt.length + nDecoders * ctx.nMax
      _ ≤ ctx.nTextCtx * 2 + kvSelfNDec * ctx.nTextCtx :=
        Nat.add_le_add (by omega) (Nat.mul_le_mul hdec (by omega))
      _ = ctx.nTextCtx * (kvSelfNDec + 2) := by rw [Nat.mul_add, Nat.mul_comm kvSelfNDec, add_comm]
      _ ≤ _ := Nat.mul_le_mul_right _ hpad
  next hone =>
    calc prompt.length + nDecoders * ctx.nMax
      _ ≤ prompt.length + 1 * ctx.nMax :=
        Nat.add_le_add_left (Nat.mul_le_mul_right _ (by omega)) _
      _ ≤ ctx.nTextCtx := by omega
      _ ≤ _ := by rwa [Nat.mul_one]

/-- **The windows have room.** Whatever the windows before have said: the prompt of the next one
finds a slot in the cache, and so does every batch of its decoders, however their sequences have
been shared out, as long as they can draw a token; and no decoder at work gets behind the positions
that the model knows. -/
theorem windows_have_room (hsize : 8 ≤ ctx.nTextCtx) (hctx : ctx.noContext = true)
    (hone : ctx.carryInitialPrompt = true → ctx.maxPromptCtx ≠ 1) {es : List PromptTurn}
    (hrun : run (ctx.next seekStart seekEnd) (ctx.begin past) es = some past') {tCur : ℚ}
    (hprompt : ctx.prompt (past'.forget seekStart seekEnd seek) tCur = some prompt)
    (hpad : 0 < pad) (hn : nDecoders ≤ WHISPER_MAX_DECODERS) (hdec : nDecoders ≤ kvSelfNDec)
    (hcache : cache.size = ctx.kvSelfSize kvSelfNDec) :
    ∃ st₀, Beam.init pad prompt nDecoders cache = some st₀ ∧
      ∀ st, Reach (Beam.turn vocab maxInitialTid seek seekEnd maxTokens ctx.nMax pad prompt
          beamSearch) (fun _ _ => True) st₀ st →
        (∀ choices pool, (beamSearch = true ∨ ∀ x ∈ sources st.pool choices, x.1 = x.2) →
          decodeStep vocab maxInitialTid seek seekEnd maxTokens ctx.nMax st.pool choices =
            some pool →
          ∃ st', st.turn vocab maxInitialTid seek seekEnd maxTokens ctx.nMax pad prompt beamSearch
            choices = some st') ∧
        ∀ d ∈ st.pool, d.finished = false →
          (prompt ++ d.tokens.map WhisperToken.id).length ≤ ctx.nTextCtx := by
  obtain ⟨past'', hrun', hkeeps⟩ := exists_keeps hctx hone past es
  obtain rfl := Option.some.inj (hrun'.symm.trans hrun)
  obtain ⟨prompt', hprompt', hcontinues⟩ := hkeeps.forget.exists_prompt hone tCur
  obtain rfl := Option.some.inj (hprompt'.symm.trans hprompt)
  have hroom : prompt'.length + nDecoders * ctx.nMax ≤ cache.size :=
    hcache ▸ le_kvSelfSize hsize hdec hcontinues.length_le
  have hne : prompt' ≠ [] := hcontinues.ne_nil
  obtain ⟨st₀, hinit, -⟩ := Beam.Roomy.init pad nDecoders hne (Nat.le_of_add_right_le hroom)
  refine ⟨st₀, hinit, fun st hreach => ?_⟩
  obtain ⟨hhears, hroomy⟩ := Beam.roomy_of_reach hpad hn hne hroom hinit hreach
  refine ⟨fun choices pool hown hpool => ?_, fun d hd hwork => ?_⟩
  · obtain ⟨st', hst', -⟩ := hroomy.turn hroom hhears hown hpool
    exact ⟨st', hst'⟩
  · obtain ⟨j, hj⟩ := List.mem_iff_getElem?.mp hd
    obtain ⟨hlength, hle, -⟩ := hhears.hears j d hj hwork
    have := hcontinues.fits hsize
    rw [List.length_append, List.length_map]
    omega

end Room

section Example

/-- A multilingual model, with the initial prompt " hi you". -/
def hiPrompts : PromptContext where
  nTextCtx := 448
  nMaxTextCtx := 16384
  noContext := true
  carryInitialPrompt := false
  promptTokens := [0, 1]
  isMultilingual := true
  translate := false
  noTimestamps := false
  tokenSot := 50258
  tokenPrev := 50361
  tokenLang := 50259
  tokenTranslate := 50358
  tokenTranscribe := 50359
  tokenNot := 50363
  sot_ne_prev := by decide

/-- A window of three seconds that says " hi!". -/
def hiTurn : PromptTurn where
  seek := 0
  tCur := 0
  window := ⟨[⟨5, 5, 0⟩, ⟨0, 20, 0⟩, ⟨2, 40, 0⟩, ⟨155, 155, 0⟩], 300, false⟩
  resultLen := 4

/-- The second window is prompted with the initial prompt and the first window, and one at the end
of the recording with its task alone. -/
theorem prompts_continue_hi :
    ∃ past', run (hiPrompts.next 0 1000) (hiPrompts.begin ⟨[], []⟩) [hiTurn] = some past' ∧
      hiPrompts.prompt (past'.forget 0 1000 300) 0 =
        some [50361, 0, 1, 5, 0, 2, 155, 50258, 50259, 50359] ∧
      hiPrompts.prompt (past'.forget 0 1000 600) 0 = some [50258, 50259, 50359] ∧
      hiPrompts.Continues [0, 1, 5, 0, 2, 155]
        [50361, 0, 1, 5, 0, 2, 155, 50258, 50259, 50359] := by
  obtain ⟨past', hrun, hsecond, hlast⟩ : ∃ past',
      run (hiPrompts.next 0 1000) (hiPrompts.begin ⟨[], []⟩) [hiTurn] = some past' ∧
      hiPrompts.prompt (past'.forget 0 1000 300) 0 =
        some [50361, 0, 1, 5, 0, 2, 155, 50258, 50259, 50359] ∧
      hiPrompts.prompt (past'.forget 0 1000 600) 0 = some [50258, 50259, 50359] :=
    ⟨⟨[], [0, 1, 5, 0, 2, 155]⟩, by decide +kernel, by decide +kernel, by decide +kernel⟩
  obtain ⟨past'', hrun', hprompts⟩ := prompts_continue (by decide : 8 ≤ hiPrompts.nTextCtx) rfl
    (fun h => by cases h) 0 1000 ⟨[], []⟩ [hiTurn]
  obtain rfl := Option.some.inj (hrun'.symm.trans hrun)
  obtain ⟨prompt, hprompt, hcontinues, -⟩ := hprompts 300 0
  obtain rfl := Option.some.inj (hprompt.symm.trans hsecond)
  exact ⟨past'', hrun, hsecond, hlast, hcontinues⟩

/-- A cache that has been made for two decoders. -/
def hiRoom : KvCache := ⟨0, List.replicate 2048 ⟨-1, ∅, ⟨0, 0⟩⟩⟩

/-- Two decoders begin the second window, in a cache that has been made for two. -/
theorem windows_have_room_hi :
    ∃ st₀ st : Beam, Beam.init 32 [50361, 0, 1, 5, 0, 2, 155, 50258, 50259, 50359] 2
        hiRoom = some st₀ ∧
      st₀.turn hiVocab (some 50) 300 1000 0 220 32
        [50361, 0, 1, 5, 0, 2, 155, 50258, 50259, 50359] true
        [(0, ⟨5, 5, 0⟩), (0, ⟨1, 9, 0⟩)] = some st := by
  obtain ⟨past', hrun, hprompt⟩ : ∃ past',
      run (hiPrompts.next 0 1000) (hiPrompts.begin ⟨[], []⟩) [hiTurn] = some past' ∧
      hiPrompts.prompt (past'.forget 0 1000 300) 0 =
        some [50361, 0, 1, 5, 0, 2, 155, 50258, 50259, 50359] :=
    ⟨⟨[], [0, 1, 5, 0, 2, 155]⟩, by decide +kernel, by decide +kernel⟩
  have hcache : hiRoom.size = hiPrompts.kvSelfSize 2 := List.length_replicate
  obtain ⟨st₀, hinit, hroom⟩ := windows_have_room (by decide : 8 ≤ hiPrompts.nTextCtx) rfl
    (fun h => by cases h) hrun hprompt (by decide : 0 < 32) (by decide : 2 ≤ WHISPER_MAX_DECODERS)
    (Nat.le_refl 2) hcache
  have hpool : st₀.pool = List.replicate 2 Decoder.init := by
    obtain ⟨_, -, rfl⟩ := Option.map_eq_some_iff.mp hinit
    rfl
  obtain ⟨pool, hdraw⟩ : ∃ pool, decodeStep hiVocab (some 50) 300 1000 0 220 st₀.pool
      [(0, ⟨5, 5, 0⟩), (0, ⟨1, 9, 0⟩)] = some pool := by
    rw [hpool]
    exact ⟨_, rfl⟩
  obtain ⟨st, hst⟩ := (hroom st₀ .start).1 _ pool (.inl rfl) hdraw
  exact ⟨st₀, st, hinit, hst⟩

end Example

end PromptContext

end Mogo
