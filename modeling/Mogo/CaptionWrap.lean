import Mathlib.Data.List.Chain
import Mathlib.Data.List.Forall2
import Mathlib.Data.List.TakeWhile

/-!
# Captions of a Bounded Length

With `-ml`, as the podcasts use it, whisper cuts every segment it has recognised into captions of
at most that many characters. The loop walks over the tokens of a segment, closes the caption when
the next token would not fit, and starts again with that token; special tokens have no text, and a
token is never cut.

A text is a string of bytes, since a token may end inside a character.

## Main results

* `tokenLoop_spec`: where the loop cuts.
* `wrapFrom_wrapped`: one segment becomes a chain of captions with its tokens and its times.
* `captions_wrapped`: all segments of a transcription.
-/

namespace Mogo

/-! ### Segments and tokens -/

/-- `whisper_token_data`: the id of a token, the id of its time stamp, and its start. -/
structure WhisperToken where
  id : ℤ
  tid : ℤ
  t0 : ℤ
  deriving DecidableEq, Repr

/-- `whisper_segment`: a caption, with the tokens it was made of. -/
structure WhisperSegment where
  t0 : ℤ
  t1 : ℤ
  text : List UInt8
  tokens : List WhisperToken
  speakerTurnNext : Bool
  deriving DecidableEq, Repr

/-- The vocabulary of a model: `whisper_token_eot`, the first special token, and
`whisper_token_to_str`. -/
structure WhisperContext where
  tokenEot : ℤ
  tokenToStr : ℤ → List UInt8

/-- `should_split_on_word`: with `-sow` a line is split before a token that starts with a space
only. -/
def shouldSplitOnWord (txt : List UInt8) (splitOnWord : Bool) : Bool :=
  if splitOnWord then txt.head? = some 0x20 else true

/-- `utf8_len`: the bytes that do not continue a character. -/
def utf8Len (str : List UInt8) : ℕ := str.countP fun b => b &&& 0xC0 ≠ 0x80

section Wrap

variable (ctx : WhisperContext) (maxLen : ℕ) (splitOnWord : Bool)

/-- The token loop of `whisper_wrap_segment` from the index `i` on. It ends with the text, or at
the token with which the next caption begins, and its index. -/
def tokenLoop : List WhisperToken → (i acc : ℕ) → (text : List UInt8) →
    List UInt8 × Option (WhisperToken × ℕ)
  | [], _, _, text => (text, none)
  | token :: tokens, i, acc, text =>
    if ctx.tokenEot ≤ token.id then tokenLoop tokens (i + 1) acc text
    else
      let txt := ctx.tokenToStr token.id
      let cur := utf8Len txt
      if maxLen < acc + cur ∧ 0 < i ∧ shouldSplitOnWord txt splitOnWord then
        (text, some (token, i))
      else tokenLoop tokens (i + 1) (acc + cur) (text ++ txt)

/-- The captions of a segment. At a cut the caption is closed, and the loop starts again with a
segment of the tokens that are left. -/
def wrapFrom : (fuel : ℕ) → WhisperSegment → List WhisperSegment
  | 0, segment => [segment]
  | fuel + 1, segment =>
    match tokenLoop ctx maxLen splitOnWord segment.tokens 0 0 [] with
    | (text, none) => [{ segment with text := text }]
    | (text, some (token, i)) =>
      { segment with
        text := text
        t1 := token.t0
        tokens := segment.tokens.take i
        speakerTurnNext := false } ::
      wrapFrom fuel
        { t0 := token.t0
          t1 := segment.t1
          text := []
          tokens := segment.tokens.drop i
          speakerTurnNext := segment.speakerTurnNext }

/-- `whisper_wrap_segment`: the last segment is wrapped. The number of segments it has become is
returned. -/
def whisperWrapSegment (resultAll : List WhisperSegment) : List WhisperSegment × ℕ :=
  match resultAll.getLast? with
  | none => (resultAll, 1)
  | some segment =>
    let captions := wrapFrom ctx maxLen splitOnWord (segment.tokens.length + 1) segment
    (resultAll.dropLast ++ captions, captions.length)

/-- A recognised segment is pushed, and wrapped if there is a bound. -/
def pushSegment (resultAll : List WhisperSegment) (segment : WhisperSegment) :
    List WhisperSegment :=
  if 0 < maxLen then
    (whisperWrapSegment ctx maxLen splitOnWord (resultAll ++ [segment])).1
  else resultAll ++ [segment]

/-- The segments of a transcription, pushed one after the other. -/
def pushSegments (segments : List WhisperSegment) : List WhisperSegment :=
  segments.foldl (pushSegment ctx maxLen splitOnWord) []

end Wrap

/-! ### What a caption is -/

/-- The text of some tokens, without the special ones. -/
def WhisperContext.spoken (ctx : WhisperContext) (tokens : List WhisperToken) : List UInt8 :=
  (tokens.filter fun token => token.id < ctx.tokenEot).flatMap fun token =>
    ctx.tokenToStr token.id

/-- No cut is missing: every token behind the first one fits, or may not begin a caption. -/
def Filled (ctx : WhisperContext) (maxLen : ℕ) (splitOnWord : Bool)
    (tokens : List WhisperToken) : Prop :=
  ∀ pre token post, tokens = pre ++ token :: post → pre ≠ [] → token.id < ctx.tokenEot →
    utf8Len (ctx.spoken pre) + utf8Len (ctx.tokenToStr token.id) ≤ maxLen ∨
      shouldSplitOnWord (ctx.tokenToStr token.id) splitOnWord = false

/-- No cut is made without need: the next caption begins, where this one ends, with a token that
may begin it and would not have fitted here. -/
def Follows (ctx : WhisperContext) (maxLen : ℕ) (splitOnWord : Bool)
    (caption next : WhisperSegment) : Prop :=
  ∃ token ∈ next.tokens.head?, token.id < ctx.tokenEot ∧
    caption.t1 = token.t0 ∧ next.t0 = token.t0 ∧
    shouldSplitOnWord (ctx.tokenToStr token.id) splitOnWord = true ∧
    maxLen < utf8Len caption.text + utf8Len (ctx.tokenToStr token.id)

/-- The captions of a segment: they share out its tokens, none of them goes without, they say what
their tokens say, run from its start to its end without a gap, and only the last one is followed by
a change of speaker, if the segment is. -/
structure Wrapped (ctx : WhisperContext) (maxLen : ℕ) (splitOnWord : Bool)
    (segment : WhisperSegment) (captions : List WhisperSegment) : Prop where
  tokens : captions.flatMap WhisperSegment.tokens = segment.tokens
  tokens_ne : segment.tokens ≠ [] → ∀ c ∈ captions, c.tokens ≠ []
  text : ∀ c ∈ captions, c.text = ctx.spoken c.tokens
  filled : ∀ c ∈ captions, Filled ctx maxLen splitOnWord c.tokens
  chain : captions.IsChain (Follows ctx maxLen splitOnWord)
  start : captions.head?.map WhisperSegment.t0 = some segment.t0
  stop : captions.getLast?.map WhisperSegment.t1 = some segment.t1
  speaker : captions.map WhisperSegment.speakerTurnNext =
    List.replicate (captions.length - 1) false ++ [segment.speakerTurnNext]

section Facts

variable {ctx : WhisperContext} {maxLen : ℕ} {splitOnWord : Bool}

/-- Characters are counted by their first bytes, so the counts of two texts add up. -/
theorem utf8Len_append (a b : List UInt8) : utf8Len (a ++ b) = utf8Len a + utf8Len b :=
  List.countP_append

/-- What is said in a row of tokens is said one part after the other. -/
theorem spoken_append (a b : List WhisperToken) :
    ctx.spoken (a ++ b) = ctx.spoken a ++ ctx.spoken b := by
  rw [WhisperContext.spoken, List.filter_append, List.flatMap_append]
  rfl

/-- A special token, one from the end of text on, says nothing. -/
theorem spoken_singleton_of_le {token : WhisperToken} (h : ctx.tokenEot ≤ token.id) :
    ctx.spoken [token] = [] := by
  simp [WhisperContext.spoken, h]

/-- A token below the end of text stands for its own bytes. -/
theorem spoken_singleton_of_lt {token : WhisperToken} (h : token.id < ctx.tokenEot) :
    ctx.spoken [token] = ctx.tokenToStr token.id := by
  simp [WhisperContext.spoken, h]

/-- A caption without tokens is not overfull. -/
theorem Filled.nil : Filled ctx maxLen splitOnWord [] := by
  intro pre token post h
  exact absurd h (by simp)

/-- A segment stays filled when one more token fits, or when the line may not be split before it. -/
theorem Filled.concat {tokens : List WhisperToken} {token : WhisperToken}
    (h : Filled ctx maxLen splitOnWord tokens)
    (htoken : tokens ≠ [] → token.id < ctx.tokenEot →
      utf8Len (ctx.spoken tokens) + utf8Len (ctx.tokenToStr token.id) ≤ maxLen ∨
        shouldSplitOnWord (ctx.tokenToStr token.id) splitOnWord = false) :
    Filled ctx maxLen splitOnWord (tokens ++ [token]) := by
  intro pre t post hsplit hpre ht
  rcases List.eq_nil_or_concat post with rfl | ⟨post, last, rfl⟩
  · obtain ⟨rfl, hlast⟩ := List.append_inj' hsplit rfl
    obtain rfl := List.cons.inj hlast |>.1
    exact htoken hpre ht
  · rw [List.concat_eq_append, ← List.cons_append, ← List.append_assoc] at hsplit
    exact h pre t post (List.append_inj' hsplit rfl).1 hpre ht

/-- **Where the loop cuts.** It has gone over the tokens `pre`. -/
theorem tokenLoop_spec {pre tokens : List WhisperToken}
    (hpre : Filled ctx maxLen splitOnWord pre) {text : List UInt8}
    {cut : Option (WhisperToken × ℕ)}
    (h : tokenLoop ctx maxLen splitOnWord tokens pre.length (utf8Len (ctx.spoken pre))
      (ctx.spoken pre) = (text, cut)) :
    ∃ done rest, pre ++ tokens = done ++ rest ∧ text = ctx.spoken done ∧
      Filled ctx maxLen splitOnWord done ∧ (cut = none → rest = []) ∧
      ∀ token i, cut = some (token, i) → ∃ tail, rest = token :: tail ∧ i = done.length ∧
        done ≠ [] ∧ token.id < ctx.tokenEot ∧
        shouldSplitOnWord (ctx.tokenToStr token.id) splitOnWord = true ∧
        maxLen < utf8Len text + utf8Len (ctx.tokenToStr token.id) := by
  induction tokens generalizing pre with
  | nil =>
      obtain ⟨rfl, rfl⟩ := Prod.mk.inj h
      exact ⟨pre, [], rfl, rfl, hpre, fun _ => rfl, fun _ _ h => absurd h (by simp)⟩
  | cons token tokens ih =>
      have hsplit : pre ++ token :: tokens = (pre ++ [token]) ++ tokens := by simp
      have hlength : pre.length + 1 = (pre ++ [token]).length := by simp
      rw [tokenLoop] at h
      by_cases hspecial : ctx.tokenEot ≤ token.id
      · have hspoken : ctx.spoken pre = ctx.spoken (pre ++ [token]) := by
          rw [spoken_append, spoken_singleton_of_le hspecial, List.append_nil]
        rw [if_pos hspecial, hspoken, hlength] at h
        rw [hsplit]
        exact ih (hpre.concat fun _ hlt => absurd hlt (Int.not_lt.mpr hspecial)) h
      · have hlt := Int.not_le.mp hspecial
        rw [if_neg hspecial] at h
        dsimp only at h
        split at h
        next hcut =>
          obtain ⟨rfl, rfl⟩ := Prod.mk.inj h
          refine ⟨pre, token :: tokens, rfl, rfl, hpre, fun h => absurd h (by simp), ?_⟩
          rintro token' i hcut'
          obtain ⟨rfl, rfl⟩ := Prod.mk.inj (Option.some.inj hcut')
          exact ⟨tokens, rfl, rfl, List.length_pos_iff.mp hcut.2.1, hlt, hcut.2.2, hcut.1⟩
        next hcut =>
          have hspoken : ctx.spoken pre ++ ctx.tokenToStr token.id =
              ctx.spoken (pre ++ [token]) := by
            rw [spoken_append, spoken_singleton_of_lt hlt]
          rw [← utf8Len_append, hspoken, hlength] at h
          rw [hsplit]
          refine ih (hpre.concat fun hne _ => ?_) h
          by_contra hnot
          rw [not_or, Nat.not_le, Bool.not_eq_false] at hnot
          exact hcut ⟨hnot.1, List.length_pos_iff.mpr hne, hnot.2⟩

/-- A segment that is within the limit is its own single caption. -/
theorem Wrapped.singleton {segment : WhisperSegment}
    (h : Filled ctx maxLen splitOnWord segment.tokens) :
    Wrapped ctx maxLen splitOnWord segment
      [{ segment with text := ctx.spoken segment.tokens }] where
  tokens := List.flatMap_singleton ..
  tokens_ne := fun hne c hc => List.mem_singleton.mp hc ▸ hne
  text := fun c hc => by rw [List.mem_singleton.mp hc]
  filled := fun c hc => List.mem_singleton.mp hc ▸ h
  chain := List.isChain_singleton _
  start := rfl
  stop := rfl
  speaker := rfl

/-- **One cut** before a token that would make the line too long: the tokens so far are one caption,
and the rest is wrapped on its own. -/
theorem Wrapped.cons {segment : WhisperSegment} {done tail : List WhisperToken}
    {token : WhisperToken} {captions : List WhisperSegment}
    (hsplit : segment.tokens = done ++ token :: tail) (hne : done ≠ [])
    (hfilled : Filled ctx maxLen splitOnWord done) (hlt : token.id < ctx.tokenEot)
    (hword : shouldSplitOnWord (ctx.tokenToStr token.id) splitOnWord = true)
    (hlong : maxLen < utf8Len (ctx.spoken done) + utf8Len (ctx.tokenToStr token.id))
    (hnext : Wrapped ctx maxLen splitOnWord
      ⟨token.t0, segment.t1, [], token :: tail, segment.speakerTurnNext⟩ captions) :
    Wrapped ctx maxLen splitOnWord segment
      (⟨segment.t0, token.t0, ctx.spoken done, done, false⟩ :: captions) := by
  obtain ⟨htokens, htokensNe, htext, hfilled', hchain, hstart, hstop, hspeaker⟩ := hnext
  rcases captions with - | ⟨c, captions⟩
  · exact absurd hstart (by simp)
  have hhead : token ∈ c.tokens.head? := by
    obtain ⟨t, ts, hct⟩ := List.exists_cons_of_ne_nil
      (htokensNe (List.cons_ne_nil _ _) c List.mem_cons_self)
    rw [List.flatMap_cons, hct] at htokens
    rw [hct, (List.cons.inj htokens).1]
    rfl
  constructor
  · rw [List.flatMap_cons, htokens, hsplit]
  · intro _ c' hc'
    rcases List.mem_cons.mp hc' with rfl | hc'
    · exact hne
    · exact htokensNe (List.cons_ne_nil _ _) c' hc'
  · intro c' hc'
    rcases List.mem_cons.mp hc' with rfl | hc'
    · rfl
    · exact htext c' hc'
  · intro c' hc'
    rcases List.mem_cons.mp hc' with rfl | hc'
    · exact hfilled
    · exact hfilled' c' hc'
  · refine List.isChain_cons_cons.mpr ⟨⟨token, hhead, hlt, rfl, ?_, hword, hlong⟩, hchain⟩
    exact Option.some.inj hstart
  · rfl
  · rw [List.getLast?_cons_cons, hstop]
  · rw [List.map_cons, hspeaker]
    rfl

/-- **One segment.** It becomes a chain of captions. -/
theorem wrapFrom_wrapped {fuel : ℕ} {segment : WhisperSegment}
    (hfuel : segment.tokens.length < fuel) :
    Wrapped ctx maxLen splitOnWord segment (wrapFrom ctx maxLen splitOnWord fuel segment) := by
  induction fuel generalizing segment with
  | zero => exact absurd hfuel (Nat.not_lt_zero _)
  | succ fuel ih =>
      have hnil : Filled ctx maxLen splitOnWord [] := Filled.nil
      rw [wrapFrom]
      rcases hloop : tokenLoop ctx maxLen splitOnWord segment.tokens 0 0 [] with ⟨text, cut⟩
      obtain ⟨done, rest, hsplit, rfl, hfilled, hend, hcut⟩ := tokenLoop_spec hnil hloop
      rw [List.nil_append] at hsplit
      rcases cut with - | ⟨token, i⟩
      · rw [hend rfl, List.append_nil] at hsplit
        subst hsplit
        exact Wrapped.singleton hfilled
      · obtain ⟨tail, rfl, rfl, hne, hlt, hword, hlong⟩ := hcut token i rfl
        have hdone : segment.tokens.take done.length = done := by rw [hsplit, List.take_left]
        have hrest : segment.tokens.drop done.length = token :: tail := by
          rw [hsplit, List.drop_left]
        have hshorter : (token :: tail).length < fuel := by
          have hpos := List.length_pos_iff.mpr hne
          rw [hsplit, List.length_append] at hfuel
          omega
        dsimp only
        rw [hdone, hrest]
        exact Wrapped.cons hsplit hne hfilled hlt hword hlong (ih hshorter)

/-! ### All segments -/

/-- **A push** wraps the segment that is pushed and leaves the captions before it alone. -/
theorem pushSegment_eq (hmax : 0 < maxLen) (resultAll : List WhisperSegment)
    (segment : WhisperSegment) :
    pushSegment ctx maxLen splitOnWord resultAll segment =
      resultAll ++ wrapFrom ctx maxLen splitOnWord (segment.tokens.length + 1) segment := by
  rw [pushSegment, if_pos hmax, whisperWrapSegment, List.getLast?_concat, List.dropLast_concat]

/-- The segments that are shown are those of the wrap loop, one segment of the decoder after the
other. -/
theorem pushSegments_eq (hmax : 0 < maxLen) (segments : List WhisperSegment) :
    pushSegments ctx maxLen splitOnWord segments = segments.flatMap fun segment =>
      wrapFrom ctx maxLen splitOnWord (segment.tokens.length + 1) segment := by
  rw [pushSegments]
  induction segments using List.reverseRecOn with
  | nil => rfl
  | append_singleton segments segment ih =>
      rw [List.foldl_concat, ih, pushSegment_eq hmax, List.flatMap_append,
        List.flatMap_singleton]

/-- The captions of a segment say what the segment says. -/
theorem Wrapped.flatMap_text {segment : WhisperSegment} {captions : List WhisperSegment}
    (h : Wrapped ctx maxLen splitOnWord segment captions) :
    captions.flatMap WhisperSegment.text = ctx.spoken segment.tokens := by
  have hspoken : ∀ l : List WhisperSegment, (∀ c ∈ l, c.text = ctx.spoken c.tokens) →
      l.flatMap WhisperSegment.text = ctx.spoken (l.flatMap WhisperSegment.tokens) := by
    intro l hl
    induction l with
    | nil => rfl
    | cons c l ih =>
        rw [List.flatMap_cons, List.flatMap_cons, spoken_append, hl c List.mem_cons_self,
          ih fun c' hc' => hl c' (List.mem_cons_of_mem c hc')]
  rw [hspoken captions h.text, h.tokens]

/-- Tokens that may all begin a caption are within the bound, or only the first one speaks. -/
theorem Filled.bounded {tokens : List WhisperToken} (h : Filled ctx maxLen false tokens) :
    utf8Len (ctx.spoken tokens) ≤ maxLen ∨
      ∃ token ∈ tokens.head?, ctx.spoken tokens = ctx.tokenToStr token.id := by
  induction tokens using List.reverseRecOn with
  | nil => exact Or.inl (Nat.zero_le _)
  | append_singleton tokens token ih =>
      by_cases hspecial : ctx.tokenEot ≤ token.id
      · have hinit : Filled ctx maxLen false tokens := fun pre t post hsplit =>
          h pre t (post ++ [token]) (by rw [hsplit, List.append_assoc, List.cons_append])
        rw [spoken_append, spoken_singleton_of_le hspecial, List.append_nil]
        refine (ih hinit).imp_right ?_
        rintro ⟨first, hfirst, heq⟩
        exact ⟨first, List.mem_head?_append_of_mem_head? hfirst, heq⟩
      · have hlt := Int.not_le.mp hspecial
        rw [spoken_append, spoken_singleton_of_lt hlt]
        rcases eq_or_ne tokens [] with rfl | hne
        · exact Or.inr ⟨token, rfl, rfl⟩
        · rw [utf8Len_append]
          refine Or.inl ((h tokens token [] rfl hne hlt).resolve_right ?_)
          rw [shouldSplitOnWord, if_neg Bool.false_ne_true]
          simp

/-- **The captions of a transcription.** Whatever the vocabulary and the tokens, wrapping with a
positive bound makes of every segment a chain of captions, and changes nothing of what is said. If a
caption may begin with any token, each is within the bound, or it says what its first token says. -/
theorem captions_wrapped (ctx : WhisperContext) (maxLen : ℕ) (hmax : 0 < maxLen)
    (splitOnWord : Bool) (segments : List WhisperSegment) :
    ∃ captions : List (List WhisperSegment),
      pushSegments ctx maxLen splitOnWord segments = captions.flatten ∧
      List.Forall₂ (Wrapped ctx maxLen splitOnWord) segments captions ∧
      (pushSegments ctx maxLen splitOnWord segments).flatMap WhisperSegment.text =
        segments.flatMap (fun segment => ctx.spoken segment.tokens) ∧
      (splitOnWord = false → ∀ c ∈ pushSegments ctx maxLen splitOnWord segments,
        utf8Len c.text ≤ maxLen ∨
          ∃ token ∈ c.tokens.head?, c.text = ctx.tokenToStr token.id) := by
  have hwrapped : ∀ segment : WhisperSegment, Wrapped ctx maxLen splitOnWord segment
      (wrapFrom ctx maxLen splitOnWord (segment.tokens.length + 1) segment) :=
    fun _ => wrapFrom_wrapped (Nat.lt_succ_self _)
  rw [pushSegments_eq hmax]
  refine ⟨segments.map fun segment => wrapFrom ctx maxLen splitOnWord
    (segment.tokens.length + 1) segment, List.flatMap_def, ?_, ?_, ?_⟩
  · exact List.forall₂_map_right_iff.mpr (List.forall₂_same.mpr fun s _ => hwrapped s)
  · rw [List.flatMap_assoc]
    exact List.flatMap_congr fun s _ => (hwrapped s).flatMap_text
  · rintro rfl c hc
    obtain ⟨s, -, hcs⟩ := List.mem_flatMap.mp hc
    rw [(hwrapped s).text c hcs]
    exact ((hwrapped s).filled c hcs).bounded

end Facts

section Example

/-- A vocabulary: " hi", " you", "!", and a special token. -/
def hiContext : WhisperContext where
  tokenEot := 3
  tokenToStr := fun id => if id = 0 then [0x20, 0x68, 0x69]
    else if id = 1 then [0x20, 0x79, 0x6F, 0x75] else if id = 2 then [0x21] else []

/-- A segment of three words, behind a time stamp. -/
def hiSegment : WhisperSegment where
  t0 := 0
  t1 := 90
  text := []
  tokens := [⟨3, 3, 0⟩, ⟨0, 3, 5⟩, ⟨1, 3, 40⟩, ⟨2, 3, 80⟩]
  speakerTurnNext := true

/-- With at most six characters it becomes two captions, which say what it says. -/
theorem captions_wrapped_hi :
    (pushSegments hiContext 6 false [hiSegment]).flatMap WhisperSegment.text =
        hiContext.spoken hiSegment.tokens ∧
      (pushSegments hiContext 6 false [hiSegment]).map (fun c => (c.t0, c.t1, c.text)) =
        [(0, 40, [0x20, 0x68, 0x69]), (40, 90, [0x20, 0x79, 0x6F, 0x75, 0x21])] := by
  obtain ⟨captions, -, -, htext, -⟩ := captions_wrapped hiContext 6 (by decide) false [hiSegment]
  refine ⟨htext.trans (List.flatMap_singleton ..), ?_⟩
  decide

end Example

end Mogo
