import Mathlib.Tactic.NormNum
import Mogo.Server

/-!
# The Video Filter of an Upload

`/process` turns the crop and the aspect ratio of a request into what ffmpeg is to do with the
picture: a simple filter, or a graph of filter chains that hand their frames on by label. The crop
comes first in such a graph and reads the input `0:v` in place of the chains behind it.

Sizes and origins of a crop go through one helper, `evenDimension`, which rounds to an even number
but never below two. That suits a size, not the edge of the picture.

Numbers are exact here; the ones a request means are small.

## Main results

* `cropInPicture_iff`: when the emitted crop stays in the picture.
* `filterSpecCorrect_iff`: when the filter is well formed and keeps the crop.
-/

namespace Mogo

/-! ### Crops -/

/-- `evenDimension`: the rounded value, made even and at least 2. -/
def evenDimension (value : ℚ) : ℤ :=
  let n := max 2 (mathRound value)
  if n % 2 = 0 then n else n - 1

/-- `parseInt(text, 10)`; `none` is `NaN`. -/
def parseInt (text : String) : Option ℤ :=
  let s := text.toList.dropWhile isJsSpace
  let unsigned := if s.head? = some '-' ∨ s.head? = some '+' then s.tail else s
  let digits := unsigned.takeWhile Char.isDigit
  if digits = [] then none
  else
    let n : ℤ := Nat.ofDigitChars 10 digits 0
    some (if s.head? = some '-' then -n else n)

/-- The crop fields of the form of a request; a field may be missing. -/
structure CropFields where
  cropW : Option String
  cropH : Option String
  cropX : Option String
  cropY : Option String

/-- A crop as it is asked for, in the pixels of the source. -/
structure CustomCrop where
  x : ℤ
  y : ℤ
  width : ℤ
  height : ℤ
  deriving DecidableEq, Repr

/-- `parseCustomCrop`: no crop unless both sizes are numbers of at least two. -/
def parseCustomCrop (body : CropFields) : Option CustomCrop :=
  match body.cropW.bind parseInt, body.cropH.bind parseInt with
  | some cropW, some cropH =>
    if cropW < 2 ∨ cropH < 2 then none
    else some ⟨(body.cropX.bind parseInt).getD 0, (body.cropY.bind parseInt).getD 0, cropW, cropH⟩
  | _, _ => none

/-- The numbers of the filter `crop=w:h:x:y`. -/
structure CropFilter where
  w : ℤ
  h : ℤ
  x : ℤ
  y : ℤ
  deriving DecidableEq, Repr

/-- The filter of a crop, with all four numbers made even. -/
def CustomCrop.filter (crop : CustomCrop) : CropFilter :=
  ⟨evenDimension crop.width, evenDimension crop.height, evenDimension crop.x,
    evenDimension crop.y⟩

/-! ### Filter graphs -/

/-- A chain of a complex filter graph: the labels it reads, its filters, the labels it writes. -/
structure Chain where
  inputs : List String
  filters : String
  outputs : List String
  deriving DecidableEq, Repr

/-- A chain as ffmpeg is given it. -/
def Chain.text (chain : Chain) : String :=
  let labels (names : List String) := String.join (names.map fun name => "[" ++ name ++ "]")
  labels chain.inputs ++ chain.filters ++ labels chain.outputs

/-- The chain of a crop in the filter graph of `ffmpeg`. -/
def CropFilter.chain (c : CropFilter) : Chain :=
  ⟨["0:v"], "crop=" ++ toString c.w ++ ":" ++ toString c.h ++ ":" ++ toString c.x ++ ":" ++
    toString c.y, ["vcrop"]⟩

/-- `buildCropFilterLine`: the chain of the crop, if one is asked for. -/
def buildCropFilterLine (customCrop : Option CustomCrop) : Option Chain :=
  customCrop.map fun crop => crop.filter.chain

/-- `buildBlurFillFilter`: the picture, fitted, over a blurred copy that fills the frame. -/
def buildBlurFillFilter (outputW outputH : ℤ) (boxBlur inputLabel : String) : List Chain :=
  let size := toString outputW ++ ":" ++ toString outputH
  [⟨[inputLabel], "split=2", ["bg", "fg"]⟩,
    ⟨["bg"], "scale=" ++ size ++ ":force_original_aspect_ratio=increase,crop=" ++ size ++
      ",boxblur=" ++ boxBlur, ["bg_blur"]⟩,
    ⟨["fg"], "scale=" ++ size ++ ":force_original_aspect_ratio=decrease", ["fg_fit"]⟩,
    ⟨["bg_blur", "fg_fit"], "overlay=(W-w)/2:(H-h)/2", ["vout"]⟩]

/-- `buildStrict1x1BoxBlurFilter`. -/
def buildStrict1x1BoxBlurFilter (size : ℤ) (boxBlur inputLabel : String) : List Chain :=
  buildBlurFillFilter (evenDimension size) (evenDimension size) boxBlur inputLabel

/-- What ffmpeg is to do with the picture. -/
inductive VideoFilterSpec where
  | complexFilter (chains : List Chain) (mapVideo : String)
  | vf (filter : String)
  deriving DecidableEq, Repr

/-- `ratioMap`: the two ratios that a frame is padded to. -/
def ratioMap : List (String × (ℚ × ℚ)) := [("16:9", (16, 9)), ("9:16", (9, 16))]

/-- `buildVideoFilterSpec`. It throws, `none`, when the ratio is the name of a property that every
object has: what is found there cannot be taken apart like a pair. -/
def buildVideoFilterSpec (outputHeight : ℤ) (aspectRatio : String)
    (customCrop : Option CustomCrop) : Option VideoFilterSpec :=
  let cropLine := buildCropFilterLine customCrop
  let src := if cropLine.isSome then "vcrop" else "0:v"
  let scale := "scale=-2:" ++ toString outputHeight
  if aspectRatio = "" ∨ aspectRatio = "original" then
    match cropLine with
    | some crop => some (.complexFilter [crop, ⟨["vcrop"], scale, ["vout"]⟩] "vout")
    | none => some (.vf scale)
  else if aspectRatio = "1:1" then
    let s := evenDimension outputHeight
    some (.complexFilter (cropLine.toList ++ buildStrict1x1BoxBlurFilter s "40:5" src) "vout")
  else
    match property ratioMap aspectRatio with
    | .undefined => some (.vf scale)
    | .inherited => none
    | .own (rw, rh) =>
      let w := evenDimension (outputHeight * rw / rh)
      some (.complexFilter (cropLine.toList ++ buildBlurFillFilter w outputHeight "32:5" src)
        "vout")

/-- `applyVideoFilterToFfmpegCommand`: the texts ffmpeg is given. -/
def applyVideoFilterToFfmpegCommand : VideoFilterSpec → List String
  | .complexFilter chains _ => chains.map Chain.text
  | .vf filter => [filter]

example : (buildVideoFilterSpec 720 "9:16" (some ⟨0, 11, 101, 200⟩)).map
    applyVideoFilterToFfmpegCommand =
    some ["[0:v]crop=100:200:2:10[vcrop]", "[vcrop]split=2[bg][fg]",
      "[bg]scale=404:720:force_original_aspect_ratio=increase,crop=404:720,boxblur=32:5[bg_blur]",
      "[fg]scale=404:720:force_original_aspect_ratio=decrease[fg_fit]",
      "[bg_blur][fg_fit]overlay=(W-w)/2:(H-h)/2[vout]"] := by
  decide +kernel

/-! ### The crop in the picture -/

/-- A whole number is its own rounding. -/
theorem mathRound_intCast (n : ℤ) : mathRound n = n := by
  have hfloor : ⌊(n : ℚ) + 1 / 2⌋ = n := by
    rw [Int.floor_eq_iff]
    constructor <;> norm_num
  exact hfloor

/-- The helper on a whole number: the even number at or below it, and two below three. -/
theorem evenDimension_intCast (n : ℤ) :
    evenDimension n = if max 2 n % 2 = 0 then max 2 n else max 2 n - 1 := by
  rw [evenDimension, mathRound_intCast]

/-- The emitted crop stays in the picture: even numbers, no larger than what was asked for, an
origin moved by at most one, and inside the frame. -/
structure CropInPicture (W H : ℤ) (crop : CustomCrop) (c : CropFilter) : Prop where
  even : Even c.w ∧ Even c.h ∧ Even c.x ∧ Even c.y
  width : 2 ≤ c.w ∧ c.w ≤ crop.width
  height : 2 ≤ c.h ∧ c.h ≤ crop.height
  origin : |c.x - crop.x| ≤ 1 ∧ |c.y - crop.y| ≤ 1
  inside : c.x + c.w ≤ W ∧ c.y + c.h ≤ H

/-- A size and an origin along one side of a frame of length `L` that survive the rounding: the
origin is not the edge, and if it is the first pixel beside it, there is room for the second. -/
def Survives (L origin size : ℤ) : Prop :=
  1 ≤ origin ∧ (origin = 1 → size % 2 = 1 ∨ size + 2 ≤ L)

instance (L origin size : ℤ) : Decidable (Survives L origin size) :=
  inferInstanceAs (Decidable (_ ∧ _))

/-- Along one side of the frame, the rounded crop stays close to what was asked for and inside the
frame exactly if it survives. -/
theorem survives_iff {L origin size : ℤ} (horigin : 0 ≤ origin) (hsize : 2 ≤ size)
    (hfits : origin + size ≤ L) :
    (|evenDimension origin - origin| ≤ 1 ∧ evenDimension origin + evenDimension size ≤ L) ↔
      Survives L origin size := by
  rw [evenDimension_intCast, evenDimension_intCast, abs_le, Survives]
  split_ifs <;> omega

/-- A dimension that is rounded for the encoder is even. -/
theorem even_evenDimension (n : ℤ) : Even (evenDimension n) := by
  rw [evenDimension_intCast, Int.even_iff]
  split_ifs <;> omega

/-- A rounded size is at least two and no larger than the size. -/
theorem evenDimension_size {size : ℤ} (h : 2 ≤ size) :
    2 ≤ evenDimension size ∧ evenDimension size ≤ size := by
  rw [evenDimension_intCast]
  split_ifs <;> omega

/-- **When a crop stays in the picture.** The crop that a request asks for, inside a frame of `W`
by `H` pixels, is emitted, and it stays in the picture if and only if neither origin is at the edge
of the frame and an origin at one has room for the pixel it is moved by. -/
theorem cropInPicture_iff {body : CropFields} {W H : ℤ} {crop : CustomCrop}
    (hx : body.cropX.bind parseInt = some crop.x) (hy : body.cropY.bind parseInt = some crop.y)
    (hwidth : body.cropW.bind parseInt = some crop.width)
    (hheight : body.cropH.bind parseInt = some crop.height)
    (horigin : 0 ≤ crop.x ∧ 0 ≤ crop.y) (hsize : 2 ≤ crop.width ∧ 2 ≤ crop.height)
    (hfits : crop.x + crop.width ≤ W ∧ crop.y + crop.height ≤ H) :
    buildCropFilterLine (parseCustomCrop body) = some crop.filter.chain ∧
      (CropInPicture W H crop crop.filter ↔
        Survives W crop.x crop.width ∧ Survives H crop.y crop.height) := by
  have hparse : parseCustomCrop body = some crop := by
    rw [parseCustomCrop, hwidth, hheight, hx, hy]
    exact if_neg (by omega)
  refine ⟨by rw [hparse]; rfl, ?_⟩
  rw [← survives_iff horigin.1 hsize.1 hfits.1, ← survives_iff horigin.2 hsize.2 hfits.2]
  constructor
  · rintro ⟨-, -, -, ⟨hx, hy⟩, ⟨hx', hy'⟩⟩
    exact ⟨⟨hx, hx'⟩, ⟨hy, hy'⟩⟩
  · rintro ⟨⟨hx, hx'⟩, ⟨hy, hy'⟩⟩
    exact ⟨⟨even_evenDimension _, even_evenDimension _, even_evenDimension _,
      even_evenDimension _⟩, evenDimension_size hsize.1, evenDimension_size hsize.2, ⟨hx, hy⟩,
      ⟨hx', hy'⟩⟩

/-- A crop in the middle of the picture, and the form that asks for it. -/
def middleCrop : CustomCrop := ⟨11, 1, 101, 200⟩

def middleFields : CropFields := ⟨some "101", some "200", some "11", some "1"⟩

/-- The middle of a picture of 640 by 360 stays in the picture. -/
theorem cropInPicture_iff_middle :
    buildCropFilterLine (parseCustomCrop middleFields) = some middleCrop.filter.chain ∧
      CropInPicture 640 360 middleCrop middleCrop.filter := by
  have hx : middleFields.cropX.bind parseInt = some middleCrop.x := by decide
  have hy : middleFields.cropY.bind parseInt = some middleCrop.y := by decide
  have hwidth : middleFields.cropW.bind parseInt = some middleCrop.width := by decide
  have hheight : middleFields.cropH.bind parseInt = some middleCrop.height := by decide
  have hfits : middleCrop.x + middleCrop.width ≤ 640 ∧ middleCrop.y + middleCrop.height ≤ 360 := by
    decide
  obtain ⟨hline, hiff⟩ := cropInPicture_iff hx hy hwidth hheight (by decide) (by decide) hfits
  exact ⟨hline, hiff.mpr (by decide)⟩

/-- **A crop at the edge.** The whole of a picture is moved by two pixels and leaves the frame. -/
theorem not_cropInPicture_whole :
    buildCropFilterLine (parseCustomCrop ⟨some "640", some "360", some "0", some "0"⟩) =
        some (CropFilter.chain ⟨640, 360, 2, 2⟩) ∧
      ¬ CropInPicture 640 360 ⟨0, 0, 640, 360⟩ ⟨640, 360, 2, 2⟩ := by
  constructor
  · decide +kernel
  · intro h
    exact absurd h.inside.1 (by decide)

/-! ### Well-formed graphs -/

/-- The labels a graph reads, chain by chain. -/
def readLabels (chains : List Chain) : List String := chains.flatMap Chain.inputs

/-- The labels a graph writes, chain by chain. -/
def writtenLabels (chains : List Chain) : List String := chains.flatMap Chain.outputs

/-- Every label that is read is the input, or is written by a chain before. -/
def ReadsWritten : List String → List Chain → Prop
  | _, [] => True
  | known, chain :: chains =>
    (∀ label ∈ chain.inputs, label ∈ known) ∧ ReadsWritten (known ++ chain.outputs) chains

/-- A graph is well formed: what is read is the input or was written before; the input is read
once; the mapped label is written once; and every other label that is written is written once and
read once. -/
structure WellFormedGraph (chains : List Chain) (mapVideo : String) : Prop where
  readsWritten : ReadsWritten ["0:v"] chains
  source : (readLabels chains).count "0:v" = 1
  mapped : (writtenLabels chains).count mapVideo = 1
  intermediate : ∀ label ∈ writtenLabels chains, label ≠ mapVideo →
    (writtenLabels chains).count label = 1 ∧ (readLabels chains).count label = 1

/-- The crop is the only chain of the graph that reads the input. -/
def OnlyCropReads (crop : Chain) (chains : List Chain) : Prop :=
  crop ∈ chains ∧ ∀ chain ∈ chains, "0:v" ∈ chain.inputs → chain = crop

/-- The filter of a request: there is one, it is well formed when it is a graph, and with a crop
it is a graph in which the crop is the only reader of the input. -/
structure FilterSpecCorrect (spec : Option VideoFilterSpec) (customCrop : Option CustomCrop) :
    Prop where
  returns : spec.isSome = true
  wellFormed : ∀ chains mapVideo, spec = some (.complexFilter chains mapVideo) →
    mapVideo = "vout" ∧ WellFormedGraph chains mapVideo
  keepsCrop : ∀ crop, customCrop = some crop → ∃ chains,
    spec = some (.complexFilter chains "vout") ∧ OnlyCropReads crop.filter.chain chains

/-- The graph of two chains, for the crop alone, is well formed. -/
theorem wellFormedGraph_crop (c : CropFilter) (scale : String) :
    WellFormedGraph [c.chain, ⟨["vcrop"], scale, ["vout"]⟩] "vout" where
  readsWritten := by simp [ReadsWritten, CropFilter.chain]
  source := by simp [readLabels, CropFilter.chain]
  mapped := by simp [writtenLabels, CropFilter.chain]
  intermediate := by simp [writtenLabels, readLabels, CropFilter.chain]

/-- The graph of a blurred background is well formed, with the input or with the crop in front. -/
theorem wellFormedGraph_blurFill (customCrop : Option CustomCrop) (w h : ℤ) (boxBlur : String) :
    WellFormedGraph ((buildCropFilterLine customCrop).toList ++ buildBlurFillFilter w h boxBlur
      (if (buildCropFilterLine customCrop).isSome then "vcrop" else "0:v")) "vout" := by
  cases customCrop with
  | none =>
      exact
        { readsWritten := by simp [ReadsWritten, buildCropFilterLine, buildBlurFillFilter]
          source := by simp [readLabels, buildCropFilterLine, buildBlurFillFilter]
          mapped := by simp [writtenLabels, buildCropFilterLine, buildBlurFillFilter]
          intermediate := by
            simp [writtenLabels, readLabels, buildCropFilterLine, buildBlurFillFilter] }
  | some crop =>
      exact
        { readsWritten := by
            simp [ReadsWritten, buildCropFilterLine, CropFilter.chain, buildBlurFillFilter]
          source := by
            simp [readLabels, buildCropFilterLine, CropFilter.chain, buildBlurFillFilter]
          mapped := by
            simp [writtenLabels, buildCropFilterLine, CropFilter.chain, buildBlurFillFilter]
          intermediate := by
            simp [writtenLabels, readLabels, buildCropFilterLine, CropFilter.chain,
              buildBlurFillFilter] }

/-- In the graph of a blurred background behind a crop, the crop alone reads the input. -/
theorem onlyCropReads_blurFill (c : CropFilter) (w h : ℤ) (boxBlur : String) :
    OnlyCropReads c.chain (c.chain :: buildBlurFillFilter w h boxBlur "vcrop") := by
  refine ⟨List.mem_cons_self, fun chain hchain hreads => ?_⟩
  rcases List.mem_cons.mp hchain with rfl | hchain
  · rfl
  · simp only [buildBlurFillFilter, List.mem_cons, List.not_mem_nil, or_false] at hchain
    rcases hchain with rfl | rfl | rfl | rfl <;> simp at hreads

/-! ### Which ratios are handled -/

/-- The ratios the filter knows; the empty one stands for `original`. -/
def KNOWN_RATIOS : List String := ["", "original", "1:1", "16:9", "9:16"]

/-- A simple filter is correct for a request without a crop, and only for that. -/
theorem filterSpecCorrect_vf_iff {filter : String} {customCrop : Option CustomCrop} :
    FilterSpecCorrect (some (.vf filter)) customCrop ↔ customCrop = none := by
  constructor
  · intro h
    cases customCrop with
    | none => rfl
    | some crop =>
        obtain ⟨chains, hspec, -⟩ := h.keepsCrop crop rfl
        exact absurd hspec (by simp)
  · rintro rfl
    exact ⟨rfl, fun _ _ h => absurd h (by simp), fun _ h => absurd h (by simp)⟩

/-- The blurred background is correct with and without a crop. -/
theorem filterSpecCorrect_blurFill (customCrop : Option CustomCrop) (w h : ℤ)
    (boxBlur : String) :
    FilterSpecCorrect (some (.complexFilter ((buildCropFilterLine customCrop).toList ++
      buildBlurFillFilter w h boxBlur
        (if (buildCropFilterLine customCrop).isSome then "vcrop" else "0:v")) "vout"))
      customCrop where
  returns := rfl
  wellFormed := by
    intro chains mapVideo heq
    obtain ⟨rfl, rfl⟩ := VideoFilterSpec.complexFilter.inj (Option.some.inj heq)
    exact ⟨rfl, wellFormedGraph_blurFill customCrop w h boxBlur⟩
  keepsCrop := by
    rintro crop rfl
    exact ⟨_, rfl, onlyCropReads_blurFill crop.filter w h boxBlur⟩

/-- **When the filter is right.** The filter of a request is well formed and keeps the crop if and
only if the aspect ratio is one of the known ones, or there is no crop and the ratio is not the
name of a property that every object has. -/
theorem filterSpecCorrect_iff (outputHeight : ℤ) (aspectRatio : String)
    (customCrop : Option CustomCrop) :
    FilterSpecCorrect (buildVideoFilterSpec outputHeight aspectRatio customCrop) customCrop ↔
      aspectRatio ∈ KNOWN_RATIOS ∨ (customCrop = none ∧ aspectRatio ∉ INHERITED_PROPERTIES) := by
  by_cases horiginal : aspectRatio = "" ∨ aspectRatio = "original"
  · have hknown : aspectRatio ∈ KNOWN_RATIOS := by
      rcases horiginal with rfl | rfl <;> simp [KNOWN_RATIOS]
    refine iff_of_true ?_ (Or.inl hknown)
    rw [buildVideoFilterSpec, if_pos horiginal]
    cases customCrop with
    | none => exact filterSpecCorrect_vf_iff.mpr rfl
    | some crop =>
        refine ⟨rfl, fun chains mapVideo heq => ?_, ?_⟩
        · obtain ⟨rfl, rfl⟩ := VideoFilterSpec.complexFilter.inj (Option.some.inj heq)
          exact ⟨rfl, wellFormedGraph_crop _ _⟩
        · rintro crop' hcrop
          obtain rfl := Option.some.inj hcrop
          refine ⟨_, rfl, List.mem_cons_self, fun chain hchain hreads => ?_⟩
          rcases List.mem_cons.mp hchain with rfl | hchain
          · rfl
          · obtain rfl := List.mem_singleton.mp hchain
            simp at hreads
  by_cases hsquare : aspectRatio = "1:1"
  · have hknown : aspectRatio ∈ KNOWN_RATIOS := by simp [KNOWN_RATIOS, hsquare]
    refine iff_of_true ?_ (Or.inl hknown)
    rw [buildVideoFilterSpec, if_neg horiginal, if_pos hsquare]
    exact filterSpecCorrect_blurFill customCrop _ _ _
  rw [buildVideoFilterSpec, if_neg horiginal, if_neg hsquare]
  by_cases hwide : aspectRatio = "16:9" ∨ aspectRatio = "9:16"
  · have hknown : aspectRatio ∈ KNOWN_RATIOS := by
      rcases hwide with rfl | rfl <;> simp [KNOWN_RATIOS]
    refine iff_of_true ?_ (Or.inl hknown)
    rcases hwide with rfl | rfl <;> exact filterSpecCorrect_blurFill customCrop _ _ _
  · have hunknown : aspectRatio ∉ KNOWN_RATIOS := by
      simp only [KNOWN_RATIOS, List.mem_cons, List.not_mem_nil, or_false]
      tauto
    have hlookup : ratioMap.lookup aspectRatio = none := by
      rw [not_or] at hwide
      rw [ratioMap, List.lookup_cons, beq_eq_false_iff_ne.mpr hwide.1, List.lookup_cons,
        beq_eq_false_iff_ne.mpr hwide.2, List.lookup_nil]
    rw [property, hlookup]
    by_cases hinherited : aspectRatio ∈ INHERITED_PROPERTIES
    · rw [if_pos hinherited]
      refine iff_of_false (fun h => absurd h.returns Bool.false_ne_true) ?_
      rintro (hknown | ⟨-, hnot⟩)
      · exact hunknown hknown
      · exact hnot hinherited
    · rw [if_neg hinherited]
      refine filterSpecCorrect_vf_iff.trans ⟨fun hcrop => Or.inr ⟨hcrop, hinherited⟩, ?_⟩
      rintro (hknown | ⟨hcrop, -⟩)
      · exact absurd hknown hunknown
      · exact hcrop

/-- **A crop that is dropped, and a ratio that throws.** -/
theorem not_filterSpecCorrect_unknown :
    buildVideoFilterSpec 720 "4:5" (some ⟨10, 10, 100, 100⟩) = some (.vf "scale=-2:720") ∧
      buildVideoFilterSpec 720 "constructor" none = none ∧
      ¬ FilterSpecCorrect (buildVideoFilterSpec 720 "4:5" (some ⟨10, 10, 100, 100⟩))
        (some ⟨10, 10, 100, 100⟩) ∧
      ¬ FilterSpecCorrect (buildVideoFilterSpec 720 "constructor" none) none := by
  have hdropped : buildVideoFilterSpec 720 "4:5" (some ⟨10, 10, 100, 100⟩) =
      some (.vf "scale=-2:720") := by decide +kernel
  have hthrows : buildVideoFilterSpec 720 "constructor" none = none := by decide
  refine ⟨hdropped, hthrows, fun h => ?_, fun h => ?_⟩
  · rw [hdropped, filterSpecCorrect_vf_iff] at h
    exact absurd h (by simp)
  · have hreturns := h.returns
    rw [hthrows] at hreturns
    exact absurd hreturns Bool.false_ne_true

end Mogo
