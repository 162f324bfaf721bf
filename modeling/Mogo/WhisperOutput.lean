import Mogo.CaptionWrap
import Mogo.EntryLinks
import Mogo.NumeralText
import Mogo.Scanning

/-!
# The Clock in the Output of Whisper

While it transcribes, whisper prints every segment with the times of its beginning and its end.
The server gets this output in chunks that are cut anywhere, looks in each chunk for the first
time stamp with an arrow behind it, and shows how far whisper has come.

The output is a string of bytes. The expression of the server is of ASCII characters, and to
decode a chunk keeps every ASCII byte, so it may as well be matched against the bytes.

## Main results

* `toTimestamp_eq`: what a time is printed as, and what it reads as.
* `occurrences_whisperOutput`: the time stamps in the output are those of the segments.
* `whisperProgress_follows`: what the server shows, after any chunks.
-/

namespace Mogo

open Handler Scanning JsNumber

/-! ### What whisper prints -/

/-- The bytes of an ASCII text, one for each character. -/
def ascii (text : List Char) : List UInt8 := text.map fun c => c.toNat.toUInt8

/-- `%0*d` of `printf`: a number padded with zeros, whose sign counts for the width. -/
def printfD (width : ℕ) (n : ℤ) : List UInt8 :=
  if n < 0 then ascii ('-' :: (decimal n.natAbs).leftpad (width - 1) '0')
  else ascii ((decimal n.natAbs).leftpad width '0')

/-- `to_timestamp`. The time is counted in hundredths of a second. -/
def toTimestamp (t : ℤ) (comma : Bool) : List UInt8 :=
  let msec := t * 10
  let hr := msec.tdiv (1000 * 60 * 60)
  let msec := msec - hr * (1000 * 60 * 60)
  let min := msec.tdiv (1000 * 60)
  let msec := msec - min * (1000 * 60)
  let sec := msec.tdiv 1000
  let msec := msec - sec * 1000
  printfD 2 hr ++ ascii [':'] ++ printfD 2 min ++ ascii [':'] ++ printfD 2 sec ++
    ascii [if comma then ',' else '.'] ++ printfD 3 msec

/-- What `%s` prints: the text up to a NUL. -/
def cString (text : List UInt8) : List UInt8 := text.takeWhile fun b => b ≠ 0

/-- The line of a segment on the standard output, as the server's regular expression looks for
it. -/
def printSegment (segment : WhisperSegment) : List UInt8 :=
  ascii ['['] ++ toTimestamp segment.t0 false ++ ascii [' ', '-', '-', '>'] ++ ascii [' '] ++
    toTimestamp segment.t1 false ++ ascii [']', ' ', ' '] ++ cString segment.text ++ ascii ['\n']

/-- `whisper_print_segment_callback`, with the options the server starts whisper with: the last
`nNew` segments are printed. -/
def whisperPrintSegmentCallback (resultAll : List WhisperSegment) (nNew : ℕ) : List UInt8 :=
  let s0 := resultAll.length - nNew
  (if s0 = 0 then ascii ['\n'] else []) ++ (resultAll.drop s0).flatMap printSegment

/-- The output of a run that makes its segments in these batches. -/
def whisperOutput (resultAll : List WhisperSegment) : List (List WhisperSegment) → List UInt8
  | [] => []
  | batch :: batches =>
    whisperPrintSegmentCallback (resultAll ++ batch) batch.length ++
      whisperOutput (resultAll ++ batch) batches

/-! ### What the server reads -/

/-- The byte is an ASCII digit. -/
def isDigitByte (b : UInt8) : Bool := 0x30 ≤ b ∧ b ≤ 0x39

/-- Characters that stand for themselves. -/
def literally (text : List Char) : List (UInt8 → Bool) := (ascii text).map fun b b' => b' = b

/-- `/\[(\d{2}):(\d{2}):(\d{2})\.(\d{3}) -->/`. -/
def timePattern : List (UInt8 → Bool) :=
  literally ['['] ++ List.replicate 2 isDigitByte ++ literally [':'] ++
    List.replicate 2 isDigitByte ++ literally [':'] ++ List.replicate 2 isDigitByte ++
    literally ['.'] ++ List.replicate 3 isDigitByte ++ literally [' ', '-', '-', '>']

/-- `parseFloat` of a group of digits. -/
def parseDigits (digits : List UInt8) : ℕ :=
  digits.foldl (fun n b => 10 * n + (b.toNat - 48)) 0

/-- The time of a match, in seconds: its groups are hours, minutes and seconds. -/
def currentSecs (matched : List UInt8) : ℚ :=
  parseDigits ((matched.drop 1).take 2) * 3600 + parseDigits ((matched.drop 4).take 2) * 60 +
    parseDigits ((matched.drop 7).take 2)

/-- The time in a chunk of the output. -/
def readTime (chunk : List UInt8) : Option ℚ := (firstMatch timePattern chunk).map currentSecs

/-- The chunks of the output, one after the other. -/
def hearChunks : List (List UInt8) → Callback PUnit
  | [] => pure ⟨⟩
  | chunk :: chunks => do
    onWhisperProgress (readTime chunk)
    hearChunks chunks

/-! ### Printed numbers -/

section Numbers

variable {width n : ℕ}

/-- A text of plain characters has a byte for each of them. -/
theorem length_ascii (text : List Char) : (ascii text).length = text.length := List.length_map _

/-- A digit is a byte between 48 and 57. -/
theorem toUInt8_of_isDigit {c : Char} (h : c.isDigit = true) :
    isDigitByte c.toNat.toUInt8 = true ∧ c.toNat.toUInt8.toNat = c.toNat := by
  have hrange : 48 ≤ c.toNat ∧ c.toNat ≤ 57 := by
    rw [Char.isDigit, Bool.and_eq_true, decide_eq_true_eq, decide_eq_true_eq] at h
    exact h
  have hval : c.toNat.toUInt8.toNat = c.toNat := by
    rw [Nat.toUInt8, UInt8.toNat_ofNat']
    omega
  refine ⟨?_, hval⟩
  rw [isDigitByte, decide_eq_true_eq, UInt8.le_iff_toNat_le, UInt8.le_iff_toNat_le, hval]
  exact hrange

/-- The digits that are read are those that were printed. -/
theorem parseDigits_ascii {text : List Char} (h : ∀ c ∈ text, c.isDigit = true) :
    parseDigits (ascii text) = Nat.ofDigitChars 10 text 0 := by
  have hfold : ∀ init, (ascii text).foldl (fun n b => 10 * n + (b.toNat - 48)) init =
      Nat.ofDigitChars 10 text init := by
    induction text with
    | nil =>
        intro init
        rw [Nat.ofDigitChars_nil]
        rfl
    | cons c text ih =>
        intro init
        rw [Nat.ofDigitChars_cons, ← ih fun c' hc' => h c' (List.mem_cons_of_mem c hc')]
        rw [ascii, List.map_cons, List.foldl_cons, (toUInt8_of_isDigit (h c List.mem_cons_self)).2]
        rfl
  exact hfold 0

/-- A number that is padded with zeros consists of digits. -/
theorem isDigit_of_mem_leftpad {c : Char} (h : c ∈ (decimal n).leftpad width '0') :
    c.isDigit = true := by
  rw [List.leftpad, List.mem_append] at h
  rcases h with h | h
  · rw [(List.mem_replicate.mp h).2]
    rfl
  · exact isDigit_of_mem_decimal h

/-- A number below a power of ten has no more digits than the exponent. -/
theorem length_decimal_le (hpos : 0 < width) (hn : n < 10 ^ width) :
    (decimal n).length ≤ width := by
  rcases Nat.eq_zero_or_pos n with rfl | hne
  · exact hpos
  · rw [length_decimal hne.ne']
    exact Nat.log_lt_of_lt_pow hne.ne' hn

/-- What is printed of a number that fits. -/
structure Printed (width n : ℕ) (digits : List UInt8) : Prop where
  length : digits.length = width
  digit : ∀ b ∈ digits, isDigitByte b = true
  parse : parseDigits digits = n

/-- **A number that is not negative** is printed in at least as many digits as its width, and reads
as itself. -/
theorem printfD_reads (width n : ℕ) :
    (printfD width n).length = max width (decimal n).length ∧
      (∀ b ∈ printfD width n, isDigitByte b = true) ∧ parseDigits (printfD width n) = n := by
  have hprint : printfD width n = ascii ((decimal n).leftpad width '0') := by
    rw [printfD, if_neg (by omega), Int.natAbs_natCast]
  rw [hprint]
  refine ⟨?_, fun b hb => ?_, ?_⟩
  · rw [length_ascii, List.length_leftpad]
  · obtain ⟨c, hc, rfl⟩ := List.mem_map.mp hb
    exact (toUInt8_of_isDigit (isDigit_of_mem_leftpad hc)).1
  · rw [parseDigits_ascii fun c hc => isDigit_of_mem_leftpad hc, List.leftpad,
      Nat.ofDigitChars_append, Nat.ofDigitChars_replicate_zero, Nat.mul_zero, ofDigitChars_decimal]

/-- **A number that fits its width** is printed with as many digits, and reads as itself. -/
theorem printfD_printed (hpos : 0 < width) (hn : n < 10 ^ width) :
    Printed width n (printfD width n) := by
  obtain ⟨hlength, hdigit, hparse⟩ := printfD_reads width n
  exact ⟨hlength.trans (max_eq_left (length_decimal_le hpos hn)), hdigit, hparse⟩

/-- What has been printed with a width fits a pattern of as many digits. -/
theorem Printed.fits {digits : List UInt8} (h : Printed width n digits) :
    Fits (List.replicate width isDigitByte) digits := by
  obtain ⟨rfl, hdigit, -⟩ := h
  exact .replicate hdigit

end Numbers

/-! ### Printed times -/

section Times

/-- The beginning of a line: the bracket, the start of the segment and the arrow. -/
def stamp (t : ℤ) : List UInt8 := ascii ['['] ++ toTimestamp t false ++ ascii [' ', '-', '-', '>']

/-- Characters that are checked not to be a certain one. -/
theorem ne_of_mem_ascii {text : List Char} {b x : UInt8} (hb : b ∈ ascii text)
    (hall : ((ascii text).all fun b => b != x) = true) : b ≠ x :=
  bne_iff_ne.mp (List.all_eq_true.mp hall b hb)

section Characters

variable {b x : UInt8} (hdigit : isDigitByte x = false)

include hdigit

/-- A printed number holds no other byte than digits and a minus. -/
theorem ne_of_mem_printfD (hminus : x ≠ 0x2D) {width : ℕ} {n : ℤ} (h : b ∈ printfD width n) :
    b ≠ x := by
  have hpad : ∀ w, b ∈ ascii ((decimal n.natAbs).leftpad w '0') → b ≠ x := by
    rintro w hb rfl
    obtain ⟨c, hc, rfl⟩ := List.mem_map.mp hb
    rw [(toUInt8_of_isDigit (isDigit_of_mem_leftpad hc)).1] at hdigit
    cases hdigit
  rw [printfD] at h
  split at h
  · rw [ascii, List.map_cons, List.mem_cons] at h
    rcases h with rfl | h
    · exact hminus.symm
    · exact hpad _ h
  · exact hpad _ h

/-- A time is printed with digits, and few other characters. -/
theorem ne_of_mem_toTimestamp (hmarks : ((ascii ['-', ':', '.']).all fun b => b != x) = true)
    {t : ℤ} (h : b ∈ toTimestamp t false) : b ≠ x := by
  have hmark : ∀ c ∈ ['-', ':', '.'], c.toNat.toUInt8 ≠ x := fun c hc =>
    ne_of_mem_ascii (List.mem_map_of_mem hc) hmarks
  have hminus : x ≠ 0x2D := (hmark '-' (by simp)).symm
  have hcolon : b ∈ ascii [':'] → b ≠ x := by
    intro hb
    rw [List.mem_singleton.mp hb]
    exact hmark ':' (by simp)
  have hpoint : b ∈ ascii ['.'] → b ≠ x := by
    intro hb
    rw [List.mem_singleton.mp hb]
    exact hmark '.' (by simp)
  simp only [toTimestamp, List.mem_append] at h
  rcases h with (((((h | h) | h) | h) | h) | h) | h
  · exact ne_of_mem_printfD hdigit hminus h
  · exact hcolon h
  · exact ne_of_mem_printfD hdigit hminus h
  · exact hcolon h
  · exact ne_of_mem_printfD hdigit hminus h
  · exact hpoint h
  · exact ne_of_mem_printfD hdigit hminus h

end Characters

/-- A time is printed as two digits each for hours, minutes and seconds, and three for
thousandths. -/
theorem toTimestamp_printfD (t : ℕ) (comma : Bool) :
    toTimestamp t comma =
      printfD 2 (t / 360000 : ℕ) ++ ascii [':'] ++ printfD 2 (t / 6000 % 60 : ℕ) ++ ascii [':'] ++
        printfD 2 (t / 100 % 60 : ℕ) ++ ascii [if comma then ',' else '.'] ++
          printfD 3 (t % 100 * 10 : ℕ) := by
  have hhr : ((t : ℤ) * 10).tdiv (1000 * 60 * 60) = (t / 360000 : ℕ) := by
    rw [Int.tdiv_eq_ediv_of_nonneg (by omega)]
    omega
  have hmin : ((t : ℤ) * 10 - (t / 360000 : ℕ) * (1000 * 60 * 60)).tdiv (1000 * 60) =
      (t / 6000 % 60 : ℕ) := by
    rw [Int.tdiv_eq_ediv_of_nonneg (by omega)]
    omega
  have hsec : ((t : ℤ) * 10 - (t / 360000 : ℕ) * (1000 * 60 * 60) -
      (t / 6000 % 60 : ℕ) * (1000 * 60)).tdiv 1000 = (t / 100 % 60 : ℕ) := by
    rw [Int.tdiv_eq_ediv_of_nonneg (by omega)]
    omega
  have hmsec : (t : ℤ) * 10 - (t / 360000 : ℕ) * (1000 * 60 * 60) -
      (t / 6000 % 60 : ℕ) * (1000 * 60) - (t / 100 % 60 : ℕ) * 1000 = (t % 100 * 10 : ℕ) := by
    omega
  simp only [toTimestamp, hhr, hmin, hsec, hmsec]

/-- **A time of less than a hundred hours** is printed in two digits each for its hours, minutes
and seconds, and three for its milliseconds. -/
theorem toTimestamp_eq {t : ℕ} (ht : t < 36000000) (comma : Bool) :
    ∃ hr min sec msec, toTimestamp t comma =
        hr ++ ascii [':'] ++ min ++ ascii [':'] ++ sec ++ ascii [if comma then ',' else '.'] ++
          msec ∧
      Printed 2 (t / 360000) hr ∧ Printed 2 (t / 6000 % 60) min ∧ Printed 2 (t / 100 % 60) sec ∧
      Printed 3 (t % 100 * 10) msec :=
  ⟨_, _, _, _, toTimestamp_printfD t comma, printfD_printed (by decide) (by omega),
    printfD_printed (by decide) (by omega), printfD_printed (by decide) (by omega),
    printfD_printed (by decide) (by omega)⟩

/-- A text fits the pattern that is made of it. -/
theorem fits_literally (text : List Char) : Fits (literally text) (ascii text) := by
  induction text with
  | nil => exact .nil
  | cons c text ih => exact .cons (by simp) ih

/-- A stamp is what the server looks for, and reads as the second it was printed for. -/
theorem fits_stamp {t : ℕ} (ht : t < 36000000) :
    Fits timePattern (stamp t) ∧ currentSecs (stamp t) = (t / 100 : ℕ) := by
  obtain ⟨hr, min, sec, msec, heq, hhr, hmin, hsec, hmsec⟩ := toTimestamp_eq ht false
  have hstamp : stamp t = ascii ['['] ++ hr ++ ascii [':'] ++ min ++ ascii [':'] ++ sec ++
      ascii ['.'] ++ msec ++ ascii [' ', '-', '-', '>'] := by
    rw [stamp, heq]
    simp only [List.append_assoc]
    rfl
  rw [hstamp]
  constructor
  · exact (((((((fits_literally _).append hhr.fits).append (fits_literally _)).append
      hmin.fits).append (fits_literally _)).append hsec.fits).append (fits_literally _)).append
      hmsec.fits |>.append (fits_literally _)
  · have hhr' := hhr.parse
    have hmin' := hmin.parse
    have hsec' := hsec.parse
    obtain ⟨h₁, h₂, rfl⟩ := List.length_eq_two.mp hhr.length
    obtain ⟨m₁, m₂, rfl⟩ := List.length_eq_two.mp hmin.length
    obtain ⟨s₁, s₂, rfl⟩ := List.length_eq_two.mp hsec.length
    have hsecs : (t / 100 : ℕ) =
        parseDigits [h₁, h₂] * 3600 + parseDigits [m₁, m₂] * 60 + parseDigits [s₁, s₂] := by
      omega
    rw [hsecs]
    push_cast
    rfl

end Times

/-! ### The time stamps of the output -/

/-- A segment that begins within a hundred hours, and does not say a time stamp itself. -/
structure WhisperSegment.Stamped (segment : WhisperSegment) : Prop where
  nonneg : 0 ≤ segment.t0
  lt : segment.t0 < 36000000
  text : readTime (cString segment.text) = none

section Output

/-- No symbol of the pattern is a line feed. -/
theorem timePattern_lineFeed : ∀ q ∈ timePattern, q 0x0A = false := by
  have hall : (timePattern.all fun q => !q 0x0A) = true := by decide
  intro q hq
  simpa using List.all_eq_true.mp hall q hq

/-- Text without a bracket holds no time stamp. -/
theorem occurrences_skip_bracket {text text' : List UInt8} (h : ∀ b ∈ text, b ≠ 0x5B) :
    occurrences timePattern (text ++ text') = occurrences timePattern text' :=
  occurrences_skip fun b hb => decide_eq_false (h b hb)

/-- A time stamp is an open bracket, a time and an arrow. -/
theorem stamp_eq (t : ℤ) :
    stamp t = 0x5B :: (toTimestamp t false ++ ascii [' ', '-', '-', '>']) := rfl

/-- **A line** has one time stamp, that of its beginning. -/
theorem occurrences_printSegment {segment : WhisperSegment} (h : segment.Stamped)
    (rest : List UInt8) :
    occurrences timePattern (printSegment segment ++ rest) =
      stamp segment.t0 :: occurrences timePattern rest := by
  obtain ⟨t, ht⟩ := Int.eq_ofNat_of_zero_le h.nonneg
  have hlt : t < 36000000 := by
    have := h.lt
    omega
  have hfits : Fits timePattern (stamp segment.t0) := ht ▸ (fits_stamp hlt).1
  have hline : printSegment segment ++ rest =
      0x5B :: ((toTimestamp segment.t0 false ++ ascii [' ', '-', '-', '>']) ++
        ((ascii [' '] ++ toTimestamp segment.t1 false ++ ascii [']', ' ', ' ']) ++
          (cString segment.text ++ 0x0A :: rest))) := by
    simp only [printSegment, List.append_assoc]
    rfl
  have htext : occurrences timePattern (cString segment.text) = [] := by
    have hnone := h.text
    rwa [readTime, Option.map_eq_none_iff, firstMatch_eq_none] at hnone
  -- Past the bracket, the times are passed over; the text ends at the line feed.
  rw [stamp_eq] at hfits ⊢
  rw [hline, occurrences_of_fits _ hfits, occurrences_skip_bracket, occurrences_skip_bracket,
    occurrences_separator (by decide) timePattern_lineFeed, htext, List.nil_append]
  · intro b hb
    rw [List.mem_append, List.mem_append] at hb
    rcases hb with (hb | hb) | hb
    · exact ne_of_mem_ascii hb (by decide)
    · exact ne_of_mem_toTimestamp rfl rfl hb
    · exact ne_of_mem_ascii hb (by decide)
  · intro b hb
    rcases List.mem_append.mp hb with hb | hb
    · exact ne_of_mem_toTimestamp rfl rfl hb
    · exact ne_of_mem_ascii hb (by decide)

/-- In the lines of stamped segments the time stamps are those of the segments, one a line. -/
theorem occurrences_lines {segments : List WhisperSegment} (h : ∀ s ∈ segments, s.Stamped)
    (rest : List UInt8) :
    occurrences timePattern (segments.flatMap printSegment ++ rest) =
      segments.map (fun s => stamp s.t0) ++ occurrences timePattern rest := by
  induction segments with
  | nil => rfl
  | cons s segments ih =>
      rw [List.flatMap_cons, List.append_assoc, occurrences_printSegment (h s List.mem_cons_self),
        ih fun s' hs' => h s' (List.mem_cons_of_mem s hs')]
      rfl

/-- What is printed of a batch of segments: the lines of its segments, behind a start without
brackets. -/
theorem whisperPrintSegmentCallback_eq (resultAll batch : List WhisperSegment) :
    ∃ start, (∀ b ∈ start, b ≠ 0x5B) ∧
      whisperPrintSegmentCallback (resultAll ++ batch) batch.length =
        start ++ batch.flatMap printSegment := by
  have hs0 : (resultAll ++ batch).length - batch.length = resultAll.length := by
    rw [List.length_append, Nat.add_sub_cancel]
  refine ⟨if resultAll.length = 0 then ascii ['\n'] else [], fun b hb => ?_, ?_⟩
  · split at hb
    · exact ne_of_mem_ascii hb (by decide)
    · cases hb
  · rw [whisperPrintSegmentCallback, hs0, List.drop_left]

/-- **The output** has the time stamps of the segments, and no others. -/
theorem occurrences_whisperOutput {batches : List (List WhisperSegment)}
    (h : ∀ s ∈ batches.flatten, s.Stamped) (resultAll : List WhisperSegment) :
    occurrences timePattern (whisperOutput resultAll batches) =
      batches.flatten.map fun s => stamp s.t0 := by
  induction batches generalizing resultAll with
  | nil => rfl
  | cons batch batches ih =>
      rw [List.flatten_cons] at h ⊢
      obtain ⟨start, hstart, hprint⟩ := whisperPrintSegmentCallback_eq resultAll batch
      rw [whisperOutput, hprint, List.append_assoc, occurrences_skip_bracket hstart,
        occurrences_lines fun s hs => h s (List.mem_append_left _ hs),
        ih (fun s hs => h s (List.mem_append_right _ hs)), List.map_append]

end Output

/-! ### What the server shows -/

section Shown

/-- The second in which a segment begins. -/
def WhisperSegment.start (segment : WhisperSegment) : ℚ := (segment.t0 / 100 : ℤ)

/-- How far whisper has come with a segment, of so many seconds. -/
def WhisperSegment.percent (duration : ℚ) (segment : WhisperSegment) : ℤ :=
  min (roundPercent segment.start duration) 100

/-- The time that is read off a stamp is the second in which the segment begins. -/
theorem WhisperSegment.Stamped.currentSecs {segment : WhisperSegment} (h : segment.Stamped) :
    currentSecs (stamp segment.t0) = segment.start := by
  obtain ⟨t, ht⟩ := Int.eq_ofNat_of_zero_le h.nonneg
  have hlt : t < 36000000 := by
    have := h.lt
    omega
  rw [WhisperSegment.start, ht, (fits_stamp hlt).2]
  rfl

/-- A later segment is not behind an earlier one. -/
theorem WhisperSegment.percent_mono {duration : ℚ} (hpos : 0 < duration)
    {s s' : WhisperSegment} (hnonneg : 0 ≤ s.t0) (h : s.t0 ≤ s'.t0) :
    s.percent duration ≤ s'.percent duration :=
  min_le_min_right 100 (roundPercent_mono (Int.cast_nonneg (Int.ediv_nonneg hnonneg (by omega)))
    (Int.cast_le.mpr (Int.ediv_le_ediv (by omega) h)) hpos)

/-- What is read off the chunks are the beginnings of segments, in their order. -/
theorem reads_of_chunks {batches : List (List WhisperSegment)} {chunks : List (List UInt8)}
    (hstamped : ∀ s ∈ batches.flatten, s.Stamped)
    (hchunks : chunks.flatten <+: whisperOutput [] batches) :
    ∃ heard : List WhisperSegment, heard.Sublist batches.flatten ∧
      chunks.filterMap readTime = heard.map WhisperSegment.start := by
  have hsub := (firstMatches_sublist timePattern chunks).trans (occurrences_sublist hchunks)
  rw [occurrences_whisperOutput hstamped] at hsub
  obtain ⟨heard, hheard, heq⟩ := List.sublist_map_iff.mp hsub
  refine ⟨heard, hheard, ?_⟩
  have hread : chunks.filterMap readTime =
      (chunks.filterMap (firstMatch timePattern)).map currentSecs := by
    rw [List.map_filterMap]
    rfl
  rw [hread, heq, List.map_map]
  exact List.map_congr_left fun s hs => (hstamped s (hheard.subset hs)).currentSecs

/-- **A chunk** sets the bar to what is read off it. -/
theorem onWhisperProgress_eq {v : JobView} {job : Job} {duration : ℚ} (hjob : v.job = some job)
    (hduration : job.duration = some duration) (hpos : 0 < duration) (secs : Option ℚ) :
    onWhisperProgress secs v = .ok ⟨⟩ { v with
      job := some { job with
        whisperProgress := (secs.map fun secs =>
          min (roundPercent secs duration) 100).or job.whisperProgress } } := by
  cases secs with
  | none =>
      obtain ⟨_, _, _, _, _⟩ := v
      subst hjob
      rfl
  | some secs =>
      have hread := readJob_of_some hjob "duration" Job.duration
      rw [hduration] at hread
      rw [onWhisperProgress, bind_of_ok hread]
      dsimp only
      rw [if_pos hpos]
      exact setJob_of_some hjob _ _

/-- After any chunks the bar stands where the last time that was read has set it. -/
theorem hearChunks_eq {v : JobView} {job : Job} {duration : ℚ} (hjob : v.job = some job)
    (hduration : job.duration = some duration) (hpos : 0 < duration)
    (chunks : List (List UInt8)) :
    hearChunks chunks v = .ok ⟨⟩ { v with
      job := some { job with
        whisperProgress := ((chunks.filterMap readTime).getLast?.map fun secs =>
          min (roundPercent secs duration) 100).or job.whisperProgress } } := by
  induction chunks generalizing v job with
  | nil =>
      obtain ⟨_, _, _, _, _⟩ := v
      subst hjob
      rfl
  | cons chunk chunks ih =>
      rw [hearChunks, bind_of_ok (onWhisperProgress_eq hjob hduration hpos _),
        ih rfl (by exact hduration), List.filterMap_cons]
      cases readTime chunk with
      | none => rfl
      | some secs =>
          rw [List.getLast?_cons]
          cases (chunks.filterMap readTime).getLast? with
          | none => rfl
          | some last => rfl

/-- **The bar follows the output.** Let the segments be in order of their beginnings, and the chunks
be any pieces of what is printed of them. Then every chunk sets the bar to the percentage of a
segment that has been printed or leaves it, a chunk with a whole time stamp sets it, and the bar
never goes back. -/
theorem whisperProgress_follows {batches : List (List WhisperSegment)} {chunks : List (List UInt8)}
    (hstamped : ∀ s ∈ batches.flatten, s.Stamped)
    (hsorted : batches.flatten.Pairwise fun s s' => s.t0 ≤ s'.t0)
    (hchunks : chunks.flatten <+: whisperOutput [] batches) {v : JobView} {job : Job}
    {duration : ℚ} (hjob : v.job = some job) (hduration : job.duration = some duration)
    (hpos : 0 < duration) :
    ∃ heard : List WhisperSegment, heard.Sublist batches.flatten ∧
      chunks.filterMap readTime = heard.map WhisperSegment.start ∧
      (∀ chunk ∈ chunks, ∀ s ∈ batches.flatten, stamp s.t0 <:+: chunk → readTime chunk ≠ none) ∧
      hearChunks chunks v = .ok ⟨⟩ { v with
        job := some { job with
          whisperProgress := (heard.getLast?.map fun s => s.percent duration).or
            job.whisperProgress } } ∧
      (heard.map fun s => s.percent duration).Pairwise fun n n' => n ≤ n' := by
  obtain ⟨heard, hheard, hread⟩ := reads_of_chunks hstamped hchunks
  refine ⟨heard, hheard, hread, fun chunk _ s hs hin => ?_, ?_, ?_⟩
  · obtain ⟨t, ht⟩ := Int.eq_ofNat_of_zero_le (hstamped s hs).nonneg
    have hlt : t < 36000000 := by
      have := (hstamped s hs).lt
      omega
    rw [ht, stamp_eq] at hin
    have hfits := (fits_stamp hlt).1
    rw [stamp_eq] at hfits
    rw [readTime, Ne, Option.map_eq_none_iff]
    exact firstMatch_ne_none hfits.begins hin
  · rw [hearChunks_eq hjob hduration hpos, hread, List.getLast?_map, Option.map_map]
    rfl
  · exact List.pairwise_map.mpr ((hsorted.sublist hheard).imp_of_mem fun hs _ h =>
      WhisperSegment.percent_mono hpos (hstamped _ (hheard.subset hs)).nonneg h)

end Shown

section Example

/-- Someone says hi after three seconds. -/
def hiHeard : WhisperSegment where
  t0 := 310
  t1 := 400
  text := [0x20, 0x68, 0x69]
  tokens := []
  speakerTurnNext := false

/-- Of ten seconds, this is where the bar stands, when the line feed before the line has come on its
own. -/
theorem whisperProgress_follows_hi :
    hearChunks [ascii ['\n'], printSegment hiHeard]
        ⟨some { Job.blank with duration := some 10 }, none, [], fun _ => none, 0⟩ =
      .ok ⟨⟩ ⟨some { Job.blank with duration := some 10, whisperProgress := some 30 }, none, [],
        fun _ => none, 0⟩ := by
  have hstamped : ∀ s ∈ [[hiHeard]].flatten, s.Stamped := by
    intro s hs
    obtain rfl := List.mem_singleton.mp hs
    exact ⟨by decide, by decide, rfl⟩
  have hchunks : [ascii ['\n'], printSegment hiHeard].flatten <+: whisperOutput [] [[hiHeard]] :=
    List.prefix_rfl
  obtain ⟨heard, hheard, hread, hwhole, hrun, -⟩ := whisperProgress_follows hstamped
    (List.pairwise_singleton _ _) hchunks
    (v := ⟨some { Job.blank with duration := some 10 }, none, [], fun _ => none, 0⟩) rfl rfl
    (by norm_num)
  have hline := hwhole _ (List.mem_cons_of_mem _ List.mem_cons_self) hiHeard List.mem_cons_self
    ⟨[], _, rfl⟩
  rcases List.sublist_singleton.mp hheard with rfl | rfl
  · obtain ⟨secs, hsecs⟩ := Option.ne_none_iff_exists'.mp hline
    rw [List.filterMap_cons, List.filterMap_cons, hsecs] at hread
    cases hfirst : readTime (ascii ['\n']) with
    | none => rw [hfirst] at hread; cases hread
    | some _ => rw [hfirst] at hread; cases hread
  · have hpercent : hiHeard.percent 10 = 30 := by decide +kernel
    rw [hrun, List.getLast?_singleton, Option.map_some, hpercent]
    rfl

end Example

end Mogo
