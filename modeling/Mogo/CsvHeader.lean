import Mogo.ColumnDiscovery
import Mogo.Csv

/-!
# The Header of a CSV Response

The REST interface answers a query for CSV with a first line that holds the column names as a
record. The scan of `parseCsvHeaderLine` reads the fields of any record text back, quoted or not.
The white space that it trims off the line could as well have been left, since it trims every name.

## Main results

* `csvFields_encodesRecord`: the scan of a record gives its fields back.
* `encodesRecord_unique`: so a text is that of one record only.
* `parseCsvHeaderLine_eq`: trimming the line makes no difference.
* `parseCsvHeaderLine_encoded`: names that are not empty and have no white space at their ends
  come back from every header line.
* `exists_parseCsvHeaderLine_iff`: and no others do.
* `discoverColumns_header`: discovery by such a header.
-/

namespace Mogo

open Csv

/-! ### The scan -/

section Scan

variable {c : Char} {l rest text : List Char} {inQuotes : Bool} {current : List Char}

/-- Between quotes every symbol but the quote belongs to the field, the separator too. -/
theorem csvFields_between (hquote : c ≠ '"') :
    csvFields (c :: rest) true current = csvFields rest true (current ++ [c]) := by
  rw [csvFields]
  · exact hquote
  · exact fun _ _ h _ => hquote h
  · simp

/-- A symbol that is neither quote nor separator belongs to the field, in quotes or not. -/
theorem csvFields_other (hquote : c ≠ '"') (hseparator : c ≠ ',') :
    csvFields (c :: rest) inQuotes current = csvFields rest inQuotes (current ++ [c]) := by
  cases inQuotes with
  | true => exact csvFields_between hquote
  | false =>
      rw [csvFields]
      · exact hquote
      · exact fun _ h => absurd h Bool.false_ne_true
      · exact fun _ h => hseparator h

/-- A quote that is not doubled opens or closes. -/
theorem csvFields_quote (h : inQuotes = true → rest.head? ≠ some '"') :
    csvFields ('"' :: rest) inQuotes current = csvFields rest (!inQuotes) current := by
  cases inQuotes with
  | false =>
      rw [csvFields]
      exact fun _ h => absurd h Bool.false_ne_true
  | true =>
      rw [csvFields]
      rintro r - rfl
      exact h rfl rfl

/-- Symbols that are neither quote nor separator are read. -/
theorem csvFields_append (hquote : '"' ∉ l) (hseparator : ',' ∉ l) :
    csvFields (l ++ rest) inQuotes current = csvFields rest inQuotes (current ++ l) := by
  induction l generalizing current with
  | nil => rw [List.nil_append, List.append_nil]
  | cons c l ih =>
      rw [List.mem_cons, not_or] at hquote hseparator
      rw [List.cons_append, csvFields_other (Ne.symm hquote.1) (Ne.symm hseparator.1),
        ih hquote.2 hseparator.2, List.append_assoc, List.singleton_append]

/-- A quoted field is read to its closing quote. -/
theorem csvFields_doubled (field : List Char) (hrest : rest.head? ≠ some '"') :
    csvFields (doubled '"' field ++ '"' :: rest) true current =
      csvFields rest false (current ++ field) := by
  induction field generalizing current with
  | nil =>
      rw [List.append_nil]
      exact csvFields_quote fun _ => hrest
  | cons c field ih =>
      rw [doubled, List.flatMap_cons, ← doubled, List.append_assoc]
      by_cases hc : c = '"'
      · rw [if_pos hc, hc]
        calc csvFields ('"' :: '"' :: (doubled '"' field ++ '"' :: rest)) true current
            = csvFields (doubled '"' field ++ '"' :: rest) true (current ++ ['"']) := rfl
          _ = csvFields rest false (current ++ '"' :: field) := by
            rw [ih, List.append_assoc, List.singleton_append]
      · rw [if_neg hc, List.singleton_append, csvFields_between hc, ih, List.append_assoc,
          List.singleton_append]

/-- What is read before the scan is read into the first field. -/
theorem map_csvFields_append_current {β : Type} {g : List Char → β} (hg : ∀ cs, g (l ++ cs) = g cs)
    (text : List Char) (inQuotes : Bool) (current : List Char) :
    (csvFields text inQuotes (l ++ current)).map g = (csvFields text inQuotes current).map g := by
  fun_induction csvFields text inQuotes current with
  | case1 inQuotes current => rw [csvFields, List.map_singleton, List.map_singleton, hg]
  | case2 rest current ih => rw [csvFields, List.append_assoc, ih]
  | case3 rest inQuotes current h ih => rw [csvFields, ih]; exact h
  | case4 rest current ih => rw [csvFields, List.map_cons, List.map_cons, hg]
  | case5 c rest inQuotes current h1 h2 h3 ih =>
      rw [csvFields, List.append_assoc, ih]
      · exact h2
      · exact h1
      · exact h3

/-- What is read after a text is read into the last field, if it has neither quote nor
separator. -/
theorem map_csvFields_append {β : Type} {g : List Char → β} (hg : ∀ cs, g (cs ++ l) = g cs)
    (hquote : '"' ∉ l) (hseparator : ',' ∉ l) (text : List Char) (inQuotes : Bool)
    (current : List Char) :
    (csvFields (text ++ l) inQuotes current).map g = (csvFields text inQuotes current).map g := by
  have hhead : l.head? ≠ some '"' := fun h => hquote (List.mem_of_head? h)
  fun_induction csvFields text inQuotes current with
  | case1 inQuotes current =>
      have hread : csvFields (l ++ []) inQuotes current = [current ++ l] :=
        csvFields_append hquote hseparator
      rw [List.append_nil] at hread
      rw [List.nil_append, hread, List.map_singleton, List.map_singleton, hg]
  | case2 rest current ih => exact ih
  | case3 rest inQuotes current h ih =>
      rw [List.cons_append, csvFields_quote, ih]
      rintro rfl
      rcases rest with - | ⟨d, rest⟩
      · exact hhead
      · exact fun hd => h rest rfl (by rw [Option.some.inj hd])
  | case4 rest current ih =>
      rw [List.cons_append, csvFields, List.map_cons, List.map_cons, ih]
  | case5 c rest inQuotes current h1 h2 h3 ih =>
      rw [List.cons_append, csvFields, ih]
      · exact h2
      · exact fun _ _ hc _ => h2 hc
      · exact h3

/-- The scan of the text of a field adds the field to the current one, and goes on behind it. -/
theorem csvFields_encodes {field : List Char} (h : Encodes ',' '"' field text)
    (hrest : rest.head? ≠ some '"') :
    csvFields (text ++ rest) false current = csvFields rest false (current ++ field) := by
  cases h with
  | plain hseparator hquote => exact csvFields_append hquote hseparator
  | quoted =>
      rw [quotedText, List.cons_append, List.append_assoc, csvFields_quote (by simp)]
      exact csvFields_doubled field hrest

/-- **The scan of a record** gives its fields back. -/
theorem csvFields_encodesRecord {fields : List (List Char)}
    (h : EncodesRecord ',' '"' fields text) : csvFields text false [] = fields := by
  induction h with
  | @single field text h =>
      have hscan : csvFields (text ++ []) false [] = csvFields [] false ([] ++ field) :=
        csvFields_encodes h (by simp)
      rwa [List.append_nil] at hscan
  | cons h _ ih =>
      rw [csvFields_encodes h (by simp), csvFields, ih, List.nil_append]

/-- A record is determined by its text: no other fields are written the same way. -/
theorem encodesRecord_unique {fields fields' : List (List Char)}
    (h : EncodesRecord ',' '"' fields text) (h' : EncodesRecord ',' '"' fields' text) :
    fields = fields' :=
  (csvFields_encodesRecord h).symm.trans (csvFields_encodesRecord h')

end Scan

/-! ### The white space around the line -/

/-- The names that a scan of the text finds, blank ones included. -/
def scannedNames (text : List Char) : List String :=
  (csvFields text false []).map fun cs => trim (String.ofList cs)

/-- White space holds neither a quote nor a separator. -/
theorem notMem_of_isJsSpace {l : List Char} (h : ∀ c ∈ l, isJsSpace c = true) :
    '"' ∉ l ∧ ',' ∉ l :=
  ⟨fun hmem => absurd (h _ hmem) (by decide), fun hmem => absurd (h _ hmem) (by decide)⟩

/-- White space before a header changes no name. -/
theorem scannedNames_append_left {l : List Char} (h : ∀ c ∈ l, isJsSpace c = true)
    (text : List Char) : scannedNames (l ++ text) = scannedNames text := by
  obtain ⟨hquote, hseparator⟩ := notMem_of_isJsSpace h
  rw [scannedNames, csvFields_append hquote hseparator, List.nil_append, ← List.append_nil l]
  refine map_csvFields_append_current (fun cs => ?_) text false []
  rw [trim, trim, String.toList_ofList, String.toList_ofList, trimList_append_left h]

/-- White space behind a header changes no name. -/
theorem scannedNames_append_right {l : List Char} (h : ∀ c ∈ l, isJsSpace c = true)
    (text : List Char) : scannedNames (text ++ l) = scannedNames text := by
  obtain ⟨hquote, hseparator⟩ := notMem_of_isJsSpace h
  refine map_csvFields_append (fun cs => ?_) hquote hseparator text false []
  rw [trim, trim, String.toList_ofList, String.toList_ofList, trimList_append_right h]

/-- **Trimming the line makes no difference**: the names are trimmed and the empty ones left out. -/
theorem parseCsvHeaderLine_eq (headerLine : String) :
    parseCsvHeaderLine headerLine =
      (scannedNames headerLine.toList).filter (· ≠ "") := by
  have hscan : scannedNames (trim headerLine).toList = scannedNames headerLine.toList := by
    obtain ⟨l₁, l₂, h₁, h₂, heq⟩ := exists_eq_append_trimList isJsSpace headerLine.toList
    rw [trim, String.toList_ofList, ← scannedNames_append_right h₂, ← scannedNames_append_left h₁,
      ← heq]
  rw [parseCsvHeaderLine, ← hscan]
  split
  next hempty => rw [hempty]; rfl
  next => rfl

/-! ### Header lines -/

/-- A header line of some columns: a record of their names, perhaps with a carriage return. -/
inductive EncodesHeader (names : List String) : String → Prop
  | record {text : List Char} (h : EncodesRecord ',' '"' (names.map String.toList) text) :
      EncodesHeader names (String.ofList text)
  | carriageReturn {text : List Char}
      (h : EncodesRecord ',' '"' (names.map String.toList) text) :
      EncodesHeader names (String.ofList (text ++ ['\r']))

/-- A line that is a header names at least one column. -/
theorem EncodesHeader.ne_nil {names : List String} {line : String} (h : EncodesHeader names line) :
    names ≠ [] := by
  rintro rfl
  cases h with
  | record h | carriageReturn h => cases h

/-- A header line has no line break if the names have none. -/
theorem EncodesHeader.newline_notMem {names : List String} {line : String}
    (h : EncodesHeader names line) (hnames : ∀ name ∈ names, '\n' ∉ name.toList) :
    '\n' ∉ line.toList := by
  have htext {text : List Char} (h : EncodesRecord ',' '"' (names.map String.toList) text) :
      '\n' ∉ text := by
    intro hmem
    rcases h.mem hmem with hc | hc | ⟨field, hfield, hc⟩
    · exact absurd hc (by decide)
    · exact absurd hc (by decide)
    · obtain ⟨name, hname, rfl⟩ := List.mem_map.mp hfield
      exact hnames name hname hc
  cases h with
  | record h =>
      rw [String.toList_ofList]
      exact htext h
  | carriageReturn h =>
      rw [String.toList_ofList, List.mem_append, not_or]
      exact ⟨htext h, by decide⟩

/-- **What comes back** of the names of a header line. -/
theorem parseCsvHeaderLine_encodesHeader {names : List String} {line : String}
    (h : EncodesHeader names line) :
    parseCsvHeaderLine line = (names.map trim).filter (· ≠ "") := by
  have hscan {text : List Char} (h : EncodesRecord ',' '"' (names.map String.toList) text) :
      scannedNames text = names.map trim := by
    rw [scannedNames, csvFields_encodesRecord h, List.map_map]
    exact List.map_congr_left fun name _ => congrArg trim String.ofList_toList
  rw [parseCsvHeaderLine_eq]
  cases h with
  | record h => rw [String.toList_ofList, hscan h]
  | carriageReturn h =>
      have hspace : ∀ c ∈ ['\r'], isJsSpace c = true := List.forall_mem_singleton.mpr rfl
      rw [String.toList_ofList, scannedNames_append_right hspace, hscan h]

/-- Names that are neither empty nor have white space at their ends stay as they are. -/
theorem filter_map_trim {names : List String} (h : ∀ name ∈ names, name ≠ "" ∧ trim name = name) :
    (names.map trim).filter (· ≠ "") = names := by
  have htrim : names.map trim = names :=
    (List.map_congr_left fun name hname => (h name hname).2).trans (List.map_id names)
  rw [htrim, List.filter_eq_self]
  exact fun name hname => decide_eq_true (h name hname).1

/-- **A header line gives its names back**, however it is written. -/
theorem parseCsvHeaderLine_encoded {names : List String}
    (hnames : ∀ name ∈ names, name ≠ "" ∧ trim name = name) {line : String}
    (h : EncodesHeader names line) : parseCsvHeaderLine line = names := by
  rw [parseCsvHeaderLine_encodesHeader h, filter_map_trim hnames]

/-- A comma and quotes between quotes, quotes that are not needed, and a carriage return. -/
theorem parseCsvHeaderLine_encoded_quoted :
    parseCsvHeaderLine "id,\"last, first\",\"say \"\"hi\"\"\",\"note\"\r" =
      ["id", "last, first", "say \"hi\"", "note"] := by
  have hrecord : EncodesRecord ',' '"'
      (["id", "last, first", "say \"hi\"", "note"].map String.toList)
      "id,\"last, first\",\"say \"\"hi\"\"\",\"note\"".toList :=
    .cons (.plain (by decide) (by decide)) (.cons .quoted (.cons .quoted (.single .quoted)))
  exact parseCsvHeaderLine_encoded (by decide) (.carriageReturn hrecord)

/-- The names of a header line are not empty and have no white space at their ends. -/
theorem parseCsvHeaderLine_named {line name : String} (h : name ∈ parseCsvHeaderLine line) :
    name ≠ "" ∧ trim name = name := by
  rw [parseCsvHeaderLine_eq] at h
  obtain ⟨hmem, hne⟩ := List.mem_filter.mp h
  obtain ⟨field, -, rfl⟩ := List.mem_map.mp hmem
  exact ⟨by simpa using hne, trim_trim _⟩

/-- **The names that a header line can give**, in any order and number. -/
theorem exists_parseCsvHeaderLine_iff {names : List String} :
    (∃ line, parseCsvHeaderLine line = names) ↔ ∀ name ∈ names, name ≠ "" ∧ trim name = name := by
  constructor
  · rintro ⟨line, rfl⟩ name hname
    exact parseCsvHeaderLine_named hname
  · intro hnames
    by_cases hnil : names = []
    · exact ⟨"", hnil ▸ rfl⟩
    · have hrecord : EncodesRecord ',' '"' (names.map String.toList)
          (encodeRecord ',' '"' (names.map String.toList)) :=
        encodesRecord_encodeRecord (by simpa using hnil)
      exact ⟨_, (parseCsvHeaderLine_encodesHeader (.record hrecord)).trans (filter_map_trim hnames)⟩

/-! ### Discovery by the header -/

/-- The header of a response is parsed from its first line, whatever rows follow. -/
theorem csvHeader_lines {line : String} (h : '\n' ∉ line.toList) (rows : List String) :
    csvHeader (some ("\n".intercalate (line :: rows))) = parseCsvHeaderLine line := by
  have hbefore : ∀ c ∈ line.toList, decide (c ≠ '\n') = true := by
    intro c hc
    exact decide_eq_true fun he => h (he ▸ hc)
  have hline : ("\n".intercalate (line :: rows)).toList.takeWhile (· ≠ '\n') = line.toList := by
    rw [String.toList_intercalate, List.map_cons]
    rcases rows with - | ⟨row, rows⟩
    · rw [List.map_nil, List.intercalate_singleton, List.takeWhile_eq_self_iff.mpr hbefore]
    · have hnewline : "\n".toList = ['\n'] := by decide
      rw [List.map_cons, List.intercalate_cons_cons, hnewline, List.append_assoc,
        List.takeWhile_append_of_pos hbefore, List.singleton_append, List.takeWhile_cons_of_neg,
        List.append_nil]
      exact fun he => absurd rfl (of_decide_eq_true he)
  rw [csvHeader, hline, String.ofList_toList]

/-- **Discovery by the header.** Where the catalog answers nothing, the header of a CSV response
that names every key of the sample rows gives the columns of the table, in their order. -/
theorem discoverColumns_header {table : String} (hforce : table ∉ FORCE_MANUAL_SCHEMA_TABLES)
    {answers : ColumnAnswers} (hschema : answers.informationSchema.getD [] = [])
    {names : List String} {line : String} {rows : List String} (hline : EncodesHeader names line)
    (hcsv : answers.csv = some ("\n".intercalate (line :: rows)))
    (hnodup : names.Nodup)
    (hnames : ∀ name ∈ names, name ≠ "" ∧ trim name = name ∧ '\n' ∉ name.toList)
    (hkeys : ∀ row ∈ answers.sample.getD [], ∀ x ∈ row, x.1 ∈ names) :
    discoverColumns table answers = some (names.map fun columnName =>
      ⟨columnName, some (sampleType (answers.sample.getD []) columnName), none⟩) := by
  have hheader : csvHeader answers.csv = names := by
    rw [hcsv, csvHeader_lines (hline.newline_notMem fun name hname => (hnames name hname).2.2),
      parseCsvHeaderLine_encodesHeader hline,
      filter_map_trim fun name hname => ⟨(hnames name hname).1, (hnames name hname).2.1⟩]
  have hrest : restColumnNames answers.csv (answers.sample.getD [])
      ((MANUAL_TABLE_COLUMNS.lookup table).getD []) = names := by
    have hpush : pushColumns [] names = names :=
      pushColumns_of_nodup hnodup fun name hname => ⟨(hnames name hname).1, (hnames name hname).2.1⟩
    have hsample : (answers.sample.getD []).foldl
        (fun order row => pushColumns order (row.map Prod.fst)) names = names := by
      refine foldl_pushColumns_of_mem fun row hrow x hx => ?_
      have hkey := hkeys row hrow x hx
      rwa [(hnames x.1 hkey).2.1]
    rw [restColumnNames, hheader, hpush, hsample]
    exact if_neg hline.ne_nil
  rw [discoverColumns_eq_rest hforce hschema]
  dsimp only
  rw [hrest]
  exact if_neg hline.ne_nil

end Mogo
