import Mogo.Publishing

/-!
# The Keys of an Episode

The key of an object is `<series>/Ep<episode>/<file>`, where the series name is trimmed and every
run of white space in it is written as one underscore. Nothing is escaped, so the text before the
file name may be taken apart into a series and an episode in more than one way.

## Main results

* `append_separator_eq_iff`: two joined pairs of texts are equal when the pairs are, or when one
  text holds the separator where the other pair has it.
* `objectKey_ne_iff`: when two episodes have no key in common, so that publishing one leaves the
  objects of the other alone.
-/

namespace Mogo

/-! ### Joining with a separator -/

section Separator

variable {α : Type} {c : α} {rest : List α}

/-- Half of the next theorem: the first pair has its separator no later than the second. -/
theorem append_separator_split (hc : c ∉ rest) {t e f : List α}
    (h : c :: rest ++ e = t ++ (c :: rest ++ f)) :
    (t = [] ∧ e = f) ∨ ∃ m, t = c :: rest ++ m ∧ e = m ++ (c :: rest ++ f) := by
  rcases t with - | ⟨d, t⟩
  · exact Or.inl ⟨rfl, List.append_cancel_left h⟩
  · rcases List.append_eq_append_iff.mp h with ⟨m, ht, he⟩ | ⟨m, hsep, hf⟩
    · exact Or.inr ⟨m, ht, he⟩
    · -- the separators overlap in `m`
      rcases m with - | ⟨b, m⟩
      · rw [List.append_nil] at hsep
        refine Or.inr ⟨[], by rw [List.append_nil, hsep], ?_⟩
        rw [List.nil_append, hf, List.nil_append]
      · obtain ⟨-, hrest⟩ := List.cons.inj hsep
        obtain ⟨rfl, -⟩ := List.cons.inj hf
        exact absurd (hrest ▸ List.mem_append_right t List.mem_cons_self) hc

/-- **Two pairs joined by a separator** whose first element does not occur again in it. They are
equal when the pairs are equal, or when a part of one pair holds the separator of the other. -/
theorem append_separator_eq_iff (hc : c ∉ rest) {a b e f : List α} :
    a ++ (c :: rest ++ e) = b ++ (c :: rest ++ f) ↔
      (a = b ∧ e = f) ∨ (∃ m, b = a ++ (c :: rest ++ m) ∧ e = m ++ (c :: rest ++ f)) ∨
        ∃ m, a = b ++ (c :: rest ++ m) ∧ f = m ++ (c :: rest ++ e) := by
  constructor
  · intro h
    rcases List.append_eq_append_iff.mp h with ⟨t, rfl, ht⟩ | ⟨t, rfl, ht⟩
    · rcases append_separator_split hc ht with ⟨rfl, rfl⟩ | ⟨m, rfl, he⟩
      · exact Or.inl ⟨(List.append_nil a).symm, rfl⟩
      · exact Or.inr (Or.inl ⟨m, rfl, he⟩)
    · rcases append_separator_split hc ht with ⟨rfl, rfl⟩ | ⟨m, rfl, hf⟩
      · exact Or.inl ⟨List.append_nil b, rfl⟩
      · exact Or.inr (Or.inr ⟨m, rfl, hf⟩)
  · rintro (⟨rfl, rfl⟩ | ⟨m, rfl, rfl⟩ | ⟨m, rfl, rfl⟩)
    · rfl
    · simp only [List.append_assoc]
    · simp only [List.append_assoc]

/-- The part behind the last occurrence of an element is determined. -/
theorem append_cons_eq_iff {a b e f : List α} (he : c ∉ e) (hf : c ∉ f) :
    a ++ c :: e = b ++ c :: f ↔ a = b ∧ e = f := by
  have hc : c ∉ ([] : List α) := List.not_mem_nil
  refine (append_separator_eq_iff hc).trans ⟨?_, Or.inl⟩
  rintro (h | ⟨m, -, rfl⟩ | ⟨m, -, rfl⟩)
  · exact h
  · exact absurd (List.mem_append_right m List.mem_cons_self) he
  · exact absurd (List.mem_append_right m List.mem_cons_self) hf

end Separator

/-! ### Keys -/

/-- `series.trim().replace(/\s+/g, '_')`. -/
def seriesFolder (series : String) : String :=
  String.ofList (replaceSpaces false (trim series).toList)

/-- The key under which a file of an episode is put into the bucket. -/
def objectKey (series episode file : String) : String :=
  r2FolderPath series episode ++ "/" ++ file

/-- `series` and `episode` are read out of the folder of another pair: the name of the other series
goes on with the separator and a text that this episode begins with, before the other episode. -/
def ReadsInto (series episode series' episode' : String) : Prop :=
  ∃ m, seriesFolder series' = seriesFolder series ++ "/Ep" ++ m ∧ episode = m ++ "/Ep" ++ episode'

/-- The folder of an episode is that of its series, a separator, `Ep` and the episode. -/
theorem toList_r2FolderPath (series episode : String) :
    (r2FolderPath series episode).toList =
      (seriesFolder series).toList ++ ('/' :: ['E', 'p'] ++ episode.toList) := by
  rw [r2FolderPath, seriesFolder, String.toList_append, String.toList_append, List.append_assoc]
  rfl

/-- A pair reads into another if its episode holds the rest of the other's series and the other's
episode. -/
theorem readsInto_iff {series episode series' episode' : String} :
    ReadsInto series episode series' episode' ↔
      ∃ m : List Char, (seriesFolder series').toList =
          (seriesFolder series).toList ++ ('/' :: ['E', 'p'] ++ m) ∧
        episode.toList = m ++ ('/' :: ['E', 'p'] ++ episode'.toList) := by
  have hseparator : "/Ep".toList = '/' :: ['E', 'p'] := rfl
  constructor
  · rintro ⟨m, hseries, rfl⟩
    refine ⟨m.toList, ?_, ?_⟩
    · rw [hseries, String.toList_append, String.toList_append, List.append_assoc, hseparator]
    · rw [String.toList_append, String.toList_append, List.append_assoc, hseparator]
  · rintro ⟨m, hseries, hepisode⟩
    refine ⟨String.ofList m, String.toList_inj.mp ?_, String.toList_inj.mp ?_⟩
    · rw [hseries, String.toList_append, String.toList_append, List.append_assoc, hseparator,
        String.toList_ofList]
    · rw [hepisode, String.toList_append, String.toList_append, List.append_assoc, hseparator,
        String.toList_ofList]

/-- Two episodes have one folder when they are the same, or one reads into the other. -/
theorem r2FolderPath_eq_iff {series episode series' episode' : String} :
    r2FolderPath series episode = r2FolderPath series' episode' ↔
      (seriesFolder series = seriesFolder series' ∧ episode = episode') ∨
        ReadsInto series episode series' episode' ∨ ReadsInto series' episode' series episode := by
  rw [← String.toList_inj, toList_r2FolderPath, toList_r2FolderPath,
    append_separator_eq_iff (by decide), String.toList_inj, String.toList_inj, readsInto_iff,
    readsInto_iff]

/-- A key is determined by the folder and the file. -/
theorem objectKey_eq_iff {series episode series' episode' file file' : String}
    (hfile : '/' ∉ file.toList) (hfile' : '/' ∉ file'.toList) :
    objectKey series episode file = objectKey series' episode' file' ↔
      r2FolderPath series episode = r2FolderPath series' episode' ∧ file = file' := by
  have hkey (s e f : String) :
      (objectKey s e f).toList = (r2FolderPath s e).toList ++ '/' :: f.toList := by
    rw [objectKey, String.toList_append, String.toList_append, List.append_assoc]
    rfl
  rw [← String.toList_inj, hkey, hkey, append_cons_eq_iff hfile hfile', String.toList_inj,
    String.toList_inj]

/-- Two pairs are apart: their series names differ once they are trimmed and their runs of white
space are written as underscores, or their episodes differ, and neither is read out of the other. -/
structure Apart (series episode series' episode' : String) : Prop where
  different : seriesFolder series ≠ seriesFolder series' ∨ episode ≠ episode'
  notInto : ¬ ReadsInto series episode series' episode'
  notFrom : ¬ ReadsInto series' episode' series episode

/-- Pairs that are apart have different folders, and the other way round. -/
theorem apart_iff {series episode series' episode' : String} :
    Apart series episode series' episode' ↔
      r2FolderPath series episode ≠ r2FolderPath series' episode' := by
  rw [Ne, r2FolderPath_eq_iff, not_or, not_or, not_and_or]
  constructor
  · rintro ⟨hdifferent, hinto, hfrom⟩
    exact ⟨hdifferent, hinto, hfrom⟩
  · rintro ⟨hdifferent, hinto, hfrom⟩
    exact ⟨hdifferent, hinto, hfrom⟩

/-- **When two episodes have no key in common.** For all names of files the keys of two pairs
differ if and only if the pairs are apart; and then publishing the one leaves every object of the
other as it is. -/
theorem objectKey_ne_iff (series episode series' episode' : String) :
    ((∀ file file', '/' ∉ file.toList → '/' ∉ file'.toList →
        objectKey series episode file ≠ objectKey series' episode' file') ↔
      Apart series episode series' episode') ∧
      (Apart series episode series' episode' →
        ∀ (files : List File) (bucket : String → Option (List UInt8)) (file' : String),
          (∀ f ∈ files, '/' ∉ f.name.toList) → '/' ∉ file'.toList →
            published (r2FolderPath series episode) files bucket
              (objectKey series' episode' file') = bucket (objectKey series' episode' file')) := by
  have hkeys : (∀ file file', '/' ∉ file.toList → '/' ∉ file'.toList →
      objectKey series episode file ≠ objectKey series' episode' file') ↔
      Apart series episode series' episode' := by
    rw [apart_iff]
    constructor
    · intro hne heq
      have hplaylist : '/' ∉ "playlist.m3u8".toList := by decide
      exact hne _ _ hplaylist hplaylist ((objectKey_eq_iff hplaylist hplaylist).mpr ⟨heq, rfl⟩)
    · intro hne file file' hfile hfile' hkey
      exact hne ((objectKey_eq_iff hfile hfile').mp hkey).1
  refine ⟨hkeys, fun hapart files bucket file' hfiles hfile' => published_other fun f hf => ?_⟩
  exact hkeys.mpr hapart f.name file' (hfiles f hf) hfile'

/-- **One key for two episodes**: an underscore for a space, and a separator inside a name. -/
theorem not_objectKey_ne :
    (trim "A B", "1") ≠ (trim "A_B", "1") ∧
      objectKey "A B" "1" "playlist.m3u8" = objectKey "A_B" "1" "playlist.m3u8" ∧
      (trim "X/Ep1", "2") ≠ (trim "X", "1/Ep2") ∧
      objectKey "X/Ep1" "2" "playlist.m3u8" = objectKey "X" "1/Ep2" "playlist.m3u8" := by
  decide

end Mogo
