import Mathlib.Data.List.Basic

/-!
# POSIX Paths

`path.join` and `path.normalize` of Node on POSIX, for all strings, and the directory a path leads
to: from the working directory, or from the root for an absolute path, a name goes down, `..` goes
up and stays at the root, and an empty segment or `.` stays.

## Main results

* `resolve_normalize`: normalisation does not change where a path leads.
* `resolve_join`: a joined path leads where its second part leads from its first part.
* `resolve_join_eq_cons_iff`: when that is an immediate child of the name that was joined.
-/

namespace Mogo

namespace PosixPath

/-! ### Segments -/

/-- The pieces of a text between its slashes. -/
def segments : List Char → List (List Char)
  | [] => [[]]
  | c :: cs =>
    if c = '/' then [] :: segments cs
    else
      match segments cs with
      | s :: rest => (c :: s) :: rest
      | [] => [[c]]

/-- The segments that lead nowhere: `.` and the empty one. -/
def Stays (s : List Char) : Prop := s = [] ∨ s = ['.']

instance (s : List Char) : Decidable (Stays s) := inferInstanceAs (Decidable (_ ∨ _))

/-- One segment, from the directory whose names are listed from the last to the first. -/
def walkStep (dir : List (List Char)) (s : List Char) : List (List Char) :=
  if Stays s then dir else if s = ['.', '.'] then dir.tail else s :: dir

/-- The directory some segments lead to, its names listed from the last to the first. -/
def walk (dir : List (List Char)) (segs : List (List Char)) : List (List Char) :=
  segs.foldl walkStep dir

/-- `path.isAbsolute`: the path starts with a slash. -/
def isAbsolute (path : String) : Bool := path.toList.head? = some '/'

/-- The directory a path leads to from the working directory, its names listed from the last to the
first. -/
def resolve (cwd path : String) : List (List Char) :=
  if isAbsolute path then walk [] (segments path.toList)
  else walk (walk [] (segments cwd.toList)) (segments path.toList)

/-! ### `path.normalize` and `path.join` -/

/-- One segment of `normalizeString`; what is kept is listed from the last to the first. -/
def normalizeStep (allowAboveRoot : Bool) (kept : List (List Char)) (s : List Char) :
    List (List Char) :=
  if Stays s then kept
  else if s = ['.', '.'] then
    match kept with
    | [] => if allowAboveRoot then [['.', '.']] else []
    | last :: rest => if last = ['.', '.'] then ['.', '.'] :: kept else rest
  else s :: kept

/-- The segments `normalizeString` keeps, from the last to the first. -/
def normalizeSegments (allowAboveRoot : Bool) (segs : List (List Char)) : List (List Char) :=
  segs.foldl (normalizeStep allowAboveRoot) []

/-- The text of some segments, with a slash between any two. -/
def joinSegments : List (List Char) → List Char
  | [] => []
  | [s] => s
  | s :: rest => s ++ '/' :: joinSegments rest

/-- The path `normalizeString` returns. -/
def normalizeString (allowAboveRoot : Bool) (path : String) : List Char :=
  joinSegments (normalizeSegments allowAboveRoot (segments path.toList)).reverse

/-- `path.normalize`: the path without `.` and, where it can be taken back, without `..`; a trailing
slash stays. -/
def normalize (path : String) : String :=
  let trailingSeparator : Bool := path.toList.getLast? = some '/'
  if isAbsolute path then
    let kept := normalizeString false path
    String.ofList ('/' :: if trailingSeparator ∧ kept ≠ [] then kept ++ ['/'] else kept)
  else
    let kept := normalizeString true path
    let kept := if kept = [] then ['.'] else kept
    String.ofList (if trailingSeparator then kept ++ ['/'] else kept)

/-- `path.join` of two parts, of which the empty ones are left out. -/
def join (first second : String) : String :=
  if first = "" ∧ second = "" then "."
  else if first = "" then normalize second
  else if second = "" then normalize first
  else normalize (first ++ "/" ++ second)

example : join "/srv/temp" "../x//y/./z/" = "/srv/x/y/z/" := by decide

example : join "temp" "../.." = ".." := by decide

example : join "/srv/temp" "" = "/srv/temp" := by decide

/-! ### Segments of a text -/

/-- A path that begins with a slash begins with an empty segment. -/
theorem segments_cons_slash (cs : List Char) : segments ('/' :: cs) = [] :: segments cs := by
  rw [segments, if_pos rfl]

/-- Every path has a segment, the empty path an empty one. -/
theorem segments_ne_nil (cs : List Char) : segments cs ≠ [] := by
  cases cs with
  | nil => simp [segments]
  | cons c cs =>
      rw [segments]
      split
      · simp
      · split
        · simp
        · simp

/-- A character that is no slash belongs to the first segment. -/
theorem segments_cons_of_ne {c : Char} (hc : c ≠ '/') (cs : List Char) :
    ∃ s rest, segments cs = s :: rest ∧ segments (c :: cs) = (c :: s) :: rest := by
  obtain ⟨s, rest, hsegs⟩ := List.exists_cons_of_ne_nil (segments_ne_nil cs)
  refine ⟨s, rest, hsegs, ?_⟩
  rw [segments, if_neg hc, hsegs]

/-- A slash ends a segment: the segments of a path are those before it and those behind it. -/
theorem segments_append_slash (cs ds : List Char) :
    segments (cs ++ '/' :: ds) = segments cs ++ segments ds := by
  induction cs with
  | nil => exact segments_cons_slash ds
  | cons c cs ih =>
      by_cases hc : c = '/'
      · subst hc
        rw [List.cons_append, segments_cons_slash, segments_cons_slash, ih, List.cons_append]
      · obtain ⟨s, rest, hsegs, hcons⟩ := segments_cons_of_ne hc cs
        obtain ⟨s', rest', hsegs', hcons'⟩ := segments_cons_of_ne hc (cs ++ '/' :: ds)
        rw [ih, hsegs, List.cons_append] at hsegs'
        obtain ⟨rfl, rfl⟩ := List.cons.inj hsegs'
        rw [List.cons_append, hcons', hcons, List.cons_append]

/-- A text without a slash is one segment. -/
theorem segments_of_notMem {cs : List Char} (h : '/' ∉ cs) : segments cs = [cs] := by
  induction cs with
  | nil => rfl
  | cons c cs ih =>
      have hc : c ≠ '/' := fun heq => h (heq ▸ List.mem_cons_self)
      rw [segments, if_neg hc, ih fun hmem => h (List.mem_cons_of_mem c hmem)]

/-- No segment of a path contains a slash. -/
theorem slash_notMem_of_mem_segments {cs s : List Char} (h : s ∈ segments cs) : '/' ∉ s := by
  induction cs generalizing s with
  | nil =>
      obtain rfl := List.mem_singleton.mp h
      exact List.not_mem_nil
  | cons c cs ih =>
      by_cases hc : c = '/'
      · subst hc
        rw [segments_cons_slash] at h
        rcases List.mem_cons.mp h with rfl | hs
        · exact List.not_mem_nil
        · exact ih hs
      · obtain ⟨s₀, rest, hsegs, hcons⟩ := segments_cons_of_ne hc cs
        rw [hcons] at h
        rw [hsegs] at ih
        rcases List.mem_cons.mp h with rfl | hs
        · intro hmem
          rcases List.mem_cons.mp hmem with heq | hmem
          · exact hc heq.symm
          · exact ih List.mem_cons_self hmem
        · exact ih (List.mem_cons_of_mem s₀ hs)

/-! ### Walking -/

/-- A walk is made one part after the other. -/
theorem walk_append (dir segs segs' : List (List Char)) :
    walk dir (segs ++ segs') = walk (walk dir segs) segs' :=
  List.foldl_append

/-- A walk is made one segment after the other. -/
theorem walk_cons (dir : List (List Char)) (s : List Char) (segs : List (List Char)) :
    walk dir (s :: segs) = walk (walkStep dir s) segs := rfl

/-- An empty segment, as two slashes in a row leave it, leads nowhere. -/
@[simp] theorem walkStep_nil (dir : List (List Char)) : walkStep dir [] = dir := if_pos (Or.inl rfl)

/-- A leading slash adds an empty segment, which does not move. -/
theorem walk_segments_cons_slash (dir : List (List Char)) (cs : List Char) :
    walk dir (segments ('/' :: cs)) = walk dir (segments cs) := by
  rw [segments_cons_slash, walk_cons, walkStep_nil]

/-- A trailing slash adds an empty segment, which does not move. -/
theorem walk_segments_concat_slash (dir : List (List Char)) (cs : List Char) :
    walk dir (segments (cs ++ ['/'])) = walk dir (segments cs) := by
  rw [segments_append_slash, walk_append]
  exact walkStep_nil _

/-- Between two segments there is one slash. -/
theorem joinSegments_cons_cons (s t : List Char) (rest : List (List Char)) :
    joinSegments (s :: t :: rest) = s ++ '/' :: joinSegments (t :: rest) := rfl

/-- Segments that were joined are walked one after the other. -/
theorem walk_segments_joinSegments (dir : List (List Char)) {segs : List (List Char)}
    (h : ∀ s ∈ segs, '/' ∉ s) : walk dir (segments (joinSegments segs)) = walk dir segs := by
  induction segs generalizing dir with
  | nil => exact walkStep_nil dir
  | cons s segs ih =>
      have hs : segments s = [s] := segments_of_notMem (h s List.mem_cons_self)
      cases segs with
      | nil => rw [joinSegments, hs]
      | cons t rest =>
          rw [joinSegments_cons_cons, segments_append_slash, hs, List.singleton_append, walk_cons,
            walk_cons]
          exact ih (walkStep dir s) fun u hu => h u (List.mem_cons_of_mem s hu)

/-- Walking adds names of the segments only. -/
theorem mem_walk {dir segs : List (List Char)} {s : List Char} (h : s ∈ walk dir segs) :
    s ∈ dir ∨ s ∈ segs := by
  induction segs generalizing dir with
  | nil => exact Or.inl h
  | cons t segs ih =>
      rw [walk_cons] at h
      rcases ih h with hdir | hsegs
      · rw [walkStep] at hdir
        split at hdir
        · exact Or.inl hdir
        · split at hdir
          · exact Or.inl (List.mem_of_mem_tail hdir)
          · exact (List.mem_cons.mp hdir).elim
              (fun heq => Or.inr (List.mem_cons.mpr (Or.inl heq))) Or.inl
      · exact Or.inr (List.mem_cons_of_mem t hsegs)

/-- The names of the directory a path leads to have no slash. -/
theorem slash_notMem_of_mem_resolve {cwd path : String} {s : List Char}
    (h : s ∈ resolve cwd path) : '/' ∉ s := by
  rw [resolve] at h
  split at h
  · rcases mem_walk h with hnil | hsegs
    · cases hnil
    · exact slash_notMem_of_mem_segments hsegs
  · rcases mem_walk h with hdir | hsegs
    · rcases mem_walk hdir with hnil | hcwd
      · cases hnil
      · exact slash_notMem_of_mem_segments hcwd
    · exact slash_notMem_of_mem_segments hsegs

/-! ### Normalisation -/

/-- What is kept are names and `..`, none with a slash. -/
def Kept (kept : List (List Char)) : Prop := ∀ s ∈ kept, ¬ Stays s ∧ '/' ∉ s

/-- One more segment keeps the stack normal: names and `..` only, none with a slash. -/
theorem Kept.step {kept : List (List Char)} (h : Kept kept) (allow : Bool) {s : List Char}
    (hs : '/' ∉ s) : Kept (normalizeStep allow kept s) := by
  have hpush : ∀ t, ¬ Stays t → '/' ∉ t → Kept (t :: kept) := by
    intro t ht hslash u hu
    rcases List.mem_cons.mp hu with rfl | hu
    · exact ⟨ht, hslash⟩
    · exact h u hu
  have hup : ¬ Stays ['.', '.'] := by decide
  rw [normalizeStep.eq_def]
  split
  · exact h
  next hstays =>
    split
    · cases kept with
      | nil =>
          dsimp only
          split
          · exact hpush _ hup (by decide)
          · exact h
      | cons last rest =>
          dsimp only
          split
          · exact hpush _ hup (by decide)
          · exact fun u hu => h u (List.mem_cons_of_mem last hu)
    · exact hpush s hstays hs

/-- Any number of segments keep the stack normal. -/
theorem Kept.fold {kept : List (List Char)} (h : Kept kept) (allow : Bool)
    {segs : List (List Char)} (hsegs : ∀ s ∈ segs, '/' ∉ s) :
    Kept (segs.foldl (normalizeStep allow) kept) := by
  induction segs generalizing kept with
  | nil => exact h
  | cons s segs ih =>
      exact ih (h.step allow (hsegs s List.mem_cons_self)) fun t ht =>
        hsegs t (List.mem_cons_of_mem s ht)

/-- The segments of a path are normalised to a normal stack. -/
theorem kept_normalizeSegments (allow : Bool) (cs : List Char) :
    Kept (normalizeSegments allow (segments cs)) :=
  Kept.fold (fun s hs => by cases hs) allow fun _ hs => slash_notMem_of_mem_segments hs

/-- One segment: what is kept leads where the segment leads. -/
theorem walk_normalizeStep {allow : Bool} {dir kept : List (List Char)}
    (hroot : allow = true ∨ dir = []) (h : Kept kept) (s : List Char) :
    walk dir (normalizeStep allow kept s).reverse = walkStep (walk dir kept.reverse) s := by
  have hpush : ∀ t, walk dir (t :: kept).reverse = walkStep (walk dir kept.reverse) t := by
    intro t
    rw [List.reverse_cons, walk_append]
    rfl
  rw [normalizeStep.eq_def]
  split
  next hstays => rw [walkStep, if_pos hstays]
  next hstays =>
    split
    next hup =>
      subst hup
      cases kept with
      | nil =>
          dsimp only
          split
          · exact hpush _
          next hallow =>
            -- `..` stays at the root
            obtain rfl := hroot.resolve_left hallow
            rfl
      | cons last rest =>
          dsimp only
          split
          · exact hpush _
          next hlast =>
            have hname := (h last List.mem_cons_self).1
            have hlast' :
                walkStep (walk dir rest.reverse) last = last :: walk dir rest.reverse := by
              rw [walkStep, if_neg hname, if_neg hlast]
            rw [List.reverse_cons, walk_append, walk_cons, hlast', walkStep, if_neg hstays,
              if_pos rfl]
            rfl
    · exact hpush s

/-- Normalising a path does not change where it leads, from any folder, or from the root if parents
are cut off there. -/
theorem walk_normalizeSegments {allow : Bool} {dir kept : List (List Char)}
    (hroot : allow = true ∨ dir = []) (h : Kept kept) {segs : List (List Char)}
    (hsegs : ∀ s ∈ segs, '/' ∉ s) :
    walk dir (segs.foldl (normalizeStep allow) kept).reverse =
      walk (walk dir kept.reverse) segs := by
  induction segs generalizing kept with
  | nil => rfl
  | cons s segs ih =>
      rw [List.foldl_cons, ih (h.step allow (hsegs s List.mem_cons_self))
        (fun t ht => hsegs t (List.mem_cons_of_mem s ht)), walk_normalizeStep hroot h, walk_cons]

/-- What `normalizeString` returns leads where the path leads. -/
theorem walk_normalizeString {allow : Bool} (dir : List (List Char))
    (hroot : allow = true ∨ dir = []) (path : String) :
    walk dir (segments (normalizeString allow path)) = walk dir (segments path.toList) := by
  rw [normalizeString, walk_segments_joinSegments]
  · exact walk_normalizeSegments hroot (fun s hs => by cases hs)
      fun _ hs => slash_notMem_of_mem_segments hs
  · exact fun s hs => (kept_normalizeSegments allow path.toList s (List.mem_reverse.mp hs)).2

/-- What `normalizeString` returns does not begin with a slash. -/
theorem head?_normalizeString (allow : Bool) (path : String) :
    (normalizeString allow path).head? ≠ some '/' := by
  have hkept := kept_normalizeSegments allow path.toList
  rw [normalizeString]
  cases hsegs : (normalizeSegments allow (segments path.toList)).reverse with
  | nil => simp [joinSegments]
  | cons s rest =>
      have hs : s ∈ (normalizeSegments allow (segments path.toList)).reverse :=
        hsegs ▸ List.mem_cons_self
      obtain ⟨hstays, hslash⟩ := hkept s (List.mem_reverse.mp hs)
      cases s with
      | nil => exact absurd (Or.inl rfl) hstays
      | cons c cs =>
          have hc : c ≠ '/' := fun heq => hslash (heq ▸ List.mem_cons_self)
          cases rest with
          | nil => simpa [joinSegments] using hc
          | cons t rest => simpa [joinSegments_cons_cons] using hc

/-- Normalising a path keeps it absolute, or relative. -/
theorem isAbsolute_normalize (path : String) : isAbsolute (normalize path) = isAbsolute path := by
  rw [normalize]
  by_cases habs : isAbsolute path = true
  · rw [if_pos habs, habs]
    simp [isAbsolute]
  · rw [if_neg habs, Bool.eq_false_iff.mpr habs]
    have hhead := head?_normalizeString true path
    rw [isAbsolute, decide_eq_false_iff_not, String.toList_ofList]
    cases hkept : normalizeString true path with
    | nil =>
        split
        · simp
        · simp
    | cons c cs =>
        rw [hkept] at hhead
        split
        · simpa using hhead
        · simpa using hhead

/-- A separator at the end does not move. -/
theorem walk_trailing (dir : List (List Char)) (p : Prop) [Decidable p] (cs : List Char) :
    walk dir (segments (if p then cs ++ ['/'] else cs)) = walk dir (segments cs) := by
  split
  · exact walk_segments_concat_slash dir cs
  · rfl

/-- **Normalisation** does not change where a path leads. -/
theorem resolve_normalize (cwd path : String) :
    resolve cwd (normalize path) = resolve cwd path := by
  rw [resolve, isAbsolute_normalize, resolve, normalize]
  by_cases habs : isAbsolute path = true
  · rw [if_pos habs, if_pos habs, if_pos habs]
    dsimp only
    rw [String.toList_ofList, walk_segments_cons_slash, walk_trailing,
      walk_normalizeString [] (Or.inr rfl)]
  · rw [if_neg habs, if_neg habs, if_neg habs]
    dsimp only
    rw [String.toList_ofList, walk_trailing]
    split
    next hnil =>
      have hwalk := walk_normalizeString (walk [] (segments cwd.toList)) (Or.inl rfl) path
      rw [hnil] at hwalk
      exact hwalk
    · exact walk_normalizeString _ (Or.inl rfl) path

/-- Normalisation leaves at least a dot. -/
theorem normalize_ne_empty (path : String) : normalize path ≠ "" := by
  intro h
  have hnil : (normalize path).toList = [] := congrArg String.toList h
  rw [normalize] at hnil
  split at hnil
  · rw [String.toList_ofList] at hnil
    cases hnil
  · dsimp only at hnil
    rw [String.toList_ofList] at hnil
    split at hnil
    · exact absurd hnil (by simp)
    · split at hnil
      · cases hnil
      next hkept => exact hkept hnil

/-- What is joined is never empty: an empty path becomes the dot. -/
theorem join_ne_empty (first second : String) : join first second ≠ "" := by
  rw [join]
  split
  · decide
  · split
    · exact normalize_ne_empty _
    · split
      · exact normalize_ne_empty _
      · exact normalize_ne_empty _

/-- **A joined path** leads where its second part leads from its first part. -/
theorem resolve_join (cwd : String) {first : String} (hfirst : first ≠ "") (second : String) :
    resolve cwd (join first second) = walk (resolve cwd first) (segments second.toList) := by
  rw [join, if_neg fun h => hfirst h.1, if_neg hfirst]
  split
  next hsecond =>
    subst hsecond
    rw [resolve_normalize]
    exact (walkStep_nil _).symm
  · have habs : isAbsolute (first ++ "/" ++ second) = isAbsolute first := by
      have hne : first.toList ≠ [] := fun h => hfirst (String.toList_inj.mp h)
      rw [isAbsolute, isAbsolute, String.toList_append, String.toList_append, List.append_assoc,
        List.head?_append_of_ne_nil _ hne]
    rw [resolve_normalize, resolve, resolve, habs]
    have hsegs : segments (first ++ "/" ++ second).toList =
        segments first.toList ++ segments second.toList := by
      rw [String.toList_append, String.toList_append, List.append_assoc]
      exact segments_append_slash _ _
    rw [hsegs]
    split
    · exact walk_append _ _ _
    · exact walk_append _ _ _

/-! ### Immediate children -/

/-- A name that is one segment of a path, and goes down. -/
def Plain (name : String) : Prop :=
  name ≠ "" ∧ name ≠ "." ∧ name ≠ ".." ∧ '/' ∉ name.toList

instance (name : String) : Decidable (Plain name) := inferInstanceAs (Decidable (_ ∧ _ ∧ _ ∧ _))

/-- **Immediate children.** A joined path leads to the child of the name that was joined exactly
when that name is plain. -/
theorem resolve_join_eq_cons_iff (cwd : String) {first : String} (hfirst : first ≠ "")
    (name : String) :
    resolve cwd (join first name) = name.toList :: resolve cwd first ↔ Plain name := by
  rw [resolve_join cwd hfirst]
  constructor
  · intro h
    have hslash : '/' ∉ name.toList := by
      have hmem : name.toList ∈ walk (resolve cwd first) (segments name.toList) :=
        h ▸ List.mem_cons_self
      rcases mem_walk hmem with hdir | hsegs
      · exact slash_notMem_of_mem_resolve hdir
      · exact slash_notMem_of_mem_segments hsegs
    rw [segments_of_notMem hslash] at h
    have hlength := congrArg List.length h
    refine ⟨?_, ?_, ?_, hslash⟩
    · rintro rfl
      exact absurd hlength (by simp [walk])
    · rintro rfl
      exact absurd hlength (by simp [walk, walkStep, Stays])
    · rintro rfl
      simp only [walk, List.foldl_cons, List.foldl_nil, walkStep, List.length_cons] at hlength
      rw [if_neg (by decide), if_pos (by decide), List.length_tail] at hlength
      omega
  · rintro ⟨hne, hdot, hup, hslash⟩
    have hstays : ¬ Stays name.toList := by
      rintro (h | h)
      · exact hne (String.toList_inj.mp h)
      · exact hdot (String.toList_inj.mp h)
    have hup' : name.toList ≠ ['.', '.'] := fun h => hup (String.toList_inj.mp h)
    rw [segments_of_notMem hslash, walk_cons, walkStep, if_neg hstays, if_neg hup']
    rfl

end PosixPath

end Mogo
