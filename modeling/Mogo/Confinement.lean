import Mogo.PosixPath

/-!
# The Directory a Request Acts On

`/cancel` and `/upload-to-r2` join the `folderId` of the request to `TEMP_DIR` and ask only whether
there is something at the path. So they act on whatever directory the segments of `folderId` lead to
from `TEMP_DIR`, and this is the child of `TEMP_DIR` of that name exactly when `folderId` is a plain
name.

The file system here has directories inside directories, unlike the output folders of `Server`, and
a request runs alone.

## Main results

* `requests_confined`: what the requests touch, for every string.
* `not_confined`: it is not always a child of `TEMP_DIR`.
-/

namespace Mogo

open PosixPath

/-! ### The file system -/

/-- What stands at a place of the file system: a file with its bytes, or a directory. -/
inductive Entry where
  | file (bytes : List UInt8)
  | directory
  deriving DecidableEq, Repr

/-- A place in the file system: its name, the name of its parent, and so on up to the root. -/
abbrev Location := List (List Char)

/-- What is stored, and where. Names are names. -/
structure FileSystem where
  entries : List (Location × Entry)
  plain : ∀ x ∈ entries, ∀ name ∈ x.1, Plain (String.ofList name)

namespace FileSystem

/-- What is stored at a place, `none` if there is nothing. -/
def entry? (loc : Location) (fs : FileSystem) : Option Entry := fs.entries.lookup loc

/-- `fs.existsSync`. A path with a NUL is none, and a file is no directory. -/
def existsSync (cwd path : String) (fs : FileSystem) : Bool :=
  match fs.entry? (resolve cwd path) with
  | some (.file _) => path.toList.getLast? ≠ some '/' ∧ Char.ofNat 0 ∉ path.toList
  | some .directory => Char.ofNat 0 ∉ path.toList
  | none => false

/-- The names in a directory: the last parts of the places directly below it. -/
def names (loc : Location) (fs : FileSystem) : List String :=
  fs.entries.filterMap fun x =>
    match x.1 with
    | name :: parent => if parent = loc then some (String.ofList name) else none
    | [] => none

/-- `fs.readdirSync`, which throws (`none`) where the path is no directory. -/
def readdirSync (cwd path : String) (fs : FileSystem) : Option (List String) :=
  match fs.entry? (resolve cwd path) with
  | some .directory => some (fs.names (resolve cwd path))
  | _ => none

/-- `fs.readFileSync`, which throws (`none`) where the path is no file. -/
def readFileSync (cwd path : String) (fs : FileSystem) : Option (List UInt8) :=
  match fs.entry? (resolve cwd path) with
  | some (.file bytes) => some bytes
  | _ => none

/-- What is left when everything at and below a place is gone. -/
def without (loc : Location) (fs : FileSystem) : FileSystem where
  entries := fs.entries.filter fun x => ¬ loc <:+ x.1
  plain := fun x hx => fs.plain x (List.mem_of_mem_filter hx)

/-- `fs.rmSync(path, { recursive: true, force: true })`. -/
def rmSync (cwd path : String) (fs : FileSystem) : FileSystem := fs.without (resolve cwd path)

end FileSystem

/-! ### The requests -/

/-- Where the server runs: the working directory, the directory of the script, and the settings
`MOGO_TEMP_DIR` and `R2_BUCKET_NAME`. -/
structure Site where
  cwd : String
  dirname : String
  mogoTempDir : Option String
  bucketName : Option String

namespace Site

variable (site : Site)

/-- `TEMP_DIR`: the directory of the environment if it is set and not empty, else `temp` beside the
script. -/
def tempDir : String :=
  match site.mogoTempDir with
  | some dir => if dir = "" then join site.dirname "temp" else dir
  | none => join site.dirname "temp"

/-- `path.join(TEMP_DIR, folderId)`. -/
def outputFolder (folderId : String) : String := join site.tempDir folderId

/-- What `/cancel` leaves of the file system. -/
def cancelRequest (folderId : String) (fs : FileSystem) : FileSystem :=
  let out := site.outputFolder folderId
  if fs.existsSync site.cwd out then fs.rmSync site.cwd out else fs

/-- The loop over the files. It stops at a name that is no file and at a PUT that fails; the answer
says whether it came to its end, and what it has published. -/
def publish (put : String → Bool) (out : String) (fs : FileSystem) :
    List String → Bool × List (Location × List UInt8)
  | [] => (true, [])
  | file :: files =>
    match fs.readFileSync site.cwd (join out file) with
    | none => (false, [])
    | some bytes =>
      if put file then
        let rest := publish put out fs files
        (rest.1, (resolve site.cwd (join out file), bytes) :: rest.2)
      else (false, [])

/-- What `/upload-to-r2` publishes, and what it leaves of the file system. -/
def uploadRequest (put : String → Bool) (folderId : String) (fs : FileSystem) :
    List (Location × List UInt8) × FileSystem :=
  let out := site.outputFolder folderId
  if fs.existsSync site.cwd out then
    match fs.readdirSync site.cwd out with
    | none => ([], fs)
    | some files =>
      if site.bucketName.getD "" = "" then ([], fs)
      else
        let run := site.publish put out fs files
        (run.2, if run.1 then fs.rmSync site.cwd out else fs)
  else ([], fs)

/-- The child of `TEMP_DIR` of a name. -/
def child (folderId : String) : Location := folderId.toList :: resolve site.cwd site.tempDir

/-- The place the requests act on: where the segments of `folderId` lead from `TEMP_DIR`. -/
def target (folderId : String) : Location :=
  walk (resolve site.cwd site.tempDir) (segments folderId.toList)

/-- The requests act on the child of that name, or on nothing. -/
def Confined (folderId : String) : Prop :=
  ∀ fs put, (site.cancelRequest folderId fs = fs ∨
      site.cancelRequest folderId fs = fs.without (site.child folderId)) ∧
    (∀ x ∈ (site.uploadRequest put folderId fs).1, ∃ name, x.1 = name :: site.child folderId) ∧
    ((site.uploadRequest put folderId fs).2 = fs ∨
      (site.uploadRequest put folderId fs).2 = fs.without (site.child folderId))

/-! ### What the requests touch -/

/-- The folder of the jobs has a name, since its path is absolute. -/
theorem tempDir_ne_empty : site.tempDir ≠ "" := by
  rw [tempDir]
  split
  · split
    · exact join_ne_empty _ _
    next hdir => exact hdir
  · exact join_ne_empty _ _

/-- The folder that is made for an id is the one its path leads to from the working directory. -/
theorem resolve_outputFolder (folderId : String) :
    resolve site.cwd (site.outputFolder folderId) = site.target folderId :=
  resolve_join site.cwd site.tempDir_ne_empty folderId

/-- **The target** is the child of that name exactly for a plain name. -/
theorem target_eq_child_iff (folderId : String) :
    site.target folderId = site.child folderId ↔ Plain folderId := by
  rw [← resolve_outputFolder]
  exact resolve_join_eq_cons_iff site.cwd site.tempDir_ne_empty folderId

/-- Plain ids have folders of their own. -/
theorem outputFolder_inj {a b : String} (ha : Plain a) (hb : Plain b)
    (h : site.outputFolder a = site.outputFolder b) : a = b := by
  have hchild : site.child a = site.child b := by
    rw [← (site.target_eq_child_iff a).mpr ha, ← (site.target_eq_child_iff b).mpr hb,
      ← resolve_outputFolder, ← resolve_outputFolder, h]
  exact String.toList_inj.mp (List.cons.inj hchild).1

/-- A `/cancel` request leaves the file system as it is or removes the directory its folder id leads
to. -/
theorem cancelRequest_cases (folderId : String) (fs : FileSystem) :
    site.cancelRequest folderId fs = fs ∨
      site.cancelRequest folderId fs = fs.without (site.target folderId) := by
  rw [cancelRequest, ← resolve_outputFolder]
  split
  · exact Or.inr rfl
  · exact Or.inl rfl

/-- What stands in a directory is stored there, and has a plain name. -/
theorem plain_of_mem_names {loc : Location} {fs : FileSystem}
    {name : String} (h : name ∈ fs.names loc) : Plain name := by
  obtain ⟨⟨entryLoc, entry⟩, hentry, hname⟩ := List.mem_filterMap.mp h
  cases entryLoc with
  | nil => cases hname
  | cons n parent =>
      dsimp only at hname
      split at hname
      · exact Option.some.inj hname ▸ fs.plain _ hentry n List.mem_cons_self
      · cases hname

/-- What the loop publishes are files of the directory. -/
theorem mem_publish {put : String → Bool} {out : String} (hout : out ≠ "") {fs : FileSystem}
    {files : List String} (hfiles : ∀ file ∈ files, Plain file) {x : Location × List UInt8}
    (h : x ∈ (site.publish put out fs files).2) :
    ∃ name, x.1 = name :: resolve site.cwd out ∧ fs.entry? x.1 = some (.file x.2) := by
  induction files with
  | nil => cases h
  | cons file files ih =>
      rw [publish] at h
      cases hread : fs.readFileSync site.cwd (join out file) with
      | none =>
          rw [hread] at h
          cases h
      | some bytes =>
          rw [hread] at h
          dsimp only at h
          split at h
          · rcases List.mem_cons.mp h with rfl | hrest
            · refine ⟨file.toList, ?_, ?_⟩
              · exact (resolve_join_eq_cons_iff site.cwd hout file).mpr
                  (hfiles file List.mem_cons_self)
              · rw [FileSystem.readFileSync] at hread
                split at hread
                next hentry => exact Option.some.inj hread ▸ hentry
                · cases hread
            · exact ih (fun f hf => hfiles f (List.mem_cons_of_mem file hf)) hrest
          · cases h

/-- An upload request reads files of the directory its folder id leads to, and removes at most this
directory. -/
theorem uploadRequest_cases (put : String → Bool) (folderId : String) (fs : FileSystem) :
    (∀ x ∈ (site.uploadRequest put folderId fs).1,
      ∃ name, x.1 = name :: site.target folderId ∧ fs.entry? x.1 = some (.file x.2)) ∧
    ((site.uploadRequest put folderId fs).2 = fs ∨
      (site.uploadRequest put folderId fs).2 = fs.without (site.target folderId)) := by
  have hnothing : (∀ x ∈ ([] : List (Location × List UInt8)),
      ∃ name, x.1 = name :: site.target folderId ∧ fs.entry? x.1 = some (.file x.2)) ∧
      (fs = fs ∨ fs = fs.without (site.target folderId)) :=
    ⟨fun x hx => absurd hx List.not_mem_nil, Or.inl rfl⟩
  rw [uploadRequest]
  dsimp only
  split
  · split
    · exact hnothing
    next files hfiles =>
      split
      · exact hnothing
      · have hplain : ∀ file ∈ files, Plain file := by
          rw [FileSystem.readdirSync] at hfiles
          split at hfiles
          · obtain rfl := Option.some.inj hfiles
            exact fun file hfile => plain_of_mem_names hfile
          · cases hfiles
        refine ⟨fun x hx => ?_, ?_⟩
        · rw [← resolve_outputFolder]
          exact site.mem_publish (join_ne_empty _ _) hplain hx
        · rw [← resolve_outputFolder]
          split
          · exact Or.inr rfl
          · exact Or.inl rfl
  · exact hnothing

end Site

/-! ### The main result -/

/-- **What the requests touch.** They act on the place the segments of `folderId` lead to from
`TEMP_DIR`, which is the child of that name exactly for a plain name. `/cancel` removes this place
or nothing; `/upload-to-r2` publishes files directly in it, and removes it or nothing. -/
theorem requests_confined (site : Site) (folderId : String) :
    (site.target folderId = site.child folderId ↔ Plain folderId) ∧
    (Plain folderId → site.Confined folderId) ∧
    ∀ fs put, (site.cancelRequest folderId fs = fs ∨
        site.cancelRequest folderId fs = fs.without (site.target folderId)) ∧
      (∀ x ∈ (site.uploadRequest put folderId fs).1,
        ∃ name, x.1 = name :: site.target folderId ∧ fs.entry? x.1 = some (.file x.2)) ∧
      ((site.uploadRequest put folderId fs).2 = fs ∨
        (site.uploadRequest put folderId fs).2 = fs.without (site.target folderId)) := by
  refine ⟨site.target_eq_child_iff folderId, fun hplain fs put => ?_, fun fs put =>
    ⟨site.cancelRequest_cases folderId fs, site.uploadRequest_cases put folderId fs⟩⟩
  rw [← (site.target_eq_child_iff folderId).mpr hplain]
  obtain ⟨hpublished, hfs⟩ := site.uploadRequest_cases put folderId fs
  exact ⟨site.cancelRequest_cases folderId fs,
    fun x hx => (hpublished x hx).imp fun _ h => h.1, hfs⟩

/-! ### An example -/

/-- A server in `/srv/mogo`, with its script and the output folder of one job. -/
def mogoSite : Site := ⟨"/", "/srv/mogo", none, some "mogo"⟩

/-- Its file system: the script, and the folder of one job with its playlist. -/
def mogoFiles : FileSystem where
  entries :=
    [([], .directory), (["srv".toList], .directory), (["mogo".toList, "srv".toList], .directory),
      (["server.js".toList, "mogo".toList, "srv".toList], .file [1]),
      (["temp".toList, "mogo".toList, "srv".toList], .directory),
      (["17".toList, "temp".toList, "mogo".toList, "srv".toList], .directory),
      (["playlist.m3u8".toList, "17".toList, "temp".toList, "mogo".toList, "srv".toList],
        .file [2])]
  plain := by decide

/-- **Not a child of `TEMP_DIR`**: the empty `folderId` removes the folders of all jobs, and `..`
removes the server. -/
theorem not_confined :
    (mogoSite.cancelRequest "" mogoFiles).entries =
        [([], .directory), (["srv".toList], .directory),
          (["mogo".toList, "srv".toList], .directory),
          (["server.js".toList, "mogo".toList, "srv".toList], .file [1])] ∧
      (mogoSite.cancelRequest ".." mogoFiles).entries =
        [([], .directory), (["srv".toList], .directory)] ∧
      ¬ mogoSite.Confined "" := by
  have hempty : (mogoSite.cancelRequest "" mogoFiles).entries =
      [([], .directory), (["srv".toList], .directory),
        (["mogo".toList, "srv".toList], .directory),
        (["server.js".toList, "mogo".toList, "srv".toList], .file [1])] := by decide +kernel
  refine ⟨hempty, by decide +kernel, fun h => ?_⟩
  have hlength : (mogoSite.cancelRequest "" mogoFiles).entries.length = 4 :=
    congrArg List.length hempty
  rcases (h mogoFiles fun _ => true).1 with hsame | hchild
  · rw [hsame] at hlength
    exact absurd hlength (by decide)
  · rw [hchild] at hlength
    exact absurd hlength (by decide +kernel)

end Mogo
