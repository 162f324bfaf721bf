import Mathlib.Data.Rat.Floor
import Mogo.Handler
import Mogo.Value

/-!
# The Server

The routes `/process`, `/process-podcast`, `/upload-to-r2` and `/cancel`, and the callbacks they
leave behind: those of the ffmpeg and whisper children of a pipeline, and the steps of an upload
loop between two PUTs. Node runs a callback to completion, so each is one step.

A callback works on the entry of its job, on the output folder, on the uploaded files and on the
bucket (`JobView`). It throws where it touches a field of an entry that is missing, or a file of a
folder that is missing. A throw that nothing catches takes the process down.

`Server` adds a history to the state of the process: how often a field of a missing entry has been
touched, which output folders have been made, and which jobs have been cancelled. No route reads it.

## Main results

* `step`: what an event makes of the state of the server.
-/

namespace Mogo

/-! ### Jobs -/

/-- The values that the server gives to `status`. -/
inductive Status where
  | compressing
  | whisper
  | translating
  | done
  | error
  | uploading_r2
  | r2_done
  deriving DecidableEq, Repr

/-- An entry of `jobs`. A missing field, and one that is `null`, is `none`; sizes are in bytes, and
a duration that is no number is `none`. -/
structure Job where
  status : Option Status
  progress : Option ℤ
  whisperProgress : Option ℤ
  duration : Option ℚ
  origSize : Option ℕ
  newSize : Option ℕ
  previewUrl : Option String
  vttOriginal : Option String
  vttEnglish : Option String
  langOriginal : Option String
  error : Option String
  r2Progress : Option ℤ
  finalUrl : Option String
  finalVttOriginal : Option String
  finalVttEnglish : Option String
  finalSize : Option ℕ
  finalDurationSec : Option ℚ
  deriving DecidableEq, Repr

/-- `{}`, an entry in which no property is set. -/
def Job.blank : Job :=
  ⟨none, none, none, none, none, none, none, none, none, none, none, none, none, none, none, none,
    none⟩

/-- The entry `/process` and `/process-podcast` make. -/
def Job.initial (size : ℕ) (language : String) : Job :=
  { Job.blank with
    status := some .compressing
    progress := some 0
    whisperProgress := some 0
    duration := some 0
    origSize := some size
    newSize := some 0
    langOriginal := some language }

/-- A file of an output folder, with its bytes. -/
structure File where
  name : String
  bytes : List UInt8
  deriving DecidableEq, Repr

/-- The two routes that start a pipeline. -/
inductive Route where
  | process
  | processPodcast
  deriving DecidableEq, Repr

/-- What the callbacks of a pipeline have in their closure: the job, its uploaded files, and the
options of the request. -/
structure Pipeline where
  route : Route
  folderId : String
  sources : List String
  language : String
  aiModel : String
  translate : Bool
  deriving DecidableEq, Repr

/-- The child a pipeline waits for: the encoder, the extraction of the audio, whisper, or whisper
once more for the translation. -/
inductive Stage where
  | encode
  | extract
  | whisper
  | translation
  deriving DecidableEq, Repr

/-- An upload loop that waits for a PUT: the names it has listed, the file it is sending, the names
that are still to come, and how many are through. -/
structure Upload where
  folderId : String
  r2FolderPath : String
  files : List String
  current : File
  rest : List String
  uploadedCount : ℕ
  deriving DecidableEq, Repr

/-- A source of callbacks that are still to come. -/
inductive Task where
  | pipeline (p : Pipeline) (stage : Stage)
  | upload (u : Upload)
  deriving DecidableEq, Repr

/-- The job a task belongs to, whose entry its callback reads. -/
def Task.folderId : Task → String
  | .pipeline p _ => p.folderId
  | .upload u => u.folderId

/-! ### Callbacks -/

/-- What is thrown in a callback: an access to a missing entry, a missing file or an `Error`. -/
inductive Fault where
  | readMissing (property : String)
  | setMissing (property : String)
  | noFile (syscall path : String)
  | error (message : String)
  deriving DecidableEq, Repr

/-- `error.message` of what is thrown. -/
def Fault.message : Fault → String
  | .readMissing property => "Cannot read properties of undefined (reading '" ++ property ++ "')"
  | .setMissing property => "Cannot set properties of undefined (setting '" ++ property ++ "')"
  | .noFile syscall path => "ENOENT: no such file or directory, " ++ syscall ++ " '" ++ path ++ "'"
  | .error message => message

/-- What a callback sees of the server. `faults` counts how often a field of a missing entry has
been read or written. -/
structure JobView where
  job : Option Job
  folder : Option (List File)
  uploads : List String
  bucket : String → Option (List UInt8)
  faults : ℕ

/-- A callback: it works on the view of its job, and may throw. -/
abbrev Callback := EStateM Fault JobView

/-- `path.join(TEMP_DIR, folderId)`, the path of a whisper model, and the settings of the bucket. -/
structure ServerConfig where
  outputFolder : String → String
  modelBin : String → String
  bucketName : Option String
  publicUrl : String

/-- What `fs.existsSync` says about the whisper model and the whisper binary. -/
structure WhisperFiles where
  model : Bool
  bin : Bool
  deriving DecidableEq, Repr

namespace Callback

/-- Read `jobs[folderId][property]`. -/
def readJob {α : Type} (property : String) (f : Job → α) : Callback α := do
  match (← get).job with
  | some job => pure (f job)
  | none => do
    modify fun v => { v with faults := v.faults + 1 }
    throw (.readMissing property)

/-- Set `jobs[folderId][property]`. -/
def setJob (property : String) (f : Job → Job) : Callback PUnit := do
  match (← get).job with
  | some job => modify fun v => { v with job := some (f job) }
  | none => do
    modify fun v => { v with faults := v.faults + 1 }
    throw (.setMissing property)

/-- `jobs[folderId].status = status`. -/
def setStatus (status : Status) : Callback PUnit :=
  setJob "status" fun job => { job with status := some status }

/-- `fs.readdirSync`, with the files. -/
def readdir (path : String) : Callback (List File) := do
  match (← get).folder with
  | some files => pure files
  | none => throw (.noFile "scandir" path)

/-- `fs.readFileSync` and `fs.statSync` of a file of the output folder. -/
def readFile (syscall path name : String) : Callback File := do
  match (← get).folder.bind fun files => files.find? fun file => file.name = name with
  | some file => pure file
  | none => throw (.noFile syscall (path ++ "/" ++ name))

/-- `if (fs.existsSync(f)) fs.unlinkSync(f)`, for each of the uploaded files of a job. -/
def unlinkSources (sources : List String) : Callback PUnit :=
  modify fun v => { v with uploads := v.uploads.filter fun f => f ∉ sources }

/-- `if (fs.existsSync(f)) fs.unlinkSync(f)`, for a file of the output folder. -/
def unlinkOutput (name : String) : Callback PUnit :=
  modify fun v =>
    { v with folder := v.folder.map fun files => files.filter fun file => file.name ≠ name }

/-- `fs.rmSync(outputFolder, { recursive: true, force: true })`. -/
def rmFolder : Callback PUnit := modify fun v => { v with folder := none }

/-- What a PUT stores: the bytes under their key, in place of what was there. -/
def putObject (key : String) (bytes : List UInt8) : Callback PUnit :=
  modify fun v => { v with bucket := Function.update v.bucket key (some bytes) }

end Callback

open Callback

/-- The bytes of some files, as the size of a job adds them up. -/
def totalSize (files : List File) : ℕ := (files.map fun file => file.bytes.length).sum

/-- `Math.round`: the nearest integer, the upper one of two. -/
def mathRound (x : ℚ) : ℤ := (x + 1 / 2).floor

/-- `Math.round((part / whole) * 100)`. The quotient and the product are doubles, so 29 of 200 are
14 percent. -/
def roundPercent (part whole : ℚ) : ℤ :=
  mathRound (JsNumber.toDouble (JsNumber.toDouble (part / whole) * 100))

/-- `jobs[folderId].status = 'error'; jobs[folderId].error = message`. -/
def failJob (message : String) : Callback (List Task) := do
  setStatus .error
  setJob "error" fun job => { job with error := some message }
  pure []

/-- `resolveWhisperModel`: the file of the model that was asked for, or the error if it is
missing. -/
def resolveWhisperModel (cfg : ServerConfig) (found : WhisperFiles) (aiModel : String) :
    Except String String :=
  if found.model then .ok (cfg.modelBin aiModel)
  else .error ("Whisper model missing: " ++ cfg.modelBin aiModel ++
    ". Run: cd whisper.cpp/models && ./download-ggml-model.sh " ++ aiModel)

/-- `spawnWhisper`. The task is what remains to be done when a child has been started. -/
def spawnWhisper (found : WhisperFiles) (task : Task)
    (onError : String → Callback (List Task)) : Callback (List Task) :=
  if found.bin then pure [task]
  else onError
    "Whisper binary not found. Build it: cd whisper.cpp && cmake -B build && cmake --build build"

/-! ### The callbacks of `/process` -/

section Process

variable (cfg : ServerConfig) (p : Pipeline)

/-- `codecData`. The argument is the duration of the event, if it has one. -/
def onCodecData (duration : Option (Option ℚ)) : Callback PUnit :=
  match duration with
  | none => pure ()
  | some duration => setJob "duration" fun job => { job with duration := duration }

/-- `progress`. A percentage that is missing or 0 is ignored. -/
def onProgress (percent : Option ℚ) : Callback PUnit :=
  match percent with
  | none => pure ()
  | some percent =>
    if percent = 0 then pure ()
    else setJob "progress" fun job => { job with progress := some (mathRound percent) }

/-- The encoder has ended: the size is recorded, and the audio is extracted next. -/
def onEncodeEnd : Callback (List Task) := do
  let files ← readdir (cfg.outputFolder p.folderId)
  setJob "newSizeMB" fun job => { job with newSize := some (totalSize files) }
  setStatus .whisper
  pure [.pipeline p .extract]

/-- The encoder has failed: the sources are unlinked, and the job fails. -/
def onEncodeError : Callback (List Task) := do
  unlinkSources p.sources
  failJob "FFmpeg failed"

/-- The audio has been extracted: whisper is started, if its model is there. -/
def onExtractEnd (found : WhisperFiles) : Callback (List Task) :=
  match resolveWhisperModel cfg found p.aiModel with
  | .error message => failJob message
  | .ok _ => spawnWhisper found (.pipeline p .whisper) failJob

/-- The extraction has failed, and the job with it. -/
def onExtractError : Callback (List Task) := failJob "Audio extraction failed"

/-- `onWhisperProgress`. The argument is the time in a chunk of the output, if it has one. -/
def onWhisperProgress (currentSecs : Option ℚ) : Callback PUnit :=
  match currentSecs with
  | none => pure ()
  | some currentSecs => do
    let duration ← readJob "duration" Job.duration
    match duration with
    | none => pure ()
    | some duration =>
      if 0 < duration then
        setJob "whisperProgress" fun job =>
          { job with whisperProgress := some (min (roundPercent currentSecs duration) 100) }
      else pure ()

/-- `finishSuccess`: sources and audio are unlinked, and the job is `done` with its preview. -/
def finishSuccess : Callback (List Task) := do
  unlinkSources p.sources
  unlinkOutput "audio.wav"
  setStatus .done
  setJob "previewUrl" fun job =>
    { job with previewUrl := some ("/temp/" ++ p.folderId ++ "/playlist.m3u8") }
  pure []

/-- The second run of whisper has succeeded. -/
def onTranslationSuccess (finish : Callback (List Task)) : Callback (List Task) := do
  setJob "vttEnglish" fun job =>
    { job with vttEnglish := some ("/temp/" ++ p.folderId ++ "/english.vtt") }
  finish

/-- The first run of whisper has succeeded. -/
def onWhisperSuccess (found : WhisperFiles) : Callback (List Task) := do
  setJob "vttOriginal" fun job =>
    { job with vttOriginal := some ("/temp/" ++ p.folderId ++ "/original.vtt") }
  if p.translate = true ∧ p.language ≠ "English" then do
    setStatus .translating
    setJob "whisperProgress" fun job => { job with whisperProgress := some 0 }
    spawnWhisper found (.pipeline p .translation) failJob
  else finishSuccess p

end Process

/-! ### The callbacks of `/process-podcast` -/

section ProcessPodcast

variable (p : Pipeline)

/-- The encoder of a podcast has ended: the audio is extracted next. -/
def onPodcastEncodeEnd : Callback (List Task) := do
  setStatus .whisper
  pure [.pipeline p .extract]

/-- `finishJob`: the size is recorded, the sources are unlinked, and the podcast is `done` with its
preview. -/
def finishJob : Callback (List Task) := do
  let totalBytes := ((← get).folder.map totalSize).getD 0
  setJob "newSizeMB" fun job => { job with newSize := some totalBytes }
  unlinkSources p.sources
  setStatus .done
  setJob "previewUrl" fun job =>
    { job with previewUrl := some ("/temp/" ++ p.folderId ++ "/playlist.m3u8") }
  pure []

/-- The first run of whisper has succeeded. -/
def onPodcastWhisperSuccess (found : WhisperFiles) : Callback (List Task) := do
  setJob "vttOriginal" fun job =>
    { job with vttOriginal := some ("/temp/" ++ p.folderId ++ "/original.vtt") }
  if p.translate = true ∧ p.language ≠ "English" then do
    setStatus .translating
    spawnWhisper found (.pipeline p .translation) failJob
  else finishJob p

end ProcessPodcast

/-! ### The upload loop -/

section UploadLoop

variable (cfg : ServerConfig)

/-- `replace(/\s+/g, '_')`: a run of white space becomes one underscore. -/
def replaceSpaces : Bool → List Char → List Char
  | _, [] => []
  | inside, c :: cs =>
    if isJsSpace c then if inside then replaceSpaces true cs else '_' :: replaceSpaces true cs
    else c :: replaceSpaces false cs

/-- The folder of an episode in the bucket. -/
def r2FolderPath (series episode : String) : String :=
  String.ofList (replaceSpaces false (trim series).toList) ++ "/Ep" ++ episode

/-- The `catch` of the upload loop. -/
def catchUpload (body : Callback (List Task)) : Callback (List Task) :=
  tryCatch body fun fault => failJob ("Cloudflare Upload Failed: " ++ fault.message)

/-- What the upload loop does when all files are through. -/
def finishUpload (folderId r2FolderPath : String) (files : List String) :
    Callback (List Task) := do
  let publicBase := cfg.publicUrl ++ "/" ++ r2FolderPath
  let stats ← files.mapM (readFile "stat" (cfg.outputFolder folderId))
  rmFolder
  setStatus .r2_done
  setJob "finalUrl" fun job => { job with finalUrl := some (publicBase ++ "/playlist.m3u8") }
  setJob "finalVttOriginal" fun job =>
    { job with finalVttOriginal :=
        if "original.vtt" ∈ files then some (publicBase ++ "/original.vtt") else none }
  setJob "finalVttEnglish" fun job =>
    { job with finalVttEnglish :=
        if "english.vtt" ∈ files then some (publicBase ++ "/english.vtt") else none }
  setJob "finalSizeMB" fun job => { job with finalSize := some (totalSize stats) }
  setJob "finalDurationSec" fun job =>
    { job with finalDurationSec := some (job.duration.getD 0) }
  pure []

/-- The upload loop, from a file on to the next PUT. -/
def uploadNext (folderId r2FolderPath : String) (files : List String) (uploadedCount : ℕ) :
    List String → Callback (List Task)
  | [] => finishUpload cfg folderId r2FolderPath files
  | file :: rest => do
    let current ← readFile "open" (cfg.outputFolder folderId) file
    pure [.upload ⟨folderId, r2FolderPath, files, current, rest, uploadedCount⟩]

/-- The upload loop, up to its first PUT. -/
def startUpload (folderId r2FolderPath : String) : Callback (List Task) := do
  let files ← readdir (cfg.outputFolder folderId)
  if cfg.bucketName.getD "" = "" then throw (.error "R2_BUCKET_NAME is not set in .env")
  else uploadNext cfg folderId r2FolderPath (files.map File.name) 0 (files.map File.name)

/-- `/upload-to-r2`. Without the output folder it answers 400 and does nothing. -/
def uploadToR2 (folderId series episode : String) : Callback (List Task) := do
  match (← get).folder with
  | none => pure []
  | some _ => do
    modify fun v => { v with job := some (v.job.getD Job.blank) }
    setStatus .uploading_r2
    setJob "r2Progress" fun job => { job with r2Progress := some 0 }
    catchUpload (startUpload cfg folderId (r2FolderPath series episode))

/-- The PUT has succeeded: progress is reported, and the next file follows or the links are set. -/
def onPut (u : Upload) : Callback (List Task) :=
  catchUpload do
    putObject (u.r2FolderPath ++ "/" ++ u.current.name) u.current.bytes
    setJob "r2Progress" fun job =>
      { job with
        r2Progress := some (roundPercent (u.uploadedCount + 1 : ℕ) u.files.length) }
    uploadNext cfg u.folderId u.r2FolderPath u.files (u.uploadedCount + 1) u.rest

/-- The PUT has failed, which is caught as an error of the upload. -/
def onPutError (message : String) : Callback (List Task) :=
  catchUpload (throw (.error message))

end UploadLoop

/-! ### Which callback runs -/

/-- What a child or a PUT reports. `ended` is the `end` event of ffmpeg, the exit of whisper with
code 0, and a PUT that has been stored; `failed` is the `error` event of ffmpeg, any other exit of
whisper, and a PUT that is rejected. -/
inductive Signal where
  | codecData (duration : Option (Option ℚ))
  | progress (percent : Option ℚ)
  | stdout (currentSecs : Option ℚ)
  | ended (found : WhisperFiles)
  | failed (message : String)
  | spawnFailed (message : String)
  deriving DecidableEq, Repr

/-- A callback after which the child is still running. -/
def keep {α : Type} (task : Task) (body : Callback α) : Callback (List Task) := do
  let _ ← body
  pure [task]

/-- The handlers of a whisper child. A child that could not be started exits as well. -/
def whisperCallback (task : Task) (onStdout : Option (Option ℚ → Callback PUnit))
    (onSuccess : WhisperFiles → Callback (List Task)) : Signal → Option (Callback (List Task))
  | .stdout currentSecs => onStdout.map fun handler => keep task (handler currentSecs)
  | .ended found => some (onSuccess found)
  | .failed detail => some (failJob ("Whisper CPP failed (" ++ detail ++ ")"))
  | .spawnFailed message => some (keep task (failJob ("Whisper spawn error: " ++ message)))
  | _ => none

/-- The callbacks of `/process`: which handler the event of a child runs. -/
def processCallback (cfg : ServerConfig) (p : Pipeline) :
    Stage → Signal → Option (Callback (List Task))
  | .encode, .codecData duration => some (keep (.pipeline p .encode) (onCodecData duration))
  | .encode, .progress percent => some (keep (.pipeline p .encode) (onProgress percent))
  | .encode, .ended _ => some (onEncodeEnd cfg p)
  | .encode, .failed _ => some (onEncodeError p)
  | .extract, .ended found => some (onExtractEnd cfg p found)
  | .extract, .failed _ => some onExtractError
  | .whisper, signal =>
    whisperCallback (.pipeline p .whisper) (some onWhisperProgress) (onWhisperSuccess p) signal
  | .translation, signal =>
    whisperCallback (.pipeline p .translation) (some onWhisperProgress)
      (fun _ => onTranslationSuccess p (finishSuccess p)) signal
  | _, _ => none

/-- The callbacks of `/process-podcast`. -/
def podcastCallback (cfg : ServerConfig) (p : Pipeline) :
    Stage → Signal → Option (Callback (List Task))
  | .encode, .ended _ => some (onPodcastEncodeEnd p)
  | .encode, .failed message => some (failJob message)
  | .extract, .ended found => some (onExtractEnd cfg p found)
  | .extract, .failed message => some (failJob message)
  | .whisper, signal =>
    whisperCallback (.pipeline p .whisper) none (onPodcastWhisperSuccess p) signal
  | .translation, signal =>
    whisperCallback (.pipeline p .translation) none
      (fun _ => onTranslationSuccess p (finishJob p)) signal
  | _, _ => none

/-- The callback a signal runs, if there is a handler for it. -/
def callback (cfg : ServerConfig) : Task → Signal → Option (Callback (List Task))
  | .pipeline p stage, signal =>
    match p.route with
    | .process => processCallback cfg p stage signal
    | .processPodcast => podcastCallback cfg p stage signal
  | .upload u, .ended _ => some (onPut cfg u)
  | .upload _, .failed message => some (onPutError message)
  | .upload _, _ => none

/-! ### The server -/

/-- The state of the server: its jobs and their folders, the uploads, the bucket and what is
pending. -/
structure Server where
  jobs : String → Option Job
  folders : String → Option (List File)
  uploads : List String
  bucket : String → Option (List UInt8)
  tasks : List Task
  crashed : Bool
  faults : ℕ
  issued : List String
  cancelled : List String

/-- What the outside does: requests, files that the children write, and signals. -/
inductive Event where
  | process (p : Pipeline) (size : ℕ)
  | uploadToR2 (folderId series episode : String)
  | cancel (folderId : String)
  | written (p : Pipeline) (stage : Stage) (file : File)
  | callback (task : Task) (signal : Signal)
  deriving DecidableEq, Repr

/-- The files a child writes into the output folder. -/
def Stage.writes : Stage → String → Bool
  | .encode, name => name = "playlist.m3u8" || ".ts".toList.isSuffixOf name.toList
  | .extract, name => name = "audio.wav"
  | .whisper, name => name = "original.vtt"
  | .translation, name => name = "english.vtt"

/-- A file among the files of a folder, which are kept in the order in which a directory is read. -/
def insertFile (file : File) : List File → List File
  | [] => [file]
  | f :: files =>
    if f.name = file.name then file :: files
    else if file.name < f.name then file :: f :: files
    else f :: insertFile file files

namespace Server

variable (cfg : ServerConfig)

/-- What the callbacks of a job see. -/
def view (folderId : String) (s : Server) : JobView where
  job := s.jobs folderId
  folder := s.folders (cfg.outputFolder folderId)
  uploads := s.uploads
  bucket := s.bucket
  faults := s.faults

/-- What a callback leaves in its view is put back into the server. -/
def put (folderId : String) (v : JobView) (s : Server) : Server :=
  { s with
    jobs := Function.update s.jobs folderId v.job
    folders := Function.update s.folders (cfg.outputFolder folderId) v.folder
    uploads := v.uploads
    bucket := v.bucket
    faults := v.faults }

/-- Run a callback of a job. What it throws takes the process down. -/
def react (folderId : String) (handler : Callback (List Task)) (s : Server) : Server :=
  match handler (s.view cfg folderId) with
  | .ok tasks v => { s.put cfg folderId v with tasks := s.tasks ++ tasks }
  | .error _ v => { s.put cfg folderId v with crashed := true }

/-- `/process` and `/process-podcast`, into an output folder that has just been made. -/
def startPipeline (p : Pipeline) (size : ℕ) (s : Server) : Server :=
  { s with
    jobs := Function.update s.jobs p.folderId (some (Job.initial size p.language))
    folders := Function.update s.folders (cfg.outputFolder p.folderId) (some [])
    uploads := s.uploads ++ p.sources
    tasks := s.tasks ++ [.pipeline p .encode]
    issued := cfg.outputFolder p.folderId :: s.issued }

/-- `/cancel`: the entry of the job is deleted and its folder removed; what is pending is not
stopped. -/
def cancel (folderId : String) (s : Server) : Server :=
  { s with
    jobs := Function.update s.jobs folderId none
    folders := Function.update s.folders (cfg.outputFolder folderId) none
    cancelled := if (s.jobs folderId).isSome then folderId :: s.cancelled else s.cancelled }

/-- A child writes a file into a folder that is there. -/
def writeFile (path : String) (file : File) (s : Server) : Option Server :=
  (s.folders path).map fun files =>
    { s with folders := Function.update s.folders path (some (insertFile file files)) }

/-- What an event makes of the server. The name of an uploaded file is random, so a pipeline gets
an output folder that was never there before. -/
def step (s : Server) (e : Event) : Option Server :=
  if s.crashed then none
  else
    match e with
    | .process p size =>
      if cfg.outputFolder p.folderId ∈ s.issued then none else some (s.startPipeline cfg p size)
    | .uploadToR2 folderId series episode =>
      some (s.react cfg folderId (Mogo.uploadToR2 cfg folderId series episode))
    | .cancel folderId => some (s.cancel cfg folderId)
    | .written p stage file =>
      if Task.pipeline p stage ∈ s.tasks ∧ stage.writes file.name then
        s.writeFile (cfg.outputFolder p.folderId) file
      else none
    | .callback task signal =>
      if task ∈ s.tasks then
        (Mogo.callback cfg task signal).map fun handler =>
          Server.react cfg task.folderId handler { s with tasks := s.tasks.erase task }
      else none

/-- A server that has just been started. Output folders may be left from before. -/
structure Initial (s : Server) : Prop where
  jobs : ∀ folderId, s.jobs folderId = none
  tasks : s.tasks = []
  folders : ∀ path, s.folders path ≠ none → path ∈ s.issued
  cancelled : s.cancelled = []

/-- A server over an empty temporary directory. -/
def fresh : Server :=
  ⟨fun _ => none, fun _ => none, [], fun _ => none, [], false, 0, [], []⟩

/-- A server that has just been started is in a state to start from. -/
theorem fresh_initial : Initial fresh :=
  ⟨fun _ => rfl, rfl, fun _ hpath => absurd rfl hpath, rfl⟩

end Server

/-! ### An example -/

/-- A server that publishes in the bucket `mogo`. -/
def mogoConfig : ServerConfig :=
  ⟨fun folderId => "temp/" ++ folderId, fun aiModel => "models/ggml-" ++ aiModel ++ ".bin",
    some "mogo", "https://cdn"⟩

/-- A video that is to be translated. -/
def lecture : Pipeline :=
  ⟨.process, "17-lecture", ["temp/17-lecture.mp4"], "Hindi", "small", true⟩

/-- A podcast in English, which has no translation. -/
def talk : Pipeline :=
  ⟨.processPodcast, "18-talk", ["temp/18-cover.png", "temp/18-talk.mp3"], "English", "small", true⟩

/-- The run of the podcast up to `done`. -/
def talkDone : List Event :=
  [.process talk 10, .written talk .encode ⟨"playlist.m3u8", [1]⟩,
    .callback (.pipeline talk .encode) (.ended ⟨true, true⟩),
    .callback (.pipeline talk .extract) (.ended ⟨true, true⟩),
    .callback (.pipeline talk .whisper) (.ended ⟨true, true⟩)]

/-- The one PUT of the podcast's upload, for an episode. -/
def talkPut (episode : String) : Task :=
  .upload ⟨"18-talk", "My_Show/Ep" ++ episode, ["playlist.m3u8"], ⟨"playlist.m3u8", [1]⟩, [], 0⟩

end Mogo
