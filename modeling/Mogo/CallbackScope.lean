import Mogo.ServerSteps

/-!
# What the Statements of a Callback Change

`Change` lists what one statement of a callback may do to what the callback sees, and `Scoped` says
of a callback that it is made of such statements, and that what it leaves pending is of its own
kind: the next child of its pipeline, or the next PUT of its upload loop.

What callbacks keep is then read off the list: nothing but the upload loop puts anything into the
bucket, uploaded files are only unlinked, and the entry of a job always has a status, and a link
once that is `r2_done`.

## Main results

* `callback_scoped`: the callbacks of the server.
* `inside_react`: what they leave in the files of the server, and among its tasks.
* `Changes.telling`: what an entry tells.
-/

namespace Mogo

open Handler Callback

/-- The pipeline a task is of, if it is of one. -/
def Task.origin : Task → Option Pipeline
  | .pipeline p _ => some p
  | .upload _ => none

/-- What a statement of a callback may do. -/
inductive Change (online : Prop) : JobView → JobView → Prop
  | fault (v : JobView) (h : v.job = none) : Change online v { v with faults := v.faults + 1 }
  | edit (v : JobView) (job : Job) (f : Job → Job) (h : v.job = some job)
      (hstatus : (f job).status = job.status) (hurl : (f job).finalUrl = job.finalUrl) :
      Change online v { v with job := some (f job) }
  | status (v : JobView) (job : Job) (status : Status) (h : v.job = some job)
      (hstatus : status ≠ .r2_done) :
      Change online v { v with job := some { job with status := some status } }
  | publish (v : JobView) (job : Job) (url : String) (h : v.job = some job) (hurl : url ≠ "") :
      Change online v
        { v with job := some { job with status := some .r2_done, finalUrl := some url } }
  | unlinkSources (v : JobView) (sources : List String) :
      Change online v { v with uploads := v.uploads.filter fun f => f ∉ sources }
  | folder (v : JobView) (folder : Option (List File)) :
      Change online v { v with folder := folder }
  | put (v : JobView) (honline : online) (key : String) (bytes : List UInt8) :
      Change online v { v with bucket := Function.update v.bucket key (some bytes) }

/-- What its statements do one after the other. -/
abbrev Changes (online : Prop) : JobView → JobView → Prop := Relation.ReflTransGen (Change online)

instance (online : Prop) : Std.Refl (Changes online) := ⟨fun _ => .refl⟩

/-- A callback of a pipeline, or of an upload loop if there is none. -/
structure Scoped (origin : Option Pipeline) (h : Callback (List Task)) : Prop where
  moves : Moves (Changes (origin = none)) h
  returns : Returns (fun tasks => ∀ task ∈ tasks, task.origin = origin) h

/-! ### The statements of the callbacks -/

section Statements

variable {online : Prop}

/-- An edit of the entry that leaves the status and the link alone is within the scope of every
callback. -/
theorem changes_setJob {property : String} {f : Job → Job}
    (hf : ∀ job, (f job).status = job.status ∧ (f job).finalUrl = job.finalUrl) :
    Moves (Changes online) (setJob property f) := by
  intro v
  cases h : v.job with
  | none =>
      rw [final_of_error (setJob_of_none h property f)]
      exact .single (.fault v h)
  | some job =>
      rw [final_of_ok (setJob_of_some h property f)]
      exact .single (.edit v job f h (hf job).1 (hf job).2)

/-- Any status may be set, except the one that says the upload is over. -/
theorem changes_setStatus {status : Status} (hstatus : status ≠ .r2_done) :
    Moves (Changes online) (setStatus status) := by
  intro v
  cases h : v.job with
  | none =>
      rw [final_of_error (setStatus_of_none h status)]
      exact .single (.fault v h)
  | some job =>
      rw [setStatus, final_of_ok (setJob_of_some h _ _)]
      exact .single (.status v job status h hstatus)

/-- The two statements that say that an upload is done. -/
theorem changes_publish {url : String} (hurl : url ≠ "") :
    Moves (Changes online) (setStatus .r2_done >>= fun _ =>
      setJob "finalUrl" fun job => { job with finalUrl := some url }) := by
  intro v
  cases h : v.job with
  | none =>
      rw [final_of_error (bind_of_error (setStatus_of_none h .r2_done))]
      exact .single (.fault v h)
  | some job =>
      rw [final, setStatus, bind_of_ok (setJob_of_some h _ _)]
      exact .single (.publish v job url h hurl)

/-- Reading a field of the entry changes nothing, whether the entry is there or not. -/
theorem changes_readJob {α : Type} (property : String) (f : Job → α) :
    Moves (Changes online) (readJob property f) := by
  intro v
  cases h : v.job with
  | none =>
      rw [final_of_error (readJob_of_none h property f)]
      exact .single (.fault v h)
  | some job =>
      rw [final_of_ok (readJob_of_some h property f)]

/-- The files of a folder are read without any effect. -/
theorem final_readdir (path : String) (v : JobView) : final (readdir path) v = v := by
  rw [final, readdir, get_bind]
  cases v.folder with
  | none => rfl
  | some files => rfl

/-- Reading a file leaves the view as it was, even when the file is missing. -/
theorem final_readFile (syscall path name : String) (v : JobView) :
    final (readFile syscall path name) v = v := by
  rw [final, readFile, get_bind]
  cases v.folder.bind fun files => files.find? fun file => file.name = name with
  | none => rfl
  | some file => rfl

/-- Listing the folder is a statement that changes nothing. -/
theorem changes_readdir (path : String) : Moves (Changes online) (readdir path) := by
  intro v
  rw [final_readdir]

/-- Reading a file of the folder is a statement that changes nothing, whether it succeeds or
throws. -/
theorem changes_readFile (syscall path name : String) :
    Moves (Changes online) (readFile syscall path name) := by
  intro v
  rw [final_readFile]

/-- Unlinking sources touches only the folder of uploads. -/
theorem changes_unlinkSources (sources : List String) :
    Moves (Changes online) (unlinkSources sources) :=
  Moves.of_modify fun v => .single (.unlinkSources v sources)

/-- Unlinking an output file only takes a file out of the folder of the job. -/
theorem changes_unlinkOutput (name : String) : Moves (Changes online) (unlinkOutput name) :=
  Moves.of_modify fun v => .single (.folder v _)

/-- Removing the folder of the job is within the scope of every callback. -/
theorem changes_rmFolder : Moves (Changes online) rmFolder :=
  Moves.of_modify fun v => .single (.folder v none)

/-- Only callbacks of an upload may write to the bucket, hence the hypothesis. -/
theorem changes_putObject (honline : online) (key : String) (bytes : List UInt8) :
    Moves (Changes online) (putObject key bytes) :=
  Moves.of_modify fun v => .single (.put v honline key bytes)

end Statements

/-! ### The rules -/

section Rules

variable {origin : Option Pipeline} {α : Type} {h h' : Callback (List Task)} {m : Callback α}
  {f : α → Callback (List Task)}

/-- A callback that does nothing and starts nothing is scoped. -/
theorem Scoped.nil : Scoped origin (Pure.pure []) :=
  ⟨Moves.pure _, Returns.pure (by simp)⟩

/-- A callback that only starts a task of its own origin is scoped. -/
theorem Scoped.single {task : Task} (htask : task.origin = origin) :
    Scoped origin (Pure.pure [task]) :=
  ⟨Moves.pure _, Returns.pure fun _ ht => List.mem_singleton.mp ht ▸ htask⟩

/-- Whatever comes first must change only what is in scope; what follows must be scoped after every
result of it. -/
theorem Scoped.bind (hm : Moves (Changes (origin = none)) m) (hf : ∀ a, Scoped origin (f a)) :
    Scoped origin (m >>= f) :=
  ⟨hm.bind fun a => (hf a).moves, Returns.bind fun a => (hf a).returns⟩

/-- Two statements before the rest of a callback are as good as one. -/
theorem Scoped.bind_bind {β : Type} {m' : Callback β} {f : β → Callback (List Task)}
    (hm : Moves (Changes (origin = none)) (m >>= fun _ => m')) (hf : ∀ b, Scoped origin (f b)) :
    Scoped origin (m >>= fun _ => m' >>= f) := by
  rw [← bind_assoc]
  exact Scoped.bind hm hf

/-- A branch is scoped when both sides are. -/
theorem Scoped.ite {p : Prop} [Decidable p] (hh : Scoped origin h) (hh' : Scoped origin h') :
    Scoped origin (if p then h else h') :=
  ⟨hh.moves.ite hh'.moves, hh.returns.ite hh'.returns⟩

/-- A `catch` is scoped when the body and every handler are. -/
theorem Scoped.tryCatch (hh : Scoped origin h) {catchFault : Fault → Callback (List Task)}
    (hcatch : ∀ fault, Scoped origin (catchFault fault)) :
    Scoped origin (MonadExcept.tryCatch h catchFault) :=
  ⟨hh.moves.tryCatch fun fault => (hcatch fault).moves,
    hh.returns.tryCatch fun fault => (hcatch fault).returns⟩

end Rules

/-! ### The callbacks of a pipeline -/

section Pipelines

variable {cfg : ServerConfig} {origin : Option Pipeline} {p : Pipeline} {task : Task}

/-- Marking the entry as failed is within the scope of every callback. -/
theorem failJob_scoped (message : String) : Scoped origin (failJob message) :=
  .bind (changes_setStatus (by simp)) fun _ =>
    .bind (changes_setJob fun _ => ⟨rfl, rfl⟩) fun _ => .nil

/-- A callback that keeps its own child waiting is scoped when its body is. -/
theorem keep_scoped {α : Type} {body : Callback α} (htask : task.origin = origin)
    (h : Moves (Changes (origin = none)) body) : Scoped origin (keep task body) :=
  .bind h fun _ => .single htask

/-- Starting whisper is scoped, and so is the failure to find it. -/
theorem spawnWhisper_scoped (found : WhisperFiles) (htask : task.origin = origin) :
    Scoped origin (spawnWhisper found task failJob) :=
  .ite (.single htask) (failJob_scoped _)

/-- The duration of the source is a field that no scope excludes. -/
theorem changes_onCodecData {online : Prop} (duration : Option (Option ℚ)) :
    Moves (Changes online) (onCodecData duration) := by
  cases duration with
  | none => exact Moves.pure _
  | some duration => exact changes_setJob fun _ => ⟨rfl, rfl⟩

/-- The bar of the encoder is a field that no scope excludes. -/
theorem changes_onProgress {online : Prop} (percent : Option ℚ) :
    Moves (Changes online) (onProgress percent) := by
  cases percent with
  | none => exact Moves.pure _
  | some percent => exact Moves.ite (Moves.pure _) (changes_setJob fun _ => ⟨rfl, rfl⟩)

/-- The bar of whisper is a field that no scope excludes. -/
theorem changes_onWhisperProgress {online : Prop} (currentSecs : Option ℚ) :
    Moves (Changes online) (onWhisperProgress currentSecs) := by
  cases currentSecs with
  | none => exact Moves.pure _
  | some currentSecs =>
      refine (changes_readJob _ _).bind fun duration => ?_
      cases duration with
      | none => exact Moves.pure _
      | some duration => exact Moves.ite (changes_setJob fun _ => ⟨rfl, rfl⟩) (Moves.pure _)

/-- The end of a `/process` pipeline is within the scope of every callback. -/
theorem finishSuccess_scoped (p : Pipeline) : Scoped origin (finishSuccess p) :=
  .bind (changes_unlinkSources _) fun _ => .bind (changes_unlinkOutput _) fun _ =>
    .bind (changes_setStatus (by simp)) fun _ =>
      .bind (changes_setJob fun _ => ⟨rfl, rfl⟩) fun _ => .nil

/-- The end of a podcast pipeline is within the scope of every callback. -/
theorem finishJob_scoped (p : Pipeline) : Scoped origin (finishJob p) :=
  .bind (fun v => refl_of _ v) fun _ => .bind (changes_setJob fun _ => ⟨rfl, rfl⟩) fun _ =>
    .bind (changes_unlinkSources _) fun _ => .bind (changes_setStatus (by simp)) fun _ =>
      .bind (changes_setJob fun _ => ⟨rfl, rfl⟩) fun _ => .nil

/-- After the encoding a pipeline goes on with its own extraction. -/
theorem onEncodeEnd_scoped (cfg : ServerConfig) (p : Pipeline) :
    Scoped (some p) (onEncodeEnd cfg p) :=
  .bind (changes_readdir _) fun _ => .bind (changes_setJob fun _ => ⟨rfl, rfl⟩) fun _ =>
    .bind (changes_setStatus (by simp)) fun _ => .single rfl

/-- A failed encoding ends the pipeline within its scope. -/
theorem onEncodeError_scoped (p : Pipeline) : Scoped origin (onEncodeError p) :=
  .bind (changes_unlinkSources _) fun _ => failJob_scoped _

/-- After the extraction a pipeline goes on with its own run of whisper. -/
theorem onExtractEnd_scoped (cfg : ServerConfig) (p : Pipeline) (found : WhisperFiles) :
    Scoped (some p) (onExtractEnd cfg p found) := by
  rw [onExtractEnd]
  split
  · exact failJob_scoped _
  · exact spawnWhisper_scoped found rfl

/-- After a translation the pipeline finishes, in the way its route prescribes. -/
theorem onTranslationSuccess_scoped (p : Pipeline) {finish : Callback (List Task)}
    (hfinish : Scoped origin finish) : Scoped origin (onTranslationSuccess p finish) :=
  .bind (changes_setJob fun _ => ⟨rfl, rfl⟩) fun _ => hfinish

/-- After whisper a pipeline goes on with its own translation, or finishes. -/
theorem onWhisperSuccess_scoped (p : Pipeline) (found : WhisperFiles) :
    Scoped (some p) (onWhisperSuccess p found) := by
  refine .bind (changes_setJob fun _ => ⟨rfl, rfl⟩) fun _ => .ite ?_ (finishSuccess_scoped p)
  exact .bind (changes_setStatus (by simp)) fun _ =>
    .bind (changes_setJob fun _ => ⟨rfl, rfl⟩) fun _ => spawnWhisper_scoped found rfl

/-- After the encoding a podcast goes on with its own extraction. -/
theorem onPodcastEncodeEnd_scoped (p : Pipeline) : Scoped (some p) (onPodcastEncodeEnd p) :=
  .bind (changes_setStatus (by simp)) fun _ => .single rfl

/-- After whisper a podcast goes on with its own translation, or finishes. -/
theorem onPodcastWhisperSuccess_scoped (p : Pipeline) (found : WhisperFiles) :
    Scoped (some p) (onPodcastWhisperSuccess p found) := by
  refine .bind (changes_setJob fun _ => ⟨rfl, rfl⟩) fun _ => .ite ?_ (finishJob_scoped p)
  exact .bind (changes_setStatus (by simp)) fun _ => spawnWhisper_scoped found rfl

/-- The handlers of a whisper child keep to their scope when what they are given to run does. -/
theorem whisperCallback_scoped (htask : task.origin = origin)
    {onStdout : Option (Option ℚ → Callback PUnit)}
    (hstdout : ∀ handler ∈ onStdout, ∀ secs, Moves (Changes (origin = none)) (handler secs))
    {onSuccess : WhisperFiles → Callback (List Task)}
    (hsuccess : ∀ found, Scoped origin (onSuccess found)) {signal : Signal}
    {h : Callback (List Task)} (hh : whisperCallback task onStdout onSuccess signal = some h) :
    Scoped origin h := by
  rw [whisperCallback.eq_def] at hh
  split at hh
  · obtain ⟨handler, hhandler, rfl⟩ := Option.map_eq_some_iff.mp hh
    exact keep_scoped htask (hstdout handler hhandler _)
  · exact Option.some.inj hh ▸ hsuccess _
  · exact Option.some.inj hh ▸ failJob_scoped _
  · exact Option.some.inj hh ▸ keep_scoped htask (failJob_scoped _).moves
  · cases hh

/-- The reader of whisper's output, where a stage has one, only moves the bar. -/
theorem changes_onStdout {online : Prop} :
    ∀ handler ∈ some onWhisperProgress, ∀ secs, Moves (Changes online) (handler secs) := by
  rintro handler h secs
  rw [← Option.some.inj h]
  exact changes_onWhisperProgress secs

/-- Every callback of a `/process` pipeline stays within the scope of that pipeline. -/
theorem processCallback_scoped {stage : Stage} {signal : Signal} {h : Callback (List Task)}
    (hh : processCallback cfg p stage signal = some h) : Scoped (some p) h := by
  rw [processCallback.eq_def] at hh
  split at hh
  · exact Option.some.inj hh ▸ keep_scoped rfl (changes_onCodecData _)
  · exact Option.some.inj hh ▸ keep_scoped rfl (changes_onProgress _)
  · exact Option.some.inj hh ▸ onEncodeEnd_scoped cfg p
  · exact Option.some.inj hh ▸ onEncodeError_scoped p
  · exact Option.some.inj hh ▸ onExtractEnd_scoped cfg p _
  · exact Option.some.inj hh ▸ failJob_scoped _
  · exact whisperCallback_scoped (by rfl) changes_onStdout (onWhisperSuccess_scoped p) hh
  · exact whisperCallback_scoped (by rfl) changes_onStdout
      (fun _ => onTranslationSuccess_scoped p (finishSuccess_scoped p)) hh
  · cases hh

/-- Every callback of a podcast pipeline stays within the scope of that pipeline. -/
theorem podcastCallback_scoped {stage : Stage} {signal : Signal} {h : Callback (List Task)}
    (hh : podcastCallback cfg p stage signal = some h) : Scoped (some p) h := by
  rw [podcastCallback.eq_def] at hh
  split at hh
  · exact Option.some.inj hh ▸ onPodcastEncodeEnd_scoped p
  · exact Option.some.inj hh ▸ failJob_scoped _
  · exact Option.some.inj hh ▸ onExtractEnd_scoped cfg p _
  · exact Option.some.inj hh ▸ failJob_scoped _
  · exact whisperCallback_scoped (by rfl) (by simp) (onPodcastWhisperSuccess_scoped p) hh
  · exact whisperCallback_scoped (by rfl) (by simp)
      (fun _ => onTranslationSuccess_scoped p (finishJob_scoped p)) hh
  · cases hh

end Pipelines

/-! ### The callbacks of the upload loop -/

section Uploads

variable {cfg : ServerConfig}

/-- Reading any number of files changes nothing. -/
theorem changes_mapM_readFile {online : Prop} (syscall path : String) (files : List String) :
    Moves (Changes online) (files.mapM (readFile syscall path)) := by
  induction files with
  | nil => exact Moves.pure _
  | cons file files ih =>
      rw [List.mapM_cons]
      exact Moves.bind (changes_readFile _ _ _) fun _ => Moves.bind ih fun _ => Moves.pure _

/-- The end of an upload sets the links and `r2_done` and starts no task. -/
theorem finishUpload_scoped (cfg : ServerConfig) (folderId r2FolderPath : String)
    (files : List String) : Scoped none (finishUpload cfg folderId r2FolderPath files) :=
  .bind (changes_mapM_readFile _ _ _) fun _ => .bind changes_rmFolder fun _ =>
    .bind_bind (changes_publish (by simp)) fun _ =>
      .bind (changes_setJob fun _ => ⟨rfl, rfl⟩) fun _ =>
        .bind (changes_setJob fun _ => ⟨rfl, rfl⟩) fun _ =>
          .bind (changes_setJob fun _ => ⟨rfl, rfl⟩) fun _ =>
            .bind (changes_setJob fun _ => ⟨rfl, rfl⟩) fun _ => .nil

/-- The next turn of the upload loop starts a PUT at most, or ends the upload. -/
theorem uploadNext_scoped (cfg : ServerConfig) (folderId r2FolderPath : String)
    (files : List String) (uploadedCount : ℕ) (rest : List String) :
    Scoped none (uploadNext cfg folderId r2FolderPath files uploadedCount rest) := by
  cases rest with
  | nil => exact finishUpload_scoped _ _ _ _
  | cons file rest => exact .bind (changes_readFile _ _ _) fun _ => .single rfl

/-- The handler around an upload only marks the entry as failed. -/
theorem catchUpload_scoped {body : Callback (List Task)} (h : Scoped none body) :
    Scoped none (catchUpload body) :=
  .tryCatch h fun _ => failJob_scoped _

/-- A fault that is thrown starts nothing. -/
theorem throw_scoped (fault : Fault) : Scoped none (throw fault) :=
  ⟨Moves.throw fault, Returns.throw fault⟩

/-- The start of an upload lists the folder and starts its first PUT at most. -/
theorem startUpload_scoped (cfg : ServerConfig) (folderId r2FolderPath : String) :
    Scoped none (startUpload cfg folderId r2FolderPath) :=
  .bind (changes_readdir _) fun _ => .ite (throw_scoped _) (uploadNext_scoped _ _ _ _ _ _)

/-- A PUT that has succeeded writes to the bucket and goes on with the upload. -/
theorem onPut_scoped (cfg : ServerConfig) (u : Upload) : Scoped none (onPut cfg u) :=
  catchUpload_scoped <| .bind (changes_putObject rfl _ _) fun _ =>
    .bind (changes_setJob fun _ => ⟨rfl, rfl⟩) fun _ => uploadNext_scoped _ _ _ _ _ _

/-- **Every callback** stays in its scope. -/
theorem callback_scoped {task : Task} {signal : Signal} {h : Callback (List Task)}
    (hh : callback cfg task signal = some h) : Scoped task.origin h := by
  rw [callback.eq_def] at hh
  split at hh
  · split at hh
    · exact processCallback_scoped hh
    · exact podcastCallback_scoped hh
  · exact Option.some.inj hh ▸ onPut_scoped cfg _
  · exact Option.some.inj hh ▸ catchUpload_scoped (throw_scoped _)
  · cases hh

end Uploads

/-! ### What changes keep -/

/-- What an entry tells: its status, and the link once the upload is done. -/
structure Job.Telling (job : Job) : Prop where
  status : job.status ≠ none
  finalUrl : job.status = some .r2_done → ∃ url, job.finalUrl = some url ∧ url ≠ ""

section Keeps

variable {online : Prop} {v v' : JobView}

/-- A callback only unlinks uploaded files: none of those left is new. -/
theorem Changes.uploads (h : Changes online v v') : ∀ f ∈ v'.uploads, f ∈ v.uploads := by
  induction h with
  | refl => exact fun f hf => hf
  | tail _ hchange ih =>
      cases hchange with
      | unlinkSources sources => exact fun f hf => ih f (List.mem_of_mem_filter hf)
      | _ => exact ih

/-- Nothing but the upload loop touches the bucket. -/
theorem Changes.bucket (h : Changes online v v') (hoff : ¬ online) : v'.bucket = v.bucket := by
  induction h with
  | refl => rfl
  | tail _ hchange ih =>
      cases hchange with
      | put honline key bytes => exact absurd honline hoff
      | _ => exact ih

/-- No entry is made or lost, and an entry that tells still does. -/
theorem Changes.telling (h : Changes online v v') (hv : ∀ job ∈ v.job, job.Telling) :
    ∀ job ∈ v'.job, job.Telling := by
  induction h with
  | refl => exact hv
  | tail _ hchange ih =>
      cases hchange with
      | edit job f h hstatus hurl =>
          rintro _ ⟨⟩
          obtain ⟨hsome, hlink⟩ := ih job h
          exact ⟨hstatus ▸ hsome, fun hdone => hurl ▸ hlink (hstatus ▸ hdone)⟩
      | status job status h hstatus =>
          rintro _ ⟨⟩
          exact ⟨by simp, fun hdone => absurd (Option.some.inj hdone) hstatus⟩
      | publish job url h hurl =>
          rintro _ ⟨⟩
          exact ⟨by simp, fun _ => ⟨url, rfl, hurl⟩⟩
      | _ => exact ih

end Keeps

/-! ### Callbacks in the server -/

namespace Server

variable {origin : Option Pipeline}

/-- What a callback leaves in the files of the server, and among its tasks. -/
structure Inside (cfg : ServerConfig) (folderId : String) (origin : Option Pipeline)
    (s s' : Server) : Prop where
  uploads : ∀ f ∈ s'.uploads, f ∈ s.uploads
  bucket : origin ≠ none → s'.bucket = s.bucket
  folders : ∀ path, path ≠ cfg.outputFolder folderId → s'.folders path = s.folders path
  tasks : ∃ tasks, s'.tasks = s.tasks ++ tasks ∧ ∀ task ∈ tasks, task.origin = origin
  telling : (∀ job ∈ s.jobs folderId, job.Telling) → ∀ job ∈ s'.jobs folderId, job.Telling

/-- **A callback** unlinks uploaded files only, changes no folder but that of its own job, and adds
tasks of its own origin. -/
theorem inside_react {handler : Callback (List Task)} (h : Scoped origin handler)
    (cfg : ServerConfig) (folderId : String) (s : Server) :
    Inside cfg folderId origin s (s.react cfg folderId handler) := by
  have hmoves := h.moves (s.view cfg folderId)
  rw [react]
  cases hv : handler (s.view cfg folderId) with
  | ok tasks v =>
      rw [final_of_ok hv] at hmoves
      refine ⟨Changes.uploads hmoves, Changes.bucket hmoves,
        fun path hpath => Function.update_of_ne hpath _ _, ⟨tasks, rfl, h.returns _ _ _ hv⟩, ?_⟩
      exact fun htelling => (Server.put_jobs_self cfg v).symm ▸
        Changes.telling hmoves htelling
  | error fault v =>
      rw [final_of_error hv] at hmoves
      refine ⟨Changes.uploads hmoves, Changes.bucket hmoves,
        fun path hpath => Function.update_of_ne hpath _ _,
        ⟨[], (List.append_nil _).symm, by simp⟩, ?_⟩
      exact fun htelling => (Server.put_jobs_self cfg v).symm ▸
        Changes.telling hmoves htelling

end Server

end Mogo
