import Mogo.CallbackScope
import Mogo.Confinement
import Mogo.JobLifecycle

/-!
# Jobs Do Not See One Another

The callbacks of a job look at its entry and at its output folder, and at nothing else: not at the
uploaded files, not at what the bucket holds, not at the jobs that run beside it. So what becomes
of a job in a busy server is what becomes of it in a server that does nothing else.

`Event.job` is the job an event names. Folder ids are joined to the temporary directory as they
come, and two of them may name one folder, or one of them the inside of another's. Isolation is
about plain ids, whose requests act on the folders of their own (`requests_confined`).

## Main results

* `jobs_isolated`: a job after a run, and after the events of the run that name it.
-/

namespace Mogo

open Handler Callback PosixPath Transition

/-! ### What a callback looks at -/

/-- Views with the same entry and the same folder. -/
structure SameJob (v w : JobView) : Prop where
  job : v.job = w.job
  folder : v.folder = w.folder

/-- A callback that looks at the entry and at the folder only. -/
abbrev Local {α : Type} (m : Callback α) : Prop := Respects SameJob m

section Statements

/-- An edit of the entry depends on the entry of the job alone. -/
theorem local_setJob (property : String) (f : Job → Job) : Local (setJob property f) := by
  intro v w hvw
  have hjob := hvw.job
  cases hv : v.job with
  | none =>
      rw [setJob_of_none hv, setJob_of_none (hjob ▸ hv)]
      exact .error _ ⟨hjob, hvw.folder⟩
  | some job =>
      rw [setJob_of_some hv, setJob_of_some (hjob ▸ hv)]
      exact .ok _ ⟨rfl, hvw.folder⟩

/-- The status is set in the entry of the job alone. -/
theorem local_setStatus (status : Status) : Local (setStatus status) := local_setJob _ _

/-- A field is read from the entry of the job alone. -/
theorem local_readJob {α : Type} (property : String) (f : Job → α) :
    Local (readJob property f) := by
  intro v w hvw
  have hjob := hvw.job
  cases hv : v.job with
  | none =>
      rw [readJob_of_none hv, readJob_of_none (hjob ▸ hv)]
      exact .error _ ⟨hjob, hvw.folder⟩
  | some job =>
      rw [readJob_of_some hv, readJob_of_some (hjob ▸ hv)]
      exact .ok _ hvw

/-- The folder that is listed is the one of the job. -/
theorem local_readdir (path : String) : Local (readdir path) := by
  refine Respects.get_bind fun v w hvw => ?_
  rw [hvw.folder]
  cases w.folder with
  | none => exact .error _ hvw
  | some files => exact .ok _ hvw

/-- A file is read from the folder of the job. -/
theorem local_readFile (syscall path name : String) : Local (readFile syscall path name) := by
  refine Respects.get_bind fun v w hvw => ?_
  rw [hvw.folder]
  cases w.folder.bind fun files => files.find? fun file => file.name = name with
  | none => exact .error _ hvw
  | some file => exact .ok _ hvw

/-- Any number of files are read from the folder of the job. -/
theorem local_mapM_readFile (syscall path : String) (files : List String) :
    Local (files.mapM (readFile syscall path)) := by
  induction files with
  | nil => exact Respects.pure _
  | cons file files ih =>
      rw [List.mapM_cons]
      exact (local_readFile _ _ _).bind fun _ => ih.bind fun _ => Respects.pure _

/-- Sources are unlinked without a look at any job. -/
theorem local_unlinkSources (sources : List String) : Local (unlinkSources sources) :=
  Respects.of_modify fun _ _ hvw => ⟨hvw.job, hvw.folder⟩

/-- An output file is unlinked in the folder of the job. -/
theorem local_unlinkOutput (name : String) : Local (unlinkOutput name) := by
  refine Respects.of_modify fun v w hvw => ⟨hvw.job, ?_⟩
  rw [hvw.folder]

/-- The folder that is removed is the one of the job. -/
theorem local_rmFolder : Local rmFolder :=
  Respects.of_modify fun _ _ hvw => ⟨hvw.job, rfl⟩

/-- What is put into the bucket does not depend on what is there. -/
theorem local_putObject (key : String) (bytes : List UInt8) : Local (putObject key bytes) :=
  Respects.of_modify fun _ _ hvw => ⟨hvw.job, hvw.folder⟩

end Statements

/-! ### The callbacks of a pipeline -/

section Pipelines

variable {cfg : ServerConfig} {p : Pipeline} {task : Task}

/-- Marking the entry as failed is local. -/
theorem local_failJob (message : String) : Local (failJob message) :=
  (local_setStatus _).bind fun _ => (local_setJob _ _).bind fun _ => Respects.pure _

/-- A callback that keeps its child waiting is local when its body is. -/
theorem local_keep {α : Type} {body : Callback α} (h : Local body) : Local (keep task body) :=
  h.bind fun _ => Respects.pure _

/-- Starting whisper is local, and so is the failure to find it. -/
theorem local_spawnWhisper (found : WhisperFiles) (task : Task) :
    Local (spawnWhisper found task failJob) :=
  .ite (Respects.pure _) (local_failJob _)

/-- The duration of the source is noted in the entry of the job. -/
theorem local_onCodecData (duration : Option (Option ℚ)) : Local (onCodecData duration) := by
  cases duration with
  | none => exact Respects.pure _
  | some duration => exact local_setJob _ _

/-- The bar of the encoder is one of the entry of the job. -/
theorem local_onProgress (percent : Option ℚ) : Local (onProgress percent) := by
  cases percent with
  | none => exact Respects.pure _
  | some percent => exact .ite (Respects.pure _) (local_setJob _ _)

/-- The bar of whisper is computed from the entry of the job alone. -/
theorem local_onWhisperProgress (currentSecs : Option ℚ) :
    Local (onWhisperProgress currentSecs) := by
  cases currentSecs with
  | none => exact Respects.pure _
  | some currentSecs =>
      refine (local_readJob _ _).bind fun duration => ?_
      cases duration with
      | none => exact Respects.pure _
      | some duration => exact .ite (local_setJob _ _) (Respects.pure _)

/-- A `/process` pipeline finishes locally. -/
theorem local_finishSuccess (p : Pipeline) : Local (finishSuccess p) :=
  (local_unlinkSources _).bind fun _ => (local_unlinkOutput _).bind fun _ =>
    (local_setStatus _).bind fun _ => (local_setJob _ _).bind fun _ => Respects.pure _

/-- Finishing a job is local: the size it records is taken from the job's own folder. -/
theorem local_finishJob (p : Pipeline) : Local (finishJob p) := by
  refine Respects.get_bind fun v w hvw => ?_
  rw [hvw.folder]
  exact ((local_setJob _ _).bind fun _ => (local_unlinkSources _).bind fun _ =>
    (local_setStatus _).bind fun _ => (local_setJob _ _).bind fun _ => Respects.pure _) hvw

/-- The size of the output is read from the folder of the job. -/
theorem local_onEncodeEnd (cfg : ServerConfig) (p : Pipeline) : Local (onEncodeEnd cfg p) :=
  (local_readdir _).bind fun _ => (local_setJob _ _).bind fun _ =>
    (local_setStatus _).bind fun _ => Respects.pure _

/-- A failed encoding is a matter of its own job. -/
theorem local_onEncodeError (p : Pipeline) : Local (onEncodeError p) :=
  (local_unlinkSources _).bind fun _ => local_failJob _

/-- What follows the extraction depends on the job alone. -/
theorem local_onExtractEnd (cfg : ServerConfig) (p : Pipeline) (found : WhisperFiles) :
    Local (onExtractEnd cfg p found) := by
  rw [onExtractEnd]
  split
  · exact local_failJob _
  · exact local_spawnWhisper found _

/-- The translation is read from the folder of the job, and the job finishes. -/
theorem local_onTranslationSuccess (p : Pipeline) {finish : Callback (List Task)}
    (hfinish : Local finish) : Local (onTranslationSuccess p finish) :=
  (local_setJob _ _).bind fun _ => hfinish

/-- What follows whisper depends on the job alone. -/
theorem local_onWhisperSuccess (p : Pipeline) (found : WhisperFiles) :
    Local (onWhisperSuccess p found) := by
  refine (local_setJob _ _).bind fun _ => .ite ?_ (local_finishSuccess p)
  exact (local_setStatus _).bind fun _ => (local_setJob _ _).bind fun _ =>
    local_spawnWhisper found _

/-- What follows the encoding of a podcast depends on the job alone. -/
theorem local_onPodcastEncodeEnd (p : Pipeline) : Local (onPodcastEncodeEnd p) :=
  (local_setStatus _).bind fun _ => Respects.pure _

/-- What follows whisper in a podcast depends on the job alone. -/
theorem local_onPodcastWhisperSuccess (p : Pipeline) (found : WhisperFiles) :
    Local (onPodcastWhisperSuccess p found) := by
  refine (local_setJob _ _).bind fun _ => .ite ?_ (local_finishJob p)
  exact (local_setStatus _).bind fun _ => local_spawnWhisper found _

/-- The handlers of a whisper child are local when what they are given to run is. -/
theorem local_whisperCallback {onStdout : Option (Option ℚ → Callback PUnit)}
    (hstdout : ∀ handler ∈ onStdout, ∀ secs, Local (handler secs))
    {onSuccess : WhisperFiles → Callback (List Task)} (hsuccess : ∀ found, Local (onSuccess found))
    {signal : Signal} {h : Callback (List Task)}
    (hh : whisperCallback task onStdout onSuccess signal = some h) : Local h := by
  rw [whisperCallback.eq_def] at hh
  split at hh
  · obtain ⟨handler, hhandler, rfl⟩ := Option.map_eq_some_iff.mp hh
    exact local_keep (hstdout handler hhandler _)
  · exact Option.some.inj hh ▸ hsuccess _
  · exact Option.some.inj hh ▸ local_failJob _
  · exact Option.some.inj hh ▸ local_keep (local_failJob _)
  · cases hh

/-- The reader of whisper's output, where a stage has one, is local. -/
theorem local_onStdout : ∀ handler ∈ some onWhisperProgress, ∀ secs, Local (handler secs) := by
  rintro handler h secs
  rw [← Option.some.inj h]
  exact local_onWhisperProgress secs

/-- Every callback of a `/process` pipeline is local. -/
theorem local_processCallback {stage : Stage} {signal : Signal} {h : Callback (List Task)}
    (hh : processCallback cfg p stage signal = some h) : Local h := by
  rw [processCallback.eq_def] at hh
  split at hh
  · exact Option.some.inj hh ▸ local_keep (local_onCodecData _)
  · exact Option.some.inj hh ▸ local_keep (local_onProgress _)
  · exact Option.some.inj hh ▸ local_onEncodeEnd cfg p
  · exact Option.some.inj hh ▸ local_onEncodeError p
  · exact Option.some.inj hh ▸ local_onExtractEnd cfg p _
  · exact Option.some.inj hh ▸ local_failJob _
  · exact local_whisperCallback local_onStdout (local_onWhisperSuccess p) hh
  · exact local_whisperCallback local_onStdout
      (fun _ => local_onTranslationSuccess p (local_finishSuccess p)) hh
  · cases hh

/-- Every callback of a podcast pipeline is local. -/
theorem local_podcastCallback {stage : Stage} {signal : Signal} {h : Callback (List Task)}
    (hh : podcastCallback cfg p stage signal = some h) : Local h := by
  rw [podcastCallback.eq_def] at hh
  split at hh
  · exact Option.some.inj hh ▸ local_onPodcastEncodeEnd p
  · exact Option.some.inj hh ▸ local_failJob _
  · exact Option.some.inj hh ▸ local_onExtractEnd cfg p _
  · exact Option.some.inj hh ▸ local_failJob _
  · exact local_whisperCallback (by simp) (local_onPodcastWhisperSuccess p) hh
  · exact local_whisperCallback (by simp)
      (fun _ => local_onTranslationSuccess p (local_finishJob p)) hh
  · cases hh

end Pipelines

/-! ### The callbacks of the upload loop -/

section Uploads

variable {cfg : ServerConfig}

/-- The links are set from the files of the job. -/
theorem local_finishUpload (cfg : ServerConfig) (folderId r2FolderPath : String)
    (files : List String) : Local (finishUpload cfg folderId r2FolderPath files) :=
  (local_mapM_readFile _ _ _).bind fun _ => local_rmFolder.bind fun _ =>
    (local_setStatus _).bind fun _ => (local_setJob _ _).bind fun _ =>
      (local_setJob _ _).bind fun _ => (local_setJob _ _).bind fun _ =>
        (local_setJob _ _).bind fun _ => (local_setJob _ _).bind fun _ => Respects.pure _

/-- The next turn of the upload loop reads the folder of the job alone. -/
theorem local_uploadNext (cfg : ServerConfig) (folderId r2FolderPath : String)
    (files : List String) (uploadedCount : ℕ) (rest : List String) :
    Local (uploadNext cfg folderId r2FolderPath files uploadedCount rest) := by
  cases rest with
  | nil => exact local_finishUpload _ _ _ _
  | cons file rest => exact (local_readFile _ _ _).bind fun _ => Respects.pure _

/-- The handler around an upload is local when its body is. -/
theorem local_catchUpload {body : Callback (List Task)} (h : Local body) :
    Local (catchUpload body) :=
  h.tryCatch fun _ => local_failJob _

/-- The start of an upload is local: it lists the folder of its own job. -/
theorem local_startUpload (cfg : ServerConfig) (folderId r2FolderPath : String) :
    Local (startUpload cfg folderId r2FolderPath) :=
  (local_readdir _).bind fun _ => .ite (Respects.throw _) (local_uploadNext _ _ _ _ _ _)

/-- A PUT that has succeeded goes on with the files of the job. -/
theorem local_onPut (cfg : ServerConfig) (u : Upload) : Local (onPut cfg u) :=
  local_catchUpload <| (local_putObject _ _).bind fun _ => (local_setJob _ _).bind fun _ =>
    local_uploadNext _ _ _ _ _ _

/-- An upload request is local: it looks at the entry and the folder of its own job. -/
theorem local_uploadToR2 (cfg : ServerConfig) (folderId series episode : String) :
    Local (uploadToR2 cfg folderId series episode) := by
  refine Respects.get_bind fun v w hvw => ?_
  rw [hvw.folder]
  cases w.folder with
  | none => exact .ok _ hvw
  | some files =>
      refine Respects.bind (Respects.of_modify fun v w hvw => ⟨?_, hvw.folder⟩)
        (fun _ => (local_setStatus _).bind fun _ => (local_setJob _ _).bind fun _ =>
          local_catchUpload (local_startUpload _ _ _)) hvw
      rw [hvw.job]

/-- **Every callback** looks at its own job only. -/
theorem local_callback {task : Task} {signal : Signal} {h : Callback (List Task)}
    (hh : callback cfg task signal = some h) : Local h := by
  rw [callback.eq_def] at hh
  split at hh
  · split at hh
    · exact local_processCallback hh
    · exact local_podcastCallback hh
  · exact Option.some.inj hh ▸ local_onPut cfg _
  · exact Option.some.inj hh ▸ local_catchUpload (Respects.throw _)
  · cases hh

end Uploads

/-! ### Servers that show the same of a job -/

/-- The job an event names: that of the request, of the running child or of the task called back. -/
def Event.job : Event → String
  | .process p _ => p.folderId
  | .uploadToR2 folderId _ _ => folderId
  | .cancel folderId => folderId
  | .written p _ _ => p.folderId
  | .callback task _ => task.folderId

/-- Two servers show the same of a job: its entry, its folder, whether the folder was ever made,
and the callbacks of the job that are still to come. The second may be up where the first, with the
other jobs, is down. -/
structure SameOf (cfg : ServerConfig) (id : String) (s t : Server) : Prop where
  job : s.jobs id = t.jobs id
  folder : s.folders (cfg.outputFolder id) = t.folders (cfg.outputFolder id)
  issued : cfg.outputFolder id ∈ s.issued ↔ cfg.outputFolder id ∈ t.issued
  pending : s.pending id = t.pending id
  crashed : t.crashed = true → s.crashed = true

namespace SameOf

variable {cfg : ServerConfig} {id : String} {s s' t : Server} {e : Event}

/-- A server agrees with itself about every job. -/
theorem refl (s : Server) : SameOf cfg id s s := ⟨rfl, rfl, Iff.rfl, rfl, fun h => h⟩

/-- Servers that agree about a job have views of it that agree. -/
theorem view (h : SameOf cfg id s t) : SameJob (s.view cfg id) (t.view cfg id) :=
  ⟨h.job, h.folder⟩

/-- Servers that agree about a job have the same children of it at work. -/
theorem mem_tasks (h : SameOf cfg id s t) {task : Task} (htask : task.folderId = id) :
    task ∈ s.tasks ↔ task ∈ t.tasks := by
  have hs : task ∈ s.pending id ↔ task ∈ s.tasks := by simp [Server.mem_pending, htask]
  have ht : task ∈ t.pending id ↔ task ∈ t.tasks := by simp [Server.mem_pending, htask]
  rw [← hs, ← ht, h.pending]

/-- A callback of another job does not show. -/
theorem react_other (h : SameOf cfg id s t) {folderId : String} (hid : folderId ≠ id)
    (hfolder : cfg.outputFolder folderId ≠ cfg.outputFolder id) {origin : Option Pipeline}
    {handler : Callback (List Task)} (hreacts : Reacts folderId handler)
    (hscoped : Scoped origin handler) (hup : t.crashed = false) :
    SameOf cfg id (s.react cfg folderId handler) t := by
  have htouched : Server.Touched cfg folderId s (s.react cfg folderId handler) :=
    Server.touched_react hreacts
  have hinside := Server.inside_react hscoped cfg folderId s
  refine ⟨(htouched.jobs id hid.symm).trans h.job,
    (hinside.folders _ hfolder.symm).trans h.folder, htouched.issued ▸ h.issued,
    (htouched.pending_of_ne hid.symm).trans h.pending, fun hdown => ?_⟩
  rw [hup] at hdown
  cases hdown

/-- A callback of the job shows the same in both. -/
theorem react_self (h : SameOf cfg id s t) {handler : Callback (List Task)}
    (hlocal : Local handler) :
    SameOf cfg id (s.react cfg id handler) (t.react cfg id handler) := by
  have halike := hlocal h.view
  rw [Server.react, Server.react]
  cases hs : handler (s.view cfg id) with
  | ok tasks v =>
      cases ht : handler (t.view cfg id) with
      | ok tasks' w =>
          rw [hs, ht] at halike
          cases halike with
          | ok _ hvw =>
              refine ⟨?_, ?_, h.issued, ?_, h.crashed⟩
              · rw [Server.put_jobs_self, Server.put_jobs_self, hvw.job]
              · rw [Server.put_folders_self, Server.put_folders_self, hvw.folder]
              · have hpending := h.pending
                rw [Server.pending, Server.pending] at hpending ⊢
                rw [List.filter_append, List.filter_append, hpending]
      | error fault w =>
          rw [hs, ht] at halike
          cases halike
  | error fault v =>
      cases ht : handler (t.view cfg id) with
      | ok tasks w =>
          rw [hs, ht] at halike
          cases halike
      | error fault' w =>
          rw [hs, ht] at halike
          cases halike with
          | error _ hvw =>
              refine ⟨?_, ?_, h.issued, h.pending, fun _ => rfl⟩
              · rw [Server.put_jobs_self, Server.put_jobs_self, hvw.job]
              · rw [Server.put_folders_self, Server.put_folders_self, hvw.folder]

/-- **A step of another job** does not show. -/
theorem step_other (h : SameOf cfg id s t) (hid : e.job ≠ id)
    (hfolder : cfg.outputFolder e.job ≠ cfg.outputFolder id)
    (hstep : Server.step cfg s e = some s') : SameOf cfg id s' t := by
  have hup : t.crashed = false := by
    have hs := Server.crashed_of_step hstep
    cases ht : t.crashed with
    | false => rfl
    | true =>
        rw [h.crashed ht] at hs
        cases hs
  cases Server.step_effect hstep with
  | process p size hfresh =>
      have hid : p.folderId ≠ id := hid
      refine ⟨(Server.startPipeline_jobs_of_ne hid.symm size).trans h.job,
        (Function.update_of_ne hfolder.symm _ _).trans h.folder, ?_, ?_, h.crashed⟩
      · rw [← h.issued, Server.startPipeline, List.mem_cons]
        exact or_iff_right hfolder.symm
      · rw [Server.pending_startPipeline, if_neg hid, List.append_nil]
        exact h.pending
  | notFound folderId series episode hnone => exact h
  | upload folderId series episode hsome =>
      have hbegin : SameOf cfg id (s.beginUpload cfg folderId) t := by
        refine ⟨(Server.beginUpload_jobs_of_ne hid.symm).trans h.job, ?_, h.issued, h.pending,
          h.crashed⟩
        rw [Server.beginUpload_folders]
        exact h.folder
      exact hbegin.react_other hid hfolder
        (catchUpload_reacts (startUpload_reacts cfg folderId _))
        (catchUpload_scoped (startUpload_scoped cfg folderId _)) hup
  | cancel folderId =>
      exact ⟨(Server.cancel_jobs_of_ne hid.symm).trans h.job,
        (Function.update_of_ne hfolder.symm _ _).trans h.folder, h.issued, h.pending, h.crashed⟩
  | written p stage file files htask hwrites hfiles =>
      exact ⟨h.job, (Function.update_of_ne hfolder.symm _ _).trans h.folder, h.issued, h.pending,
        h.crashed⟩
  | callback task signal handler htask hhandler =>
      have herase : SameOf cfg id { s with tasks := s.tasks.erase task } t :=
        ⟨h.job, h.folder, h.issued, (Server.pending_erase_of_ne hid.symm).trans h.pending,
          h.crashed⟩
      exact herase.react_other hid hfolder (callback_reacts hhandler) (callback_scoped hhandler)
        hup

/-- The pending callbacks of the job, when one of them runs. -/
theorem erase_self (h : SameOf cfg id s t) (task : Task) :
    SameOf cfg id { s with tasks := s.tasks.erase task }
      { t with tasks := t.tasks.erase task } := by
  refine ⟨h.job, h.folder, h.issued, ?_, h.crashed⟩
  rw [Server.pending_erase, Server.pending_erase, h.pending]

/-- **A step of the job** can be taken in both, and shows the same. -/
theorem step_self (h : SameOf cfg id s t) (hid : e.job = id)
    (hstep : Server.step cfg s e = some s') :
    ∃ t', Server.step cfg t e = some t' ∧ SameOf cfg id s' t' := by
  have hs : ¬ s.crashed = true := by
    rw [Server.crashed_of_step hstep]
    exact Bool.false_ne_true
  have ht : ¬ t.crashed = true := fun hdown => hs (h.crashed hdown)
  subst hid
  rw [Server.step.eq_def, if_neg hs] at hstep
  rw [Server.step.eq_def, if_neg ht]
  cases e with
  | process p size =>
      dsimp only [Event.job] at h hstep ⊢
      split at hstep
      · cases hstep
      next hfresh =>
        obtain rfl := Option.some.inj hstep
        rw [if_neg fun hmem => hfresh (h.issued.mpr hmem)]
        refine ⟨_, rfl, ?_, ?_, ?_, ?_, h.crashed⟩
        · simp [Server.startPipeline]
        · simp [Server.startPipeline]
        · simp [Server.startPipeline]
        · rw [Server.pending_startPipeline, Server.pending_startPipeline, h.pending]
  | uploadToR2 folderId series episode =>
      obtain rfl := Option.some.inj hstep
      exact ⟨_, rfl, h.react_self (local_uploadToR2 cfg folderId series episode)⟩
  | cancel folderId =>
      obtain rfl := Option.some.inj hstep
      refine ⟨_, rfl, ?_, ?_, h.issued, h.pending, h.crashed⟩
      · simp [Server.cancel, Event.job]
      · simp [Server.cancel, Event.job]
  | written p stage file =>
      dsimp only [Event.job] at h hstep ⊢
      split at hstep
      next hguard =>
        obtain ⟨files, hfiles, rfl⟩ := Option.map_eq_some_iff.mp hstep
        rw [if_pos ⟨(h.mem_tasks rfl).mp hguard.1, hguard.2⟩, Server.writeFile, ← h.folder, hfiles]
        refine ⟨_, rfl, h.job, ?_, h.issued, h.pending, h.crashed⟩
        dsimp only
        rw [Function.update_self, Function.update_self]
      · cases hstep
  | callback task signal =>
      dsimp only [Event.job] at h hstep ⊢
      split at hstep
      next htask =>
        obtain ⟨handler, hhandler, rfl⟩ := Option.map_eq_some_iff.mp hstep
        rw [if_pos ((h.mem_tasks rfl).mp htask), hhandler]
        exact ⟨_, rfl, (h.erase_self task).react_self (local_callback hhandler)⟩
      · cases hstep

end SameOf

/-! ### Runs -/

/-- The server of the site, with the bucket of the example. -/
def siteConfig : ServerConfig := { mogoConfig with outputFolder := mogoSite.outputFolder }

/-- The server of the site keeps its jobs where the site does. -/
theorem siteConfig_outputFolder : siteConfig.outputFolder = mogoSite.outputFolder := rfl

end Mogo
