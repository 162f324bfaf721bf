import Mogo.CallbackScope
import Mogo.JobLifecycle

/-!
# No Job Hangs

A job that is `compressing`, `whisper`, `translating` or `uploading_r2` waits for a callback. A
callback that leaves nothing pending has set `done`, `error` or `r2_done` before it returns, so a
job that waits always has something to wait for, whatever else happens to it: two uploads at once,
an upload beside the pipeline, children that fail or cannot be started.

And it does not wait for ever. `Task.work` is the number of children and PUTs a task has still to go
through at most, and each of them that ends takes one off.

## Main results

* `no_job_hangs`: a job that waits has a callback that is pending, and that can run.
* `comes_to_rest`: without new requests only so many children and PUTs end, and then every job
  rests.
-/

namespace Mogo

open Handler Callback Transition

/-! ### Jobs that wait -/

/-- A status that waits for a callback. -/
def Status.busy : Status → Bool
  | .compressing | .whisper | .translating | .uploading_r2 => true
  | .done | .error | .r2_done => false

/-- The job waits for nothing: its status, if it has one, is not that of a running child or
upload. -/
def JobView.Rests (v : JobView) : Prop := ∀ status ∈ v.status, status.busy = false

/-- A callback that leaves nothing pending leaves the job at rest. -/
def Concludes (h : Callback (List Task)) : Prop := ∀ v v', h v = .ok [] v' → v'.Rests

/-- The status of the job stays as it is. -/
def SameStatus (v v' : JobView) : Prop := v'.status = v.status

instance : Std.Refl SameStatus := ⟨fun _ => rfl⟩

instance : IsTrans JobView SameStatus := ⟨fun _ _ _ h h' => h'.trans h⟩

section Rules

variable {α : Type} {h h' : Callback (List Task)} {m : Callback α} {f : α → Callback (List Task)}

/-- A callback that starts a task leaves its job at work, not hanging. -/
theorem Concludes.single (task : Task) : Concludes (Pure.pure [task]) :=
  fun _ _ hrun => nomatch hrun

/-- A callback that throws returns no empty list, so nothing is asked of it. -/
theorem Concludes.throw (fault : Fault) : Concludes (throw fault) := fun _ _ hrun => nomatch hrun

/-- A callback concludes when its last part does, whatever the first part has found. -/
theorem Concludes.bind (hf : ∀ a, Concludes (f a)) : Concludes (m >>= f) := by
  intro v v' hrun
  cases hm : m v with
  | ok a v₁ =>
      rw [bind_of_ok hm] at hrun
      exact hf a v₁ v' hrun
  | error fault v₁ =>
      rw [bind_of_error hm] at hrun
      cases hrun

/-- A branch concludes when both sides do. -/
theorem Concludes.ite {p : Prop} [Decidable p] (hh : Concludes h) (hh' : Concludes h') :
    Concludes (if p then h else h') := by
  split
  · exact hh
  · exact hh'

/-- A `catch` concludes when the body and every handler do. -/
theorem Concludes.tryCatch (hh : Concludes h) {catchFault : Fault → Callback (List Task)}
    (hcatch : ∀ fault, Concludes (catchFault fault)) :
    Concludes (MonadExcept.tryCatch h catchFault) := by
  intro v v' hrun
  cases hbody : h v with
  | ok tasks v₁ =>
      rw [tryCatch_of_ok hbody] at hrun
      exact hh v v' (hbody.trans hrun)
  | error fault v₁ =>
      rw [tryCatch_of_error hbody] at hrun
      exact hcatch fault v₁ v' hrun

/-- The job comes to rest, and what follows leaves its status alone. -/
theorem Concludes.setStatus {status : Status} {f : PUnit → Callback (List Task)}
    (hstatus : status.busy = false) (hf : Moves SameStatus (f ⟨⟩)) :
    Concludes (setStatus status >>= f) := by
  intro v v' hrun
  cases hjob : v.job with
  | none =>
      rw [bind_of_error (setStatus_of_none hjob status)] at hrun
      cases hrun
  | some job =>
      rw [Callback.setStatus, bind_of_ok (setJob_of_some hjob _ _)] at hrun
      have hsame := hf { v with job := some { job with status := some status } }
      rw [final_of_ok hrun] at hsame
      intro status' hmem
      rw [show v'.status = some status from hsame] at hmem
      obtain rfl := Option.some.inj hmem
      exact hstatus

end Rules

/-- An edit of another field than the status keeps the status. -/
theorem sameStatus_setJob {property : String} {f : Job → Job}
    (hf : ∀ job, (f job).status = job.status) : Moves SameStatus (setJob property f) := by
  intro v
  cases h : v.job with
  | none =>
      rw [final_of_error (setJob_of_none h property f)]
      rfl
  | some job =>
      rw [final_of_ok (setJob_of_some h property f), SameStatus, JobView.status, JobView.status, h]
      exact hf job

/-! ### The callbacks settle -/

section Callbacks

variable {cfg : ServerConfig} {p : Pipeline} {task : Task}

/-- A job that is marked as failed has been concluded. -/
theorem concludes_failJob (message : String) : Concludes (failJob message) :=
  .setStatus rfl <| Moves.bind (sameStatus_setJob fun _ => rfl) fun _ => Moves.pure _

/-- A callback that keeps its child waiting leaves its job at work. -/
theorem concludes_keep {α : Type} (body : Callback α) : Concludes (keep task body) :=
  .bind fun _ => .single task

/-- Either whisper has been started or the job has failed. -/
theorem concludes_spawnWhisper (found : WhisperFiles) (task : Task) :
    Concludes (spawnWhisper found task failJob) :=
  .ite (.single task) (concludes_failJob _)

/-- A `/process` pipeline that finishes is done. -/
theorem concludes_finishSuccess (p : Pipeline) : Concludes (finishSuccess p) :=
  .bind fun _ => .bind fun _ =>
    .setStatus rfl <| Moves.bind (sameStatus_setJob fun _ => rfl) fun _ => Moves.pure _

/-- A podcast pipeline that finishes is done. -/
theorem concludes_finishJob (p : Pipeline) : Concludes (finishJob p) :=
  .bind fun _ => .bind fun _ => .bind fun _ =>
    .setStatus rfl <| Moves.bind (sameStatus_setJob fun _ => rfl) fun _ => Moves.pure _

/-- After the extraction whisper has been started, or the job has failed. -/
theorem concludes_onExtractEnd (cfg : ServerConfig) (p : Pipeline) (found : WhisperFiles) :
    Concludes (onExtractEnd cfg p found) := by
  rw [onExtractEnd]
  split
  · exact concludes_failJob _
  · exact concludes_spawnWhisper found _

/-- The handlers of a whisper child leave the job at rest when the continuation they are given
does. -/
theorem concludes_whisperCallback {onStdout : Option (Option ℚ → Callback PUnit)}
    {onSuccess : WhisperFiles → Callback (List Task)}
    (hsuccess : ∀ found, Concludes (onSuccess found))
    {signal : Signal} {h : Callback (List Task)}
    (hh : whisperCallback task onStdout onSuccess signal = some h) : Concludes h := by
  rw [whisperCallback.eq_def] at hh
  split at hh
  · obtain ⟨handler, -, rfl⟩ := Option.map_eq_some_iff.mp hh
    exact concludes_keep _
  · exact Option.some.inj hh ▸ hsuccess _
  · exact Option.some.inj hh ▸ concludes_failJob _
  · exact Option.some.inj hh ▸ concludes_keep _
  · cases hh

/-- After whisper the translation has been started, or the job is done or has failed. -/
theorem concludes_onWhisperSuccess (p : Pipeline) (found : WhisperFiles) :
    Concludes (onWhisperSuccess p found) :=
  .bind fun _ => .ite (.bind fun _ => .bind fun _ => concludes_spawnWhisper found _)
    (concludes_finishSuccess p)

/-- After whisper in a podcast the translation has been started, or the job is done or has failed.
-/
theorem concludes_onPodcastWhisperSuccess (p : Pipeline) (found : WhisperFiles) :
    Concludes (onPodcastWhisperSuccess p found) :=
  .bind fun _ => .ite (.bind fun _ => concludes_spawnWhisper found _) (concludes_finishJob p)

/-- Every callback of a `/process` pipeline starts a task or concludes its job. -/
theorem concludes_processCallback {stage : Stage} {signal : Signal} {h : Callback (List Task)}
    (hh : processCallback cfg p stage signal = some h) : Concludes h := by
  rw [processCallback.eq_def] at hh
  split at hh
  · exact Option.some.inj hh ▸ concludes_keep _
  · exact Option.some.inj hh ▸ concludes_keep _
  · exact Option.some.inj hh ▸ .bind fun _ => .bind fun _ => .bind fun _ => .single _
  · exact Option.some.inj hh ▸ .bind fun _ => concludes_failJob _
  · exact Option.some.inj hh ▸ concludes_onExtractEnd cfg p _
  · exact Option.some.inj hh ▸ concludes_failJob _
  · exact concludes_whisperCallback (concludes_onWhisperSuccess p) hh
  · exact concludes_whisperCallback (fun _ => .bind fun _ => concludes_finishSuccess p) hh
  · cases hh

/-- Every callback of a podcast pipeline starts a task or concludes its job. -/
theorem concludes_podcastCallback {stage : Stage} {signal : Signal} {h : Callback (List Task)}
    (hh : podcastCallback cfg p stage signal = some h) : Concludes h := by
  rw [podcastCallback.eq_def] at hh
  split at hh
  · exact Option.some.inj hh ▸ .bind fun _ => .single _
  · exact Option.some.inj hh ▸ concludes_failJob _
  · exact Option.some.inj hh ▸ concludes_onExtractEnd cfg p _
  · exact Option.some.inj hh ▸ concludes_failJob _
  · exact concludes_whisperCallback (concludes_onPodcastWhisperSuccess p) hh
  · exact concludes_whisperCallback (fun _ => .bind fun _ => concludes_finishJob p) hh
  · cases hh

/-- An upload that finishes has set `r2_done`. -/
theorem concludes_finishUpload (cfg : ServerConfig) (folderId r2FolderPath : String)
    (files : List String) : Concludes (finishUpload cfg folderId r2FolderPath files) :=
  .bind fun _ => .bind fun _ => .setStatus rfl <|
    Moves.bind (sameStatus_setJob fun _ => rfl) fun _ =>
      Moves.bind (sameStatus_setJob fun _ => rfl) fun _ =>
        Moves.bind (sameStatus_setJob fun _ => rfl) fun _ =>
          Moves.bind (sameStatus_setJob fun _ => rfl) fun _ =>
            Moves.bind (sameStatus_setJob fun _ => rfl) fun _ => Moves.pure _

/-- The next turn of the upload loop starts a PUT or ends the upload. -/
theorem concludes_uploadNext (cfg : ServerConfig) (folderId r2FolderPath : String)
    (files : List String) (uploadedCount : ℕ) (rest : List String) :
    Concludes (uploadNext cfg folderId r2FolderPath files uploadedCount rest) := by
  cases rest with
  | nil => exact concludes_finishUpload _ _ _ _
  | cons file rest => exact .bind fun _ => .single _

/-- An upload that throws is marked as failed, so it has been concluded. -/
theorem concludes_catchUpload {body : Callback (List Task)} (h : Concludes body) :
    Concludes (catchUpload body) :=
  h.tryCatch fun _ => concludes_failJob _

/-- An upload starts a PUT or ends at once. -/
theorem concludes_startUpload (cfg : ServerConfig) (folderId r2FolderPath : String) :
    Concludes (startUpload cfg folderId r2FolderPath) :=
  .bind fun _ => .ite (.throw _) (concludes_uploadNext _ _ _ _ _ _)

/-- **Every callback** that leaves nothing pending leaves its job at rest. -/
theorem concludes_callback {signal : Signal} {h : Callback (List Task)}
    (hh : callback cfg task signal = some h) : Concludes h := by
  rw [callback.eq_def] at hh
  split at hh
  · split at hh
    · exact concludes_processCallback hh
    · exact concludes_podcastCallback hh
  · exact Option.some.inj hh ▸
      concludes_catchUpload (.bind fun _ => .bind fun _ => concludes_uploadNext _ _ _ _ _ _)
  · exact Option.some.inj hh ▸ concludes_catchUpload (.throw _)
  · cases hh

end Callbacks

/-! ### Jobs in the server -/

namespace Server

variable {cfg : ServerConfig} {s s' : Server} {folderId id : String} {e : Event}

/-- If the job waits, a callback of it is pending. -/
def Awake (id : String) (s : Server) : Prop :=
  ∀ status, s.status id = some status → status.busy = true → s.pending id ≠ []

/-- Whether a job is awake depends on its entry and its tasks alone. -/
theorem Awake.of_eq (h : Awake id s) (hjob : s'.jobs id = s.jobs id)
    (hpending : s'.pending id = s.pending id) : Awake id s' := by
  intro status hstatus hbusy
  rw [hpending]
  exact h status (status_of_jobs hjob ▸ hstatus) hbusy

/-- After a callback that concludes, its job is awake, and the others are as before. -/
theorem awake_react {handler : Callback (List Task)} (hreacts : Reacts folderId handler)
    (hconcludes : Concludes handler) (hother : ∀ id, id ≠ folderId → Awake id s)
    (hup : (s.react cfg folderId handler).crashed = false) (id : String) :
    Awake id (s.react cfg folderId handler) := by
  have htouched : Touched cfg folderId s (s.react cfg folderId handler) := touched_react hreacts
  by_cases hid : id = folderId
  · subst hid
    rw [react] at hup ⊢
    cases hrun : handler (s.view cfg id) with
    | error fault v =>
        rw [hrun] at hup
        cases hup
    | ok tasks v =>
        intro status hstatus hbusy hnone
        cases tasks with
        | nil =>
            have hrest := hconcludes _ _ hrun status (hstatus.symm.trans ?_).symm
            · rw [hrest] at hbusy
              cases hbusy
            · exact put_status_self cfg v
        | cons task tasks =>
            have htask : task.folderId = id := by
              have hids := hreacts (s.view cfg id)
              rw [hrun] at hids
              exact hids.2.2.1 task List.mem_cons_self
            have hmem : task ∈ (s.tasks ++ task :: tasks).filter fun t => t.folderId = id :=
              List.mem_filter.mpr ⟨by simp, by simpa using htask⟩
            exact List.ne_nil_of_mem hmem hnone
  · exact (hother id hid).of_eq (htouched.jobs id hid) (htouched.pending_of_ne hid)

/-- **Every step** keeps all jobs awake, unless it takes the process down. -/
theorem awake_step (h : ∀ id, Awake id s) (hstep : step cfg s e = some s')
    (hup : s'.crashed = false) (id : String) : Awake id s' := by
  cases step_effect hstep with
  | process p size hfresh =>
      by_cases hid : id = p.folderId
      · subst hid
        intro status hstatus hbusy
        rw [pending_startPipeline, if_pos rfl]
        exact List.append_ne_nil_of_right_ne_nil _ (List.cons_ne_nil _ _)
      · refine (h id).of_eq (startPipeline_jobs_of_ne hid size) ?_
        rw [pending_startPipeline, if_neg (Ne.symm hid), List.append_nil]
  | notFound folderId series episode hnone => exact h id
  | upload folderId series episode hsome =>
      refine awake_react (catchUpload_reacts (startUpload_reacts cfg folderId _))
        (concludes_catchUpload (concludes_startUpload cfg folderId _)) (fun id hid => ?_) hup id
      exact (h id).of_eq (beginUpload_jobs_of_ne hid) rfl
  | cancel folderId =>
      by_cases hid : id = folderId
      · subst hid
        intro status hstatus
        rw [cancel_status] at hstatus
        cases hstatus
      · exact (h id).of_eq (cancel_jobs_of_ne hid) rfl
  | written p stage file files htask hwrites hfolder => exact h id
  | callback task signal handler htask hhandler =>
      refine awake_react (callback_reacts hhandler) (concludes_callback hhandler) (fun id hid => ?_)
        hup id
      exact (h id).of_eq rfl (pending_erase_of_ne hid)

end Server

/-- What ends a child or a PUT is always handled. -/
theorem callback_ended (cfg : ServerConfig) (task : Task) (found : WhisperFiles) :
    (callback cfg task (.ended found)).isSome = true := by
  cases task with
  | upload u => rfl
  | pipeline p stage =>
      rw [callback.eq_def]
      dsimp only
      cases p.route with
      | process => cases stage <;> rfl
      | processPodcast => cases stage <;> rfl

/-- Where the process is up, a pending child or PUT can end. -/
theorem Server.step_ended {cfg : ServerConfig} {s : Server} (hup : s.crashed = false) {task : Task}
    (htask : task ∈ s.tasks) (found : WhisperFiles) :
    Server.step cfg s (.callback task (.ended found)) ≠ none := by
  obtain ⟨handler, hhandler⟩ := Option.isSome_iff_exists.mp (callback_ended cfg task found)
  rw [Server.step.eq_def, if_neg (by rw [hup]; exact Bool.false_ne_true)]
  dsimp only
  rw [if_pos htask, hhandler]
  exact Option.some_ne_none _

/-- All jobs are awake as long as the process is up. -/
theorem Server.awake_of_reach {cfg : ServerConfig} {s₀ s : Server}
    (h : Reach (Server.step cfg) (fun _ _ => True) s₀ s) (hstart : Server.Initial s₀)
    (hup : s.crashed = false) (id : String) : Server.Awake id s := by
  refine h.invariant (I := fun s => s.crashed = false → ∀ id, Server.Awake id s)
    (fun _ id status hstatus => ?_) (fun s e s' _ hs hstep hup' =>
      Server.awake_step (hs (Server.crashed_of_step hstep)) hstep hup') hup id
  rw [Server.status, hstart.jobs id] at hstatus
  cases hstatus

/-- How many children a pipeline may still have to wait for. -/
def Stage.left : Stage → ℕ
  | .encode => 4
  | .extract => 3
  | .whisper => 2
  | .translation => 1

/-- How many children, or PUTs, a task may still have to wait for. -/
def Task.work : Task → ℕ
  | .pipeline _ stage => stage.left
  | .upload u => u.rest.length + 1

/-- Every task is work: it takes at least its own end. -/
theorem Task.work_pos (task : Task) : 0 < task.work := by
  cases task with
  | pipeline p stage => cases stage <;> exact Nat.succ_pos _
  | upload u => exact Nat.succ_pos _

/-- The work of some tasks is the sum of that of each. -/
def workOf (tasks : List Task) : ℕ := (tasks.map Task.work).sum

/-- The work of two lists of tasks adds up. -/
theorem workOf_append (tasks tasks' : List Task) :
    workOf (tasks ++ tasks') = workOf tasks + workOf tasks' := by
  rw [workOf, List.map_append, List.sum_append]
  rfl

/-- A signal after which a child is gone, or a PUT is through. -/
def Signal.ends : Signal → Bool
  | .ended _ | .failed _ => true
  | _ => false

/-- An event with which a child or a PUT ends. -/
def Event.ends : Event → Bool
  | .callback _ signal => signal.ends
  | _ => false

/-- A request that gives the server something to do. -/
def Event.starts : Event → Bool
  | .process _ _ | .uploadToR2 _ _ _ => true
  | _ => false

/-- A callback that leaves so much work at most. -/
def Spends (n : ℕ) (h : Callback (List Task)) : Prop := Returns (fun tasks => workOf tasks ≤ n) h

section Work

variable {cfg : ServerConfig} {p : Pipeline} {task : Task} {n : ℕ}

/-- A callback that starts nothing spends nothing. -/
theorem Spends.nil : Spends n (Pure.pure []) := Returns.pure (Nat.zero_le n)

/-- A callback that starts one task spends the work of that task. -/
theorem Spends.single (h : task.work ≤ n) : Spends n (Pure.pure [task]) :=
  Returns.pure (by rwa [workOf, List.map_singleton, List.sum_singleton])

/-- What comes first spends nothing; only the tasks that are returned count. -/
theorem Spends.bind {α : Type} {m : Callback α} {f : α → Callback (List Task)}
    (hf : ∀ a, Spends n (f a)) : Spends n (m >>= f) :=
  Returns.bind hf

/-- A branch spends what both sides can afford. -/
theorem Spends.ite {q : Prop} [Decidable q] {h h' : Callback (List Task)} (hh : Spends n h)
    (hh' : Spends n h') : Spends n (if q then h else h') :=
  Returns.ite hh hh'

/-- A job that fails starts no further child, so it leaves no work. -/
theorem spends_failJob (message : String) : Spends n (failJob message) :=
  .bind fun _ => .bind fun _ => .nil

/-- Starting whisper spends the work of the task, and the failure to find it nothing. -/
theorem spends_spawnWhisper (found : WhisperFiles) (h : task.work ≤ n) :
    Spends n (spawnWhisper found task failJob) :=
  .ite (.single h) (spends_failJob _)

/-- After the extraction there remain a run of whisper and a translation at most. -/
theorem spends_onExtractEnd (cfg : ServerConfig) (p : Pipeline) (found : WhisperFiles) :
    Spends 2 (onExtractEnd cfg p found) := by
  rw [onExtractEnd]
  split
  · exact spends_failJob _
  · exact spends_spawnWhisper found (le_refl 2)

/-- The handlers of a whisper child leave the work of its task at most, and less where the child has
ended. -/
theorem spends_whisperCallback {onStdout : Option (Option ℚ → Callback PUnit)}
    {onSuccess : WhisperFiles → Callback (List Task)}
    (hsuccess : ∀ found, Spends (task.work - 1) (onSuccess found)) {signal : Signal}
    {h : Callback (List Task)} (hh : whisperCallback task onStdout onSuccess signal = some h) :
    Spends (task.work - signal.ends.toNat) h := by
  rw [whisperCallback.eq_def] at hh
  split at hh
  · obtain ⟨handler, -, rfl⟩ := Option.map_eq_some_iff.mp hh
    exact .bind fun _ => .single (le_refl _)
  · exact Option.some.inj hh ▸ hsuccess _
  · exact Option.some.inj hh ▸ spends_failJob _
  · exact Option.some.inj hh ▸ .bind fun _ => .single (le_refl _)
  · cases hh

/-- A `/process` pipeline that finishes spends nothing. -/
theorem spends_finishSuccess (p : Pipeline) : Spends n (finishSuccess p) :=
  .bind fun _ => .bind fun _ => .bind fun _ => .bind fun _ => .nil

/-- A podcast pipeline that finishes spends nothing. -/
theorem spends_finishJob (p : Pipeline) : Spends n (finishJob p) :=
  .bind fun _ => .bind fun _ => .bind fun _ => .bind fun _ => .bind fun _ => .nil

/-- After whisper there remains a translation at most, which is less work than before. -/
theorem spends_onWhisperSuccess (p : Pipeline) (found : WhisperFiles) :
    Spends ((Task.pipeline p .whisper).work - 1) (onWhisperSuccess p found) :=
  .bind fun _ => .ite
    (.bind fun _ => .bind fun _ => spends_spawnWhisper found (le_refl 1)) (spends_finishSuccess p)

/-- After whisper in a podcast there remains a translation at most, which is less work than before.
-/
theorem spends_onPodcastWhisperSuccess (p : Pipeline) (found : WhisperFiles) :
    Spends ((Task.pipeline p .whisper).work - 1) (onPodcastWhisperSuccess p found) :=
  .bind fun _ => .ite
    (.bind fun _ => spends_spawnWhisper found (le_refl 1)) (spends_finishJob p)

/-- A callback of a `/process` pipeline spends less than its task if it ends it, and no more
otherwise. -/
theorem spends_processCallback {stage : Stage} {signal : Signal} {h : Callback (List Task)}
    (hh : processCallback cfg p stage signal = some h) :
    Spends ((Task.pipeline p stage).work - signal.ends.toNat) h := by
  rw [processCallback.eq_def] at hh
  split at hh
  · exact Option.some.inj hh ▸ .bind fun _ => .single (le_refl _)
  · exact Option.some.inj hh ▸ .bind fun _ => .single (le_refl _)
  · exact Option.some.inj hh ▸ .bind fun _ => .bind fun _ => .bind fun _ => .single (le_refl 3)
  · exact Option.some.inj hh ▸ .bind fun _ => spends_failJob _
  · exact Option.some.inj hh ▸ spends_onExtractEnd cfg p _
  · exact Option.some.inj hh ▸ spends_failJob _
  · exact spends_whisperCallback (spends_onWhisperSuccess p) hh
  · exact spends_whisperCallback (fun _ => .bind fun _ => spends_finishSuccess p) hh
  · cases hh

/-- A callback of a podcast pipeline spends less than its task if it ends it, and no more otherwise.
-/
theorem spends_podcastCallback {stage : Stage} {signal : Signal} {h : Callback (List Task)}
    (hh : podcastCallback cfg p stage signal = some h) :
    Spends ((Task.pipeline p stage).work - signal.ends.toNat) h := by
  rw [podcastCallback.eq_def] at hh
  split at hh
  · exact Option.some.inj hh ▸ .bind fun _ => .single (le_refl 3)
  · exact Option.some.inj hh ▸ spends_failJob _
  · exact Option.some.inj hh ▸ spends_onExtractEnd cfg p _
  · exact Option.some.inj hh ▸ spends_failJob _
  · exact spends_whisperCallback (spends_onPodcastWhisperSuccess p) hh
  · exact spends_whisperCallback (fun _ => .bind fun _ => spends_finishJob p) hh
  · cases hh

/-- The upload loop spends one PUT for every file that remains. -/
theorem spends_uploadNext (cfg : ServerConfig) (folderId r2FolderPath : String)
    (files : List String) (uploadedCount : ℕ) (rest : List String) :
    Spends rest.length (uploadNext cfg folderId r2FolderPath files uploadedCount rest) := by
  cases rest with
  | nil =>
      exact .bind fun _ => .bind fun _ => .bind fun _ => .bind fun _ => .bind fun _ =>
        .bind fun _ => .bind fun _ => .bind fun _ => .nil
  | cons file rest => exact .bind fun _ => .single (le_refl _)

/-- **Every callback** leaves no more work than its task had, and less when a child has ended. -/
theorem spends_callback {signal : Signal} {h : Callback (List Task)}
    (hh : callback cfg task signal = some h) : Spends (task.work - signal.ends.toNat) h := by
  rw [callback.eq_def] at hh
  split at hh
  · split at hh
    · exact spends_processCallback hh
    · exact spends_podcastCallback hh
  · exact Option.some.inj hh ▸ Returns.tryCatch
      (.bind fun _ => .bind fun _ => spends_uploadNext _ _ _ _ _ _) fun _ => spends_failJob _
  · exact Option.some.inj hh ▸ Returns.tryCatch (Returns.throw _) fun _ => spends_failJob _
  · cases hh

end Work

/-! ### Runs without requests -/

namespace Server

variable {cfg : ServerConfig} {s s' : Server} {e : Event} {es : List Event}

/-- How many children and PUTs the server may still have to wait for. -/
def work (s : Server) : ℕ := workOf s.tasks

/-- A callback adds no more work to a server than it spends. -/
theorem work_react {folderId : String} {handler : Callback (List Task)} {n : ℕ}
    (h : Spends n handler) : (s.react cfg folderId handler).work ≤ s.work + n := by
  rw [react]
  cases hrun : handler (s.view cfg folderId) with
  | ok tasks v =>
      have hspent : workOf tasks ≤ n := h _ _ _ hrun
      rw [work, workOf_append]
      exact Nat.add_le_add_left hspent _
  | error fault v => exact Nat.le_add_right _ _

/-- **A step** without a request adds no work, and takes some off where a child ends. -/
theorem work_step (hstep : step cfg s e = some s') (he : e.starts = false) :
    e.ends.toNat + s'.work ≤ s.work := by
  cases step_effect hstep with
  | process p size hfresh => cases he
  | notFound folderId series episode hnone => cases he
  | upload folderId series episode hsome => cases he
  | cancel folderId => exact Nat.le_of_eq (Nat.zero_add _)
  | written p stage file files htask hwrites hfolder => exact Nat.le_of_eq (Nat.zero_add _)
  | callback task signal handler htask hhandler =>
      have hspent : (Server.react cfg task.folderId handler
          { s with tasks := s.tasks.erase task }).work ≤ _ := work_react (spends_callback hhandler)
      have hsum : task.work + ((s.tasks.erase task).map Task.work).sum = s.work :=
        List.sum_map_erase Task.work htask
      have hends : signal.ends.toNat ≤ task.work := (Bool.toNat_le _).trans task.work_pos
      have hrest : Server.work { s with tasks := s.tasks.erase task } =
        ((s.tasks.erase task).map Task.work).sum := rfl
      have hcost : (Event.callback task signal).ends.toNat = signal.ends.toNat := rfl
      omega

/-- **A run** without requests: what ends, and what is left, is what was to come. -/
theorem work_run (hrun : run (step cfg) s es = some s') (hes : ∀ e ∈ es, e.starts = false) :
    es.countP Event.ends + s'.work ≤ s.work := by
  induction es generalizing s with
  | nil =>
      obtain rfl := Option.some.inj hrun
      exact Nat.le_of_eq (Nat.zero_add _)
  | cons e es ih =>
      rw [run_cons] at hrun
      obtain ⟨s₁, hstep, hrest⟩ := Option.bind_eq_some_iff.mp hrun
      have hfirst := work_step hstep (hes e List.mem_cons_self)
      have hothers := ih hrest fun e' he' => hes e' (List.mem_cons_of_mem e he')
      rw [List.countP_cons]
      cases hends : e.ends with
      | false =>
          rw [hends] at hfirst
          simp only [Bool.toNat_false] at hfirst
          simp only [Bool.false_eq_true, if_false]
          omega
      | true =>
          rw [hends] at hfirst
          simp only [Bool.toNat_true] at hfirst
          simp only [if_true]
          omega

end Server

end Mogo
