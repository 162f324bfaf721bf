import Mogo.Callbacks
import Mogo.Transition

/-!
# What a Step of the Server Does

`step_effect` says once what each event does, and `Touched` what a callback leaves in the rest of
the server. The invariants of the server are read off these two.

## Main results

* `step_effect`: what a step does.
* `touched_react`: what a callback leaves.
* `Sane.step`: the invariant of the output folders.
-/

namespace Mogo

open Handler

namespace Server

variable {cfg : ServerConfig} {s s' : Server} {folderId : String} {e : Event}

/-! ### Callbacks in the server -/

/-- The status of a job, `none` if it has no entry. -/
def status (folderId : String) (s : Server) : Option Status := (s.jobs folderId).bind Job.status

/-- The status of a job depends on its entry alone. -/
theorem status_of_jobs {id : String} (h : s'.jobs id = s.jobs id) : s'.status id = s.status id :=
  congrArg (fun job => job.bind Job.status) h

/-- A job that has a status has an entry. -/
theorem jobs_ne_none {id : String} {status : Status} (h : s.status id = some status) :
    s.jobs id ≠ none := by
  intro hnone
  rw [Server.status, hnone] at h
  cases h

/-- The status of a view is the one of its job. -/
theorem view_status (cfg : ServerConfig) : (s.view cfg folderId).status = s.status folderId := rfl

/-- A view that is put back is what is seen next. -/
@[simp] theorem view_put (v : JobView) : (s.put cfg folderId v).view cfg folderId = v := by
  simp [view, put]

/-- Putting a view back as it was taken changes nothing. -/
@[simp] theorem put_view : s.put cfg folderId (s.view cfg folderId) = s := by
  simp [view, put]

/-- Of two views that are put back the second one counts. -/
@[simp] theorem put_put (v v' : JobView) :
    (s.put cfg folderId v).put cfg folderId v' = s.put cfg folderId v' := by
  simp [put]

/-- A callback that returns puts its view back into the server and appends its tasks. -/
theorem react_of_ok {handler : Callback (List Task)} {tasks : List Task} {v : JobView}
    (h : handler (s.view cfg folderId) = .ok tasks v) :
    s.react cfg folderId handler = { s.put cfg folderId v with tasks := s.tasks ++ tasks } := by
  rw [react, h]

/-- The entry of the job is the one of the view that was put back. -/
@[simp] theorem put_jobs_self (cfg : ServerConfig) (v : JobView) :
    (s.put cfg folderId v).jobs folderId = v.job :=
  Function.update_self _ _ _

/-- The folder of the job is the one of the view that was put back. -/
@[simp] theorem put_folders_self (cfg : ServerConfig) (v : JobView) :
    (s.put cfg folderId v).folders (cfg.outputFolder folderId) = v.folder :=
  Function.update_self _ _ _

/-- The status of the job is the one of the view that was put back. -/
@[simp] theorem put_status_self (cfg : ServerConfig) (v : JobView) :
    (s.put cfg folderId v).status folderId = v.status :=
  congrArg (fun job : Option Job => job.bind Job.status) (put_jobs_self cfg v)

/-- What a callback of a job leaves in the server. -/
structure Touched (cfg : ServerConfig) (folderId : String) (s s' : Server) : Prop where
  frame : Frame (s.view cfg folderId) (s'.view cfg folderId)
  jobs : ∀ id, id ≠ folderId → s'.jobs id = s.jobs id
  folders : ∀ path, s.folders path = none → s'.folders path = none
  issued : s'.issued = s.issued
  cancelled : s'.cancelled = s.cancelled
  tasks : ∃ tasks, s'.tasks = s.tasks ++ tasks ∧ tasks.length ≤ 1 ∧
    (∀ task ∈ tasks, task.folderId = folderId) ∧
    (Final (s'.status folderId) → tasks = [] ∨ s'.status folderId = s.status folderId)

/-- A view that is put back changes the entry of no other job. -/
theorem put_jobs_of_ne (cfg : ServerConfig) {id : String} (h : id ≠ folderId) (v : JobView) :
    (s.put cfg folderId v).jobs id = s.jobs id :=
  Function.update_of_ne h _ _

/-- A callback makes no folder: one that was not there before is not there after it. -/
theorem put_folders_eq_none {v : JobView} (hframe : Frame (s.view cfg folderId) v) {path : String}
    (h : s.folders path = none) : (s.put cfg folderId v).folders path = none := by
  by_cases hpath : path = cfg.outputFolder folderId
  · subst hpath
    exact (Function.update_self _ _ _).trans (hframe.folder h)
  · exact (Function.update_of_ne hpath _ _).trans h

/-- **A callback** touches its own job and its own folder. -/
theorem touched_react {handler : Callback (List Task)} (h : Reacts folderId handler) :
    Touched cfg folderId s (s.react cfg folderId handler) := by
  have hrun := h (s.view cfg folderId)
  rw [react]
  cases hv : handler (s.view cfg folderId) with
  | ok tasks v =>
      rw [hv] at hrun
      obtain ⟨hframe, hlength, hids, hfinal⟩ := hrun
      have hview : ({ s.put cfg folderId v with tasks := s.tasks ++ tasks } : Server).view cfg
          folderId = v := view_put v
      refine ⟨hview.symm ▸ hframe, fun id hid => put_jobs_of_ne cfg hid v,
        fun path => put_folders_eq_none hframe, rfl, rfl, tasks, rfl, hlength, hids, fun hf => ?_⟩
      rw [← view_status cfg, hview] at hf ⊢
      exact hfinal hf
  | error fault v =>
      rw [hv] at hrun
      have hview : ({ s.put cfg folderId v with crashed := true } : Server).view cfg folderId = v :=
        view_put v
      exact ⟨hview.symm ▸ hrun, fun id hid => put_jobs_of_ne cfg hid v,
        fun path => put_folders_eq_none hrun, rfl, rfl, [], (List.append_nil _).symm, by simp,
        by simp, fun _ => Or.inl rfl⟩

/-- A callback makes no entry, and loses none. -/
theorem Touched.jobs_eq_none (h : Touched cfg folderId s s') (id : String) :
    s'.jobs id = none ↔ s.jobs id = none := by
  by_cases hid : id = folderId
  · subst hid
    have hsome : (s'.jobs id).isSome = (s.jobs id).isSome := h.frame.job
    rw [← Option.isNone_iff_eq_none, ← Option.isNone_iff_eq_none, ← Option.not_isSome,
      ← Option.not_isSome, hsome]
  · rw [h.jobs id hid]

/-! ### Upload requests in the server -/

/-- The server once an upload request has set `uploading_r2`. -/
def beginUpload (cfg : ServerConfig) (folderId : String) (s : Server) : Server :=
  s.put cfg folderId (s.view cfg folderId).uploading

/-- A job that begins its upload is uploading. -/
@[simp] theorem beginUpload_status (cfg : ServerConfig) :
    (s.beginUpload cfg folderId).status folderId = some .uploading_r2 := by
  rw [← view_status cfg, beginUpload, view_put]
  rfl

/-- An upload that begins changes the entry of no other job. -/
theorem beginUpload_jobs_of_ne {id : String} (h : id ≠ folderId) :
    (s.beginUpload cfg folderId).jobs id = s.jobs id :=
  put_jobs_of_ne cfg h _

/-- An upload that begins touches no folder. -/
@[simp] theorem beginUpload_folders : (s.beginUpload cfg folderId).folders = s.folders :=
  Function.update_eq_self _ _

/-- Without a folder the request is refused, and nothing happens. -/
theorem react_uploadToR2_of_none (h : s.folders (cfg.outputFolder folderId) = none)
    (series episode : String) :
    s.react cfg folderId (Mogo.uploadToR2 cfg folderId series episode) = s := by
  rw [react, uploadToR2_of_none h]
  dsimp only
  rw [put_view, List.append_nil]

/-- With a folder the upload begins, and lists the folder in a handler of its own. -/
theorem react_uploadToR2_of_some (h : s.folders (cfg.outputFolder folderId) ≠ none)
    (series episode : String) :
    s.react cfg folderId (Mogo.uploadToR2 cfg folderId series episode) =
      (s.beginUpload cfg folderId).react cfg folderId
        (catchUpload (startUpload cfg folderId (r2FolderPath series episode))) := by
  rw [react, react, uploadToR2_of_some h, beginUpload, view_put]
  cases catchUpload (startUpload cfg folderId (r2FolderPath series episode))
      (s.view cfg folderId).uploading with
  | ok tasks v =>
      dsimp only
      rw [put_put]
      rfl
  | error fault v =>
      dsimp only
      rw [put_put]

/-! ### Starting and cancelling -/

/-- A new pipeline changes the entry of no other job. -/
theorem startPipeline_jobs_of_ne {p : Pipeline} {id : String} (h : id ≠ p.folderId) (size : ℕ) :
    (s.startPipeline cfg p size).jobs id = s.jobs id :=
  Function.update_of_ne h _ _

/-- The status of a pipeline that has just been started is that of its compression. -/
@[simp] theorem startPipeline_status (p : Pipeline) (size : ℕ) :
    (s.startPipeline cfg p size).status p.folderId = some .compressing := by
  simp [status, startPipeline, Job.initial]

/-- A cancel deletes the entry of no other job. -/
theorem cancel_jobs_of_ne {id : String} (h : id ≠ folderId) :
    (s.cancel cfg folderId).jobs id = s.jobs id :=
  Function.update_of_ne h _ _

/-- After a cancel the job has no status. -/
@[simp] theorem cancel_status : (s.cancel cfg folderId).status folderId = none := by
  simp [status, cancel]

/-- A folder that is not there is not made by a cancel. -/
theorem cancel_folders_eq_none {path : String} (h : s.folders path = none) :
    (s.cancel cfg folderId).folders path = none := by
  by_cases heq : path = cfg.outputFolder folderId
  · subst heq
    exact Function.update_self _ _ _
  · exact (Function.update_of_ne heq _ _).trans h

/-- A job that was not there is not cancelled. -/
theorem mem_cancelled_cancel {id : String} (h : id ∈ (s.cancel cfg folderId).cancelled) :
    id ∈ s.cancelled ∨ id = folderId ∧ s.jobs id ≠ none := by
  rw [Server.cancel] at h
  dsimp only at h
  split at h
  next hsome =>
    rcases List.mem_cons.mp h with rfl | hold
    · exact Or.inr ⟨rfl, Option.isSome_iff_ne_none.mp hsome⟩
    · exact Or.inl hold
  · exact Or.inl h

/-! ### Steps -/

/-- What an event does to the server: a request, a file that is written or a callback. -/
inductive Effect (cfg : ServerConfig) (s : Server) : Event → Server → Prop
  | process (p : Pipeline) (size : ℕ) (hfresh : cfg.outputFolder p.folderId ∉ s.issued) :
      Effect cfg s (.process p size) (s.startPipeline cfg p size)
  | notFound (folderId series episode : String)
      (hfolder : s.folders (cfg.outputFolder folderId) = none) :
      Effect cfg s (.uploadToR2 folderId series episode) s
  | upload (folderId series episode : String)
      (hfolder : s.folders (cfg.outputFolder folderId) ≠ none) :
      Effect cfg s (.uploadToR2 folderId series episode)
        ((s.beginUpload cfg folderId).react cfg folderId
          (catchUpload (startUpload cfg folderId (r2FolderPath series episode))))
  | cancel (folderId : String) : Effect cfg s (.cancel folderId) (s.cancel cfg folderId)
  | written (p : Pipeline) (stage : Stage) (file : File) (files : List File)
      (htask : Task.pipeline p stage ∈ s.tasks) (hwrites : stage.writes file.name = true)
      (hfolder : s.folders (cfg.outputFolder p.folderId) = some files) :
      Effect cfg s (.written p stage file)
        { s with
          folders := Function.update s.folders (cfg.outputFolder p.folderId)
            (some (insertFile file files)) }
  | callback (task : Task) (signal : Signal) (handler : Callback (List Task))
      (htask : task ∈ s.tasks) (hhandler : Mogo.callback cfg task signal = some handler) :
      Effect cfg s (.callback task signal)
        (Server.react cfg task.folderId handler { s with tasks := s.tasks.erase task })

/-- A process that is down does nothing. -/
theorem crashed_of_step (h : step cfg s e = some s') : s.crashed = false := by
  cases hcrashed : s.crashed with
  | false => rfl
  | true =>
      rw [step.eq_def, if_pos hcrashed] at h
      cases h

/-- **What a step does**: it serves a request, runs the callback of a pending task, or lets a
running child write a file. -/
theorem step_effect (h : step cfg s e = some s') : Effect cfg s e s' := by
  have hup : ¬ s.crashed = true := by rw [crashed_of_step h]; exact Bool.false_ne_true
  rw [step.eq_def, if_neg hup] at h
  cases e with
  | process p size =>
      dsimp only at h
      split at h
      · exact absurd h (by simp)
      next hfresh => exact Option.some.inj h ▸ .process p size hfresh
  | uploadToR2 folderId series episode =>
      obtain rfl := Option.some.inj h
      by_cases hfolder : s.folders (cfg.outputFolder folderId) = none
      · rw [react_uploadToR2_of_none hfolder]
        exact .notFound folderId series episode hfolder
      · rw [react_uploadToR2_of_some hfolder]
        exact .upload folderId series episode hfolder
  | cancel folderId => exact Option.some.inj h ▸ .cancel folderId
  | written p stage file =>
      dsimp only at h
      split at h
      next hguard =>
        obtain ⟨files, hfolder, rfl⟩ := Option.map_eq_some_iff.mp h
        exact .written p stage file files hguard.1 hguard.2 hfolder
      · exact absurd h (by simp)
  | callback task signal =>
      dsimp only at h
      split at h
      next htask =>
        obtain ⟨handler, hhandler, rfl⟩ := Option.map_eq_some_iff.mp h
        exact .callback task signal handler htask hhandler
      · exact absurd h (by simp)

/-- The upload loop that a request starts touches the job of the request only. -/
theorem touched_upload (cfg : ServerConfig) (s : Server) (folderId r2FolderPath : String) :
    Touched cfg folderId (s.beginUpload cfg folderId)
      ((s.beginUpload cfg folderId).react cfg folderId
        (catchUpload (startUpload cfg folderId r2FolderPath))) :=
  touched_react (catchUpload_reacts (startUpload_reacts cfg folderId r2FolderPath))

/-- The callback of a pending task touches the job of the task only. -/
theorem touched_callback {task : Task} {signal : Signal} {handler : Callback (List Task)}
    (h : Mogo.callback cfg task signal = some handler) (s : Server) :
    Touched cfg task.folderId s (s.react cfg task.folderId handler) :=
  touched_react (callback_reacts h)

/-! ### The output folders -/

/-- The output folders of the server: they are all issued, those of cancelled jobs and of uploaded
ones are gone, and no folder is issued twice. -/
structure Sane (cfg : ServerConfig) (s : Server) : Prop where
  folders : ∀ path, s.folders path ≠ none → path ∈ s.issued
  jobs : ∀ id, s.jobs id ≠ none → cfg.outputFolder id ∈ s.issued
  tasks : ∀ task ∈ s.tasks, cfg.outputFolder task.folderId ∈ s.issued
  cancelled : ∀ id ∈ s.cancelled,
    cfg.outputFolder id ∈ s.issued ∧ s.folders (cfg.outputFolder id) = none
  r2_done : ∀ id, s.status id = some .r2_done → s.folders (cfg.outputFolder id) = none

/-- Before the first request everything is in its place. -/
theorem Initial.sane (h : Initial s) : Sane cfg s where
  folders := h.folders
  jobs id hjob := absurd (h.jobs id) hjob
  tasks task htask := by
    rw [h.tasks] at htask
    cases htask
  cancelled id hid := by
    rw [h.cancelled] at hid
    cases hid
  r2_done id hdone := by
    rw [status, h.jobs id] at hdone
    cases hdone

/-- A callback keeps the output folders in order. -/
theorem Sane.touched (hsane : Sane cfg s) (hissued : cfg.outputFolder folderId ∈ s.issued)
    (h : Touched cfg folderId s s') : Sane cfg s' where
  folders path hpath := by
    rw [h.issued]
    exact hsane.folders path fun hnone => hpath (h.folders path hnone)
  jobs id hjob := by
    rw [h.issued]
    by_cases hid : id = folderId
    · exact hid ▸ hissued
    · exact hsane.jobs id (h.jobs id hid ▸ hjob)
  tasks task htask := by
    obtain ⟨tasks, htasks, -, hids, -⟩ := h.tasks
    rw [h.issued]
    rw [htasks] at htask
    rcases List.mem_append.mp htask with hold | hnew
    · exact hsane.tasks task hold
    · exact hids task hnew ▸ hissued
  cancelled id hid := by
    rw [h.issued]
    rw [h.cancelled] at hid
    exact (hsane.cancelled id hid).imp_right (h.folders _)
  r2_done id hdone := by
    by_cases hid : id = folderId
    · subst hid
      rcases h.frame.r2_done hdone with hdone | hnone
      · exact h.folders _ (hsane.r2_done id hdone)
      · exact hnone
    · rw [status, h.jobs id hid] at hdone
      exact h.folders _ (hsane.r2_done id hdone)

/-- A pipeline with an id of its own keeps everything in its place. -/
theorem Sane.startPipeline (hsane : Sane cfg s) {p : Pipeline}
    (hfresh : cfg.outputFolder p.folderId ∉ s.issued) (size : ℕ) :
    Sane cfg (s.startPipeline cfg p size) where
  folders path hpath := by
    by_cases heq : path = cfg.outputFolder p.folderId
    · exact List.mem_cons.mpr (Or.inl heq)
    · refine List.mem_cons_of_mem _ (hsane.folders path fun hnone => hpath ?_)
      exact (Function.update_of_ne heq _ _).trans hnone
  jobs id hjob := by
    by_cases heq : id = p.folderId
    · exact List.mem_cons.mpr (Or.inl (congrArg cfg.outputFolder heq))
    · refine List.mem_cons_of_mem _ (hsane.jobs id fun hnone => hjob ?_)
      exact (Function.update_of_ne heq _ _).trans hnone
  tasks task htask := by
    rcases List.mem_append.mp htask with hold | hnew
    · exact List.mem_cons_of_mem _ (hsane.tasks task hold)
    · obtain rfl := List.mem_singleton.mp hnew
      exact List.mem_cons.mpr (Or.inl rfl)
  cancelled id hid := by
    obtain ⟨hissued, hnone⟩ := hsane.cancelled id hid
    have hne : cfg.outputFolder id ≠ cfg.outputFolder p.folderId :=
      fun heq => hfresh (heq ▸ hissued)
    exact ⟨List.mem_cons_of_mem _ hissued, (Function.update_of_ne hne _ _).trans hnone⟩
  r2_done id hdone := by
    by_cases heq : id = p.folderId
    · subst heq
      rw [startPipeline_status] at hdone
      cases hdone
    · rw [status_of_jobs (startPipeline_jobs_of_ne heq size)] at hdone
      have hne : cfg.outputFolder id ≠ cfg.outputFolder p.folderId :=
        fun hpath => hfresh (hpath ▸ hsane.jobs id (jobs_ne_none hdone))
      exact (Function.update_of_ne hne _ _).trans (hsane.r2_done id hdone)

/-- An upload of a folder that exists keeps everything in its place. -/
theorem Sane.beginUpload (hsane : Sane cfg s)
    (hfolder : s.folders (cfg.outputFolder folderId) ≠ none) :
    Sane cfg (s.beginUpload cfg folderId) where
  folders path hpath := hsane.folders path (beginUpload_folders (s := s) ▸ hpath)
  jobs id hjob := by
    by_cases heq : id = folderId
    · subst heq
      exact hsane.folders _ hfolder
    · exact hsane.jobs id (beginUpload_jobs_of_ne heq ▸ hjob)
  tasks := hsane.tasks
  cancelled id hid := by
    rw [beginUpload_folders]
    exact hsane.cancelled id hid
  r2_done id hdone := by
    by_cases heq : id = folderId
    · subst heq
      rw [beginUpload_status] at hdone
      cases hdone
    · rw [beginUpload_folders]
      exact hsane.r2_done id (status_of_jobs (beginUpload_jobs_of_ne heq) ▸ hdone)

/-- A cancel keeps everything in its place. -/
theorem Sane.cancel (hsane : Sane cfg s) (folderId : String) :
    Sane cfg (s.cancel cfg folderId) where
  folders path hpath := hsane.folders path fun hnone => hpath (cancel_folders_eq_none hnone)
  jobs id hjob := by
    by_cases heq : id = folderId
    · subst heq
      exact absurd (Function.update_self _ _ _) hjob
    · exact hsane.jobs id (cancel_jobs_of_ne heq ▸ hjob)
  tasks := hsane.tasks
  cancelled id hid := by
    rcases mem_cancelled_cancel hid with hid | ⟨rfl, hjob⟩
    · exact (hsane.cancelled id hid).imp_right cancel_folders_eq_none
    · exact ⟨hsane.jobs id hjob, Function.update_self _ _ _⟩
  r2_done id hdone := by
    by_cases heq : id = folderId
    · subst heq
      exact Function.update_self _ _ _
    · rw [status_of_jobs (cancel_jobs_of_ne heq)] at hdone
      exact cancel_folders_eq_none (hsane.r2_done id hdone)

/-- A file that is written makes no folder. -/
theorem Sane.written (hsane : Sane cfg s) {path : String} {files : List File}
    (hfolder : s.folders path = some files) (files' : List File) :
    Sane cfg { s with folders := Function.update s.folders path (some files') } := by
  have hiff : ∀ path', Function.update s.folders path (some files') path' = none ↔
      s.folders path' = none := by
    intro path'
    by_cases heq : path' = path
    · subst heq
      rw [Function.update_self, hfolder]
      simp
    · rw [Function.update_of_ne heq]
  exact ⟨fun path' hpath => hsane.folders path' fun hnone => hpath ((hiff path').mpr hnone),
    hsane.jobs, hsane.tasks, fun id hid => (hsane.cancelled id hid).imp_right (hiff _).mpr,
    fun id hdone => (hiff _).mpr (hsane.r2_done id hdone)⟩

/-- A pending callback leaves the list of tasks. -/
theorem Sane.erase (hsane : Sane cfg s) (task : Task) :
    Sane cfg { s with tasks := s.tasks.erase task } :=
  ⟨hsane.folders, hsane.jobs, fun t ht => hsane.tasks t (List.mem_of_mem_erase ht),
    hsane.cancelled, hsane.r2_done⟩

/-- **Every step** keeps the output folders in order. -/
theorem Sane.step (hsane : Sane cfg s) (h : step cfg s e = some s') : Sane cfg s' := by
  cases step_effect h with
  | process p size hfresh => exact hsane.startPipeline hfresh size
  | notFound folderId series episode hfolder => exact hsane
  | upload folderId series episode hfolder =>
      refine (hsane.beginUpload hfolder).touched ?_ (touched_upload cfg s folderId _)
      exact hsane.folders _ hfolder
  | cancel folderId => exact hsane.cancel folderId
  | written p stage file files htask hwrites hfolder => exact hsane.written hfolder _
  | callback task signal handler htask hhandler =>
      exact (hsane.erase task).touched (hsane.tasks task htask) (touched_callback hhandler _)

end Server

end Mogo
