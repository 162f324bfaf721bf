import Mogo.ServerSteps

/-!
# Cancelling a Job

The callbacks of a job touch the entry of the job and do not look whether it is still there;
`/cancel` deletes it. So a cancelled job is harmless exactly when no callback of it is pending any
more: every callback then finds its entry. A job that is cancelled while a callback is pending takes
the process down as soon as its child fails.

## Main results

* `cancel_safe`: which cancels are safe, and what the others lead to.
* `not_cancelSafe`: not all of them are.
-/

namespace Mogo

open Handler Transition Server

/-- A cancel that finds no pending callback of its job. -/
def QuietCancel (s : Server) (e : Event) : Prop :=
  ∀ folderId, e = .cancel folderId → ∀ task ∈ s.tasks, task.folderId ≠ folderId

/-- A step that touches no field of a missing entry; a callback of a cancelled job leaves the
entries alone, and the process up. -/
structure SafeStep (s : Server) (e : Event) (s' : Server) : Prop where
  faults : s'.faults = s.faults
  cancelled : ∀ task signal, e = .callback task signal → task.folderId ∈ s.cancelled →
    s'.jobs = s.jobs ∧ s'.crashed = false

/-- Every step of every run is safe. -/
def CancelSafe (cfg : ServerConfig) (s₀ : Server) : Prop :=
  ∀ s e s', Reach (step cfg) (fun _ _ => True) s₀ s → step cfg s e = some s' → SafeStep s e s'

/-! ### The invariant -/

/-- Every pending callback finds the entry of its job, and cancelled jobs have none. -/
structure Attended (s : Server) : Prop where
  tasks : ∀ task ∈ s.tasks, s.jobs task.folderId ≠ none
  cancelled : ∀ id ∈ s.cancelled, s.jobs id = none

section Steps

variable {cfg : ServerConfig} {s s' : Server} {folderId : String} {e : Event}

/-- Before the first request no child is at work, so none is without its entry. -/
theorem Server.Initial.attended (h : Initial s) : Attended s where
  tasks task htask := by
    rw [h.tasks] at htask
    cases htask
  cancelled id _ := h.jobs id

/-- The callback of a job that has its entry touches no missing one. -/
theorem Server.Touched.faults (h : Touched cfg folderId s s') (hjob : s.jobs folderId ≠ none) :
    s'.faults = s.faults :=
  h.frame.faults (Option.isSome_iff_ne_none.mpr hjob)

/-- A callback that finds its entry leaves the others with theirs. -/
theorem Attended.touched (hs : Attended s) (hjob : s.jobs folderId ≠ none)
    (h : Touched cfg folderId s s') : Attended s' where
  tasks task htask := by
    obtain ⟨tasks, htasks, -, hids, -⟩ := h.tasks
    rw [Ne, h.jobs_eq_none]
    rw [htasks] at htask
    rcases List.mem_append.mp htask with hold | hnew
    · exact hs.tasks task hold
    · exact hids task hnew ▸ hjob
  cancelled id hid := by
    rw [h.jobs_eq_none]
    exact hs.cancelled id (h.cancelled ▸ hid)

/-- The callback that runs is no longer pending. -/
theorem Attended.erase (hs : Attended s) (task : Task) :
    Attended { s with tasks := s.tasks.erase task } :=
  ⟨fun t ht => hs.tasks t (List.mem_of_mem_erase ht), hs.cancelled⟩

/-- A new pipeline has its entry from its first task on. -/
theorem Attended.startPipeline (hs : Attended s) (hsane : Sane cfg s) {p : Pipeline}
    (hfresh : cfg.outputFolder p.folderId ∉ s.issued) (size : ℕ) :
    Attended (s.startPipeline cfg p size) where
  tasks task htask := by
    by_cases hid : task.folderId = p.folderId
    · rw [hid]
      exact jobs_ne_none (startPipeline_status p size)
    · rw [startPipeline_jobs_of_ne hid]
      rcases List.mem_append.mp htask with hold | hnew
      · exact hs.tasks task hold
      · exact absurd (congrArg Task.folderId (List.mem_singleton.mp hnew)) hid
  cancelled id hid := by
    have hne : id ≠ p.folderId := fun heq => hfresh (heq ▸ (hsane.cancelled id hid).1)
    rw [startPipeline_jobs_of_ne hne]
    exact hs.cancelled id hid

/-- A cancelled job has no folder, so no upload request brings its entry back. -/
theorem Attended.beginUpload (hs : Attended s) (hsane : Sane cfg s)
    (hfolder : s.folders (cfg.outputFolder folderId) ≠ none) :
    Attended (s.beginUpload cfg folderId) where
  tasks task htask := by
    by_cases hid : task.folderId = folderId
    · rw [hid]
      exact jobs_ne_none (beginUpload_status cfg)
    · rw [beginUpload_jobs_of_ne hid]
      exact hs.tasks task htask
  cancelled id hid := by
    have hne : id ≠ folderId := fun heq => hfolder (heq ▸ (hsane.cancelled id hid).2)
    rw [beginUpload_jobs_of_ne hne]
    exact hs.cancelled id hid

/-- A cancel leaves every child attended, if no child of that folder is at work. -/
theorem Attended.cancel (hs : Attended s)
    (hquiet : ∀ task ∈ s.tasks, task.folderId ≠ folderId) :
    Attended (s.cancel cfg folderId) where
  tasks task htask := by
    rw [cancel_jobs_of_ne (hquiet task htask)]
    exact hs.tasks task htask
  cancelled id hid := by
    by_cases heq : id = folderId
    · subst heq
      exact Function.update_self _ _ _
    · rw [cancel_jobs_of_ne heq]
      exact hs.cancelled id ((mem_cancelled_cancel hid).resolve_right fun h => heq h.1)

/-- A step keeps the invariant, unless it cancels a job with a pending callback. -/
theorem Attended.step (hs : Attended s) (hsane : Sane cfg s) (hquiet : QuietCancel s e)
    (h : step cfg s e = some s') : Attended s' := by
  cases step_effect h with
  | process p size hfresh => exact hs.startPipeline hsane hfresh size
  | notFound folderId series episode hfolder => exact hs
  | upload folderId series episode hfolder =>
      refine (hs.beginUpload hsane hfolder).touched ?_ (touched_upload cfg s folderId _)
      exact jobs_ne_none (beginUpload_status cfg)
  | cancel folderId => exact hs.cancel (hquiet folderId rfl)
  | written p stage file files htask hwrites hfolder => exact ⟨hs.tasks, hs.cancelled⟩
  | callback task signal handler htask hhandler =>
      exact (hs.erase task).touched (hs.tasks task htask) (touched_callback hhandler _)

/-- Every step from a state that keeps the invariant touches no missing entry, and is no callback
of a cancelled job. -/
theorem Attended.safeStep (hs : Attended s) (h : Server.step cfg s e = some s') :
    SafeStep s e s' := by
  refine ⟨?_, fun task signal he hcancelled => ?_⟩
  · cases step_effect h with
    | process p size hfresh => rfl
    | notFound folderId series episode hfolder => rfl
    | upload folderId series episode hfolder =>
        refine (touched_upload cfg s folderId _).faults ?_
        exact jobs_ne_none (beginUpload_status cfg)
    | cancel folderId => rfl
    | written p stage file files htask hwrites hfolder => rfl
    | callback task signal handler htask hhandler =>
        exact (touched_callback hhandler _).faults (hs.tasks task htask)
  · subst he
    cases step_effect h with
    | callback _ _ handler htask hhandler =>
        exact absurd (hs.cancelled _ hcancelled) (hs.tasks task htask)

/-- After quiet cancels only, the state is sane and every pending callback finds its entry. -/
theorem reach_attended {s₀ : Server} (h₀ : Initial s₀)
    (h : Reach (Server.step cfg) QuietCancel s₀ s) : Sane cfg s ∧ Attended s :=
  h.invariant (I := fun s => Sane cfg s ∧ Attended s) ⟨h₀.sane, h₀.attended⟩
    fun _ _ _ hquiet hI hstep => ⟨hI.1.step hstep, hI.2.step hI.1 hquiet hstep⟩

/-- The failure of a child whose job has no entry any more. -/
theorem failed_step (cfg : ServerConfig) (hup : s.crashed = false) {task : Task}
    (htask : task ∈ s.tasks)
    (hjob : s.jobs task.folderId = none) (message : String) :
    ∃ s', Server.step cfg s (.callback task (.failed message)) = some s' ∧
      s'.faults = s.faults + 1 ∧ s'.crashed = true := by
  obtain ⟨handler, hhandler, hfault⟩ := callback_failed_faults cfg task message
  obtain ⟨fault, v, hrun, hfaults⟩ := hfault
    (view cfg task.folderId { s with tasks := s.tasks.erase task }) hjob
  refine ⟨react cfg task.folderId handler { s with tasks := s.tasks.erase task }, ?_, ?_, ?_⟩
  · rw [step.eq_def, hup, if_neg Bool.false_ne_true]
    dsimp only
    rw [if_pos htask, hhandler]
    rfl
  · rw [react, hrun]
    exact hfaults
  · rw [react, hrun]

/-- Cancelling a job with a pending callback is unsafe: the callback then misses its entry. -/
theorem Attended.unsafe_cancel (hs : Attended s) (cfg : ServerConfig) (hup : s.crashed = false)
    {task : Task} (htask : task ∈ s.tasks) (message : String) :
    task.folderId ∈ (s.cancel cfg task.folderId).cancelled ∧
      ∃ s'', Server.step cfg (s.cancel cfg task.folderId) (.callback task (.failed message)) =
          some s'' ∧
        ¬ SafeStep (s.cancel cfg task.folderId) (.callback task (.failed message)) s'' := by
  refine ⟨?_, ?_⟩
  · rw [Server.cancel]
    dsimp only
    rw [if_pos (Option.isSome_iff_ne_none.mpr (hs.tasks task htask))]
    exact List.mem_cons_self
  · obtain ⟨s'', hstep, hfaults, -⟩ := failed_step cfg
      (s := s.cancel cfg task.folderId) hup htask (Function.update_self _ _ _) message
    refine ⟨s'', hstep, fun hsafe => ?_⟩
    have hsame := hsafe.faults
    omega

end Steps

/-! ### The main result -/

/-- **Which cancels are safe.** In a run all of whose cancels find no pending callback of their
job, no step touches a field of a missing entry, and no callback of a cancelled job runs; after a
cancel that does find one, the failure of the child touches the missing entry. -/
theorem cancel_safe {cfg : ServerConfig} {s₀ s s' : Server} {e : Event} (h₀ : Initial s₀)
    (hreach : Reach (step cfg) QuietCancel s₀ s) (hstep : step cfg s e = some s') :
    (QuietCancel s e → SafeStep s e s') ∧
      (¬ QuietCancel s e → ∃ task ∈ s'.tasks, task.folderId ∈ s'.cancelled ∧
        ∃ signal s'', step cfg s' (.callback task signal) = some s'' ∧
          ¬ SafeStep s' (.callback task signal) s'') := by
  obtain ⟨-, hs⟩ := reach_attended h₀ hreach
  refine ⟨fun _ => hs.safeStep hstep, fun hquiet => ?_⟩
  rw [QuietCancel] at hquiet
  push Not at hquiet
  obtain ⟨folderId, rfl, task, htask, rfl⟩ := hquiet
  have hup := crashed_of_step hstep
  cases step_effect hstep with
  | cancel =>
      obtain ⟨hcancelled, s'', hnext, hunsafe⟩ := hs.unsafe_cancel cfg hup htask ""
      exact ⟨task, htask, hcancelled, _, s'', hnext, hunsafe⟩

/-- A video whose encoding has failed is cancelled, and a podcast follows. -/
def lectureCancelled : List Event :=
  [.process lecture 10, .callback (.pipeline lecture .encode) (.failed "disk full"),
    .cancel "17-lecture", .process talk 10]

/-- After the cancel of a video that has failed, a callback of a podcast is safe; the cancel of a
video that is being encoded is not. -/
theorem cancel_safe_lecture :
    (∃ s s', run (step mogoConfig) fresh lectureCancelled = some s ∧
        step mogoConfig s (.callback (.pipeline talk .encode) (.ended ⟨true, true⟩)) = some s' ∧
        SafeStep s (.callback (.pipeline talk .encode) (.ended ⟨true, true⟩)) s') ∧
      ∃ task ∈ ((fresh.startPipeline mogoConfig lecture 10).cancel mogoConfig "17-lecture").tasks,
        task.folderId ∈
            ((fresh.startPipeline mogoConfig lecture 10).cancel mogoConfig "17-lecture").cancelled ∧
          ∃ signal s'',
            step mogoConfig
                ((fresh.startPipeline mogoConfig lecture 10).cancel mogoConfig "17-lecture")
                (.callback task signal) = some s'' ∧
              ¬ SafeStep
                ((fresh.startPipeline mogoConfig lecture 10).cancel mogoConfig "17-lecture")
                (.callback task signal) s'' := by
  have hquiet (s : Server) (e : Event) (he : ∀ folderId, e ≠ .cancel folderId) : QuietCancel s e :=
    fun folderId h => absurd h (he folderId)
  have hstart : Reach (step mogoConfig) QuietCancel fresh
      (fresh.startPipeline mogoConfig lecture 10) :=
    .step (e := .process lecture 10) .start (hquiet _ _ (by simp)) rfl
  refine ⟨⟨_, _, rfl, rfl, ?_⟩, ?_⟩
  · have hfailed := hstart.step (e := .callback (.pipeline lecture .encode) (.failed "disk full"))
      (hquiet _ _ (by simp)) rfl
    have hcancelled := hfailed.step (e := .cancel "17-lecture")
      (fun _ _ task htask => absurd htask List.not_mem_nil) rfl
    have htalk := hcancelled.step (e := .process talk 10) (hquiet _ _ (by simp)) rfl
    exact (cancel_safe fresh_initial htalk rfl).1 (hquiet _ _ (by simp))
  · have hcancel : step mogoConfig (fresh.startPipeline mogoConfig lecture 10)
        (.cancel "17-lecture") =
          some ((fresh.startPipeline mogoConfig lecture 10).cancel mogoConfig "17-lecture") := rfl
    refine (cancel_safe fresh_initial hstart hcancel).2 fun h => ?_
    exact h "17-lecture" rfl (.pipeline lecture .encode) List.mem_cons_self rfl

/-- Where every step is safe, no run adds a fault to the log. -/
theorem CancelSafe.run_faults {cfg : ServerConfig} {s₀ s : Server} (h : CancelSafe cfg s₀)
    {es : List Event} (hrun : run (step cfg) s₀ es = some s) : s.faults = s₀.faults := by
  refine (run_invariant (I := fun s => Reach (step cfg) (fun _ _ => True) s₀ s ∧
    s.faults = s₀.faults) (fun e _ s s' hs hstep => ?_) ⟨.start, rfl⟩ hrun).2
  exact ⟨hs.1.step trivial hstep, ((h s e s' hs.1 hstep).faults).trans hs.2⟩

/-- **Not all cancels are safe**: not while a video is encoded, not while a podcast is encoded, and
not between two PUTs of an upload, where the `catch` throws once more. -/
theorem not_cancelSafe :
    (run (step mogoConfig) fresh
        [.process lecture 10, .cancel "17-lecture",
          .callback (.pipeline lecture .encode) (.progress (some 50))]).map
        (fun s => (s.faults, s.crashed)) = some (1, true) ∧
      (run (step mogoConfig) fresh
        [.process talk 10, .cancel "18-talk",
          .callback (.pipeline talk .encode) (.ended ⟨true, true⟩)]).map
        (fun s => (s.faults, s.crashed)) = some (1, true) ∧
      (run (step mogoConfig) fresh
        [.process talk 10, .written talk .encode ⟨"playlist.m3u8", [1]⟩,
          .uploadToR2 "18-talk" "My Show" "3", .cancel "18-talk",
          .callback (talkPut "3") (.ended ⟨true, true⟩)]).map
        (fun s => (s.faults, s.crashed)) = some (2, true) ∧
      ¬ CancelSafe mogoConfig fresh := by
  have hvideo : (run (step mogoConfig) fresh
      [.process lecture 10, .cancel "17-lecture",
        .callback (.pipeline lecture .encode) (.progress (some 50))]).map
      (fun s => (s.faults, s.crashed)) = some (1, true) := rfl
  refine ⟨hvideo, rfl, rfl, fun h => ?_⟩
  obtain ⟨s, hrun, hs⟩ := Option.map_eq_some_iff.mp hvideo
  have hfaults : s.faults = 1 := congrArg Prod.fst hs
  exact absurd (hfaults.symm.trans (h.run_faults hrun)) (by simp [fresh])

end Mogo
