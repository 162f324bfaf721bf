import Mogo.ServerSteps

/-!
# The Life of a Job

The server does not look at the status of a job before it uploads it: `/upload-to-r2` asks only
whether the output folder is there. So an upload may begin while the pipeline is still running, and
two uploads of one job may run side by side, where the second fails on the folder that the first
has removed.

What the server does keep: `uploading_r2` is set by upload requests only, and `r2_done` is kept once
no callback of the job is pending. Requests that wait for the callbacks of the job to end keep it
from the start.

## Main results

* `lifecycle`: what holds of the status of a job.
* `not_lifecycle`: what does not.
-/

namespace Mogo

open Handler Transition Server

/-- The callbacks of a job that are still to come. -/
def Server.pending (folderId : String) (s : Server) : List Task :=
  s.tasks.filter fun task => task.folderId = folderId

/-- An event that does not cancel the job, and requests its upload only when none of its callbacks
is pending. -/
def Orderly (folderId : String) (s : Server) (e : Event) : Prop :=
  e ≠ .cancel folderId ∧
    ∀ series episode, e = .uploadToR2 folderId series episode → s.pending folderId = []

/-- The invariant of orderly runs: at most one callback is pending, and none once the status is
final. -/
structure OneWriter (folderId : String) (s : Server) : Prop where
  single : (s.pending folderId).length ≤ 1
  final : Final (s.status folderId) → s.pending folderId = []

/-- The upload is done, and nothing of the job is pending. -/
structure Settled (folderId : String) (s : Server) : Prop where
  status : s.status folderId = some .r2_done
  pending : s.pending folderId = []

section Steps

variable {cfg : ServerConfig} {s s' : Server} {folderId id : String} {e : Event}

/-- The tasks that wait for a folder are the tasks of that folder. -/
theorem Server.mem_pending {task : Task} :
    task ∈ s.pending folderId ↔ task ∈ s.tasks ∧ task.folderId = folderId := by
  rw [pending, List.mem_filter, decide_eq_true_eq]

/-- A job that is uploading has not come to its end. -/
theorem not_final_uploading : ¬ Final (some .uploading_r2) := by simp [Final]

/-- A job that is compressing has not come to its end. -/
theorem not_final_compressing : ¬ Final (some .compressing) := by simp [Final]

/-- A callback of another job leaves the pending tasks of this one alone. -/
theorem Server.Touched.pending_of_ne (h : Touched cfg folderId s s') (hid : id ≠ folderId) :
    s'.pending id = s.pending id := by
  obtain ⟨tasks, htasks, -, hids, -⟩ := h.tasks
  have hnone : tasks.filter (fun task => task.folderId = id) = [] := by
    rw [List.filter_eq_nil_iff]
    intro task htask hdecide
    exact hid ((of_decide_eq_true hdecide).symm.trans (hids task htask))
  rw [pending, pending, htasks, List.filter_append, hnone, List.append_nil]

/-- A request that touches one folder changes the status of no other. -/
theorem Server.Touched.status_of_ne (h : Touched cfg folderId s s') (hid : id ≠ folderId) :
    s'.status id = s.status id :=
  status_of_jobs (h.jobs id hid)

/-- A callback of the job itself adds one task at most, and none when it makes the status final. -/
theorem Server.Touched.pending_self (h : Touched cfg folderId s s') :
    ∃ tasks, s'.pending folderId = s.pending folderId ++ tasks ∧ tasks.length ≤ 1 ∧
      (Final (s'.status folderId) → tasks = [] ∨ s'.status folderId = s.status folderId) := by
  obtain ⟨tasks, htasks, hlength, hids, hfinal⟩ := h.tasks
  refine ⟨tasks, ?_, hlength, hfinal⟩
  rw [pending, pending, htasks, List.filter_append]
  congr 1
  rw [List.filter_eq_self]
  exact fun task htask => decide_eq_true (hids task htask)

/-- A callback of a job with no other pending and no final status leaves one pending at most, and
none once the status is final. -/
theorem OneWriter.touched (hpending : s.pending folderId = [])
    (hfinal : ¬ Final (s.status folderId)) (h : Touched cfg folderId s s') :
    OneWriter folderId s' := by
  obtain ⟨tasks, htasks, hlength, hends⟩ := h.pending_self
  rw [hpending, List.nil_append] at htasks
  refine ⟨htasks ▸ hlength, fun hf => htasks.trans ?_⟩
  exact (hends hf).resolve_right fun hsame => hfinal (hsame ▸ hf)

/-- What does not touch the job keeps the invariant. -/
theorem OneWriter.congr (hs : OneWriter id s) (hpending : s'.pending id = s.pending id)
    (hstatus : s'.status id = s.status id) : OneWriter id s' := by
  refine ⟨hpending ▸ hs.single, fun hf => ?_⟩
  rw [hpending]
  exact hs.final (hstatus ▸ hf)

/-- The pending callbacks of a job once one of them runs. -/
theorem Server.pending_erase (task : Task) :
    Server.pending id { s with tasks := s.tasks.erase task } = (s.pending id).erase task :=
  List.erase_filter.symm

/-- A task that ends changes nothing about the tasks of other folders. -/
theorem Server.pending_erase_of_ne {task : Task} (hid : id ≠ task.folderId) :
    Server.pending id { s with tasks := s.tasks.erase task } = s.pending id := by
  rw [pending_erase]
  exact List.erase_of_not_mem fun hmem => hid (mem_pending.mp hmem).2.symm

/-- The one pending callback of a job runs. -/
theorem OneWriter.erase {task : Task} (hs : OneWriter task.folderId s) (htask : task ∈ s.tasks) :
    Server.pending task.folderId { s with tasks := s.tasks.erase task } = [] := by
  have hmem : task ∈ s.pending task.folderId := mem_pending.mpr ⟨htask, rfl⟩
  have hlength := List.length_erase_of_mem hmem
  have hsingle := hs.single
  rw [pending_erase]
  exact List.length_eq_zero_iff.mp (by omega)

/-- A pending callback shows that the status is not final yet. -/
theorem OneWriter.not_final {task : Task} (hs : OneWriter task.folderId s)
    (htask : task ∈ s.tasks) : ¬ Final (s.status task.folderId) := by
  intro hf
  have hmem : task ∈ s.pending task.folderId := mem_pending.mpr ⟨htask, rfl⟩
  rw [hs.final hf] at hmem
  cases hmem

/-- A job of a folder that has never been issued. -/
theorem Server.Sane.pending_eq_nil (hsane : Sane cfg s) (hfresh : cfg.outputFolder id ∉ s.issued) :
    s.pending id = [] := by
  rw [pending, List.filter_eq_nil_iff]
  intro task htask hdecide
  exact hfresh (of_decide_eq_true hdecide ▸ hsane.tasks task htask)

/-- A new pipeline adds its encoding to the tasks of its own folder. -/
theorem Server.pending_startPipeline (cfg : ServerConfig) (s : Server) (id : String) (p : Pipeline)
    (size : ℕ) :
    (s.startPipeline cfg p size).pending id =
      s.pending id ++ if p.folderId = id then [.pipeline p .encode] else [] := by
  rw [pending, startPipeline, List.filter_append, pending]
  congr 1
  by_cases hid : p.folderId = id
  · simp [Task.folderId, hid]
  · simp [Task.folderId, hid]

/-- A step of an orderly run leaves one callback of the job pending at most, and none once its
status is final. -/
theorem OneWriter.step (hs : OneWriter id s) (hsane : Sane cfg s) (horderly : Orderly id s e)
    (h : step cfg s e = some s') : OneWriter id s' := by
  cases step_effect h with
  | process p size hfresh =>
      have hpending := pending_startPipeline cfg s id p size
      by_cases hid : id = p.folderId
      · subst hid
        rw [hsane.pending_eq_nil hfresh, if_pos rfl, List.nil_append] at hpending
        refine ⟨by rw [hpending]; exact le_refl 1, fun hf => ?_⟩
        rw [startPipeline_status] at hf
        exact absurd hf not_final_compressing
      · rw [if_neg (Ne.symm hid), List.append_nil] at hpending
        exact hs.congr hpending (status_of_jobs (startPipeline_jobs_of_ne hid size))
  | notFound folderId series episode hfolder => exact hs
  | upload folderId series episode hfolder =>
      have htouched := touched_upload cfg s folderId (r2FolderPath series episode)
      by_cases hid : id = folderId
      · subst hid
        have hpending : (s.beginUpload cfg id).pending id = [] := horderly.2 series episode rfl
        refine OneWriter.touched hpending ?_ htouched
        rw [beginUpload_status]
        exact not_final_uploading
      · refine hs.congr (htouched.pending_of_ne hid) ((htouched.status_of_ne hid).trans ?_)
        exact status_of_jobs (beginUpload_jobs_of_ne hid)
  | cancel folderId =>
      have hid : id ≠ folderId := fun heq => horderly.1 (heq ▸ rfl)
      exact hs.congr rfl (status_of_jobs (cancel_jobs_of_ne hid))
  | written p stage file files htask hwrites hfolder => exact hs.congr rfl rfl
  | callback task signal handler htask hhandler =>
      have htouched := touched_callback hhandler { s with tasks := s.tasks.erase task }
      by_cases hid : id = task.folderId
      · subst hid
        exact OneWriter.touched (hs.erase htask) (hs.not_final htask) htouched
      · refine hs.congr ((htouched.pending_of_ne hid).trans (pending_erase_of_ne hid)) ?_
        exact htouched.status_of_ne hid

/-- Once the upload is done and nothing of the job is pending, it stays so. -/
theorem Settled.step (hs : Settled id s) (hsane : Sane cfg s) (he : e ≠ .cancel id)
    (h : Server.step cfg s e = some s') : Settled id s' := by
  have hcongr : ∀ {s'' : Server}, s''.pending id = s.pending id → s''.status id = s.status id →
      Settled id s'' :=
    fun hpending hstatus => ⟨hstatus.trans hs.status, hpending.trans hs.pending⟩
  cases step_effect h with
  | process p size hfresh =>
      have hid : id ≠ p.folderId := by
        rintro rfl
        exact hfresh (hsane.jobs _ (jobs_ne_none hs.status))
      refine hcongr ?_ (status_of_jobs (startPipeline_jobs_of_ne hid size))
      rw [pending_startPipeline, if_neg (Ne.symm hid), List.append_nil]
  | notFound folderId series episode hfolder => exact hs
  | upload folderId series episode hfolder =>
      have htouched := touched_upload cfg s folderId (r2FolderPath series episode)
      have hid : id ≠ folderId := by
        rintro rfl
        exact hfolder (hsane.r2_done _ hs.status)
      refine hcongr (htouched.pending_of_ne hid) ((htouched.status_of_ne hid).trans ?_)
      exact status_of_jobs (beginUpload_jobs_of_ne hid)
  | cancel folderId =>
      have hid : id ≠ folderId := fun heq => he (heq ▸ rfl)
      exact hcongr rfl (status_of_jobs (cancel_jobs_of_ne hid))
  | written p stage file files htask hwrites hfolder => exact hcongr rfl rfl
  | callback task signal handler htask hhandler =>
      have htouched := touched_callback hhandler { s with tasks := s.tasks.erase task }
      have hid : id ≠ task.folderId := by
        rintro rfl
        have hmem : task ∈ s.pending task.folderId := mem_pending.mpr ⟨htask, rfl⟩
        rw [hs.pending] at hmem
        cases hmem
      refine hcongr ((htouched.pending_of_ne hid).trans (pending_erase_of_ne hid)) ?_
      exact htouched.status_of_ne hid

/-- Only an upload request sets `uploading_r2`. -/
theorem uploading_of_step (h : Server.step cfg s e = some s')
    (hafter : s'.status id = some .uploading_r2) (hbefore : s.status id ≠ some .uploading_r2) :
    ∃ series episode,
      e = .uploadToR2 id series episode ∧ s.folders (cfg.outputFolder id) ≠ none := by
  have hchanged : s'.status id ≠ s.status id := fun hsame => hbefore (hsame ▸ hafter)
  cases step_effect h with
  | process p size hfresh =>
      by_cases hid : id = p.folderId
      · subst hid
        rw [startPipeline_status] at hafter
        cases hafter
      · exact absurd (status_of_jobs (startPipeline_jobs_of_ne hid size)) hchanged
  | notFound folderId series episode hfolder => exact absurd rfl hchanged
  | upload folderId series episode hfolder =>
      by_cases hid : id = folderId
      · subst hid
        exact ⟨series, episode, rfl, hfolder⟩
      · refine absurd (((touched_upload cfg s folderId _).status_of_ne hid).trans ?_) hchanged
        exact status_of_jobs (beginUpload_jobs_of_ne hid)
  | cancel folderId =>
      by_cases hid : id = folderId
      · subst hid
        rw [cancel_status] at hafter
        cases hafter
      · exact absurd (status_of_jobs (cancel_jobs_of_ne hid)) hchanged
  | written p stage file files htask hwrites hfolder => exact absurd rfl hchanged
  | callback task signal handler htask hhandler =>
      have htouched := touched_callback hhandler { s with tasks := s.tasks.erase task }
      by_cases hid : id = task.folderId
      · subst hid
        exact absurd (htouched.frame.uploading hafter) hbefore
      · exact absurd (htouched.status_of_ne hid) hchanged

/-- Every state that is reached from a start is sane, by induction over the run. -/
theorem reach_sane {allowed : Server → Event → Prop} {s₀ : Server} (h₀ : Initial s₀)
    (h : Reach (Server.step cfg) allowed s₀ s) : Sane cfg s :=
  h.invariant h₀.sane fun _ _ _ _ hsane hstep => hsane.step hstep

/-- Every state that an orderly run reaches is sane and has one pending callback of the job at
most. -/
theorem reach_oneWriter {s₀ : Server} (h₀ : Initial s₀)
    (h : Reach (Server.step cfg) (Orderly id) s₀ s) : Sane cfg s ∧ OneWriter id s := by
  refine h.invariant (I := fun s => Sane cfg s ∧ OneWriter id s) ⟨h₀.sane, ?_⟩
    fun _ _ _ horderly hI hstep => ⟨hI.1.step hstep, hI.2.step hI.1 horderly hstep⟩
  have hpending : s₀.pending id = [] := by
    rw [pending, h₀.tasks, List.filter_nil]
  exact ⟨by rw [hpending]; exact Nat.zero_le 1, fun _ => hpending⟩

/-- Once the upload is done and nothing of the job is pending, no run changes it. -/
theorem Settled.run (hs : Settled id s) (hsane : Sane cfg s) {es : List Event}
    (hes : Event.cancel id ∉ es) (h : Transition.run (Server.step cfg) s es = some s') :
    Settled id s' := by
  refine (run_invariant (I := fun s => Sane cfg s ∧ Settled id s)
    (fun e he s s' hI hstep => ?_) ⟨hsane, hs⟩ h).2
  exact ⟨hI.1.step hstep, hI.2.step hI.1 (fun heq => hes (heq ▸ he)) hstep⟩

end Steps

/-! ### The main result -/

/-- **The life of a job.** Its status becomes `uploading_r2` only by an upload request that names it
and finds its output folder. Once the status is `r2_done` and no callback of the job is pending, no
run without a cancel of the job changes it. In an orderly run `r2_done` never changes. -/
theorem lifecycle (cfg : ServerConfig) (id : String) {s₀ s : Server} (h₀ : Initial s₀)
    (hreach : Reach (step cfg) (fun _ _ => True) s₀ s) :
    (∀ e s', step cfg s e = some s' → s'.status id = some .uploading_r2 →
      s.status id ≠ some .uploading_r2 → ∃ series episode,
        e = .uploadToR2 id series episode ∧ s.folders (cfg.outputFolder id) ≠ none) ∧
    (∀ es s', s.status id = some .r2_done → s.pending id = [] → Event.cancel id ∉ es →
      run (step cfg) s es = some s' → s'.status id = some .r2_done) ∧
    (Reach (step cfg) (Orderly id) s₀ s → ∀ e s', Orderly id s e → step cfg s e = some s' →
      s.status id = some .r2_done → s'.status id = some .r2_done) := by
  refine ⟨fun e s' => uploading_of_step, fun es s' hstatus hpending hes hrun => ?_,
    fun horderly e s' he hstep hstatus => ?_⟩
  · exact (Settled.run ⟨hstatus, hpending⟩ (reach_sane h₀ hreach) hes hrun).status
  · obtain ⟨hsane, hone⟩ := reach_oneWriter h₀ horderly
    have hsettled : Settled id s := ⟨hstatus, hone.final (Or.inr hstatus)⟩
    exact (hsettled.step hsane he.1 hstep).status

/-- A podcast that is encoded, transcribed and uploaded, in an orderly run. -/
theorem lifecycle_talk : ∃ s,
    run (step mogoConfig) fresh (talkDone ++ [.uploadToR2 "18-talk" "My Show" "3",
      .callback (talkPut "3") (.ended ⟨true, true⟩)]) = some s ∧
      s.status "18-talk" = some .r2_done ∧
      (∀ es s', Event.cancel "18-talk" ∉ es → run (step mogoConfig) s es = some s' →
        s'.status "18-talk" = some .r2_done) ∧
      ∀ e s', Orderly "18-talk" s e → step mogoConfig s e = some s' →
        s'.status "18-talk" = some .r2_done := by
  have hdone : (run (step mogoConfig) fresh talkDone).map (fun s => s.pending "18-talk") =
      some [] := rfl
  have hall : (run (step mogoConfig) fresh (talkDone ++ [.uploadToR2 "18-talk" "My Show" "3",
      .callback (talkPut "3") (.ended ⟨true, true⟩)])).map
      (fun s => (s.status "18-talk", s.pending "18-talk")) = some (some .r2_done, []) := rfl
  obtain ⟨s₁, hrun₁, hpending₁⟩ := Option.map_eq_some_iff.mp hdone
  obtain ⟨s, hrun, hs⟩ := Option.map_eq_some_iff.mp hall
  obtain ⟨hstatus, hpending⟩ := Prod.mk.inj hs
  -- up to the request only the pipeline runs, and then nothing is pending
  have hpipeline : ∀ s, ∀ e ∈ talkDone, Orderly "18-talk" s e := by
    simp [talkDone, Orderly]
  have hreach : Reach (step mogoConfig) (Orderly "18-talk") fresh s := by
    have hrest := hrun
    rw [run_append, hrun₁, Option.bind_some, run_cons] at hrest
    obtain ⟨s₂, hupload, hrest⟩ := Option.bind_eq_some_iff.mp hrest
    rw [run_cons] at hrest
    obtain ⟨s₃, hput, hlast⟩ := Option.bind_eq_some_iff.mp hrest
    obtain rfl := Option.some.inj hlast
    refine .step (.step (Reach.run .start hpipeline hrun₁) ⟨?_, fun _ _ _ => hpending₁⟩ hupload)
      ⟨?_, ?_⟩ hput
    · simp
    · simp
    · simp
  obtain ⟨-, hkept, horderly⟩ := lifecycle mogoConfig "18-talk" fresh_initial
    (hreach.mono fun _ _ _ => trivial)
  exact ⟨s, hrun, hstatus, fun es s' => hkept es s' hstatus hpending,
    fun e s' he hstep => horderly hreach e s' he hstep hstatus⟩

/-- The statuses of a job along a run. -/
def statuses (cfg : ServerConfig) (id : String) (s : Server) : List Event → List (Option Status)
  | [] => [s.status id]
  | e :: es =>
    s.status id ::
      match step cfg s e with
      | some s' => statuses cfg id s' es
      | none => []

/-- **The status of a job is not guarded**: an upload request is served while the encoder is still
running, and of two uploads that overlap the second turns `r2_done` into `error`. -/
theorem not_lifecycle :
    statuses mogoConfig "18-talk" fresh
        [.process talk 10, .written talk .encode ⟨"playlist.m3u8", [1]⟩,
          .uploadToR2 "18-talk" "My Show" "3"] =
        [none, some .compressing, some .compressing, some .uploading_r2] ∧
      statuses mogoConfig "18-talk" fresh
        (talkDone ++ [.uploadToR2 "18-talk" "My Show" "3", .uploadToR2 "18-talk" "My Show" "4",
          .callback (talkPut "3") (.ended ⟨true, true⟩),
          .callback (talkPut "4") (.ended ⟨true, true⟩)]) =
        [none, some .compressing, some .compressing, some .whisper, some .whisper, some .done,
          some .uploading_r2, some .uploading_r2, some .r2_done, some .error] :=
  ⟨rfl, rfl⟩

end Mogo
