import Mogo.CallbackScope

/-!
# The Uploaded Files of a Pipeline

A pipeline unlinks the files of its request when it has succeeded, and the pipeline of a video also
when its encoder has failed. Every other failure leaves them where they are. So as long as none of
these failures happens, the files are gone once nothing of the pipeline is pending any more.

## Main results

* `sources_unlinked`: the files of a request, in a run without such a failure.
* `not_sources_unlinked`: a failure of each kind.
-/

namespace Mogo

open Handler Callback Transition Server

/-- What ends a pipeline and leaves its files: a failure after the encoder, and for a podcast that
of the encoder too. The encoder of a video may also end when its folder is gone, which it reads. -/
def LeavesSources (cfg : ServerConfig) (s : Server) (p : Pipeline) : Stage → Signal → Prop
  | .encode, .ended _ => p.route = .process ∧ s.folders (cfg.outputFolder p.folderId) = none
  | .encode, .failed _ => p.route = .processPodcast
  | .extract, .ended found => ¬ (found.model = true ∧ found.bin = true)
  | .extract, .failed _ => True
  | .whisper, .ended found => p.translate = true ∧ p.language ≠ "English" ∧ found.bin = false
  | .whisper, .failed _ => True
  | .translation, .failed _ => True
  | _, _ => False

/-- The pipeline meets no such failure. Other requests have files of their own, as the name of an
uploaded file is random. -/
def Cleans (cfg : ServerConfig) (p : Pipeline) (s : Server) : Event → Prop
  | .callback (.pipeline q stage) signal => q = p → ¬ LeavesSources cfg s p stage signal
  | .process q _ => ∀ f ∈ q.sources, f ∉ p.sources
  | _ => True

/-- The files of the request are gone. -/
def Cleaned (p : Pipeline) (uploads : List String) : Prop := ∀ f ∈ p.sources, f ∉ uploads

/-- The pipeline goes on, or its files are gone, or the process is down because the job was
cancelled. -/
def Tidy (p : Pipeline) (s : Server) : Prop :=
  (∃ stage, .pipeline p stage ∈ s.tasks) ∨ Cleaned p s.uploads ∨
    s.jobs p.folderId = none ∧ s.crashed = true

/-- What a callback of the pipeline leaves: its next child, or no file. It throws only where the
entry of the job is missing. -/
def Settles (p : Pipeline) (m : Callback (List Task)) (v : JobView) : Prop :=
  match m v with
  | .ok tasks v' => (∃ stage, .pipeline p stage ∈ tasks) ∨ Cleaned p v'.uploads
  | .error _ v' => Cleaned p v'.uploads ∨ v'.job = none

/-- A statement that throws only where the entry is missing. -/
def NeedsJob {α : Type} (m : Callback α) : Prop :=
  ∀ v fault v', m v = .error fault v' → v'.job = none

/-! ### The rules -/

section Rules

variable {p : Pipeline} {α β : Type} {v : JobView}

/-- A callback that does nothing throws nothing. -/
theorem NeedsJob.pure (a : α) : NeedsJob (Pure.pure a : Callback α) :=
  fun _ _ _ h => nomatch h

/-- A change of the view throws nothing. -/
theorem NeedsJob.modify (f : JobView → JobView) : NeedsJob (modify f) := fun _ _ _ h => nomatch h

/-- An edit throws only when the entry is gone. -/
theorem NeedsJob.setJob (property : String) (f : Job → Job) : NeedsJob (setJob property f) := by
  intro v fault v' h
  cases hjob : v.job with
  | none =>
      rw [setJob_of_none hjob] at h
      obtain ⟨-, rfl⟩ := EStateM.Result.error.inj h
      exact hjob
  | some job =>
      rw [setJob_of_some hjob] at h
      cases h

/-- Setting the status throws only when the entry is gone. -/
theorem NeedsJob.setStatus (status : Status) : NeedsJob (setStatus status) := .setJob _ _

/-- Reading a field throws only when the entry is gone. -/
theorem NeedsJob.readJob (property : String) (f : Job → α) : NeedsJob (readJob property f) := by
  intro v fault v' h
  cases hjob : v.job with
  | none =>
      rw [readJob_of_none hjob] at h
      obtain ⟨-, rfl⟩ := EStateM.Result.error.inj h
      exact hjob
  | some job =>
      rw [readJob_of_some hjob] at h
      cases h

/-- A callback throws only for want of an entry when both of its parts do. -/
theorem NeedsJob.bind {m : Callback α} {f : α → Callback β} (hm : NeedsJob m)
    (hf : ∀ a, NeedsJob (f a)) : NeedsJob (m >>= f) := by
  intro v fault v' h
  cases hrun : m v with
  | ok a v₁ =>
      rw [bind_of_ok hrun] at h
      exact hf a v₁ fault v' h
  | error e v₁ =>
      rw [bind_of_error hrun] at h
      obtain ⟨-, rfl⟩ := EStateM.Result.error.inj h
      exact hm v e v₁ hrun

/-- Marking the entry as failed throws only when the entry is gone. -/
theorem NeedsJob.failJob (message : String) : NeedsJob (failJob message) :=
  .bind (.setStatus _) fun _ => .bind (.setJob _ _) fun _ => .pure _

/-- A callback that starts the next child settles, since the pipeline goes on. -/
theorem Settles.single (stage : Stage) : Settles p (Pure.pure [.pipeline p stage]) v :=
  Or.inl ⟨stage, List.mem_singleton.mpr rfl⟩

/-- A statement that throws without the entry only may come before the rest of a callback that
settles. -/
theorem Settles.bind {m : Callback α} {f : α → Callback (List Task)} (hm : NeedsJob m)
    (hf : ∀ a v₁, m v = .ok a v₁ → Settles p (f a) v₁) : Settles p (m >>= f) v := by
  rw [Settles]
  cases hrun : m v with
  | ok a v₁ =>
      rw [bind_of_ok hrun]
      exact hf a v₁ hrun
  | error e v₁ =>
      rw [bind_of_error hrun]
      exact Or.inr (hm v e v₁ hrun)

/-- Once the source files are gone, a callback settles whatever it goes on to do. -/
theorem Settles.of_cleaned {online : Prop} {m : Callback (List Task)} (h : Cleaned p v.uploads)
    (hm : Moves (Changes online) m) : Settles p m v := by
  have hmoves := hm v
  rw [Settles]
  cases hrun : m v with
  | ok tasks v' =>
      rw [final_of_ok hrun] at hmoves
      exact Or.inr fun f hf hmem => h f hf (Changes.uploads hmoves f hmem)
  | error e v' =>
      rw [final_of_error hrun] at hmoves
      exact Or.inl fun f hf hmem => h f hf (Changes.uploads hmoves f hmem)

/-- The files are unlinked, and then whatever follows. -/
theorem Settles.unlinkSources {online : Prop} {f : PUnit → Callback (List Task)}
    (hf : ∀ a, Moves (Changes online) (f a)) : Settles p (unlinkSources p.sources >>= f) v := by
  refine .bind (.modify _) fun a v₁ hrun => ?_
  obtain ⟨-, rfl⟩ := EStateM.Result.ok.inj hrun
  refine .of_cleaned (fun source hsource hmem => ?_) (hf a)
  exact of_decide_eq_true (List.mem_filter.mp hmem).2 hsource

/-- A callback after which the child is still running. -/
theorem Settles.keep {stage : Stage} {body : Callback α} (hbody : NeedsJob body) :
    Settles p (keep (.pipeline p stage) body) v :=
  .bind hbody fun _ _ _ => .single stage

end Rules

/-! ### The callbacks -/

section Callbacks

variable {cfg : ServerConfig} {p : Pipeline} {v : JobView} {found : WhisperFiles}

/-- Noting the duration throws only when the entry is gone. -/
theorem NeedsJob.onCodecData (duration : Option (Option ℚ)) : NeedsJob (onCodecData duration) := by
  cases duration with
  | none => exact .pure _
  | some duration => exact .setJob _ _

/-- Moving the bar of the encoder throws only when the entry is gone. -/
theorem NeedsJob.onProgress (percent : Option ℚ) : NeedsJob (onProgress percent) := by
  cases percent with
  | none => exact .pure _
  | some percent =>
      rw [Mogo.onProgress]
      split
      · exact .pure _
      · exact .setJob _ _

/-- Moving the bar of whisper throws only when the entry is gone. -/
theorem NeedsJob.onWhisperProgress (currentSecs : Option ℚ) :
    NeedsJob (onWhisperProgress currentSecs) := by
  cases currentSecs with
  | none => exact .pure _
  | some currentSecs =>
      refine .bind (.readJob _ _) fun duration => ?_
      cases duration with
      | none => exact .pure _
      | some duration =>
          dsimp only
          split
          · exact .setJob _ _
          · exact .pure _

/-- The end of an encoding hands the sources on to the extraction, as long as the folder is there.
-/
theorem onEncodeEnd_settles (hfolder : v.folder ≠ none) : Settles p (onEncodeEnd cfg p) v := by
  obtain ⟨files, hfiles⟩ := Option.ne_none_iff_exists'.mp hfolder
  have hread : readdir (cfg.outputFolder p.folderId) v = .ok files v := by
    rw [readdir, get_bind, hfiles]
    rfl
  rw [Settles, onEncodeEnd, bind_of_ok hread]
  exact Settles.bind (.setJob _ _) fun _ _ _ => .bind (.setStatus _) fun _ _ _ => .single .extract

/-- A failed encoding unlinks the sources. -/
theorem onEncodeError_settles : Settles p (onEncodeError p) v :=
  have hfail : Scoped none (failJob "FFmpeg failed") := failJob_scoped _
  .unlinkSources fun _ => hfail.moves

/-- A `/process` pipeline that finishes has unlinked its sources. -/
theorem finishSuccess_settles : Settles p (finishSuccess p) v := by
  have hstatus : Moves (Changes False) (setStatus .done) := changes_setStatus (by simp)
  exact .unlinkSources fun _ => Moves.bind (changes_unlinkOutput _) fun _ =>
    Moves.bind hstatus fun _ => Moves.bind (changes_setJob fun _ => ⟨rfl, rfl⟩) fun _ =>
      Moves.pure _

/-- A podcast pipeline that finishes has unlinked its sources. -/
theorem finishJob_settles : Settles p (finishJob p) v := by
  refine .bind (fun _ _ _ h => nomatch h) fun _ _ _ => .bind (.setJob _ _) fun _ _ _ => ?_
  have hstatus : Moves (Changes False) (setStatus .done) := changes_setStatus (by simp)
  exact .unlinkSources fun _ => Moves.bind hstatus fun _ =>
    Moves.bind (changes_setJob fun _ => ⟨rfl, rfl⟩) fun _ => Moves.pure _

/-- Whisper, where it is found, takes the sources over. -/
theorem spawnWhisper_settles (hbin : found.bin = true) (stage : Stage)
    (onError : String → Callback (List Task)) :
    Settles p (spawnWhisper found (.pipeline p stage) onError) v := by
  rw [spawnWhisper, if_pos hbin]
  exact .single stage

/-- The end of an extraction hands the sources on to whisper, where it is found with its model. -/
theorem onExtractEnd_settles (hmodel : found.model = true) (hbin : found.bin = true) :
    Settles p (onExtractEnd cfg p found) v := by
  rw [onExtractEnd, resolveWhisperModel, if_pos hmodel]
  exact spawnWhisper_settles hbin .whisper _

/-- The end of a translation settles the sources as the end of its route does. -/
theorem onTranslationSuccess_settles {finish : Callback (List Task)}
    (hfinish : ∀ v, Settles p finish v) : Settles p (onTranslationSuccess p finish) v :=
  .bind (.setJob _ _) fun _ v₁ _ => hfinish v₁

/-- The end of whisper hands the sources on to a translation, or unlinks them. -/
theorem onWhisperSuccess_settles
    (hbin : p.translate = true ∧ p.language ≠ "English" → found.bin = true) :
    Settles p (onWhisperSuccess p found) v := by
  refine .bind (.setJob _ _) fun _ v₁ _ => ?_
  split
  next htranslate =>
    exact .bind (.setStatus _) fun _ _ _ => .bind (.setJob _ _) fun _ _ _ =>
      spawnWhisper_settles (hbin htranslate) .translation _
  · exact finishSuccess_settles

/-- The end of whisper in a podcast hands the sources on to a translation, or unlinks them. -/
theorem onPodcastWhisperSuccess_settles
    (hbin : p.translate = true ∧ p.language ≠ "English" → found.bin = true) :
    Settles p (onPodcastWhisperSuccess p found) v := by
  refine .bind (.setJob _ _) fun _ v₁ _ => ?_
  split
  next htranslate =>
    exact .bind (.setStatus _) fun _ _ _ => spawnWhisper_settles (hbin htranslate) .translation _
  · exact finishJob_settles

/-- The handlers of a whisper child that does not fail. -/
theorem whisperCallback_settles {stage : Stage} {onStdout : Option (Option ℚ → Callback PUnit)}
    (hstdout : ∀ handler ∈ onStdout, ∀ secs, NeedsJob (handler secs))
    {onSuccess : WhisperFiles → Callback (List Task)} {signal : Signal}
    (hsuccess : ∀ found, signal = .ended found → Settles p (onSuccess found) v)
    (hfailed : ∀ detail, signal ≠ .failed detail) {h : Callback (List Task)}
    (hh : whisperCallback (.pipeline p stage) onStdout onSuccess signal = some h) :
    Settles p h v := by
  cases signal with
  | stdout secs =>
      obtain ⟨handler, hhandler, rfl⟩ := Option.map_eq_some_iff.mp hh
      exact .keep (hstdout handler hhandler secs)
  | ended found => exact Option.some.inj hh ▸ hsuccess found rfl
  | failed detail => exact absurd rfl (hfailed detail)
  | spawnFailed message => exact Option.some.inj hh ▸ .keep (.failJob _)
  | codecData duration => cases hh
  | progress percent => cases hh

/-- The reader of whisper's output throws only when the entry is gone. -/
theorem NeedsJob.onStdout : ∀ handler ∈ some Mogo.onWhisperProgress, ∀ secs,
    NeedsJob (handler secs) := by
  rintro handler h secs
  rw [← Option.some.inj h]
  exact .onWhisperProgress secs

/-- **A callback of the pipeline** that is no failure of those that leave the files. -/
theorem callback_settles {s : Server} {stage : Stage} {signal : Signal} {h : Callback (List Task)}
    (hcleans : ¬ LeavesSources cfg s p stage signal)
    (hfolder : v.folder = s.folders (cfg.outputFolder p.folderId))
    (hh : callback cfg (.pipeline p stage) signal = some h) : Settles p h v := by
  have hextract : ∀ found : WhisperFiles, ¬ ¬ (found.model = true ∧ found.bin = true) →
      Settles p (onExtractEnd cfg p found) v := by
    intro found hfound
    obtain ⟨hmodel, hbin⟩ := not_not.mp hfound
    exact onExtractEnd_settles hmodel hbin
  have hwhisper : ∀ found : WhisperFiles,
      ¬ (p.translate = true ∧ p.language ≠ "English" ∧ found.bin = false) →
        p.translate = true ∧ p.language ≠ "English" → found.bin = true := by
    intro found hfound htranslate
    by_contra hnone
    exact hfound ⟨htranslate.1, htranslate.2, Bool.eq_false_iff.mpr hnone⟩
  rw [callback.eq_def] at hh
  dsimp only at hh
  split at hh
  next hroute =>
    rw [processCallback.eq_def] at hh
    split at hh
    · exact Option.some.inj hh ▸ .keep (.onCodecData _)
    · exact Option.some.inj hh ▸ .keep (.onProgress _)
    · refine Option.some.inj hh ▸ onEncodeEnd_settles fun hnone => hcleans ⟨hroute, ?_⟩
      exact hfolder ▸ hnone
    · exact Option.some.inj hh ▸ onEncodeError_settles
    · exact Option.some.inj hh ▸ hextract _ hcleans
    · exact absurd trivial hcleans
    · refine whisperCallback_settles NeedsJob.onStdout (fun found heq => ?_) (fun _ heq => ?_) hh
      · subst heq
        exact onWhisperSuccess_settles (hwhisper found hcleans)
      · subst heq
        exact hcleans trivial
    · refine whisperCallback_settles NeedsJob.onStdout (fun found heq => ?_) (fun _ heq => ?_) hh
      · exact onTranslationSuccess_settles fun _ => finishSuccess_settles
      · subst heq
        exact hcleans trivial
    · cases hh
  next hroute =>
    rw [podcastCallback.eq_def] at hh
    split at hh
    · exact Option.some.inj hh ▸ .bind (.setStatus _) fun _ _ _ => .single .extract
    · exact absurd hroute hcleans
    · exact Option.some.inj hh ▸ hextract _ hcleans
    · exact absurd trivial hcleans
    · refine whisperCallback_settles (by simp) (fun found heq => ?_) (fun _ heq => ?_) hh
      · subst heq
        exact onPodcastWhisperSuccess_settles (hwhisper found hcleans)
      · subst heq
        exact hcleans trivial
    · refine whisperCallback_settles (by simp) (fun found heq => ?_) (fun _ heq => ?_) hh
      · exact onTranslationSuccess_settles fun _ => finishJob_settles
      · subst heq
        exact hcleans trivial
    · cases hh

end Callbacks

/-! ### Steps -/

section Steps

variable {cfg : ServerConfig} {p : Pipeline} {s s' : Server} {e : Event}

/-- Source files that are gone stay gone while no uploaded file is new. -/
theorem Cleaned.mono {uploads uploads' : List String} (h : Cleaned p uploads)
    (hsub : ∀ f ∈ uploads', f ∈ uploads) : Cleaned p uploads' :=
  fun f hf hmem => h f hf (hsub f hmem)

/-- A step that leaves the tasks and the files of the pipeline alone. -/
theorem Tidy.of_same (h : Tidy p s) (hup : s.crashed = false)
    (htasks : ∀ stage, .pipeline p stage ∈ s.tasks → .pipeline p stage ∈ s'.tasks)
    (huploads : Cleaned p s.uploads → Cleaned p s'.uploads) : Tidy p s' := by
  rcases h with ⟨stage, hstage⟩ | hcleaned | ⟨-, hcrashed⟩
  · exact Or.inl ⟨stage, htasks stage hstage⟩
  · exact Or.inr (Or.inl (huploads hcleaned))
  · exact absurd (hup.symm.trans hcrashed) (by simp)

/-- A callback of another origin leaves the pipeline tidy. -/
theorem Tidy.react_other (h : Tidy p s) (hup : s.crashed = false) {origin : Option Pipeline}
    {handler : Callback (List Task)} (hscoped : Scoped origin handler) (folderId : String) :
    Tidy p (s.react cfg folderId handler) := by
  have hinside := inside_react hscoped cfg folderId s
  obtain ⟨new, hnew, -⟩ := hinside.tasks
  refine h.of_same hup (fun stage hstage => ?_) fun hcleaned => hcleaned.mono hinside.uploads
  rw [hnew]
  exact List.mem_append_left _ hstage

/-- A callback of the pipeline that settles leaves the pipeline tidy. -/
theorem Settles.react {handler : Callback (List Task)}
    (h : Settles p handler (s.view cfg p.folderId)) :
    Tidy p (s.react cfg p.folderId handler) := by
  rw [Settles] at h
  rw [Server.react]
  cases hrun : handler (s.view cfg p.folderId) with
  | ok tasks v =>
      rw [hrun] at h
      exact h.imp (fun hpending => hpending.imp fun _ hstage => List.mem_append_right _ hstage)
        Or.inl
  | error fault v =>
      rw [hrun] at h
      exact Or.inr (h.imp_right fun hnone => ⟨(put_jobs_self cfg v).trans hnone, rfl⟩)

/-- **One step** keeps the account: while the pipeline has no task left, its source is gone. -/
theorem Tidy.step (h : Tidy p s) (hcleans : Cleans cfg p s e)
    (hstep : Server.step cfg s e = some s') : Tidy p s' := by
  have hup := crashed_of_step hstep
  cases step_effect hstep with
  | process q size hfresh =>
      refine h.of_same hup (fun stage hstage => List.mem_append_left _ hstage) fun hcleaned => ?_
      intro f hf hmem
      rcases List.mem_append.mp hmem with hold | hnew
      · exact hcleaned f hf hold
      · exact hcleans f hnew hf
  | notFound folderId series episode hfolder => exact h
  | upload folderId series episode hfolder =>
      have hbegun : Tidy p (s.beginUpload cfg folderId) :=
        h.of_same hup (fun _ hstage => hstage) fun hcleaned => hcleaned
      exact hbegun.react_other hup (catchUpload_scoped (startUpload_scoped cfg _ _)) folderId
  | cancel folderId => exact h.of_same hup (fun _ hstage => hstage) fun hcleaned => hcleaned
  | written q stage file files htask hwrites hfolder =>
      exact h.of_same hup (fun _ hstage => hstage) fun hcleaned => hcleaned
  | callback task signal handler htask hhandler =>
      by_cases hself : ∃ stage, task = .pipeline p stage
      · obtain ⟨stage, rfl⟩ := hself
        exact Settles.react (callback_settles (hcleans rfl) rfl hhandler)
      · have herased : Tidy p { s with tasks := s.tasks.erase task } := by
          refine h.of_same hup (fun stage hstage => ?_) fun hcleaned => hcleaned
          exact (List.mem_erase_of_ne fun heq => hself ⟨stage, heq.symm⟩).mpr hstage
        exact herased.react_other hup (callback_scoped hhandler) task.folderId

/-- **The uploaded files.** In every run from the request on in which the pipeline meets no failure
that leaves its files, once the job is `done` or has failed and no callback of the pipeline is
pending, none of the files is there. -/
theorem sources_unlinked {size : ℕ} (hstart : step cfg s (.process p size) = some s') {s'' : Server}
    (h : Reach (step cfg) (Cleans cfg p) s' s'')
    (hstatus : s''.status p.folderId = some .done ∨ s''.status p.folderId = some .error)
    (hidle : ∀ stage, .pipeline p stage ∉ s''.tasks) : ∀ f ∈ p.sources, f ∉ s''.uploads := by
  have htidy : Tidy p s' := by
    cases step_effect hstart with
    | process _ _ hfresh =>
        exact Or.inl ⟨.encode, List.mem_append_right _ (List.mem_singleton.mpr rfl)⟩
  rcases h.invariant htidy fun _ _ _ hcleans ht hstep => ht.step hcleans hstep with
    ⟨stage, hstage⟩ | hcleaned | ⟨hnone, -⟩
  · exact absurd hstage (hidle stage)
  · exact hcleaned
  · rcases hstatus with hdone | herror
    · exact absurd hnone (jobs_ne_none hdone)
    · exact absurd hnone (jobs_ne_none herror)

end Steps

/-! ### Examples -/

/-- The podcast is `done`, and its two files are gone. -/
theorem sources_unlinked_talk : ∃ s, run (step mogoConfig) fresh talkDone = some s ∧
    s.status "18-talk" = some .done ∧ ∀ f ∈ talk.sources, f ∉ s.uploads := by
  have hall : (run (step mogoConfig) fresh talkDone).map
      (fun s => (s.status "18-talk", s.tasks)) = some (some .done, []) := rfl
  obtain ⟨s, hrun, hs⟩ := Option.map_eq_some_iff.mp hall
  obtain ⟨hstatus, htasks⟩ := Prod.mk.inj hs
  have hrest := hrun
  rw [talkDone, run_cons] at hrest
  obtain ⟨s₁, hstart, hrest⟩ := Option.bind_eq_some_iff.mp hrest
  refine ⟨s, hrun, hstatus, sources_unlinked hstart (Reach.start.run (fun s e he => ?_) hrest)
    (Or.inl hstatus) (by simp [htasks])⟩
  simp only [List.mem_cons, List.not_mem_nil, or_false] at he
  rcases he with rfl | rfl | rfl | rfl
  · exact trivial
  · rintro - ⟨hroute, -⟩
    cases hroute
  · exact fun _ hleaves => hleaves ⟨rfl, rfl⟩
  · rintro - ⟨-, hne, -⟩
    exact hne rfl

/-- **Files are left behind**: when the audio of a video cannot be extracted, when the model is
missing, when whisper fails or is missing for the translation, and when the encoder of a podcast
fails. Nothing is pending then, and the job has failed. -/
theorem not_sources_unlinked :
    (run (step mogoConfig) fresh [.process lecture 10,
        .callback (.pipeline lecture .encode) (.ended ⟨true, true⟩),
        .callback (.pipeline lecture .extract) (.failed "ffmpeg exited with code 1")]).map
        (fun s => (s.status "17-lecture", s.tasks, s.uploads)) =
        some (some .error, [], ["temp/17-lecture.mp4"]) ∧
      (run (step mogoConfig) fresh [.process lecture 10,
        .callback (.pipeline lecture .encode) (.ended ⟨true, true⟩),
        .callback (.pipeline lecture .extract) (.ended ⟨false, true⟩)]).map
        (fun s => (s.status "17-lecture", s.tasks, s.uploads)) =
        some (some .error, [], ["temp/17-lecture.mp4"]) ∧
      (run (step mogoConfig) fresh [.process lecture 10,
        .callback (.pipeline lecture .encode) (.ended ⟨true, true⟩),
        .callback (.pipeline lecture .extract) (.ended ⟨true, true⟩),
        .callback (.pipeline lecture .whisper) (.ended ⟨true, false⟩)]).map
        (fun s => (s.status "17-lecture", s.tasks, s.uploads)) =
        some (some .error, [], ["temp/17-lecture.mp4"]) ∧
      (run (step mogoConfig) fresh [.process talk 10,
        .callback (.pipeline talk .encode) (.failed "ffmpeg exited with code 1")]).map
        (fun s => (s.status "18-talk", s.tasks, s.uploads)) =
        some (some .error, [], ["temp/18-cover.png", "temp/18-talk.mp3"]) :=
  ⟨rfl, rfl, rfl, rfl⟩

end Mogo
