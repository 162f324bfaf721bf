import Mogo.CallbackScope

/-!
# The Phases of a Pipeline

A pipeline waits for one child after the other, and is then finished or has failed. `Turn` says what
a callback of the pipeline makes of a job that is there with its folder: the child goes on, or the
next one is started, or the pipeline ends. Only then is anything removed from the folder, the audio
of a video.

An upload loop works on the same job and the same folder. It never sets `done`, and it leaves the
folder as it is or deletes it.

## Main results

* `callback_turn`: what a callback of a pipeline does.
* `spares_callback`: what a callback of an upload loop leaves alone.
-/

namespace Mogo

open Handler Callback Transition Server

/-! ### Phases of a pipeline -/

/-- The file that a child leaves for the next one. -/
def Stage.output : Stage → String
  | .encode => "playlist.m3u8"
  | .extract => "audio.wav"
  | .whisper => "original.vtt"
  | .translation => "english.vtt"

/-- Where a pipeline is: a child is running, or it has ended well, or not. -/
inductive Phase where
  | running (stage : Stage)
  | finished
  | failed
  deriving DecidableEq, Repr

namespace Phase

/-- The task that is pending in a phase: the running child, and none at the end. -/
def tasks (p : Pipeline) : Phase → List Task
  | running stage => [.pipeline p stage]
  | finished => []
  | failed => []

/-- The children that have ended well. A translation is not counted. -/
def past : Phase → List Stage
  | running .encode => []
  | running .extract => [.encode]
  | running .whisper => [.encode, .extract]
  | running .translation => [.encode, .extract, .whisper]
  | finished => [.encode, .extract, .whisper]
  | failed => []

end Phase

/-- The English subtitles of the job. -/
def JobView.english (v : JobView) : Option String := v.job.bind Job.vttEnglish

/-- What a callback of a pipeline makes of a job that is there with its folder. -/
inductive Turn (p : Pipeline) (stage : Stage) (signal : Signal) (v v' : JobView) :
    List Task → Prop
  | stay (hfolder : v'.folder = v.folder) (henglish : v'.english = v.english)
      (hdone : v'.status = some .done → v.status = some .done) :
      Turn p stage signal v v' [.pipeline p stage]
  | next (stage' : Stage) (hended : ∃ found, signal = .ended found)
      (hpast : (Phase.running stage').past = (Phase.running stage).past ++ [stage])
      (hfolder : v'.folder = v.folder) (henglish : v'.english = v.english)
      (hdone : v'.status = some .done → v.status = some .done) :
      Turn p stage signal v v' [.pipeline p stage']
  | fail (hfolder : v'.folder = v.folder) (henglish : v'.english = v.english)
      (hdone : v'.status ≠ some .done) : Turn p stage signal v v' []
  | finish (hended : ∃ found, signal = .ended found)
      (hstage : stage = .whisper ∨ stage = .translation)
      (hfolder : v'.folder = v.folder.map fun files =>
        if p.route = .process then files.filter fun file => file.name ≠ "audio.wav" else files)
      (henglish : stage = .whisper ∧ v'.english = v.english ∨
        stage = .translation ∧ v'.english ≠ none) : Turn p stage signal v v' []

/-- The callback returns, and takes such a turn. -/
def TakesTurn (p : Pipeline) (stage : Stage) (signal : Signal) (h : Callback (List Task))
    (v : JobView) : Prop :=
  ∃ tasks v', h v = .ok tasks v' ∧ v'.job ≠ none ∧ Turn p stage signal v v' tasks

/-! ### The callbacks of a pipeline -/

section Callbacks

variable {cfg : ServerConfig} {p : Pipeline} {stage : Stage} {signal : Signal}
  {job : Job} {files : List File} {uploads : List String} {bucket : String → Option (List UInt8)}
  {faults : ℕ}

/-- A job that fails has taken its last turn. -/
theorem failJob_turn (message : String) :
    TakesTurn p stage signal (failJob message) ⟨some job, some files, uploads, bucket, faults⟩ :=
  ⟨_, _, rfl, Option.some_ne_none _, .fail rfl rfl (by simp [JobView.status])⟩

/-- A callback after which the child is still running, if it sets no `done`. -/
theorem keep_turn {α : Type} {body : Callback α} {a : α} {job' : Job}
    (hbody : body ⟨some job, some files, uploads, bucket, faults⟩ =
      .ok a ⟨some job', some files, uploads, bucket, faults⟩)
    (henglish : job'.vttEnglish = job.vttEnglish)
    (hdone : job'.status = some .done → job.status = some .done) :
    TakesTurn p stage signal (keep (.pipeline p stage) body)
      ⟨some job, some files, uploads, bucket, faults⟩ :=
  ⟨_, _, bind_of_ok hbody, Option.some_ne_none _, .stay rfl henglish hdone⟩

/-- Noting the duration of the source keeps the turn with the encoder. -/
theorem onCodecData_turn (duration : Option (Option ℚ)) :
    TakesTurn p stage signal (keep (.pipeline p stage) (onCodecData duration))
      ⟨some job, some files, uploads, bucket, faults⟩ := by
  cases duration with
  | none => exact keep_turn rfl rfl id
  | some duration => exact keep_turn rfl rfl id

/-- Moving the bar of the encoder keeps the turn with the encoder. -/
theorem onProgress_turn (percent : Option ℚ) :
    TakesTurn p stage signal (keep (.pipeline p stage) (onProgress percent))
      ⟨some job, some files, uploads, bucket, faults⟩ := by
  cases percent with
  | none => exact keep_turn rfl rfl id
  | some percent =>
      rw [onProgress]
      split
      · exact keep_turn rfl rfl id
      · exact keep_turn rfl rfl id

/-- Moving the bar of whisper keeps the turn with whisper, whether the bar is moved or not. -/
theorem onWhisperProgress_turn (currentSecs : Option ℚ) :
    TakesTurn p stage signal (keep (.pipeline p stage) (onWhisperProgress currentSecs))
      ⟨some job, some files, uploads, bucket, faults⟩ := by
  cases currentSecs with
  | none => exact keep_turn rfl rfl id
  | some currentSecs =>
      have hread := readJob_of_some
        (v := ⟨some job, some files, uploads, bucket, faults⟩) rfl "duration" Job.duration
      have hkept : (pure ⟨⟩ : Callback PUnit) ⟨some job, some files, uploads, bucket, faults⟩ =
          .ok ⟨⟩ ⟨some job, some files, uploads, bucket, faults⟩ := rfl
      generalize job.duration = duration at hread
      cases duration with
      | none =>
          refine keep_turn (Eq.trans ?_ hkept) rfl id
          rw [onWhisperProgress, bind_of_ok hread]
      | some duration =>
          by_cases hpos : 0 < duration
          · have hset := setJob_of_some
              (v := ⟨some job, some files, uploads, bucket, faults⟩) rfl "whisperProgress"
              fun job => { job with
                whisperProgress := some (min (roundPercent currentSecs duration) 100) }
            refine keep_turn (Eq.trans ?_ hset) rfl id
            rw [onWhisperProgress, bind_of_ok hread]
            dsimp only
            rw [if_pos hpos]
          · refine keep_turn (Eq.trans ?_ hkept) rfl id
            rw [onWhisperProgress, bind_of_ok hread]
            dsimp only
            rw [if_neg hpos]

/-- When the encoder ends, the extraction takes its turn. -/
theorem onEncodeEnd_turn (found : WhisperFiles) :
    TakesTurn p .encode (.ended found) (onEncodeEnd cfg p)
      ⟨some job, some files, uploads, bucket, faults⟩ :=
  ⟨_, _, rfl, Option.some_ne_none _,
    .next .extract ⟨found, rfl⟩ rfl rfl rfl (by simp [JobView.status])⟩

/-- When the encoder of a podcast ends, the extraction takes its turn. -/
theorem onPodcastEncodeEnd_turn (found : WhisperFiles) :
    TakesTurn p .encode (.ended found) (onPodcastEncodeEnd p)
      ⟨some job, some files, uploads, bucket, faults⟩ :=
  ⟨_, _, rfl, Option.some_ne_none _,
    .next .extract ⟨found, rfl⟩ rfl rfl rfl (by simp [JobView.status])⟩

/-- A failed encoding is the last turn of its pipeline. -/
theorem onEncodeError_turn :
    TakesTurn p stage signal (onEncodeError p) ⟨some job, some files, uploads, bucket, faults⟩ :=
  ⟨_, _, rfl, Option.some_ne_none _, .fail rfl rfl (by simp [JobView.status])⟩

/-- When the extraction ends, whisper takes its turn if it has been found. -/
theorem onExtractEnd_turn (found : WhisperFiles) :
    TakesTurn p .extract (.ended found) (onExtractEnd cfg p found)
      ⟨some job, some files, uploads, bucket, faults⟩ := by
  rw [onExtractEnd, resolveWhisperModel]
  by_cases hmodel : found.model = true
  · rw [if_pos hmodel]
    dsimp only
    rw [spawnWhisper]
    split
    · exact ⟨_, _, rfl, Option.some_ne_none _, .next .whisper ⟨found, rfl⟩ rfl rfl rfl id⟩
    · exact failJob_turn _
  · rw [if_neg hmodel]
    exact failJob_turn _

/-- The audio of a video is removed when it is finished. -/
theorem finishSuccess_run :
    finishSuccess p ⟨some job, some files, uploads, bucket, faults⟩ =
      .ok [] ⟨some { job with
          status := some .done
          previewUrl := some ("/temp/" ++ p.folderId ++ "/playlist.m3u8") },
        some (files.filter fun file => file.name ≠ "audio.wav"),
        uploads.filter fun f => f ∉ p.sources, bucket, faults⟩ := rfl

/-- Finishing a job whose entry and folder are there sets it `done` with its new size and its
preview, and unlinks its sources. -/
theorem finishJob_run :
    finishJob p ⟨some job, some files, uploads, bucket, faults⟩ =
      .ok [] ⟨some { job with
          newSize := some (totalSize files)
          status := some .done
          previewUrl := some ("/temp/" ++ p.folderId ++ "/playlist.m3u8") },
        some files, uploads.filter fun f => f ∉ p.sources, bucket, faults⟩ := rfl

/-- The end of a pipeline of either kind. -/
theorem finish_turn {found : WhisperFiles} {finish : Callback (List Task)} {job' : Job}
    (hstage : stage = .whisper ∨ stage = .translation)
    (hfinish : p.route = .process ∧ finish = finishSuccess p ∨
      p.route = .processPodcast ∧ finish = finishJob p)
    (henglish : stage = .whisper ∧ job'.vttEnglish = job.vttEnglish ∨
      stage = .translation ∧ job'.vttEnglish ≠ none) :
    ∃ tasks v', finish ⟨some job', some files, uploads, bucket, faults⟩ = .ok tasks v' ∧
      v'.job ≠ none ∧ Turn p stage (.ended found)
        ⟨some job, some files, uploads, bucket, faults⟩ v' tasks := by
  rcases hfinish with ⟨hroute, rfl⟩ | ⟨hroute, rfl⟩
  · refine ⟨_, _, finishSuccess_run, Option.some_ne_none _,
      .finish ⟨found, rfl⟩ hstage ?_ henglish⟩
    rw [Option.map_some, if_pos hroute]
  · refine ⟨_, _, finishJob_run, Option.some_ne_none _,
      .finish ⟨found, rfl⟩ hstage ?_ henglish⟩
    rw [Option.map_some, if_neg (by simp [hroute])]

/-- When the translation ends, the pipeline finishes in the way its route prescribes. -/
theorem onTranslationSuccess_turn {found : WhisperFiles} {finish : Callback (List Task)}
    (hfinish : p.route = .process ∧ finish = finishSuccess p ∨
      p.route = .processPodcast ∧ finish = finishJob p) :
    TakesTurn p .translation (.ended found) (onTranslationSuccess p finish)
      ⟨some job, some files, uploads, bucket, faults⟩ := by
  rw [TakesTurn, onTranslationSuccess, bind_of_ok (setJob_of_some rfl _ _)]
  exact finish_turn (Or.inr rfl) hfinish (Or.inr ⟨rfl, Option.some_ne_none _⟩)

/-- The second run of whisper is the next turn of the pipeline; without its program the job
fails. -/
theorem spawnTranslation_turn {found : WhisperFiles} {job' : Job}
    (henglish : job'.vttEnglish = job.vttEnglish) (hdone : job'.status ≠ some .done) :
    ∃ tasks v', spawnWhisper found (.pipeline p .translation) failJob
        ⟨some job', some files, uploads, bucket, faults⟩ = .ok tasks v' ∧
      v'.job ≠ none ∧ Turn p .whisper (.ended found)
        ⟨some job, some files, uploads, bucket, faults⟩ v' tasks := by
  rw [spawnWhisper]
  split
  · exact ⟨_, _, rfl, Option.some_ne_none _,
      .next .translation ⟨found, rfl⟩ rfl rfl henglish fun h => absurd h hdone⟩
  · exact ⟨_, _, rfl, Option.some_ne_none _, .fail rfl henglish (by simp [JobView.status])⟩

/-- When whisper ends, the translation takes its turn if one is asked for, else the pipeline
finishes. -/
theorem onWhisperSuccess_turn (hroute : p.route = .process) (found : WhisperFiles) :
    TakesTurn p .whisper (.ended found) (onWhisperSuccess p found)
      ⟨some job, some files, uploads, bucket, faults⟩ := by
  rw [TakesTurn, onWhisperSuccess, bind_of_ok (setJob_of_some rfl _ _)]
  split
  · rw [setStatus, bind_of_ok (setJob_of_some rfl _ _), bind_of_ok (setJob_of_some rfl _ _)]
    exact spawnTranslation_turn rfl (by simp)
  · exact finish_turn (Or.inl rfl) (Or.inl ⟨hroute, rfl⟩) (Or.inl ⟨rfl, rfl⟩)

/-- When whisper ends in a podcast, the translation takes its turn if one is asked for, else the
pipeline finishes. -/
theorem onPodcastWhisperSuccess_turn (hroute : p.route = .processPodcast) (found : WhisperFiles) :
    TakesTurn p .whisper (.ended found) (onPodcastWhisperSuccess p found)
      ⟨some job, some files, uploads, bucket, faults⟩ := by
  rw [TakesTurn, onPodcastWhisperSuccess, bind_of_ok (setJob_of_some rfl _ _)]
  split
  · rw [setStatus, bind_of_ok (setJob_of_some rfl _ _)]
    exact spawnTranslation_turn rfl (by simp)
  · exact finish_turn (Or.inl rfl) (Or.inr ⟨hroute, rfl⟩) (Or.inl ⟨rfl, rfl⟩)

/-- A handler of a whisper child takes a turn of the pipeline when the continuation for its end
does. -/
theorem whisperCallback_turn {onStdout : Option (Option ℚ → Callback PUnit)}
    (hstdout : onStdout = some onWhisperProgress ∨ onStdout = none)
    {onSuccess : WhisperFiles → Callback (List Task)}
    (hsuccess : ∀ found, TakesTurn p stage (.ended found) (onSuccess found)
      ⟨some job, some files, uploads, bucket, faults⟩) {h : Callback (List Task)}
    (hh : whisperCallback (.pipeline p stage) onStdout onSuccess signal = some h) :
    TakesTurn p stage signal h ⟨some job, some files, uploads, bucket, faults⟩ := by
  cases signal with
  | stdout secs =>
      obtain ⟨handler, hhandler, rfl⟩ := Option.map_eq_some_iff.mp hh
      rcases hstdout with rfl | rfl
      · obtain rfl := Option.some.inj hhandler
        exact onWhisperProgress_turn secs
      · cases hhandler
  | ended found => exact Option.some.inj hh ▸ hsuccess found
  | failed detail => exact Option.some.inj hh ▸ failJob_turn _
  | spawnFailed message =>
      exact Option.some.inj hh ▸
        ⟨_, _, rfl, Option.some_ne_none _, .stay rfl rfl (by simp [JobView.status])⟩
  | codecData duration => cases hh
  | progress percent => cases hh

/-- **A callback of a pipeline**, for a job that is there with its folder. -/
theorem callback_turn {v : JobView} (hjob : v.job ≠ none) (hfolder : v.folder ≠ none)
    {h : Callback (List Task)} (hh : callback cfg (.pipeline p stage) signal = some h) :
    TakesTurn p stage signal h v := by
  obtain ⟨job, hjob⟩ := Option.ne_none_iff_exists'.mp hjob
  obtain ⟨files, hfolder⟩ := Option.ne_none_iff_exists'.mp hfolder
  obtain ⟨_, _, uploads, bucket, faults⟩ := v
  subst hjob hfolder
  rw [callback.eq_def] at hh
  dsimp only at hh
  split at hh
  next hroute =>
    have hfinish : p.route = .process ∧ finishSuccess p = finishSuccess p ∨
        p.route = .processPodcast ∧ finishSuccess p = finishJob p := Or.inl ⟨hroute, rfl⟩
    rw [processCallback.eq_def] at hh
    split at hh
    · exact Option.some.inj hh ▸ onCodecData_turn _
    · exact Option.some.inj hh ▸ onProgress_turn _
    · exact Option.some.inj hh ▸ onEncodeEnd_turn _
    · exact Option.some.inj hh ▸ onEncodeError_turn
    · exact Option.some.inj hh ▸ onExtractEnd_turn _
    · exact Option.some.inj hh ▸ failJob_turn _
    · exact whisperCallback_turn (Or.inl rfl) (onWhisperSuccess_turn hroute) hh
    · exact whisperCallback_turn (Or.inl rfl) (fun _ => onTranslationSuccess_turn hfinish) hh
    · cases hh
  next hroute =>
    have hfinish : p.route = .process ∧ finishJob p = finishSuccess p ∨
        p.route = .processPodcast ∧ finishJob p = finishJob p := Or.inr ⟨hroute, rfl⟩
    rw [podcastCallback.eq_def] at hh
    split at hh
    · exact Option.some.inj hh ▸ onPodcastEncodeEnd_turn _
    · exact Option.some.inj hh ▸ failJob_turn _
    · exact Option.some.inj hh ▸ onExtractEnd_turn _
    · exact Option.some.inj hh ▸ failJob_turn _
    · exact whisperCallback_turn (Or.inr rfl) (onPodcastWhisperSuccess_turn hroute) hh
    · exact whisperCallback_turn (Or.inr rfl) (fun _ => onTranslationSuccess_turn hfinish) hh
    · cases hh

end Callbacks

/-! ### The callbacks of an upload loop -/

/-- What an upload loop may do to a job and to its folder. -/
structure Spares (v v' : JobView) : Prop where
  folder : v'.folder = v.folder ∨ v'.folder = none
  english : v'.english = v.english
  done : v'.status = some .done → v.status = some .done

instance : Std.Refl Spares where
  refl _ := ⟨Or.inl rfl, rfl, id⟩

instance : IsTrans JobView Spares where
  trans _ _ _ h h' := by
    refine ⟨?_, h'.english.trans h.english, fun hdone => h.done (h'.done hdone)⟩
    rcases h'.folder with hsame | hgone
    · rw [hsame]
      exact h.folder
    · exact Or.inr hgone

section Spares

variable {cfg : ServerConfig}

/-- An edit that leaves the translation alone, and that sets no `done`, spares the job. -/
theorem spares_setJob {property : String} {f : Job → Job}
    (hf : ∀ job, (f job).vttEnglish = job.vttEnglish ∧
      ((f job).status = some .done → job.status = some .done)) :
    Moves Spares (setJob property f) := by
  intro v
  cases h : v.job with
  | none =>
      rw [final_of_error (setJob_of_none h property f)]
      exact ⟨Or.inl rfl, rfl, id⟩
  | some job =>
      rw [final_of_ok (setJob_of_some h property f)]
      refine ⟨Or.inl rfl, ?_, fun hdone => ?_⟩
      · rw [JobView.english, JobView.english, h]
        exact (hf job).1
      · rw [JobView.status, h]
        exact (hf job).2 hdone

/-- Marking the entry as failed spares the job. -/
theorem spares_failJob (message : String) : Moves Spares (failJob message) :=
  Moves.bind (spares_setJob fun _ => ⟨rfl, by simp⟩) fun _ =>
    Moves.bind (spares_setJob fun _ => ⟨rfl, id⟩) fun _ => Moves.pure _

/-- Reading a file is one of the things that the upload loop may do to a job. -/
theorem spares_readFile (syscall path name : String) :
    Moves Spares (readFile syscall path name) := by
  intro v
  rw [final_readFile]
  exact refl_of Spares v

/-- Reading any number of files spares the job. -/
theorem spares_mapM_readFile (syscall path : String) (files : List String) :
    Moves Spares (files.mapM (readFile syscall path)) := by
  induction files with
  | nil => exact Moves.pure _
  | cons file files ih =>
      rw [List.mapM_cons]
      exact Moves.bind (spares_readFile _ _ _) fun _ => Moves.bind ih fun _ => Moves.pure _

/-- The end of an upload spares the job: it sets `r2_done`, never `done`. -/
theorem spares_finishUpload (cfg : ServerConfig) (folderId r2FolderPath : String)
    (files : List String) : Moves Spares (finishUpload cfg folderId r2FolderPath files) :=
  Moves.bind (spares_mapM_readFile _ _ _) fun _ =>
    Moves.bind (Moves.of_modify fun _ => ⟨Or.inr rfl, rfl, id⟩) fun _ =>
      Moves.bind (spares_setJob fun _ => ⟨rfl, by simp⟩) fun _ =>
        Moves.bind (spares_setJob fun _ => ⟨rfl, id⟩) fun _ =>
          Moves.bind (spares_setJob fun _ => ⟨rfl, id⟩) fun _ =>
            Moves.bind (spares_setJob fun _ => ⟨rfl, id⟩) fun _ =>
              Moves.bind (spares_setJob fun _ => ⟨rfl, id⟩) fun _ =>
                Moves.bind (spares_setJob fun _ => ⟨rfl, id⟩) fun _ => Moves.pure _

/-- The upload loop keeps the folder or removes it, keeps the English captions, and sets no job
`done`. -/
theorem spares_uploadNext (cfg : ServerConfig) (folderId r2FolderPath : String)
    (files : List String) (uploadedCount : ℕ) (rest : List String) :
    Moves Spares (uploadNext cfg folderId r2FolderPath files uploadedCount rest) := by
  cases rest with
  | nil => exact spares_finishUpload _ _ _ _
  | cons file rest => exact Moves.bind (spares_readFile _ _ _) fun _ => Moves.pure _

/-- The handler around an upload spares the job when the body does. -/
theorem spares_catchUpload {body : Callback (List Task)} (h : Moves Spares body) :
    Moves Spares (catchUpload body) :=
  Moves.tryCatch h fun _ => spares_failJob _

/-- The start of an upload spares the job. -/
theorem spares_startUpload (cfg : ServerConfig) (folderId r2FolderPath : String) :
    Moves Spares (startUpload cfg folderId r2FolderPath) := by
  refine Moves.bind (fun v => ?_) fun _ =>
    Moves.ite (Moves.throw _) (spares_uploadNext _ _ _ _ _ _)
  rw [final_readdir]
  exact refl_of Spares v

/-- **A callback of an upload loop** spares the job, and the folder as long as it leaves it. -/
theorem spares_callback {u : Upload} {signal : Signal} {h : Callback (List Task)}
    (hh : callback cfg (.upload u) signal = some h) : Moves Spares h := by
  cases signal with
  | ended found =>
      refine Option.some.inj hh ▸ spares_catchUpload (Moves.bind ?_ fun _ =>
        Moves.bind (spares_setJob fun _ => ⟨rfl, id⟩) fun _ => spares_uploadNext _ _ _ _ _ _)
      exact Moves.of_modify fun _ => ⟨Or.inl rfl, rfl, id⟩
  | failed message =>
      exact Option.some.inj hh ▸ spares_catchUpload (Moves.throw _)
  | codecData duration => cases hh
  | progress percent => cases hh
  | stdout secs => cases hh
  | spawnFailed message => cases hh

end Spares

end Mogo
