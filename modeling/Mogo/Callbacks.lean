import Mogo.Server

/-!
# What a Callback Does

Every callback touches its own job and its own output folder only. What it does to them is said
once here, for all of them: no entry is made or lost, no folder comes back, no callback sets
`uploading_r2`, and `r2_done` is set only when the folder is gone. An upload request is the one
handler that sets `uploading_r2`, and the one that makes an entry.

## Main results

* `callback_reacts`: what a callback does to what it sees.
* `uploadToR2_of_none`, `uploadToR2_of_some`: what an upload request does.
* `callback_failed_faults`: the failure of a child touches the entry of its job, always.
-/

namespace Mogo

open Handler Callback

/-! ### What a callback may do -/

/-- The status of the job that a callback looks at, `none` if its entry is missing. -/
def JobView.status (v : JobView) : Option Status := v.job.bind Job.status

/-- A status that ends a job: `done` ends the pipeline, `r2_done` the upload. -/
def Final (status : Option Status) : Prop := status = some .done ∨ status = some .r2_done

/-- What every callback keeps: the entry is neither made nor removed, and the folder is not made. -/
structure Frame (v v' : JobView) : Prop where
  job : v'.job.isSome = v.job.isSome
  faults : v.job.isSome = true → v'.faults = v.faults
  folder : v.folder = none → v'.folder = none
  uploading : v'.status = some .uploading_r2 → v.status = some .uploading_r2
  r2_done : v'.status = some .r2_done → v.status = some .r2_done ∨ v'.folder = none

/-- What every statement of a callback keeps but those that set a final status. -/
structure Edit (v v' : JobView) : Prop extends Frame v v' where
  final : Final v'.status → v'.status = v.status

instance : Std.Refl Frame where
  refl _ := ⟨rfl, fun _ => rfl, fun h => h, fun h => h, fun h => Or.inl h⟩

instance : IsTrans JobView Frame where
  trans v₁ v₂ v₃ h h' := by
    refine ⟨h'.job.trans h.job, fun hsome => ?_, fun hnone => h'.folder (h.folder hnone),
      fun hup => h.uploading (h'.uploading hup), fun hdone => ?_⟩
    · exact (h'.faults (h.job.trans hsome)).trans (h.faults hsome)
    · rcases h'.r2_done hdone with hdone | hnone
      · exact (h.r2_done hdone).imp_right h'.folder
      · exact Or.inr hnone

instance : Std.Refl Edit where
  refl v := ⟨refl_of Frame v, fun _ => rfl⟩

instance : IsTrans JobView Edit where
  trans _ _ _ h h' := by
    refine ⟨trans_of Frame h.toFrame h'.toFrame, fun hfinal => ?_⟩
    have hsame := h'.final hfinal
    exact hsame.trans (h.final (hsame ▸ hfinal))

/-- A change that leaves the entry of the job alone, and brings no folder back. -/
theorem Edit.of_job {v v' : JobView} (hjob : v'.job = v.job) (hfaults : v'.faults = v.faults)
    (hfolder : v.folder = none → v'.folder = none) : Edit v v' := by
  have hstatus : v'.status = v.status := congrArg (fun job => job.bind Job.status) hjob
  exact ⟨⟨congrArg Option.isSome hjob, fun _ => hfaults, hfolder, fun h => hstatus ▸ h,
    fun h => Or.inl (hstatus ▸ h)⟩, fun _ => hstatus⟩

/-! ### The statements of the callbacks -/

section Statements

/-- On an entry that is there an edit is made and nothing else happens. -/
theorem setJob_of_some {v : JobView} {job : Job} (h : v.job = some job) (property : String)
    (f : Job → Job) : setJob property f v = .ok ⟨⟩ { v with job := some (f job) } := by
  obtain ⟨_, _, _, _, _⟩ := v
  subst h
  rfl

/-- On an entry that has been deleted an edit throws, as setting a property of `undefined` does. -/
theorem setJob_of_none {v : JobView} (h : v.job = none) (property : String) (f : Job → Job) :
    setJob property f v = .error (.setMissing property) { v with faults := v.faults + 1 } := by
  obtain ⟨_, _, _, _, _⟩ := v
  subst h
  rfl

/-- A field of an entry that is there is read without a change. -/
theorem readJob_of_some {α : Type} {v : JobView} {job : Job} (h : v.job = some job)
    (property : String) (f : Job → α) : readJob property f v = .ok (f job) v := by
  obtain ⟨_, _, _, _, _⟩ := v
  subst h
  rfl

/-- On an entry that has been deleted reading a field throws, and the fault is counted. -/
theorem readJob_of_none {α : Type} {v : JobView} (h : v.job = none) (property : String)
    (f : Job → α) :
    readJob property f v = .error (.readMissing property) { v with faults := v.faults + 1 } := by
  obtain ⟨_, _, _, _, _⟩ := v
  subst h
  rfl

/-- Touching a field of a missing entry changes nothing else. -/
theorem Edit.of_fault {v : JobView} (h : v.job = none) :
    Edit v { v with faults := v.faults + 1 } :=
  ⟨⟨rfl, fun hsome => absurd hsome (by rw [h]; simp), fun hnone => hnone, fun hup => hup,
    fun hdone => Or.inl hdone⟩, fun _ => rfl⟩

/-- Reading a field is at most a fault, so it is an edit. -/
theorem moves_readJob {α : Type} (property : String) (f : Job → α) :
    Moves Edit (readJob property f) := by
  intro v
  cases h : v.job with
  | none =>
      rw [final_of_error (readJob_of_none h property f)]
      exact Edit.of_fault h
  | some job =>
      rw [final_of_ok (readJob_of_some h property f)]
      exact refl_of Edit v

/-- A change of the entry that sets no status is an edit. -/
theorem moves_setJob {property : String} {f : Job → Job} (hf : ∀ job, (f job).status = job.status) :
    Moves Edit (setJob property f) := by
  intro v
  cases h : v.job with
  | none =>
      rw [final_of_error (setJob_of_none h property f)]
      exact Edit.of_fault h
  | some job =>
      rw [final_of_ok (setJob_of_some h property f)]
      have hstatus : ({ v with job := some (f job) } : JobView).status = v.status := by
        rw [JobView.status, JobView.status, h, Option.bind_some, Option.bind_some, hf]
      exact ⟨⟨by rw [h]; rfl, fun _ => rfl, fun hnone => hnone, fun hup => hstatus ▸ hup,
        fun hdone => Or.inl (hstatus ▸ hdone)⟩, fun _ => hstatus⟩

/-- Setting a status succeeds where the entry is there, and leaves the folder and the log of faults
alone. -/
theorem setStatus_of_some {v : JobView} {job : Job} (h : v.job = some job) (status : Status) :
    ∃ v', setStatus status v = .ok ⟨⟩ v' ∧ v'.job.isSome = true ∧ v'.status = some status ∧
      v'.faults = v.faults ∧ v'.folder = v.folder :=
  ⟨_, setJob_of_some h _ _, rfl, rfl, rfl, rfl⟩

/-- On an entry that has been deleted the status cannot be set. -/
theorem setStatus_of_none {v : JobView} (h : v.job = none) (status : Status) :
    setStatus status v = .error (.setMissing "status") { v with faults := v.faults + 1 } :=
  setJob_of_none h _ _

/-- Setting a status other than the final ones and that of the upload is an edit. -/
theorem moves_setStatus {status : Status} (hup : status ≠ .uploading_r2)
    (hfinal : ¬ Final (some status)) : Moves Edit (setStatus status) := by
  intro v
  cases h : v.job with
  | none =>
      rw [final_of_error (setStatus_of_none h status)]
      exact Edit.of_fault h
  | some job =>
      obtain ⟨v', hrun, hsome, hstatus, hfaults, hfolder⟩ := setStatus_of_some h status
      rw [final_of_ok hrun]
      refine ⟨⟨hsome.trans (by rw [h]; rfl), fun _ => hfaults, fun hnone => hfolder.trans hnone,
        fun he => ?_, fun he => ?_⟩, fun hf => ?_⟩
      · exact absurd (Option.some.inj (hstatus.symm.trans he)) hup
      · exact absurd (Or.inr (hstatus.symm.trans he)) hfinal
      · exact absurd (hstatus ▸ hf) hfinal

/-- The status `done` is final, so setting it is no edit, but it stays in the frame. -/
theorem moves_setStatus_done : Moves Frame (setStatus .done) := by
  intro v
  cases h : v.job with
  | none =>
      rw [final_of_error (setStatus_of_none h .done)]
      exact (Edit.of_fault h).toFrame
  | some job =>
      obtain ⟨v', hrun, hsome, hstatus, hfaults, hfolder⟩ := setStatus_of_some h .done
      rw [final_of_ok hrun]
      refine ⟨hsome.trans (by rw [h]; rfl), fun _ => hfaults, fun hnone => hfolder.trans hnone,
        fun he => ?_, fun he => ?_⟩
      · exact absurd (hstatus.symm.trans he) (by simp)
      · exact absurd (hstatus.symm.trans he) (by simp)

/-- Listing the folder is an edit that changes nothing. -/
theorem moves_readdir (path : String) : Moves Edit (readdir path) := by
  rintro ⟨job, - | files, uploads, bucket, faults⟩
  · exact refl_of Edit _
  · exact refl_of Edit _

/-- Reading a file is an edit that changes nothing. -/
theorem moves_readFile (syscall path name : String) : Moves Edit (readFile syscall path name) := by
  intro v
  have hsame : final (readFile syscall path name) v = v := by
    rw [final, readFile, get_bind]
    cases v.folder.bind fun files => files.find? fun file => file.name = name with
    | none => rfl
    | some file => rfl
  rw [hsame]
  exact refl_of Edit v

/-- Unlinking the sources is an edit: the entry and its status stay. -/
theorem moves_unlinkSources (sources : List String) : Moves Edit (unlinkSources sources) :=
  Moves.of_modify fun _ => Edit.of_job rfl rfl fun h => h

/-- Unlinking an output file is an edit: the entry and its status stay. -/
theorem moves_unlinkOutput (name : String) : Moves Edit (unlinkOutput name) :=
  Moves.of_modify fun _ => Edit.of_job rfl rfl fun h => by rw [h]; rfl

/-- Writing to the bucket is an edit: the entry and its status stay. -/
theorem moves_putObject (key : String) (bytes : List UInt8) : Moves Edit (putObject key bytes) :=
  Moves.of_modify fun _ => Edit.of_job rfl rfl fun h => h

end Statements

/-! ### What the callbacks return -/

/-- A callback after which nothing is pending. -/
def Ends (h : Callback (List Task)) : Prop := ∀ v,
  match h v with
  | .ok tasks v' => Frame v v' ∧ tasks = []
  | .error _ v' => Frame v v'

/-- A callback of a job: at most one task of the job is pending afterwards, and none if it has set
a final status. -/
def Reacts (folderId : String) (h : Callback (List Task)) : Prop := ∀ v,
  match h v with
  | .ok tasks v' => Frame v v' ∧ tasks.length ≤ 1 ∧ (∀ task ∈ tasks, task.folderId = folderId) ∧
      (Final v'.status → tasks = [] ∨ v'.status = v.status)
  | .error _ v' => Frame v v'

section Rules

variable {folderId : String} {α : Type} {h : Callback (List Task)} {m : Callback α}
  {f : α → Callback (List Task)}

/-- A callback that returns no task ends where it is. -/
theorem Ends.pure : Ends (Pure.pure []) := fun v => ⟨refl_of Frame v, rfl⟩

/-- A callback ends when its last part ends, whatever the first part has found. -/
theorem Ends.bind (hm : Moves Frame m) (hf : ∀ a, Ends (f a)) : Ends (m >>= f) := by
  intro v
  have hframe := hm v
  cases hrun : m v with
  | error e v' =>
      rw [final_of_error hrun] at hframe
      rwa [bind_of_error hrun]
  | ok a v₁ =>
      rw [final_of_ok hrun] at hframe
      rw [bind_of_ok hrun]
      have hrest := hf a v₁
      cases hrun' : f a v₁ with
      | error e v' =>
          rw [hrun'] at hrest
          exact trans_of Frame hframe hrest
      | ok tasks v' =>
          rw [hrun'] at hrest
          exact ⟨trans_of Frame hframe hrest.1, hrest.2⟩

/-- Two statements that keep the frame may come before the end of a job. -/
theorem Ends.bind_bind {β : Type} {m' : Callback β} {f : β → Callback (List Task)}
    (hm : Moves Frame (m >>= fun _ => m')) (hf : ∀ b, Ends (f b)) :
    Ends (m >>= fun _ => m' >>= f) := by
  rw [← bind_assoc]
  exact Ends.bind hm hf

/-- A callback that starts nothing reacts for every folder. -/
theorem Ends.reacts (hh : Ends h) : Reacts folderId h := by
  intro v
  have hrun := hh v
  cases hv : h v with
  | error e v' => rwa [hv] at hrun
  | ok tasks v' =>
      rw [hv] at hrun
      obtain ⟨hframe, rfl⟩ := hrun
      exact ⟨hframe, by simp, by simp, fun _ => Or.inl rfl⟩

/-- A callback that starts one task of its folder reacts for that folder. -/
theorem Reacts.single {task : Task} (htask : task.folderId = folderId) :
    Reacts folderId (Pure.pure [task]) :=
  fun v => ⟨refl_of Frame v, le_refl 1, fun _ ht => List.mem_singleton.mp ht ▸ htask, fun _ =>
    Or.inr rfl⟩

/-- A callback that edits the job before it reacts still reacts. -/
theorem Reacts.bind (hm : Moves Edit m) (hf : ∀ a, Reacts folderId (f a)) :
    Reacts folderId (m >>= f) := by
  intro v
  have hedit := hm v
  cases hrun : m v with
  | error e v' =>
      rw [final_of_error hrun] at hedit
      rw [bind_of_error hrun]
      exact hedit.toFrame
  | ok a v₁ =>
      rw [final_of_ok hrun] at hedit
      rw [bind_of_ok hrun]
      have hrest := hf a v₁
      cases hrun' : f a v₁ with
      | error e v' =>
          rw [hrun'] at hrest
          exact trans_of Frame hedit.toFrame hrest
      | ok tasks v' =>
          rw [hrun'] at hrest
          obtain ⟨hframe, hlength, hids, hfinal⟩ := hrest
          refine ⟨trans_of Frame hedit.toFrame hframe, hlength, hids, fun hf' => ?_⟩
          refine (hfinal hf').imp_right fun hsame => hsame.trans (hedit.final (hsame ▸ hf'))

/-- A callback that branches reacts when both of its branches do. -/
theorem Reacts.ite {p : Prop} [Decidable p] {h' : Callback (List Task)}
    (hh : Reacts folderId h) (hh' : Reacts folderId h') :
    Reacts folderId (if p then h else h') := by
  split
  · exact hh
  · exact hh'

/-- What is thrown is caught by a handler that ends the job. -/
theorem Reacts.tryCatch (hh : Reacts folderId h) {catchFault : Fault → Callback (List Task)}
    (hcatch : ∀ fault, Ends (catchFault fault)) :
    Reacts folderId (MonadExcept.tryCatch h catchFault) := by
  intro v
  have hrun := hh v
  cases hv : h v with
  | ok tasks v' =>
      rw [tryCatch_of_ok hv]
      rwa [hv] at hrun
  | error fault v₁ =>
      rw [tryCatch_of_error hv]
      rw [hv] at hrun
      have hrest := hcatch fault v₁
      cases hv' : catchFault fault v₁ with
      | error _ v' =>
          rw [hv'] at hrest
          exact trans_of Frame hrun hrest
      | ok tasks v' =>
          rw [hv'] at hrest
          obtain ⟨hframe, rfl⟩ := hrest
          exact ⟨trans_of Frame hrun hframe, by simp, by simp, fun _ => Or.inl rfl⟩

end Rules

/-! ### The callbacks -/

section Callbacks

variable {cfg : ServerConfig} {p : Pipeline} {folderId : String}

/-- Edits stay in the frame of every callback: they neither make an entry nor delete it. -/
theorem Moves.frame {α : Type} {m : Callback α} (h : Moves Edit m) : Moves Frame m :=
  h.mono fun _ _ hedit => hedit.toFrame

/-- The status `error` is not final, so setting it is an edit. -/
theorem moves_setStatus_error : Moves Edit (setStatus .error) :=
  moves_setStatus (by simp) (by simp [Final])

/-- Marking the entry as failed is an edit. -/
theorem moves_failJob (message : String) : Moves Edit (failJob message) := by
  refine Moves.bind moves_setStatus_error fun _ => Moves.bind ?_ fun _ => Moves.pure _
  exact moves_setJob fun _ => rfl

/-- A job that fails starts no further task. -/
theorem failJob_ends (message : String) : Ends (failJob message) := by
  refine Ends.bind (Moves.frame moves_setStatus_error) fun _ => Ends.bind ?_ fun _ => Ends.pure
  exact Moves.frame (moves_setJob fun _ => rfl)

/-- A callback that keeps its child waiting reacts for the folder of the child. -/
theorem keep_reacts {α : Type} {task : Task} {body : Callback α} (h : Moves Edit body) :
    Reacts task.folderId (keep task body) :=
  .bind h fun _ => .single rfl

/-- Starting whisper is a task of the same folder, or the job fails. -/
theorem spawnWhisper_reacts (found : WhisperFiles) {task : Task} :
    Reacts task.folderId (spawnWhisper found task failJob) :=
  .ite (.single rfl) (failJob_ends _).reacts

/-- The duration of the source is noted by an edit. -/
theorem moves_onCodecData (duration : Option (Option ℚ)) : Moves Edit (onCodecData duration) := by
  cases duration with
  | none => exact Moves.pure _
  | some duration => exact moves_setJob fun _ => rfl

/-- The bar of the encoder is moved by an edit. -/
theorem moves_onProgress (percent : Option ℚ) : Moves Edit (onProgress percent) := by
  cases percent with
  | none => exact Moves.pure _
  | some percent => exact Moves.ite (Moves.pure _) (moves_setJob fun _ => rfl)

/-- The bar of whisper is moved by an edit. -/
theorem moves_onWhisperProgress (currentSecs : Option ℚ) :
    Moves Edit (onWhisperProgress currentSecs) := by
  cases currentSecs with
  | none => exact Moves.pure _
  | some currentSecs =>
      refine (moves_readJob _ _).bind fun duration => ?_
      cases duration with
      | none => exact Moves.pure _
      | some duration => exact Moves.ite (moves_setJob fun _ => rfl) (Moves.pure _)

/-- A `/process` pipeline that finishes starts no further task. -/
theorem finishSuccess_ends (p : Pipeline) : Ends (finishSuccess p) := by
  refine Ends.bind (Moves.frame (moves_unlinkSources _)) fun _ =>
    Ends.bind (Moves.frame (moves_unlinkOutput _)) fun _ =>
      Ends.bind moves_setStatus_done fun _ => Ends.bind ?_ fun _ => Ends.pure
  exact Moves.frame (moves_setJob fun _ => rfl)

/-- A podcast pipeline that finishes starts no further task. -/
theorem finishJob_ends (p : Pipeline) : Ends (finishJob p) := by
  refine Ends.bind (fun v => refl_of Frame v) fun v => Ends.bind ?_ fun _ =>
    Ends.bind (Moves.frame (moves_unlinkSources _)) fun _ =>
      Ends.bind moves_setStatus_done fun _ => Ends.bind ?_ fun _ => Ends.pure
  · exact Moves.frame (moves_setJob fun _ => rfl)
  · exact Moves.frame (moves_setJob fun _ => rfl)

/-- What follows the encoding is a task of the same folder. -/
theorem onEncodeEnd_reacts (cfg : ServerConfig) (p : Pipeline) :
    Reacts p.folderId (onEncodeEnd cfg p) := by
  refine Reacts.bind (moves_readdir _) fun files => Reacts.bind ?_ fun _ =>
    Reacts.bind (moves_setStatus (by simp) (by simp [Final])) fun _ => .single rfl
  exact moves_setJob fun _ => rfl

/-- A failed encoding starts no further task. -/
theorem onEncodeError_ends (p : Pipeline) : Ends (onEncodeError p) :=
  Ends.bind (Moves.frame (moves_unlinkSources _)) fun _ => failJob_ends _

/-- What follows the extraction is a task of the same folder. -/
theorem onExtractEnd_reacts (cfg : ServerConfig) (p : Pipeline) (found : WhisperFiles) :
    Reacts p.folderId (onExtractEnd cfg p found) := by
  rw [onExtractEnd]
  split
  · exact (failJob_ends _).reacts
  · exact spawnWhisper_reacts found

/-- After a translation no further task is started. -/
theorem onTranslationSuccess_ends (p : Pipeline) {finish : Callback (List Task)}
    (hfinish : Ends finish) : Ends (onTranslationSuccess p finish) := by
  refine Ends.bind ?_ fun _ => hfinish
  exact Moves.frame (moves_setJob fun _ => rfl)

/-- What follows whisper is a task of the same folder, or the end. -/
theorem onWhisperSuccess_reacts (p : Pipeline) (found : WhisperFiles) :
    Reacts p.folderId (onWhisperSuccess p found) := by
  refine Reacts.bind ?_ fun _ => Reacts.ite ?_ (finishSuccess_ends p).reacts
  · exact moves_setJob fun _ => rfl
  · refine Reacts.bind (moves_setStatus (by simp) (by simp [Final])) fun _ => Reacts.bind ?_
      fun _ => spawnWhisper_reacts found
    exact moves_setJob fun _ => rfl

/-- What follows the encoding of a podcast is a task of the same folder. -/
theorem onPodcastEncodeEnd_reacts (p : Pipeline) : Reacts p.folderId (onPodcastEncodeEnd p) :=
  Reacts.bind (moves_setStatus (by simp) (by simp [Final])) fun _ => .single rfl

/-- What follows whisper in a podcast is a task of the same folder, or the end. -/
theorem onPodcastWhisperSuccess_reacts (p : Pipeline) (found : WhisperFiles) :
    Reacts p.folderId (onPodcastWhisperSuccess p found) := by
  refine Reacts.bind ?_ fun _ => Reacts.ite ?_ (finishJob_ends p).reacts
  · exact moves_setJob fun _ => rfl
  · exact Reacts.bind (moves_setStatus (by simp) (by simp [Final])) fun _ =>
      spawnWhisper_reacts found

/-- Once the folder is gone, the status may say that the upload is done. -/
theorem setStatus_r2_done {v : JobView} (hfolder : v.folder = none) :
    Frame v (final (setStatus .r2_done) v) := by
  cases hjob : v.job with
  | none =>
      rw [final_of_error (setStatus_of_none hjob .r2_done)]
      exact (Edit.of_fault hjob).toFrame
  | some job =>
      obtain ⟨v', hrun, hsome, hstatus, hfaults, hsame⟩ := setStatus_of_some hjob .r2_done
      rw [final_of_ok hrun]
      refine ⟨hsome.trans (by rw [hjob]; rfl), fun _ => hfaults, fun h => hsame.trans h,
        fun he => ?_, fun _ => Or.inr (hsame.trans hfolder)⟩
      exact absurd (hstatus.symm.trans he) (by simp)

/-- Removing the folder and setting `r2_done` leaves the entry there, so the pair stays in the
frame. -/
theorem moves_rmFolder_r2_done : Moves Frame (rmFolder >>= fun _ => setStatus .r2_done) := by
  intro v
  have hrm : Edit v { v with folder := none } := Edit.of_job rfl rfl fun _ => rfl
  exact trans_of Frame hrm.toFrame (setStatus_r2_done rfl)

/-- Reading any number of files is an edit that changes nothing. -/
theorem moves_mapM_readFile (syscall path : String) (files : List String) :
    Moves Edit (files.mapM (readFile syscall path)) := by
  induction files with
  | nil => exact Moves.pure _
  | cons file files ih =>
      rw [List.mapM_cons]
      exact Moves.bind (moves_readFile _ _ _) fun _ => Moves.bind ih fun _ => Moves.pure _

/-- An upload that finishes starts no further task. -/
theorem finishUpload_ends (cfg : ServerConfig) (folderId r2FolderPath : String)
    (files : List String) : Ends (finishUpload cfg folderId r2FolderPath files) := by
  refine Ends.bind (Moves.frame (moves_mapM_readFile _ _ _)) fun stats =>
    Ends.bind_bind moves_rmFolder_r2_done fun _ =>
      Ends.bind ?_ fun _ => Ends.bind ?_ fun _ => Ends.bind ?_ fun _ => Ends.bind ?_ fun _ =>
        Ends.bind ?_ fun _ => Ends.pure
  all_goals exact Moves.frame (moves_setJob fun _ => rfl)

/-- The next turn of the upload loop starts a PUT of the same folder at most. -/
theorem uploadNext_reacts (cfg : ServerConfig) (folderId r2FolderPath : String)
    (files : List String) (uploadedCount : ℕ) (rest : List String) :
    Reacts folderId (uploadNext cfg folderId r2FolderPath files uploadedCount rest) := by
  cases rest with
  | nil => exact (finishUpload_ends _ _ _ _).reacts
  | cons file rest => exact Reacts.bind (moves_readFile _ _ _) fun _ => .single rfl

/-- The handler around an upload starts nothing that the upload does not start. -/
theorem catchUpload_reacts {body : Callback (List Task)} (h : Reacts folderId body) :
    Reacts folderId (catchUpload body) :=
  Reacts.tryCatch h fun _ => failJob_ends _

/-- The first PUT of an upload belongs to the folder of the upload. -/
theorem startUpload_reacts (cfg : ServerConfig) (folderId r2FolderPath : String) :
    Reacts folderId (startUpload cfg folderId r2FolderPath) := by
  refine Reacts.bind (moves_readdir _) fun files => Reacts.ite ?_ (uploadNext_reacts _ _ _ _ _ _)
  exact fun v => refl_of Frame v

/-- The next PUT of an upload belongs to the folder of the upload. -/
theorem onPut_reacts (cfg : ServerConfig) (u : Upload) : Reacts u.folderId (onPut cfg u) := by
  refine catchUpload_reacts (Reacts.bind (moves_putObject _ _) fun _ => Reacts.bind ?_ fun _ =>
    uploadNext_reacts _ _ _ _ _ _)
  exact moves_setJob fun _ => rfl

/-- A failed PUT marks the entry and starts nothing. -/
theorem onPutError_reacts (folderId message : String) : Reacts folderId (onPutError message) :=
  catchUpload_reacts fun v => refl_of Frame v

/-- The handlers of a whisper child react when the continuation they are given does. -/
theorem whisperCallback_reacts {task : Task} (htask : task.folderId = folderId)
    {onStdout : Option (Option ℚ → Callback PUnit)}
    (hstdout : ∀ handler ∈ onStdout, ∀ secs, Moves Edit (handler secs))
    {onSuccess : WhisperFiles → Callback (List Task)}
    (hsuccess : ∀ found, Reacts folderId (onSuccess found)) {signal : Signal}
    {h : Callback (List Task)} (hh : whisperCallback task onStdout onSuccess signal = some h) :
    Reacts folderId h := by
  cases signal with
  | stdout secs =>
      obtain ⟨handler, hhandler, rfl⟩ := Option.map_eq_some_iff.mp hh
      exact htask ▸ keep_reacts (hstdout handler hhandler secs)
  | ended found =>
      obtain rfl := Option.some.inj hh
      exact hsuccess found
  | failed detail =>
      obtain rfl := Option.some.inj hh
      exact (failJob_ends _).reacts
  | spawnFailed message =>
      obtain rfl := Option.some.inj hh
      exact htask ▸ keep_reacts (moves_failJob _)
  | codecData duration => exact absurd hh (by simp [whisperCallback])
  | progress percent => exact absurd hh (by simp [whisperCallback])

/-- The reader of whisper's output, where a stage has one, makes edits only. -/
theorem moves_onStdout : ∀ handler ∈ some onWhisperProgress, ∀ secs, Moves Edit (handler secs) := by
  rintro handler h secs
  rw [← Option.some.inj h]
  exact moves_onWhisperProgress secs

/-- Every callback of the children of `/process` reacts for the folder of its pipeline. -/
theorem processCallback_reacts {stage : Stage} {signal : Signal} {h : Callback (List Task)}
    (hh : processCallback cfg p stage signal = some h) : Reacts p.folderId h := by
  cases stage with
  | encode =>
      cases signal with
      | codecData duration =>
          obtain rfl := Option.some.inj hh
          exact keep_reacts (moves_onCodecData duration)
      | progress percent =>
          obtain rfl := Option.some.inj hh
          exact keep_reacts (moves_onProgress percent)
      | ended found =>
          obtain rfl := Option.some.inj hh
          exact onEncodeEnd_reacts cfg p
      | failed message =>
          obtain rfl := Option.some.inj hh
          exact (onEncodeError_ends p).reacts
      | stdout secs => exact absurd hh (by simp [processCallback])
      | spawnFailed message => exact absurd hh (by simp [processCallback])
  | extract =>
      cases signal with
      | ended found =>
          obtain rfl := Option.some.inj hh
          exact onExtractEnd_reacts cfg p found
      | failed message =>
          obtain rfl := Option.some.inj hh
          exact (failJob_ends _).reacts
      | codecData duration => exact absurd hh (by simp [processCallback])
      | progress percent => exact absurd hh (by simp [processCallback])
      | stdout secs => exact absurd hh (by simp [processCallback])
      | spawnFailed message => exact absurd hh (by simp [processCallback])
  | whisper =>
      exact whisperCallback_reacts (by rfl) moves_onStdout (onWhisperSuccess_reacts p) hh
  | translation =>
      exact whisperCallback_reacts (by rfl) moves_onStdout
        (fun _ => (onTranslationSuccess_ends p (finishSuccess_ends p)).reacts) hh

/-- Every callback of the children of `/process-podcast` reacts for the folder of its pipeline. -/
theorem podcastCallback_reacts {stage : Stage} {signal : Signal} {h : Callback (List Task)}
    (hh : podcastCallback cfg p stage signal = some h) : Reacts p.folderId h := by
  cases stage with
  | encode =>
      cases signal with
      | ended found =>
          obtain rfl := Option.some.inj hh
          exact onPodcastEncodeEnd_reacts p
      | failed message =>
          obtain rfl := Option.some.inj hh
          exact (failJob_ends _).reacts
      | codecData duration => exact absurd hh (by simp [podcastCallback])
      | progress percent => exact absurd hh (by simp [podcastCallback])
      | stdout secs => exact absurd hh (by simp [podcastCallback])
      | spawnFailed message => exact absurd hh (by simp [podcastCallback])
  | extract =>
      cases signal with
      | ended found =>
          obtain rfl := Option.some.inj hh
          exact onExtractEnd_reacts cfg p found
      | failed message =>
          obtain rfl := Option.some.inj hh
          exact (failJob_ends _).reacts
      | codecData duration => exact absurd hh (by simp [podcastCallback])
      | progress percent => exact absurd hh (by simp [podcastCallback])
      | stdout secs => exact absurd hh (by simp [podcastCallback])
      | spawnFailed message => exact absurd hh (by simp [podcastCallback])
  | whisper =>
      exact whisperCallback_reacts (by rfl) (by simp) (onPodcastWhisperSuccess_reacts p) hh
  | translation =>
      exact whisperCallback_reacts (by rfl) (by simp)
        (fun _ => (onTranslationSuccess_ends p (finishJob_ends p)).reacts) hh

/-- **Every callback** keeps the frame of its job. -/
theorem callback_reacts {task : Task} {signal : Signal} {h : Callback (List Task)}
    (hh : callback cfg task signal = some h) : Reacts task.folderId h := by
  cases task with
  | pipeline p stage =>
      rw [callback] at hh
      split at hh
      · exact processCallback_reacts hh
      · exact podcastCallback_reacts hh
  | upload u =>
      cases signal with
      | ended found =>
          obtain rfl := Option.some.inj hh
          exact onPut_reacts cfg u
      | failed message =>
          obtain rfl := Option.some.inj hh
          exact onPutError_reacts u.folderId message
      | codecData duration => exact absurd hh (by simp [callback])
      | progress percent => exact absurd hh (by simp [callback])
      | stdout secs => exact absurd hh (by simp [callback])
      | spawnFailed message => exact absurd hh (by simp [callback])

/-- An upload request does nothing when the output folder is missing. -/
theorem uploadToR2_of_none {v : JobView} (h : v.folder = none) (series episode : String) :
    uploadToR2 cfg folderId series episode v = .ok [] v := by
  rw [uploadToR2, get_bind, h]
  rfl

/-- What an upload request sees once it has set `uploading_r2`. -/
def JobView.uploading (v : JobView) : JobView :=
  { v with
    job := some
      { v.job.getD Job.blank with status := some .uploading_r2, r2Progress := some 0 } }

/-- Otherwise it sets `uploading_r2`, and the upload loop begins. -/
theorem uploadToR2_of_some {v : JobView} (h : v.folder ≠ none) (series episode : String) :
    uploadToR2 cfg folderId series episode v =
      catchUpload (startUpload cfg folderId (r2FolderPath series episode)) v.uploading := by
  obtain ⟨files, hfiles⟩ := Option.ne_none_iff_exists'.mp h
  rw [uploadToR2, get_bind, hfiles]
  rfl

/-- Without an entry, a job cannot even be marked as failed. -/
theorem failJob_of_none {v : JobView} (h : v.job = none) (message : String) :
    failJob message v = .error (.setMissing "status") { v with faults := v.faults + 1 } := by
  rw [failJob, bind_of_error (setStatus_of_none h .error)]

/-- **The failure of a child** touches the entry of its job, whatever the child was doing. -/
theorem callback_failed_faults (cfg : ServerConfig) (task : Task) (message : String) :
    ∃ h, callback cfg task (.failed message) = some h ∧ ∀ v, v.job = none →
      ∃ fault v', h v = .error fault v' ∧ v'.faults = v.faults + 1 := by
  have hfail : ∀ (text : String) (v : JobView), v.job = none →
      ∃ fault v', failJob text v = .error fault v' ∧ v'.faults = v.faults + 1 :=
    fun text v h => ⟨_, _, failJob_of_none h text, rfl⟩
  cases task with
  | upload u => exact ⟨_, rfl, fun v h => hfail _ v h⟩
  | pipeline p stage =>
      cases hroute : p.route with
      | process =>
          rw [callback, hroute]
          cases stage with
          | encode => exact ⟨_, rfl, fun v h => hfail _ { v with uploads := _ } h⟩
          | extract => exact ⟨_, rfl, hfail _⟩
          | whisper => exact ⟨_, rfl, hfail _⟩
          | translation => exact ⟨_, rfl, hfail _⟩
      | processPodcast =>
          rw [callback, hroute]
          cases stage with
          | encode => exact ⟨_, rfl, hfail _⟩
          | extract => exact ⟨_, rfl, hfail _⟩
          | whisper => exact ⟨_, rfl, hfail _⟩
          | translation => exact ⟨_, rfl, hfail _⟩

end Callbacks

end Mogo
