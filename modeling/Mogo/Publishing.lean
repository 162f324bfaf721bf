import Mogo.CallbackScope

/-!
# Publishing an Episode

The upload loop sends the files of an output folder in the order in which the directory lists them,
and nothing it has sent is taken back when a PUT fails. So at every point the bucket holds a prefix
of the listing, and all of it once the loop has come to its end. The playlist is no exception: the
segments that sort after it are published after it.

`Loop.At` says where a loop is, in the server. The loop stays on its way while the server works for
other jobs, and when its own job is cancelled.

## Main results

* `publishes_in_order`: what the bucket holds at every point of an upload.
* `not_playlist_last`: the playlist may be there before a segment is.
-/

namespace Mogo

open Handler Callback Transition Server

/-! ### Files in the bucket -/

section Published

variable {r2FolderPath : String} {files : List File} {bucket : String → Option (List UInt8)}

/-- The bucket once some files are through. -/
def published (r2FolderPath : String) (files : List File)
    (bucket : String → Option (List UInt8)) : String → Option (List UInt8) :=
  files.foldl (fun b f => Function.update b (r2FolderPath ++ "/" ++ f.name) (some f.bytes)) bucket

/-- Files are published one after the other. -/
theorem published_concat (files : List File) (f : File) :
    published r2FolderPath (files ++ [f]) bucket =
      Function.update (published r2FolderPath files bucket) (r2FolderPath ++ "/" ++ f.name)
        (some f.bytes) :=
  List.foldl_concat ..

/-- Publishing leaves the other keys of the bucket alone. -/
theorem published_other {key : String} (h : ∀ f ∈ files, r2FolderPath ++ "/" ++ f.name ≠ key) :
    published r2FolderPath files bucket key = bucket key := by
  induction files generalizing bucket with
  | nil => rfl
  | cons f files ih =>
      rw [published, List.foldl_cons]
      refine (ih fun g hg => h g (List.mem_cons_of_mem f hg)).trans ?_
      exact Function.update_of_ne (h f List.mem_cons_self).symm _ _

/-- What is not published under a name stays as it was. -/
theorem published_of_notMem {name : String} (h : name ∉ files.map File.name) :
    published r2FolderPath files bucket (r2FolderPath ++ "/" ++ name) =
      bucket (r2FolderPath ++ "/" ++ name) := by
  refine published_other fun f hf heq => h ?_
  rw [← (String.append_right_inj (r2FolderPath ++ "/")).mp heq]
  exact List.mem_map_of_mem hf

/-- Once all files of a folder are through, each is stored under its own key. -/
theorem published_of_mem (hnodup : (files.map File.name).Nodup) {f : File} (hf : f ∈ files) :
    published r2FolderPath files bucket (r2FolderPath ++ "/" ++ f.name) = some f.bytes := by
  induction files generalizing bucket with
  | nil => cases hf
  | cons g files ih =>
      obtain ⟨hnotin, hnodup⟩ := List.nodup_cons.mp hnodup
      rcases List.mem_cons.mp hf with rfl | hrest
      · rw [published, List.foldl_cons]
        exact (published_of_notMem hnotin).trans (Function.update_self _ _ _)
      · rw [published, List.foldl_cons]
        exact ih hnodup hrest

end Published

/-! ### A run of the loop -/

/-- A run of the loop: the job, its place in the bucket, the files of its folder in the order of the
directory, and what the bucket held before. -/
structure Loop where
  folderId : String
  r2FolderPath : String
  files : List File
  nodup : (files.map File.name).Nodup
  bucket : String → Option (List UInt8)

namespace Loop

variable {cfg : ServerConfig} (l : Loop)

/-- The loop waits for the PUT of the `k`-th file. -/
def uploadAt (k : ℕ) (h : k < l.files.length) : Upload :=
  ⟨l.folderId, l.r2FolderPath, l.files.map File.name, l.files[k],
    (l.files.drop (k + 1)).map File.name, k⟩

/-- The bucket once `k` files are through. -/
def bucketAt (k : ℕ) : String → Option (List UInt8) :=
  published l.r2FolderPath (l.files.take k) l.bucket

/-- A point of the loop with `k` files through, and the tasks it waits for. The folder is as it was
listed, or it is gone. -/
structure Point (k : ℕ) (tasks : List Task) (v : JobView) : Prop where
  le : k ≤ l.files.length
  bucket : v.bucket = l.bucketAt k
  folder : v.folder = some l.files ∨ v.folder = none
  tasks : tasks = [] ∨ ∃ hk : k < l.files.length, tasks = [.upload (l.uploadAt k hk)]
  done : v.status = some .r2_done → k = l.files.length

/-- The handler leads to a point with `k` files through. -/
def Leads (k : ℕ) (m : Callback (List Task)) (v : JobView) : Prop :=
  match m v with
  | .ok tasks v' => l.Point k tasks v'
  | .error _ v' => l.Point k [] v'

variable {l} {k : ℕ} {tasks : List Task} {v : JobView}

/-- After one more PUT the bucket has one more file. -/
theorem bucketAt_succ (hk : k < l.files.length) :
    l.bucketAt (k + 1) = Function.update (l.bucketAt k)
      (l.r2FolderPath ++ "/" ++ l.files[k].name) (some l.files[k].bytes) := by
  rw [bucketAt, ← List.take_append_getElem hk, published_concat]
  rfl

/-- A callback that returns leads to the point it has returned at. -/
theorem Leads.of_ok {m : Callback (List Task)} {v' : JobView} (hrun : m v = .ok tasks v')
    (h : l.Point k tasks v') : l.Leads k m v := by
  rw [Leads, hrun]
  exact h

/-- A callback that throws leads to a point at which nothing is pending. -/
theorem Leads.of_error {m : Callback (List Task)} {v' : JobView} {fault : Fault}
    (hrun : m v = .error fault v') (h : l.Point k [] v') : l.Leads k m v := by
  rw [Leads, hrun]
  exact h

/-! ### The statements of the loop -/

/-- What a statement of the loop may do, a PUT apart. -/
structure Withdraws (v v' : JobView) : Prop where
  bucket : v'.bucket = v.bucket
  folder : v'.folder = v.folder ∨ v'.folder = none

instance : Std.Refl Withdraws where
  refl _ := ⟨rfl, Or.inl rfl⟩

instance : IsTrans JobView Withdraws where
  trans _ _ _ h h' := by
    refine ⟨h'.bucket.trans h.bucket, ?_⟩
    rcases h'.folder with hsame | hgone
    · rw [hsame]
      exact h.folder
    · exact Or.inr hgone

/-- An edit of the entry touches neither the bucket nor the folder. -/
theorem withdraws_setJob (property : String) (f : Job → Job) :
    Moves Withdraws (setJob property f) := by
  intro v
  cases h : v.job with
  | none =>
      rw [final_of_error (setJob_of_none h property f)]
      exact ⟨rfl, Or.inl rfl⟩
  | some job =>
      rw [final_of_ok (setJob_of_some h property f)]
      exact ⟨rfl, Or.inl rfl⟩

/-- Reading any number of files touches neither the bucket nor the folder. -/
theorem withdraws_mapM_readFile (syscall path : String) (files : List String) :
    Moves Withdraws (files.mapM (readFile syscall path)) := by
  induction files with
  | nil => exact Moves.pure _
  | cons file files ih =>
      rw [List.mapM_cons]
      refine Moves.bind (fun v => ?_) fun _ => Moves.bind ih fun _ => Moves.pure _
      rw [final_readFile]
      exact refl_of Withdraws v

/-- Removing the folder leaves the bucket. -/
theorem withdraws_rmFolder : Moves Withdraws rmFolder :=
  Moves.of_modify fun _ => ⟨rfl, Or.inr rfl⟩

/-- Marking the entry as failed touches neither the bucket nor the folder. -/
theorem withdraws_failJob (message : String) : Moves Withdraws (failJob message) :=
  Moves.bind (withdraws_setJob _ _) fun _ => Moves.bind (withdraws_setJob _ _) fun _ => Moves.pure _

/-- The end of an upload leaves the bucket; the folder may go. -/
theorem withdraws_finishUpload (cfg : ServerConfig) (folderId r2FolderPath : String)
    (files : List String) :
    Moves Withdraws (finishUpload cfg folderId r2FolderPath files) :=
  Moves.bind (withdraws_mapM_readFile _ _ _) fun _ => Moves.bind withdraws_rmFolder fun _ =>
    Moves.bind (withdraws_setJob _ _) fun _ => Moves.bind (withdraws_setJob _ _) fun _ =>
      Moves.bind (withdraws_setJob _ _) fun _ => Moves.bind (withdraws_setJob _ _) fun _ =>
        Moves.bind (withdraws_setJob _ _) fun _ => Moves.bind (withdraws_setJob _ _) fun _ =>
          Moves.pure _

/-- A statement that sends nothing leads to a point again, if the status it sets is right. -/
theorem Point.withdraws {v' : JobView} (h : l.Point k [] v) (hmove : Withdraws v v')
    (hdone : v'.status = some .r2_done → k = l.files.length) : l.Point k [] v' := by
  refine ⟨h.le, hmove.bucket.trans h.bucket, ?_, Or.inl rfl, hdone⟩
  rcases hmove.folder with hsame | hgone
  · rw [hsame]
    exact h.folder
  · exact Or.inr hgone

/-! ### The callbacks of the loop -/

/-- Nothing is sent any more once the job is marked as failed. -/
theorem Point.failJob (h : l.Point k [] v) (message : String) :
    l.Leads k (failJob message) v := by
  have hmove := withdraws_failJob message v
  have hedit := moves_failJob message v
  have hends := failJob_ends message v
  have hdone : (final (Mogo.failJob message) v).status = some .r2_done → k = l.files.length :=
    fun hdone => h.done ((hedit.final (Or.inr hdone)).symm.trans hdone)
  cases hrun : Mogo.failJob message v with
  | ok tasks v' =>
      rw [hrun] at hends
      obtain ⟨-, rfl⟩ := hends
      rw [final_of_ok hrun] at hmove hdone
      exact .of_ok hrun (h.withdraws hmove hdone)
  | error fault v' =>
      rw [final_of_error hrun] at hmove hdone
      exact .of_error hrun (h.withdraws hmove hdone)

/-- The handler around an upload leads where the upload has led, a failure included. -/
theorem Leads.catchUpload {body : Callback (List Task)} (h : l.Leads k body v) :
    l.Leads k (catchUpload body) v := by
  rw [Leads] at h
  cases hrun : body v with
  | ok tasks v' =>
      rw [hrun] at h
      exact .of_ok (tryCatch_of_ok hrun) h
  | error fault v₁ =>
      rw [hrun] at h
      rw [Leads, Mogo.catchUpload, tryCatch_of_error hrun]
      exact h.failJob _

/-- The loop ends when all files are through. -/
theorem Point.finishUpload (h : l.Point l.files.length [] v) (folderId r2FolderPath : String)
    (files : List String) :
    l.Leads l.files.length (finishUpload cfg folderId r2FolderPath files) v := by
  have hmove := withdraws_finishUpload cfg folderId r2FolderPath files v
  have hends := finishUpload_ends cfg folderId r2FolderPath files v
  cases hrun : Mogo.finishUpload cfg folderId r2FolderPath files v with
  | ok tasks v' =>
      rw [hrun] at hends
      obtain ⟨-, rfl⟩ := hends
      rw [final_of_ok hrun] at hmove
      exact .of_ok hrun (h.withdraws hmove fun _ => rfl)
  | error fault v' =>
      rw [final_of_error hrun] at hmove
      exact .of_error hrun (h.withdraws hmove fun _ => rfl)

/-- Reading a file that the folder holds returns it and changes nothing. -/
theorem readFile_of_mem (hfolder : v.folder = some l.files) {f : File} (hf : f ∈ l.files)
    (syscall path : String) : readFile syscall path f.name v = .ok f v := by
  have hfind : l.files.find? (fun g => g.name = f.name) = some f := by
    cases hg : l.files.find? (fun g => g.name = f.name) with
    | none => exact absurd (List.find?_eq_none.mp hg f hf) (by simp)
    | some g =>
        have hname : g.name = f.name := by simpa using List.find?_some hg
        rw [List.inj_on_of_nodup_map l.nodup (List.mem_of_find?_eq_some hg) hf hname]
  rw [readFile, get_bind, hfolder, Option.bind_some, hfind]
  rfl

/-- In a folder that is gone no file can be read. -/
theorem readFile_of_none (hfolder : v.folder = none) (syscall path name : String) :
    readFile syscall path name v = .error (.noFile syscall (path ++ "/" ++ name)) v := by
  rw [readFile, get_bind, hfolder]
  rfl

/-- From one file to the next PUT, or to the end of the loop. -/
theorem Point.uploadNext (cfg : ServerConfig) (h : l.Point k [] v) :
    l.Leads k (uploadNext cfg l.folderId l.r2FolderPath (l.files.map File.name) k
      ((l.files.drop k).map File.name)) v := by
  rcases Nat.lt_or_eq_of_le h.le with hlt | rfl
  · rw [List.drop_eq_getElem_cons hlt, List.map_cons, Mogo.uploadNext]
    rcases h.folder with hfolder | hgone
    · refine .of_ok (bind_of_ok (readFile_of_mem hfolder (List.getElem_mem hlt) _ _)) ?_
      exact ⟨h.le, h.bucket, h.folder, Or.inr ⟨hlt, rfl⟩, h.done⟩
    · exact .of_error (bind_of_error (readFile_of_none hgone _ _ _)) h
  · rw [List.drop_length, List.map_nil, Mogo.uploadNext]
    exact h.finishUpload _ _ _

/-- **The loop begins** with the listing of the folder and no file through. -/
theorem Point.startUpload (cfg : ServerConfig) (h : l.Point 0 [] v)
    (hfolder : v.folder = some l.files) :
    l.Leads 0 (catchUpload (startUpload cfg l.folderId l.r2FolderPath)) v := by
  have hread : readdir (cfg.outputFolder l.folderId) v = .ok l.files v := by
    rw [readdir, get_bind, hfolder]
    rfl
  refine Leads.catchUpload ?_
  rw [Leads, Mogo.startUpload, bind_of_ok hread]
  by_cases hname : cfg.bucketName.getD "" = ""
  · rw [if_pos hname]
    exact h
  · rw [if_neg hname]
    exact h.uploadNext cfg

/-- **A PUT that has succeeded** takes the loop from `k` files through to `k + 1`. -/
theorem Point.onPut (cfg : ServerConfig) (h : l.Point k [] v) (hk : k < l.files.length) :
    l.Leads (k + 1) (onPut cfg (l.uploadAt k hk)) v := by
  have hput : putObject (l.r2FolderPath ++ "/" ++ l.files[k].name) l.files[k].bytes v =
      .ok ⟨⟩ { v with
        bucket := Function.update v.bucket (l.r2FolderPath ++ "/" ++ l.files[k].name)
          (some l.files[k].bytes) } := rfl
  have hsent : l.Point (k + 1) [] { v with
      bucket := Function.update v.bucket (l.r2FolderPath ++ "/" ++ l.files[k].name)
        (some l.files[k].bytes) } := by
    refine ⟨hk, ?_, h.folder, Or.inl rfl, fun hdone => absurd (h.done hdone) (Nat.ne_of_lt hk)⟩
    rw [bucketAt_succ hk, ← h.bucket]
  generalize ({ v with
    bucket := Function.update v.bucket (l.r2FolderPath ++ "/" ++ l.files[k].name)
      (some l.files[k].bytes) } : JobView) = v₁ at hput hsent
  refine Leads.catchUpload ?_
  rw [Leads, uploadAt]
  dsimp only
  rw [bind_of_ok hput]
  cases hjob : v₁.job with
  | none =>
      rw [bind_of_error (setJob_of_none hjob _ _)]
      exact ⟨hsent.le, hsent.bucket, hsent.folder, Or.inl rfl, hsent.done⟩
  | some job =>
      rw [bind_of_ok (setJob_of_some hjob _ _)]
      refine Point.uploadNext cfg
        ⟨hsent.le, hsent.bucket, hsent.folder, Or.inl rfl, fun hdone => ?_⟩
      refine hsent.done (Eq.trans ?_ hdone)
      rw [JobView.status, hjob]
      rfl

end Loop

/-! ### The loop in the server -/

/-- An upload loop among the pending tasks. -/
def Task.isUpload (task : Task) : Bool := task.origin.isNone

/-- A task of a pipeline is a child process, and no PUT. -/
theorem not_isUpload {task : Task} {p : Pipeline} (h : task.origin = some p) :
    ¬ task.isUpload = true := by
  rw [Task.isUpload, h]
  exact Bool.false_ne_true

/-- A PUT of an upload loop that has succeeded. -/
def Event.isPut : Event → Bool
  | .callback (.upload _) (.ended _) => true
  | _ => false

/-- An event beside an upload loop: it starts no other loop, and the pipeline of the folder is not
running. A cancel may delete the folder. -/
def Event.Beside (cfg : ServerConfig) (folderId : String) : Event → Prop
  | .process p _ => cfg.outputFolder p.folderId ≠ cfg.outputFolder folderId
  | .uploadToR2 _ _ _ => False
  | .cancel _ => True
  | .written p _ _ => cfg.outputFolder p.folderId ≠ cfg.outputFolder folderId
  | .callback (.pipeline p _) _ => cfg.outputFolder p.folderId ≠ cfg.outputFolder folderId
  | .callback (.upload _) _ => True

namespace Loop

variable {cfg : ServerConfig} {l : Loop} {k : ℕ} {s s' : Server} {e : Event}

/-- The server at a point of the loop. -/
def At (cfg : ServerConfig) (l : Loop) (k : ℕ) (s : Server) : Prop :=
  l.Point k (s.tasks.filter Task.isUpload) (s.view cfg l.folderId)

/-- The upload that is pending is the one the loop has come to, and there is no other. -/
theorem At.of_mem (h : l.At cfg k s) {u : Upload} (hu : Task.upload u ∈ s.tasks) :
    ∃ hk : k < l.files.length, u = l.uploadAt k hk ∧
      (s.tasks.erase (.upload u)).filter Task.isUpload = [] := by
  have hmem : Task.upload u ∈ s.tasks.filter Task.isUpload := List.mem_filter.mpr ⟨hu, rfl⟩
  rcases h.tasks with hnone | ⟨hk, hone⟩
  · rw [hnone] at hmem
    cases hmem
  · rw [hone] at hmem
    have heq := List.mem_singleton.mp hmem
    refine ⟨hk, Task.upload.inj heq, ?_⟩
    rw [← List.erase_filter, hone, heq]
    exact List.erase_cons_head _ _

/-- A callback of the loop leads to its next point. -/
theorem Leads.react {m : Callback (List Task)} (h : l.Leads k m (s.view cfg l.folderId))
    (hidle : s.tasks.filter Task.isUpload = []) (hscoped : Scoped none m) :
    l.At cfg k (s.react cfg l.folderId m) := by
  rw [Leads] at h
  rw [At, Server.react]
  cases hrun : m (s.view cfg l.folderId) with
  | ok tasks v =>
      rw [hrun] at h
      have hall : tasks.filter Task.isUpload = tasks := List.filter_eq_self.mpr fun task htask =>
        Option.isNone_iff_eq_none.mpr (hscoped.returns _ _ _ hrun task htask)
      dsimp only
      rw [List.filter_append, hidle, hall, List.nil_append]
      exact (Server.view_put (s := s) v).symm ▸ h
  | error fault v =>
      rw [hrun] at h
      have hview : ({ s.put cfg l.folderId v with crashed := true } : Server).view cfg l.folderId =
          v := Server.view_put v
      rw [hview]
      exact hidle.symm ▸ h

/-- A step that keeps the loop as it is. -/
theorem At.of_same (h : l.At cfg k s)
    (htasks : s'.tasks.filter Task.isUpload = s.tasks.filter Task.isUpload)
    (hbucket : s'.bucket = s.bucket)
    (hfolder : s'.folders (cfg.outputFolder l.folderId) =
        s.folders (cfg.outputFolder l.folderId) ∨
      s'.folders (cfg.outputFolder l.folderId) = none)
    (hstatus : s'.status l.folderId = some .r2_done → s.status l.folderId = some .r2_done) :
    l.At cfg k s' := by
  refine ⟨h.le, hbucket.trans h.bucket, ?_, htasks ▸ h.tasks, fun hdone => h.done (hstatus hdone)⟩
  rcases hfolder with hsame | hgone
  · exact h.folder.imp hsame.trans hsame.trans
  · exact Or.inr hgone

/-- The callback of a job in another folder leaves the loop where it is. -/
theorem At.pipeline (h : l.At cfg k s) {p : Pipeline} {stage : Stage}
    (hpath : cfg.outputFolder p.folderId ≠ cfg.outputFolder l.folderId) {signal : Signal}
    {handler : Callback (List Task)}
    (hhandler : callback cfg (.pipeline p stage) signal = some handler) :
    l.At cfg k (Server.react cfg p.folderId handler
      { s with tasks := s.tasks.erase (.pipeline p stage) }) := by
  have hne : l.folderId ≠ p.folderId := fun heq => hpath (congrArg cfg.outputFolder heq.symm)
  have hinside := Server.inside_react (callback_scoped hhandler) cfg p.folderId
    { s with tasks := s.tasks.erase (.pipeline p stage) }
  have htouched := Server.touched_callback hhandler
    { s with tasks := s.tasks.erase (.pipeline p stage) }
  refine h.of_same ?_ (hinside.bucket (Option.some_ne_none p))
    (Or.inl (hinside.folders _ hpath.symm)) fun hdone => ?_
  · obtain ⟨tasks, htasks, horigin⟩ := hinside.tasks
    have hnone : tasks.filter Task.isUpload = [] := List.filter_eq_nil_iff.mpr fun task htask =>
      not_isUpload (horigin task htask)
    refine (congrArg (List.filter Task.isUpload) htasks).trans ?_
    rw [List.filter_append, hnone, List.append_nil, ← List.erase_filter]
    exact List.erase_of_not_mem fun hmem => not_isUpload rfl (List.of_mem_filter hmem)
  · exact (Server.status_of_jobs (htouched.jobs _ hne)).symm.trans hdone

/-- **One step** of the server, a callback of the loop or an event beside it, takes the loop on by
the files it stores. -/
theorem At.step (h : l.At cfg k s) (hbeside : e.Beside cfg l.folderId)
    (hstep : Server.step cfg s e = some s') :
    l.At cfg (k + if e.isPut then 1 else 0) s' := by
  cases Server.step_effect hstep with
  | process p size hfresh =>
      have hne : p.folderId ≠ l.folderId := fun heq => hbeside (congrArg cfg.outputFolder heq)
      refine h.of_same ?_ rfl (Or.inl (Function.update_of_ne (Ne.symm hbeside) _ _)) ?_
      · exact (List.filter_append ..).trans (List.append_nil _)
      · rw [Server.status_of_jobs (Server.startPipeline_jobs_of_ne hne.symm size)]
        exact id
  | notFound folderId series episode hfolder => exact hbeside.elim
  | upload folderId series episode hfolder => exact hbeside.elim
  | cancel folderId =>
      refine h.of_same rfl rfl ?_ fun hdone => ?_
      · by_cases hpath : cfg.outputFolder l.folderId = cfg.outputFolder folderId
        · rw [hpath]
          exact Or.inr (Function.update_self _ _ _)
        · exact Or.inl (Function.update_of_ne hpath _ _)
      · by_cases hid : l.folderId = folderId
        · rw [hid, Server.cancel_status] at hdone
          cases hdone
        · rwa [Server.status_of_jobs (Server.cancel_jobs_of_ne hid)] at hdone
  | written p stage file files htask hwrites hfolder =>
      exact h.of_same rfl rfl (Or.inl (Function.update_of_ne (Ne.symm hbeside) _ _)) id
  | callback task signal handler htask hhandler =>
      cases task with
      | pipeline p stage =>
          exact h.pipeline hbeside hhandler
      | upload u =>
          obtain ⟨hk, rfl, herase⟩ := h.of_mem htask
          have hpoint : l.Point k [] (s.view cfg l.folderId) :=
            ⟨h.le, h.bucket, h.folder, Or.inl rfl, h.done⟩
          cases signal with
          | ended found =>
              obtain rfl := Option.some.inj hhandler
              exact Leads.react (hpoint.onPut cfg hk) herase (onPut_scoped cfg _)
          | failed message =>
              obtain rfl := Option.some.inj hhandler
              refine Leads.react (Leads.catchUpload ?_) herase (catchUpload_scoped (throw_scoped _))
              exact .of_error rfl hpoint
          | codecData duration => cases hhandler
          | progress percent => cases hhandler
          | stdout secs => cases hhandler
          | spawnFailed message => cases hhandler

/-- **A run** beside the loop takes it on by as many files as PUTs have succeeded. -/
theorem At.run {es : List Event} (h : l.At cfg k s) (hes : ∀ e ∈ es, e.Beside cfg l.folderId)
    (hrun : Transition.run (Server.step cfg) s es = some s') :
    l.At cfg (k + es.countP Event.isPut) s' := by
  induction es generalizing s k with
  | nil => exact Option.some.inj hrun ▸ h
  | cons e es ih =>
      rw [run_cons] at hrun
      obtain ⟨s₁, hstep, hrest⟩ := Option.bind_eq_some_iff.mp hrun
      have hpoint := ih (h.step (hes e List.mem_cons_self) hstep)
        (fun e he => hes e (List.mem_cons_of_mem _ he)) hrest
      rwa [List.countP_cons, ← Nat.add_assoc, Nat.add_right_comm]

/-- The loop once an upload request has started it. -/
theorem At.start (hidle : s.tasks.filter Task.isUpload = [])
    (hfolder : s.folders (cfg.outputFolder l.folderId) = some l.files)
    (hbucket : s.bucket = l.bucket) {series episode : String}
    (hpath : Mogo.r2FolderPath series episode = l.r2FolderPath)
    (hstep : Server.step cfg s (.uploadToR2 l.folderId series episode) = some s') :
    l.At cfg 0 s' := by
  cases Server.step_effect hstep with
  | notFound _ _ _ hnone => exact absurd (hnone.symm.trans hfolder) (by simp)
  | upload _ _ _ _ =>
      have hview : (s.beginUpload cfg l.folderId).view cfg l.folderId =
          (s.view cfg l.folderId).uploading := Server.view_put _
      rw [hpath]
      refine Leads.react (Point.startUpload cfg ?_ (hview ▸ hfolder)) hidle
        (catchUpload_scoped (startUpload_scoped cfg _ _))
      rw [hview]
      exact ⟨Nat.zero_le _, hbucket, Or.inl hfolder, Or.inl rfl,
        fun hdone => by simp [JobView.uploading, JobView.status] at hdone⟩

end Loop

/-! ### The main result -/

/-- A segment of a stream, by the end of its name. -/
def File.isSegment (f : File) : Bool := ".ts".toList.isSuffixOf f.name.toList

/-- **Publishing.** At every point of a run of the loop the bucket holds the files that are through,
a prefix of the listing, over what was there before. So once the playlist is through, every segment
that sorts before it is there; and once the loop has come to its end, every file is. -/
theorem publishes_in_order {cfg : ServerConfig} {s s' : Server}
    {folderId series episode : String} {files : List File}
    (hidle : ∀ u, Task.upload u ∉ s.tasks)
    (hfolder : s.folders (cfg.outputFolder folderId) = some files)
    (hsorted : files.Pairwise fun f g => f.name < g.name) {es : List Event}
    (hes : ∀ e ∈ es, e.Beside cfg folderId)
    (hrun : run (step cfg) s (.uploadToR2 folderId series episode :: es) = some s') :
    s'.bucket = published (r2FolderPath series episode) (files.take (es.countP Event.isPut))
        s.bucket ∧
      (∀ playlist ∈ files.take (es.countP Event.isPut), playlist.name = "playlist.m3u8" →
        ∀ f ∈ files, f.isSegment = true → f.name < "playlist.m3u8" →
          s'.bucket (r2FolderPath series episode ++ "/" ++ f.name) = some f.bytes) ∧
      (s'.status folderId = some .r2_done → ∀ f ∈ files,
        s'.bucket (r2FolderPath series episode ++ "/" ++ f.name) = some f.bytes) := by
  have hnodup : (files.map File.name).Nodup := by
    rw [List.Nodup, List.pairwise_map]
    exact hsorted.imp fun h => ne_of_lt h
  have hidle' : s.tasks.filter Task.isUpload = [] := by
    refine List.filter_eq_nil_iff.mpr fun task htask => ?_
    cases task with
    | pipeline p stage => exact not_isUpload rfl
    | upload u => exact absurd htask (hidle u)
  rw [run_cons] at hrun
  obtain ⟨s₁, hstart, hrest⟩ := Option.bind_eq_some_iff.mp hrun
  have hpoint := (Loop.At.start
    (l := ⟨folderId, r2FolderPath series episode, files, hnodup, s.bucket⟩)
    hidle' hfolder rfl rfl hstart).run hes hrest
  rw [Nat.zero_add] at hpoint
  generalize es.countP Event.isPut = k at hpoint ⊢
  have htake : ((files.take k).map File.name).Nodup :=
    hnodup.sublist ((List.take_sublist k files).map File.name)
  have hbucket : s'.bucket = published (r2FolderPath series episode) (files.take k) s.bucket :=
    hpoint.bucket
  refine ⟨hbucket, fun playlist hplaylist hname f hf _ hlt => ?_, fun hdone f hf => ?_⟩
  · have hmem : f ∈ files.take k := by
      have hsplit := List.take_append_drop k files
      rw [← hsplit] at hf hsorted
      refine (List.mem_append.mp hf).resolve_right fun hdrop => ?_
      have hlater := (List.pairwise_append.mp hsorted).2.2 playlist hplaylist f hdrop
      rw [hname] at hlater
      exact lt_asymm hlt hlater
    rw [hbucket, published_of_mem htake hmem]
  · have hlength : k = files.length := hpoint.done hdone
    have hmem : f ∈ files.take k := by
      rw [hlength, List.take_length]
      exact hf
    rw [hbucket, published_of_mem htake hmem]

/-! ### An example -/

/-- The podcast with a playlist and one segment, up to `done`. -/
def talkReady : List Event :=
  [.process talk 10, .written talk .encode ⟨"playlist.m3u8", [1]⟩,
    .written talk .encode ⟨"playlist0.ts", [2]⟩,
    .callback (.pipeline talk .encode) (.ended ⟨true, true⟩),
    .callback (.pipeline talk .extract) (.ended ⟨true, true⟩),
    .callback (.pipeline talk .whisper) (.ended ⟨true, true⟩)]

/-- The PUT of the playlist of the podcast, with the segment still to come. -/
def putPlaylist : Upload :=
  ⟨"18-talk", "My_Show/Ep3", ["playlist.m3u8", "playlist0.ts"], ⟨"playlist.m3u8", [1]⟩,
    ["playlist0.ts"], 0⟩

/-- The PUT of its segment, with the playlist through. -/
def putSegment : Upload :=
  ⟨"18-talk", "My_Show/Ep3", ["playlist.m3u8", "playlist0.ts"], ⟨"playlist0.ts", [2]⟩, [], 1⟩

/-- Both PUTs succeed while a video is encoded. -/
theorem publishes_in_order_talk : ∃ s s',
    run (step mogoConfig) fresh talkReady = some s ∧
      run (step mogoConfig) s [.uploadToR2 "18-talk" "My Show" "3", .process lecture 10,
        .callback (.upload putPlaylist) (.ended ⟨true, true⟩),
        .callback (.upload putSegment) (.ended ⟨true, true⟩)] = some s' ∧
      s'.status "18-talk" = some .r2_done ∧
      s'.bucket = published "My_Show/Ep3" [⟨"playlist.m3u8", [1]⟩, ⟨"playlist0.ts", [2]⟩]
        s.bucket := by
  have hready : (run (step mogoConfig) fresh talkReady).map
      (fun s => (s.tasks, s.folders "temp/18-talk")) =
      some ([], some [⟨"playlist.m3u8", [1]⟩, ⟨"playlist0.ts", [2]⟩]) := rfl
  obtain ⟨s, hs, hstate⟩ := Option.map_eq_some_iff.mp hready
  obtain ⟨htasks, hfolder⟩ := Prod.mk.inj hstate
  have hdone : ((run (step mogoConfig) fresh talkReady).bind fun s =>
      (run (step mogoConfig) s [.uploadToR2 "18-talk" "My Show" "3", .process lecture 10,
        .callback (.upload putPlaylist) (.ended ⟨true, true⟩),
        .callback (.upload putSegment) (.ended ⟨true, true⟩)]).map
        (fun s => s.status "18-talk")) = some (some .r2_done) := by decide +kernel
  rw [hs, Option.bind_some] at hdone
  obtain ⟨s', hs', hstatus⟩ := Option.map_eq_some_iff.mp hdone
  have hsorted : [(⟨"playlist.m3u8", [1]⟩ : File), ⟨"playlist0.ts", [2]⟩].Pairwise
      fun f g => f.name < g.name := by
    refine List.pairwise_pair.mpr ?_
    decide
  have hpath : r2FolderPath "My Show" "3" = "My_Show/Ep3" := by decide
  have hbucket := (publishes_in_order (by simp [htasks]) hfolder hsorted
    (by simp [Event.Beside, mogoConfig, lecture]) hs').1
  rw [hpath] at hbucket
  exact ⟨s, s', hs, hs', hstatus, hbucket⟩

/-- **The playlist is not the last file to be published**: when the PUT of the segment fails, the
bucket is left with the playlist only. -/
theorem not_playlist_last :
    (run (step mogoConfig) fresh talkReady).map (fun s => (s.tasks, s.folders "temp/18-talk")) =
        some ([], some [⟨"playlist.m3u8", [1]⟩, ⟨"playlist0.ts", [2]⟩]) ∧
      (run (step mogoConfig) fresh (talkReady ++ [.uploadToR2 "18-talk" "My Show" "3",
        .callback (.upload putPlaylist) (.ended ⟨true, true⟩),
        .callback (.upload putSegment) (.failed "timeout")])).map
        (fun s => (s.status "18-talk", s.bucket "My_Show/Ep3/playlist.m3u8",
          s.bucket "My_Show/Ep3/playlist0.ts")) = some (some .error, some [1], none) :=
  ⟨rfl, rfl⟩

end Mogo
