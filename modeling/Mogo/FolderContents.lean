import Mogo.Phases

/-!
# What an Output Folder Holds

The children of a pipeline write into its output folder one after the other: the encoder the
playlist and its segments, the extraction the audio, whisper the subtitles and the translation.
`Holding` says what the folder holds in each phase of the pipeline, as long as it is there: every
file that has been written, except that a video has its audio removed when it is finished. A
podcast keeps it.

## Main results

* `sorted_insertFile`: a folder is kept in the order of the directory.
* `Holding.turn`: what a callback of the pipeline leaves in the folder.
* `OwnFolder.step`, `OwnFolder.run`: what the folder holds along any run of the server.
-/

namespace Mogo

open Handler Callback Transition Server

/-! ### Files in a folder -/

/-- A file that is written takes the place of the file of its name, or joins the others. -/
theorem mem_insertFile {file : File} {files : List File} {name : String} :
    name ∈ (insertFile file files).map File.name ↔
      name = file.name ∨ name ∈ files.map File.name := by
  induction files with
  | nil => simp [insertFile]
  | cons f files ih =>
      rw [insertFile]
      split
      next heq => simp [heq]
      next =>
        split
        · simp
        · rw [List.map_cons, List.mem_cons, ih, List.map_cons, List.mem_cons]
          exact or_left_comm

/-- A file takes its place in the order of the directory. -/
theorem sorted_insertFile {file : File} {files : List File}
    (h : files.Pairwise fun f g => f.name < g.name) :
    (insertFile file files).Pairwise fun f g => f.name < g.name := by
  induction files with
  | nil => exact List.pairwise_singleton _ _
  | cons f files ih =>
      obtain ⟨hf, hfiles⟩ := List.pairwise_cons.mp h
      rw [insertFile]
      split
      next heq => exact List.pairwise_cons.mpr ⟨fun g hg => heq ▸ hf g hg, hfiles⟩
      next hne =>
        split
        next hlt =>
          refine List.pairwise_cons.mpr ⟨fun g hg => ?_, h⟩
          rcases List.mem_cons.mp hg with rfl | hg
          · exact hlt
          · exact lt_trans hlt (hf g hg)
        next hle =>
          refine List.pairwise_cons.mpr ⟨fun g hg => ?_, ih hfiles⟩
          rcases mem_insertFile.mp (List.mem_map_of_mem hg) with heq | hmem
          · exact heq ▸ lt_of_le_of_ne (not_lt.mp hle) hne
          · obtain ⟨g', hg', heq⟩ := List.mem_map.mp hmem
            exact heq ▸ hf g' hg'

/-! ### What has been written -/

/-- The children of the pipeline have written a file of the name. -/
def Wrote (p : Pipeline) (es : List Event) (name : String) : Prop :=
  ∃ stage file, .written p stage file ∈ es ∧ file.name = name

/-- Every child of the pipeline that ends well has written its output by then. -/
def WritesOutput (p : Pipeline) (before : List Event) : List Event → Prop
  | [] => True
  | e :: es =>
    (∀ stage found, e = .callback (.pipeline p stage) (.ended found) →
      Wrote p before stage.output) ∧ WritesOutput p (before ++ [e]) es

section Wrote

variable {p : Pipeline} {es : List Event} {e : Event} {name : String}

/-- What has been written stays written, whatever happens next. -/
theorem Wrote.concat (h : Wrote p es name) (e : Event) : Wrote p (es ++ [e]) name := by
  obtain ⟨stage, file, hmem, hname⟩ := h
  exact ⟨stage, file, List.mem_append_left _ hmem, hname⟩

/-- Only a write of the pipeline adds to what it has written. -/
theorem wrote_concat_iff (h : ∀ stage file, e ≠ .written p stage file) :
    Wrote p (es ++ [e]) name ↔ Wrote p es name := by
  refine ⟨?_, fun hwrote => hwrote.concat e⟩
  rintro ⟨stage, file, hmem, hname⟩
  rcases List.mem_append.mp hmem with hmem | hmem
  · exact ⟨stage, file, hmem, hname⟩
  · exact absurd (List.mem_singleton.mp hmem).symm (h stage file)

/-- A write of the pipeline adds its file. -/
theorem wrote_concat_written {stage : Stage} {file : File} :
    Wrote p (es ++ [.written p stage file]) name ↔ name = file.name ∨ Wrote p es name := by
  constructor
  · rintro ⟨stage', file', hmem, hname⟩
    rcases List.mem_append.mp hmem with hmem | hmem
    · exact Or.inr ⟨stage', file', hmem, hname⟩
    · have heq := List.mem_singleton.mp hmem
      rw [Event.written.injEq] at heq
      exact Or.inl (heq.2.2 ▸ hname.symm)
  · rintro (rfl | hwrote)
    · exact ⟨stage, file, by simp, rfl⟩
    · exact hwrote.concat _

end Wrote

/-! ### The folder along a run -/

/-- The English subtitles of a job. -/
def Server.english (folderId : String) (s : Server) : Option String :=
  (s.jobs folderId).bind Job.vttEnglish

/-- The tasks of a pipeline among those that are pending. -/
def Server.tasksOf (p : Pipeline) (s : Server) : List Task :=
  s.tasks.filter fun task => task.origin = some p

/-- What the folder of a pipeline holds, and what the job tells of it, once the events have
happened since the request. -/
structure Holding (cfg : ServerConfig) (p : Pipeline) (es : List Event) (files : List File)
    (phase : Phase) (s : Server) : Prop where
  folder : s.folders (cfg.outputFolder p.folderId) = some files
  job : s.jobs p.folderId ≠ none
  tasks : s.tasksOf p = phase.tasks p
  done : s.status p.folderId = some .done → phase = .finished
  sorted : files.Pairwise fun f g => f.name < g.name
  names : ∀ name, name ∈ files.map File.name ↔
    Wrote p es name ∧ ¬ (phase = .finished ∧ p.route = .process ∧ name = "audio.wav")
  writes : ∀ stage file, .written p stage file ∈ es → stage.writes file.name = true
  past : ∀ stage ∈ phase.past, Wrote p es stage.output
  translated : Wrote p es "english.vtt" →
    phase = .running .translation ∨ phase = .failed ∨ s.english p.folderId ≠ none
  english : s.english p.folderId ≠ none → phase = .finished ∧ Wrote p es "english.vtt"

/-- The folder of the pipeline belongs to no other one, and holds what it should as long as it is
there. -/
structure OwnFolder (cfg : ServerConfig) (p : Pipeline) (es : List Event) (s : Server) : Prop where
  issued : cfg.outputFolder p.folderId ∈ s.issued
  alone : ∀ task ∈ s.tasks, ∀ q, task.origin = some q →
    cfg.outputFolder q.folderId = cfg.outputFolder p.folderId → q = p
  holding : s.folders (cfg.outputFolder p.folderId) ≠ none →
    ∃ files phase, Holding cfg p es files phase s

section OwnFolder

variable {cfg : ServerConfig} {p : Pipeline} {es : List Event} {e : Event} {files : List File}
  {phase : Phase} {s s' : Server}

/-- An event that is no file of the pipeline. -/
theorem Holding.concat (h : Holding cfg p es files phase s)
    (he : ∀ stage file, e ≠ .written p stage file) :
    Holding cfg p (es ++ [e]) files phase s where
  folder := h.folder
  job := h.job
  tasks := h.tasks
  done := h.done
  sorted := h.sorted
  names name := by rw [wrote_concat_iff he, h.names]
  writes stage file hmem := by
    rcases List.mem_append.mp hmem with hmem | hmem
    · exact h.writes stage file hmem
    · exact absurd (List.mem_singleton.mp hmem).symm (he stage file)
  past stage hstage := (h.past stage hstage).concat e
  translated hwrote := h.translated ((wrote_concat_iff he).mp hwrote)
  english hsome := (h.english hsome).imp_right fun hwrote => hwrote.concat e

/-- After an event that is no write of the pipeline the same is known of its folder. -/
theorem OwnFolder.concat (h : OwnFolder cfg p es s) (he : ∀ stage file, e ≠ .written p stage file) :
    OwnFolder cfg p (es ++ [e]) s where
  issued := h.issued
  alone := h.alone
  holding hfolder := by
    obtain ⟨files, phase, hholding⟩ := h.holding hfolder
    exact ⟨files, phase, hholding.concat he⟩

/-- A step that leaves the entry of a job alone keeps it, its English captions and its status. -/
theorem entry_of_jobs {folderId : String} (h : s'.jobs folderId = s.jobs folderId) :
    s.jobs folderId ≠ none → s'.jobs folderId ≠ none ∧
      s'.english folderId = s.english folderId ∧
      (s'.status folderId = some .done → s.status folderId = some .done) := fun hsome =>
  ⟨h.symm ▸ hsome, congrArg (fun job => job.bind Job.vttEnglish) h,
    fun hdone => (status_of_jobs h).symm.trans hdone⟩

/-- A step keeps the account of the folder if it leaves the pipeline, its job and its folder alone,
or deletes the folder. -/
theorem OwnFolder.of_same (h : OwnFolder cfg p es s)
    (hissued : cfg.outputFolder p.folderId ∈ s'.issued)
    (halone : ∀ task ∈ s'.tasks, ∀ q, task.origin = some q →
      cfg.outputFolder q.folderId = cfg.outputFolder p.folderId → q = p)
    (htasks : s'.tasksOf p = s.tasksOf p)
    (hfolder : s'.folders (cfg.outputFolder p.folderId) = none ∨
      s'.folders (cfg.outputFolder p.folderId) = s.folders (cfg.outputFolder p.folderId) ∧
      (s.jobs p.folderId ≠ none → s'.jobs p.folderId ≠ none ∧
        s'.english p.folderId = s.english p.folderId ∧
        (s'.status p.folderId = some .done → s.status p.folderId = some .done))) :
    OwnFolder cfg p es s' where
  issued := hissued
  alone := halone
  holding hthere := by
    obtain ⟨hsame, hkeeps⟩ := hfolder.resolve_left hthere
    obtain ⟨files, phase, hholding⟩ := h.holding (hsame ▸ hthere)
    obtain ⟨hjob, henglish, hdone⟩ := hkeeps hholding.job
    refine ⟨files, phase, hsame.trans hholding.folder, hjob, htasks.trans hholding.tasks,
      fun hd => hholding.done (hdone hd), hholding.sorted, hholding.names, hholding.writes,
      hholding.past, ?_, ?_⟩
    · rw [henglish]
      exact hholding.translated
    · rw [henglish]
      exact hholding.english

/-- After a callback its job sees what the handler has left. -/
theorem Server.view_react (cfg : ServerConfig) (folderId : String)
    (handler : Callback (List Task)) (s : Server) :
    (s.react cfg folderId handler).view cfg folderId = final handler (s.view cfg folderId) := by
  rw [Server.react]
  cases hrun : handler (s.view cfg folderId) with
  | ok tasks v => exact (view_put v).trans (final_of_ok hrun).symm
  | error fault v => exact (view_put v).trans (final_of_error hrun).symm

/-- New tasks of another origin make no difference to the tasks of a pipeline. -/
theorem Server.tasksOf_append_of_ne {tasks new : List Task} {origin : Option Pipeline}
    (hnew : ∀ task ∈ new, task.origin = origin) (horigin : origin ≠ some p) :
    (tasks ++ new).filter (fun task => task.origin = some p) =
      tasks.filter fun task => task.origin = some p := by
  have hnone : new.filter (fun task => task.origin = some p) = [] := by
    refine List.filter_eq_nil_iff.mpr fun task htask heq => horigin ?_
    exact (hnew task htask).symm.trans (of_decide_eq_true heq)
  rw [List.filter_append, hnone, List.append_nil]

/-- A callback of another pipeline, or of an upload loop, keeps the account of the folder. -/
theorem OwnFolder.react (h : OwnFolder cfg p es s) {folderId : String} {origin : Option Pipeline}
    {handler : Callback (List Task)} (hscoped : Scoped origin handler)
    (hreacts : Reacts folderId handler) (horigin : origin ≠ some p)
    (halone : ∀ q, origin = some q →
      cfg.outputFolder q.folderId = cfg.outputFolder p.folderId → q = p)
    (hspares : cfg.outputFolder p.folderId = cfg.outputFolder folderId → Moves Spares handler) :
    OwnFolder cfg p es (s.react cfg folderId handler) := by
  have htouched : Touched cfg folderId s (s.react cfg folderId handler) := touched_react hreacts
  have hinside := inside_react hscoped cfg folderId s
  obtain ⟨new, hnew, hnewOrigin⟩ := hinside.tasks
  refine h.of_same (htouched.issued.symm ▸ h.issued) (fun task htask q hq hpath => ?_) ?_ ?_
  · rw [hnew] at htask
    rcases List.mem_append.mp htask with hold | hmem
    · exact h.alone task hold q hq hpath
    · exact halone q ((hnewOrigin task hmem).symm.trans hq) hpath
  · rw [Server.tasksOf, hnew]
    exact Server.tasksOf_append_of_ne hnewOrigin horigin
  · by_cases hpath : cfg.outputFolder p.folderId = cfg.outputFolder folderId
    · have hview := hspares hpath (s.view cfg folderId)
      rw [← Server.view_react] at hview
      rw [hpath]
      refine hview.folder.symm.imp id fun hfolder => ⟨hfolder, fun hsome => ?_⟩
      by_cases hid : p.folderId = folderId
      · rw [hid] at hsome ⊢
        exact ⟨fun hnone => hsome ((htouched.jobs_eq_none _).mp hnone), hview.english, hview.done⟩
      · exact entry_of_jobs (htouched.jobs _ hid) hsome
    · have hid : p.folderId ≠ folderId := fun heq => hpath (congrArg cfg.outputFolder heq)
      exact Or.inr ⟨hinside.folders _ hpath, entry_of_jobs (htouched.jobs _ hid)⟩

/-- The child whose task is pending is the one that is running. -/
theorem Holding.running (h : Holding cfg p es files phase s) {stage : Stage}
    (htask : .pipeline p stage ∈ s.tasks) : phase = .running stage := by
  have hmem : Task.pipeline p stage ∈ s.tasksOf p :=
    List.mem_filter.mpr ⟨htask, decide_eq_true rfl⟩
  rw [h.tasks] at hmem
  cases phase with
  | running stage' =>
      have heq := List.mem_singleton.mp hmem
      rw [Task.pipeline.injEq] at heq
      rw [heq.2]
  | finished => cases hmem
  | failed => cases hmem

/-- While a child is running there are no English subtitles. -/
theorem Holding.english_eq_none {stage : Stage}
    (h : Holding cfg p es files (.running stage) s) : s.english p.folderId = none := by
  by_contra hsome
  exact absurd (h.english hsome).1 (by simp)

/-- The running child writes one of its own files, and the folder holds this file as well. -/
theorem Holding.written {stage : Stage} (h : Holding cfg p es files (.running stage) s)
    {file : File} (hwrites : stage.writes file.name = true) :
    Holding cfg p (es ++ [.written p stage file]) (insertFile file files) (.running stage)
      { s with
        folders := Function.update s.folders (cfg.outputFolder p.folderId)
          (some (insertFile file files)) } where
  folder := Function.update_self _ _ _
  job := h.job
  tasks := h.tasks
  done := h.done
  sorted := sorted_insertFile h.sorted
  names name := by
    rw [mem_insertFile, wrote_concat_written, h.names]
    simp
  writes stage' file' hmem := by
    rcases List.mem_append.mp hmem with hmem | hmem
    · exact h.writes stage' file' hmem
    · have heq := List.mem_singleton.mp hmem
      rw [Event.written.injEq] at heq
      obtain ⟨-, rfl, rfl⟩ := heq
      exact hwrites
  past stage' hstage' := (h.past stage' hstage').concat _
  translated hwrote := by
    rcases wrote_concat_written.mp hwrote with hname | hold
    · rw [← hname] at hwrites
      cases stage with
      | translation => exact Or.inl rfl
      | encode => exact absurd hwrites (by decide)
      | extract => exact absurd hwrites (by decide)
      | whisper => exact absurd hwrites (by decide)
    · exact h.translated hold
  english hsome := absurd h.english_eq_none hsome

/-- The tasks of the pipeline once its callback has run. -/
theorem Holding.tasks_turn {stage : Stage} (h : Holding cfg p es files (.running stage) s)
    {new : List Task} (hnew : ∀ task ∈ new, task.origin = some p) :
    (s.tasks.erase (.pipeline p stage) ++ new).filter (fun task => task.origin = some p) =
      new := by
  have hall : new.filter (fun task => task.origin = some p) = new :=
    List.filter_eq_self.mpr fun task htask => decide_eq_true (hnew task htask)
  have herased : (s.tasks.erase (.pipeline p stage)).filter (fun task => task.origin = some p) =
      [] := by
    rw [← List.erase_filter]
    refine (congrArg (fun tasks => List.erase tasks (.pipeline p stage)) h.tasks).trans ?_
    exact List.erase_cons_head _ _
  rw [List.filter_append, herased, hall, List.nil_append]

/-- The server once a callback of the pipeline has left `v` and the task of a phase. -/
theorem Holding.put {stage : Stage} (h : Holding cfg p es files (.running stage) s) {v : JobView}
    {files' : List File} {phase' : Phase} (hjob : v.job ≠ none) (hfolder : v.folder = some files')
    (hdone : v.status = some .done → phase' = .finished)
    (hsorted : files'.Pairwise fun f g => f.name < g.name)
    (hnames : ∀ name, name ∈ files'.map File.name ↔
      Wrote p es name ∧ ¬ (phase' = .finished ∧ p.route = .process ∧ name = "audio.wav"))
    (hpast : ∀ stage ∈ phase'.past, Wrote p es stage.output)
    (htranslated : Wrote p es "english.vtt" →
      phase' = .running .translation ∨ phase' = .failed ∨ v.english ≠ none)
    (henglish : v.english ≠ none → phase' = .finished ∧ Wrote p es "english.vtt") :
    Holding cfg p es files' phase'
      { s.put cfg p.folderId v with
        tasks := s.tasks.erase (.pipeline p stage) ++ phase'.tasks p } := by
  have hsubtitles : (s.put cfg p.folderId v).english p.folderId = v.english :=
    congrArg (fun job => job.bind Job.vttEnglish) (put_jobs_self cfg v)
  refine ⟨(put_folders_self cfg v).trans hfolder, ?_, h.tasks_turn ?_, fun hd => ?_, hsorted,
    hnames, h.writes, hpast, fun hwrote => ?_, fun hsome => ?_⟩
  · exact fun hnone => hjob ((put_jobs_self cfg v).symm.trans hnone)
  · cases phase' with
    | running stage' => simp [Phase.tasks, Task.origin]
    | finished => simp [Phase.tasks]
    | failed => simp [Phase.tasks]
  · exact hdone ((put_status_self cfg v).symm.trans hd)
  · exact (htranslated hwrote).imp_right
      (Or.imp_right fun hsome hnone => hsome (hsubtitles.symm.trans hnone))
  · exact henglish fun hnone => hsome (hsubtitles.trans hnone)

/-- While a child is running, the English subtitles have been written by it or not at all. -/
theorem Holding.translating {stage : Stage} (h : Holding cfg p es files (.running stage) s)
    (hwrote : Wrote p es "english.vtt") : stage = .translation := by
  rcases h.translated hwrote with hrunning | hfailed | hsome
  · exact Phase.running.inj hrunning
  · exact absurd hfailed (by simp)
  · exact absurd h.english_eq_none hsome

/-- As long as the pipeline is not finished, the folder holds whatever has been written. -/
theorem Holding.names_of_ne {stage : Stage} (h : Holding cfg p es files (.running stage) s)
    {phase' : Phase} (hphase' : phase' ≠ .finished) (name : String) :
    name ∈ files.map File.name ↔
      Wrote p es name ∧ ¬ (phase' = .finished ∧ p.route = .process ∧ name = "audio.wav") := by
  rw [h.names]
  simp [hphase']

/-- The pipeline of a video removes its audio. -/
theorem Holding.names_finished {stage : Stage} (h : Holding cfg p es files (.running stage) s)
    (name : String) :
    name ∈ (if p.route = .process then files.filter fun file => file.name ≠ "audio.wav"
        else files).map File.name ↔
      Wrote p es name ∧
        ¬ (Phase.finished = .finished ∧ p.route = .process ∧ name = "audio.wav") := by
  have hall : name ∈ files.map File.name ↔ Wrote p es name := by
    rw [h.names]
    simp
  by_cases hroute : p.route = .process
  · have hfilter : name ∈ (files.filter fun file => file.name ≠ "audio.wav").map File.name ↔
        name ∈ files.map File.name ∧ name ≠ "audio.wav" := by
      simp only [List.mem_map, List.mem_filter, decide_eq_true_eq]
      constructor
      · rintro ⟨file, ⟨hfile, hne⟩, rfl⟩
        exact ⟨⟨file, hfile, rfl⟩, hne⟩
      · rintro ⟨⟨file, hfile, rfl⟩, hne⟩
        exact ⟨file, ⟨hfile, hne⟩, rfl⟩
    rw [if_pos hroute, hfilter, hall]
    simp [hroute]
  · rw [if_neg hroute, hall]
    simp [hroute]

/-- **A callback of the pipeline** leads to its next phase, if the child has written its output
when it ends. -/
theorem Holding.turn {stage : Stage} (h : Holding cfg p es files (.running stage) s)
    {signal : Signal} (houtput : ∀ found, signal = .ended found → Wrote p es stage.output)
    {v : JobView} {tasks : List Task} (hjob : v.job ≠ none)
    (hturn : Turn p stage signal (s.view cfg p.folderId) v tasks) :
    ∃ files' phase', Holding cfg p es files' phase'
      { s.put cfg p.folderId v with tasks := s.tasks.erase (.pipeline p stage) ++ tasks } := by
  have hview : (s.view cfg p.folderId).folder = some files := h.folder
  have hnone : (s.view cfg p.folderId).english = none := h.english_eq_none
  have hrunning : ¬ (s.view cfg p.folderId).status = some .done := fun hdone =>
    absurd (h.done hdone) (by simp)
  cases hturn with
  | stay hfolder henglish hdone =>
      exact ⟨files, .running stage, h.put hjob (hfolder.trans hview)
        (fun hd => absurd (hdone hd) hrunning) h.sorted h.names h.past
        (fun hwrote => Or.inl (congrArg Phase.running (h.translating hwrote)))
        fun hsome => absurd (henglish.trans hnone) hsome⟩
  | next stage' hended hpast hfolder henglish hdone =>
      obtain ⟨found, hsignal⟩ := hended
      refine ⟨files, .running stage', h.put hjob (hfolder.trans hview)
        (fun hd => absurd (hdone hd) hrunning) h.sorted (h.names_of_ne (by simp))
        (fun stage'' hstage'' => ?_) (fun hwrote => ?_)
        fun hsome => absurd (henglish.trans hnone) hsome⟩
      · rw [hpast] at hstage''
        rcases List.mem_append.mp hstage'' with hold | hnew
        · exact h.past stage'' hold
        · exact List.mem_singleton.mp hnew ▸ houtput found hsignal
      · -- nothing comes after the translation
        obtain rfl := h.translating hwrote
        cases stage' with
        | _ => exact absurd hpast (by decide)
  | fail hfolder henglish hdone =>
      exact ⟨files, .failed, h.put hjob (hfolder.trans hview) (fun hd => absurd hd hdone) h.sorted
        (h.names_of_ne (by simp)) (by simp [Phase.past]) (fun _ => Or.inr (Or.inl rfl))
        fun hsome => absurd (henglish.trans hnone) hsome⟩
  | finish hended hstage hfolder henglish =>
      obtain ⟨found, hsignal⟩ := hended
      have hwritten := houtput found hsignal
      rw [hview, Option.map_some] at hfolder
      refine ⟨_, .finished, h.put hjob hfolder (fun _ => rfl) ?_ h.names_finished
        (fun stage' hstage' => ?_) (fun hwrote => ?_) fun hsome => ⟨rfl, ?_⟩⟩
      · split
        · exact h.sorted.filter _
        · exact h.sorted
      · have hlast : stage' ∈ (Phase.running stage).past ++ [stage] := by
          rcases hstage with rfl | rfl
          · exact hstage'
          · exact List.mem_append_left _ hstage'
        rcases List.mem_append.mp hlast with hold | hnew
        · exact h.past stage' hold
        · exact List.mem_singleton.mp hnew ▸ hwritten
      · obtain rfl := h.translating hwrote
        refine Or.inr (Or.inr (henglish.resolve_left fun hwhisper => ?_).2)
        exact absurd hwhisper.1 (by simp)
      · rcases henglish with ⟨-, heq⟩ | ⟨rfl, -⟩
        · exact absurd (heq.trans hnone) hsome
        · exact hwritten

/-- A callback of the pipeline takes its turn, which keeps the account of the folder. -/
theorem OwnFolder.turn (h : OwnFolder cfg p es s) {stage : Stage} {signal : Signal}
    {handler : Callback (List Task)} (htask : .pipeline p stage ∈ s.tasks)
    (hhandler : callback cfg (.pipeline p stage) signal = some handler)
    (houtput : ∀ found, signal = .ended found → Wrote p es stage.output) :
    OwnFolder cfg p es (Server.react cfg p.folderId handler
      { s with tasks := s.tasks.erase (.pipeline p stage) }) := by
  have htouched := touched_callback hhandler { s with tasks := s.tasks.erase (.pipeline p stage) }
  have hinside := inside_react (callback_scoped hhandler) cfg p.folderId
    { s with tasks := s.tasks.erase (.pipeline p stage) }
  obtain ⟨new, hnew, hnewOrigin⟩ := hinside.tasks
  refine ⟨htouched.issued.symm ▸ h.issued, fun task hmem q hq hpath => ?_, fun hthere => ?_⟩
  · have hmem' := (congrArg (task ∈ ·) hnew).mp hmem
    rcases List.mem_append.mp hmem' with hold | hmem
    · exact h.alone task (List.mem_of_mem_erase hold) q hq hpath
    · exact (Option.some.inj ((hnewOrigin task hmem).symm.trans hq)).symm
  · have hfolder : s.folders (cfg.outputFolder p.folderId) ≠ none := fun hnone =>
      hthere (htouched.folders _ hnone)
    obtain ⟨files, phase, hholding⟩ := h.holding hfolder
    obtain rfl := hholding.running htask
    obtain ⟨tasks, v, hrun, hjob, hturn⟩ := callback_turn (v := s.view cfg p.folderId)
      hholding.job hfolder hhandler
    have hview : Server.view cfg p.folderId
        { s with tasks := s.tasks.erase (.pipeline p stage) } = s.view cfg p.folderId := rfl
    rw [react_of_ok (hview ▸ hrun)]
    exact hholding.turn houtput hjob hturn

/-! ### Runs of the server -/

/-- A request starts a pipeline in an empty folder. -/
theorem OwnFolder.start {size : ℕ} (hsane : Sane cfg s)
    (hstep : Server.step cfg s (.process p size) = some s') : OwnFolder cfg p [] s' := by
  cases step_effect hstep with
  | process _ _ hfresh =>
      have hother : ∀ task ∈ s.tasks, ∀ q, task.origin = some q →
          cfg.outputFolder q.folderId ≠ cfg.outputFolder p.folderId := by
        intro task htask q hq hpath
        cases task with
        | pipeline q' stage =>
            obtain rfl := Option.some.inj hq
            exact hfresh (hpath ▸ hsane.tasks _ htask)
        | upload u => cases hq
      have hold : s.tasks.filter (fun task => task.origin = some p) = [] :=
        List.filter_eq_nil_iff.mpr fun task htask heq =>
          hother task htask p (of_decide_eq_true heq) rfl
      have hentry : (s.startPipeline cfg p size).jobs p.folderId =
          some (Job.initial size p.language) := Function.update_self _ _ _
      refine ⟨List.mem_cons_self, fun task htask q hq hpath => ?_, fun _ => ⟨[], .running .encode,
        Function.update_self _ _ _, ?_, ?_, fun hdone => ?_, List.Pairwise.nil, fun name => ?_,
        by simp, by simp [Phase.past], ?_, fun hsome => ?_⟩⟩
      · rcases List.mem_append.mp htask with hmem | hmem
        · exact absurd hpath (hother task hmem q hq)
        · obtain rfl := List.mem_singleton.mp hmem
          exact (Option.some.inj hq).symm
      · rw [hentry]
        exact Option.some_ne_none _
      · rw [Server.tasksOf, startPipeline, List.filter_append, hold]
        simp [Phase.tasks, Task.origin]
      · rw [startPipeline_status] at hdone
        exact absurd hdone (by simp)
      · simp [Wrote]
      · simp [Wrote]
      · rw [Server.english, hentry] at hsome
        exact absurd rfl hsome

/-- Another pipeline has a folder of its own. -/
theorem OwnFolder.startPipeline (h : OwnFolder cfg p es s) {q : Pipeline}
    (hfresh : cfg.outputFolder q.folderId ∉ s.issued) (size : ℕ) :
    OwnFolder cfg p es (s.startPipeline cfg q size) := by
  have hpath : cfg.outputFolder p.folderId ≠ cfg.outputFolder q.folderId := fun heq =>
    hfresh (heq ▸ h.issued)
  have hid : p.folderId ≠ q.folderId := fun heq => hpath (congrArg cfg.outputFolder heq)
  refine h.of_same (List.mem_cons_of_mem _ h.issued) (fun task htask q' hq' hpath' => ?_) ?_
    (Or.inr ⟨Function.update_of_ne hpath _ _, entry_of_jobs (startPipeline_jobs_of_ne hid size)⟩)
  · rcases List.mem_append.mp htask with hmem | hmem
    · exact h.alone task hmem q' hq' hpath'
    · obtain rfl := List.mem_singleton.mp hmem
      obtain rfl := Option.some.inj hq'
      exact absurd hpath'.symm hpath
  · have hnew : ∀ task ∈ [Task.pipeline q .encode], task.origin = some q := by
      simp [Task.origin]
    refine Server.tasksOf_append_of_ne hnew fun heq => hid ?_
    rw [Option.some.inj heq]

/-- An upload that begins, of this job or of another one, takes no file away. -/
theorem OwnFolder.beginUpload (h : OwnFolder cfg p es s) (folderId : String) :
    OwnFolder cfg p es (s.beginUpload cfg folderId) := by
  refine h.of_same h.issued h.alone rfl (Or.inr ⟨congrFun beginUpload_folders _, fun hsome => ?_⟩)
  by_cases hid : p.folderId = folderId
  · subst hid
    obtain ⟨job, hjob⟩ := Option.ne_none_iff_exists'.mp hsome
    have hjob' : (s.beginUpload cfg p.folderId).jobs p.folderId =
        some { job with status := some .uploading_r2, r2Progress := some 0 } := by
      rw [Server.beginUpload, put_jobs_self, JobView.uploading, view, hjob]
      rfl
    refine ⟨by rw [hjob']; exact Option.some_ne_none _, ?_, fun hdone => ?_⟩
    · rw [Server.english, Server.english, hjob', hjob]
      rfl
    · rw [beginUpload_status] at hdone
      exact absurd hdone (by simp)
  · exact entry_of_jobs (beginUpload_jobs_of_ne hid) hsome

/-- A cancel deletes the folder, or leaves it and the entry alone. -/
theorem OwnFolder.cancel (h : OwnFolder cfg p es s) (folderId : String) :
    OwnFolder cfg p es (s.cancel cfg folderId) := by
  refine h.of_same h.issued h.alone rfl ?_
  by_cases hpath : cfg.outputFolder p.folderId = cfg.outputFolder folderId
  · exact Or.inl (hpath ▸ Function.update_self _ _ _)
  · have hid : p.folderId ≠ folderId := fun heq => hpath (congrArg cfg.outputFolder heq)
    exact Or.inr ⟨Function.update_of_ne hpath _ _, entry_of_jobs (cancel_jobs_of_ne hid)⟩

/-- A child of the pipeline writes into the folder. -/
theorem OwnFolder.written (h : OwnFolder cfg p es s) {stage : Stage} {file : File}
    {files : List File} (htask : Task.pipeline p stage ∈ s.tasks)
    (hwrites : stage.writes file.name = true)
    (hfolder : s.folders (cfg.outputFolder p.folderId) = some files) :
    OwnFolder cfg p (es ++ [.written p stage file]) { s with
      folders := Function.update s.folders (cfg.outputFolder p.folderId)
        (some (insertFile file files)) } := by
  refine ⟨h.issued, h.alone, fun _ => ?_⟩
  obtain ⟨files', phase, hholding⟩ := h.holding (by rw [hfolder]; simp)
  obtain rfl := hholding.running htask
  obtain rfl := Option.some.inj (hfolder.symm.trans hholding.folder)
  exact ⟨_, _, hholding.written hwrites⟩

/-- A child of another pipeline writes into another folder. -/
theorem OwnFolder.written_of_ne (h : OwnFolder cfg p es s) {q : Pipeline} (hq : q ≠ p)
    {stage : Stage} (htask : Task.pipeline q stage ∈ s.tasks) (content : Option (List File)) :
    OwnFolder cfg p es { s with
      folders := Function.update s.folders (cfg.outputFolder q.folderId) content } := by
  have hpath : cfg.outputFolder p.folderId ≠ cfg.outputFolder q.folderId := fun heq =>
    hq (h.alone _ htask q rfl heq.symm)
  exact h.of_same h.issued h.alone rfl
    (Or.inr ⟨Function.update_of_ne hpath _ _, entry_of_jobs rfl⟩)

/-- A callback of another pipeline, or of an upload loop, keeps the account when its task has been
taken. -/
theorem OwnFolder.callback_of_ne (h : OwnFolder cfg p es s) {task : Task} {signal : Signal}
    {handler : Callback (List Task)} (horigin : task.origin ≠ some p) (htask : task ∈ s.tasks)
    (hhandler : callback cfg task signal = some handler) :
    OwnFolder cfg p es (Server.react cfg task.folderId handler
      { s with tasks := s.tasks.erase task }) := by
  have herased : OwnFolder cfg p es { s with tasks := s.tasks.erase task } := by
    refine h.of_same h.issued (fun task' hmem => h.alone task' (List.mem_of_mem_erase hmem)) ?_
      (Or.inr ⟨rfl, entry_of_jobs rfl⟩)
    rw [Server.tasksOf, ← List.erase_filter]
    exact List.erase_of_not_mem fun hmem =>
      horigin (of_decide_eq_true (List.mem_filter.mp hmem).2)
  refine herased.react (callback_scoped hhandler) (callback_reacts hhandler) horigin
    (fun q hq hpath => h.alone task htask q hq hpath) fun hpath => ?_
  cases task with
  | upload u => exact spares_callback hhandler
  | pipeline q stage => exact absurd (congrArg some (h.alone _ htask q rfl hpath.symm)) horigin

/-- **One step** of the server keeps the account of the folder, provided that a child which ends has
written its outputs. -/
theorem OwnFolder.step (h : OwnFolder cfg p es s)
    (houtput : ∀ stage found, e = .callback (.pipeline p stage) (.ended found) →
      Wrote p es stage.output)
    (hstep : Server.step cfg s e = some s') : OwnFolder cfg p (es ++ [e]) s' := by
  cases step_effect hstep with
  | process q size hfresh => exact (h.startPipeline hfresh size).concat (by simp)
  | notFound folderId series episode hfolder => exact h.concat (by simp)
  | upload folderId series episode hfolder =>
      exact ((h.beginUpload folderId).react (catchUpload_scoped (startUpload_scoped cfg _ _))
        (catchUpload_reacts (startUpload_reacts cfg _ _)) (by simp) (by simp)
        fun _ => spares_catchUpload (spares_startUpload _ _ _)).concat (by simp)
  | cancel folderId => exact (h.cancel folderId).concat (by simp)
  | written q stage file files htask hwrites hfolder =>
      by_cases hq : q = p
      · subst hq
        exact h.written htask hwrites hfolder
      · refine (h.written_of_ne hq htask _).concat fun stage' file' heq => ?_
        rw [Event.written.injEq] at heq
        exact hq heq.1
  | callback task signal handler htask hhandler =>
      have he : ∀ stage file, Event.callback task signal ≠ .written p stage file := by simp
      by_cases horigin : task.origin = some p
      · cases task with
        | upload u => cases horigin
        | pipeline q stage =>
            obtain rfl := Option.some.inj horigin
            exact (h.turn htask hhandler fun found hsignal =>
              houtput stage found (hsignal ▸ rfl)).concat he
      · exact (h.callback_of_ne horigin htask hhandler).concat he

/-- **A run** of the server, since the request. -/
theorem OwnFolder.run {es' : List Event} (h : OwnFolder cfg p es s)
    (houtput : WritesOutput p es es') (hrun : Transition.run (Server.step cfg) s es' = some s') :
    OwnFolder cfg p (es ++ es') s' := by
  induction es' generalizing es s with
  | nil =>
      rw [List.append_nil]
      exact Option.some.inj hrun ▸ h
  | cons e es' ih =>
      rw [run_cons] at hrun
      obtain ⟨s₁, hstep, hrest⟩ := Option.bind_eq_some_iff.mp hrun
      obtain ⟨hended, houtput⟩ := houtput
      rw [List.append_cons]
      exact ih (h.step hended hstep) houtput hrest

end OwnFolder

end Mogo
