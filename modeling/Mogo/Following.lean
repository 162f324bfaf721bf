import Mogo.Session

/-!
# A Page Follows its Job

A page that shows its loading area and waits for nothing polls, and finds an answer it can do
something with, as long as two things do not happen. The page of a podcast does not poll again once
its upload has been accepted. And a job that the server does not know is answered like a job without
a status, on which no page stops: so the entry of a job must not be lost while a page waits for it.

## Main results

* `never_stranded`: a page is not stranded, if these two do not happen.
* `not_never_stranded`: the page of a podcast after its upload, and a page after a restart.
-/

namespace Mogo

open Transition

/-! ### What pages and servers are asked for -/

namespace Page

/-- The polling interval of the page is live, so that it will ask for the status again. -/
def Polling (p : Page) : Prop :=
  ∃ handle jobId, p.pollingInterval = some handle ∧ (handle, jobId) ∈ p.polls

/-- The page shows the status of an answer, or it stops and leaves the loading area. -/
def Follows (p : Page) (answer : Answer) : Prop := ∀ timer,
  (∃ status finalUrl, answer = .json (some status) finalUrl ∧
      (p.checkStatus answer timer).shown = some status) ∨
    ¬ (p.checkStatus answer timer).Polling ∧
      ((p.checkStatus answer timer).loadingArea = false ∨ (p.checkStatus answer timer).gone = true)

end Page

namespace Session

/-- A page that shows its loading area for a job and waits for nothing polls, and does something
with what the server answers, if it is up. -/
def NotStranded (s : Session) : Prop :=
  s.page.gone = false → s.page.loadingArea = true → s.page.currentFolderId ≠ "" →
    s.page.requests = [] → s.replies = [] →
      s.page.Polling ∧ (s.server.crashed = false →
        s.page.Follows (s.server.statusAnswer s.page.currentFolderId))

/-- The page depends on the entry of a job: it is about to learn the id, or it shows its loading
area for the job and no upload of it is still to be accepted or has been refused. -/
def Waits (s : Session) (id : String) : Prop :=
  s.page.gone = false ∧ (.process (some id) ∈ s.replies ∨
    s.page.loadingArea = true ∧ s.page.currentFolderId = id ∧ .upload id ∉ s.page.requests ∧
      .upload id false ∉ s.replies)

/-- No upload of a podcast page is accepted, and no entry is lost while the page depends on it: in a
restart, when another tab cancels the job, or when the page cancels it and does not hear of it. A
page is loaded with a job that the server knows. -/
def Kept (s : Session) : Event → Prop
  | .deliver (.upload _ true) _ => s.page.kind = .index
  | .restart => ∀ id, ¬ s.Waits id
  | .server (.cancel id) => ¬ s.Waits id
  | .drop (.cancel id true) => ¬ s.Waits id
  | .load _ (some savedJob) => savedJob = "" ∨ s.server.jobs savedJob ≠ none
  | _ => True

/-- What keeps a page from being stranded. -/
structure Attends (s : Session) : Prop where
  telling : ∀ id, ∀ job ∈ s.server.jobs id, job.Telling
  link : ∀ id finalUrl, .status id (.json (some .r2_done) finalUrl) ∈ s.replies →
    finalUrl.getD "" ≠ ""
  started : s.page.gone = false → ∀ id, .process (some id) ∈ s.replies →
    .cancel id true ∈ s.replies ∨ s.server.jobs id ≠ none
  polling : s.page.gone = false → s.page.loadingArea = true →
    s.InFlight .process ∨ (∃ id, s.InFlight (.upload id)) ∨ s.page.Polling
  entry : s.page.gone = false → s.page.loadingArea = true →
    s.InFlight .process ∨ .upload s.page.currentFolderId ∈ s.page.requests ∨
      .upload s.page.currentFolderId false ∈ s.replies ∨
      .cancel s.page.currentFolderId true ∈ s.replies ∨
      s.server.jobs s.page.currentFolderId ≠ none

end Session

/-! ### The entries of the server -/

namespace Server

variable {cfg : ServerConfig} {s s' : Server} {e : Mogo.Event}

/-- Only a cancel of a job loses its entry, and no other step of the server does. -/
theorem jobs_kept (h : step cfg s e = some s') {id : String} (he : e ≠ .cancel id)
    (hjob : s.jobs id ≠ none) : s'.jobs id ≠ none := by
  cases step_effect h with
  | process p size hfresh =>
      by_cases hid : id = p.folderId
      · subst hid
        exact jobs_ne_none (startPipeline_status p size)
      · rwa [startPipeline_jobs_of_ne hid]
  | notFound folderId series episode hfolder => exact hjob
  | upload folderId series episode hfolder =>
      rw [Ne, (touched_upload cfg s folderId _).jobs_eq_none]
      by_cases hid : id = folderId
      · subst hid
        exact jobs_ne_none (beginUpload_status cfg)
      · rwa [beginUpload_jobs_of_ne hid]
  | cancel folderId =>
      have hid : id ≠ folderId := fun heq => he (congrArg _ heq.symm)
      rwa [cancel_jobs_of_ne hid]
  | written p stage file files htask hwrites hfolder => exact hjob
  | callback task signal handler htask hhandler =>
      rw [Ne, (touched_callback hhandler _).jobs_eq_none]
      exact hjob

/-- A callback leaves the entries of all jobs telling, those of other jobs as they were. -/
theorem telling_react {folderId : String} {origin : Option Pipeline}
    {handler : Callback (List Task)} (hscoped : Scoped origin handler)
    (htouched : Touched cfg folderId s (s.react cfg folderId handler))
    (h : ∀ id, ∀ job ∈ s.jobs id, job.Telling) :
    ∀ id, ∀ job ∈ (s.react cfg folderId handler).jobs id, job.Telling := by
  intro id
  by_cases hid : id = folderId
  · subst hid
    exact (inside_react hscoped cfg id s).telling (h id)
  · rw [htouched.jobs id hid]
    exact h id

/-- Every entry always tells its status. -/
theorem telling_step (hstep : step cfg s e = some s')
    (h : ∀ id, ∀ job ∈ s.jobs id, job.Telling) : ∀ id, ∀ job ∈ s'.jobs id, job.Telling := by
  cases step_effect hstep with
  | process p size hfresh =>
      intro id
      by_cases hid : id = p.folderId
      · subst hid
        rw [startPipeline]
        dsimp only
        rw [Function.update_self]
        rintro _ ⟨⟩
        exact ⟨by simp [Job.initial], fun hdone => by simp [Job.initial] at hdone⟩
      · rw [startPipeline_jobs_of_ne hid]
        exact h id
  | notFound folderId series episode hfolder => exact h
  | upload folderId series episode hfolder =>
      refine telling_react (catchUpload_scoped (startUpload_scoped cfg _ _))
        (touched_upload cfg s folderId _) fun id => ?_
      by_cases hid : id = folderId
      · subst hid
        rw [beginUpload, put_jobs_self]
        rintro _ ⟨⟩
        exact ⟨by simp, fun hdone => by simp at hdone⟩
      · rw [beginUpload_jobs_of_ne hid]
        exact h id
  | cancel folderId =>
      intro id
      by_cases hid : id = folderId
      · subst hid
        rw [cancel]
        dsimp only
        rw [Function.update_self]
        rintro _ ⟨⟩
      · rw [cancel_jobs_of_ne hid]
        exact h id
  | written p stage file files htask hwrites hfolder => exact h
  | callback task signal handler htask hhandler =>
      exact telling_react (callback_scoped hhandler) (touched_callback hhandler _) h

/-- An upload that is accepted has an entry. -/
theorem upload_jobs {folderId series episode : String}
    (h : step cfg s (.uploadToR2 folderId series episode) = some s')
    (hfolder : s.folders (cfg.outputFolder folderId) ≠ none) : s'.jobs folderId ≠ none := by
  cases step_effect h with
  | notFound _ _ _ hnone => exact absurd hnone hfolder
  | upload _ _ _ _ =>
      rw [Ne, (touched_upload cfg s folderId _).jobs_eq_none]
      exact jobs_ne_none (beginUpload_status cfg)

end Server

/-! ### What the page does with an answer -/

namespace Page

variable {p : Page}

/-- `clearInterval(pollingInterval)` ends the polling. -/
theorem not_polling {p' : Page} (p : Page) (hpolls : p'.polls = p.clearPolling.polls)
    (hhandle : p'.pollingInterval = p.pollingInterval) : ¬ p'.Polling := by
  rintro ⟨handle, jobId, hsome, hmem⟩
  rw [hpolls] at hmem
  have hne := of_decide_eq_true (List.mem_filter.mp hmem).2
  exact hne (hhandle ▸ hsome).symm

/-- A page that starts polling is polling. -/
theorem polling_startPolling (p : Page) (jobId : String) : (p.startPolling jobId).Polling :=
  ⟨p.nextHandle, jobId, rfl, List.mem_append_right _ (List.mem_singleton.mpr rfl)⟩

/-- With a link, both pages stop and leave the loading area once the upload is done. -/
theorem onR2Done_leaves {finalUrl : Option String} (hurl : finalUrl.getD "" ≠ "") (p : Page) :
    p.onR2Done finalUrl = { p.clearPolling with loadingArea := false, finalArea := true } := by
  rw [onR2Done]
  cases p.kind with
  | index =>
      dsimp only
      rw [showPublishedLink, if_neg hurl]
  | podcast => rfl

/-- A page does something with the entry of any job. -/
theorem follows_telling {job : Job} (hjob : job.Telling) (p : Page) :
    p.Follows (.json job.status job.finalUrl) := by
  intro timer
  obtain ⟨status, hstatus⟩ := Option.ne_none_iff_exists'.mp hjob.status
  rw [hstatus]
  cases status with
  | compressing => exact Or.inl ⟨_, _, rfl, rfl⟩
  | whisper => exact Or.inl ⟨_, _, rfl, rfl⟩
  | translating => exact Or.inl ⟨_, _, rfl, rfl⟩
  | uploading_r2 => exact Or.inl ⟨_, _, rfl, rfl⟩
  | done => exact Or.inr ⟨not_polling p rfl rfl, Or.inl rfl⟩
  | error => exact Or.inr ⟨not_polling p rfl rfl, Or.inr rfl⟩
  | r2_done =>
      obtain ⟨url, hurl, hne⟩ := hjob.finalUrl hstatus
      have hlink : job.finalUrl.getD "" ≠ "" := by simpa [hurl] using hne
      rw [checkStatus, onR2Done_leaves hlink]
      exact Or.inr ⟨not_polling p rfl rfl, Or.inl rfl⟩

/-- What a page that stays in its loading area keeps. -/
structure Stays (p p' : Page) : Prop where
  gone : p'.gone = false → p.gone = false
  loadingArea : p'.gone = false → p'.loadingArea = true →
    p.loadingArea = true ∧ (p.Polling → p'.Polling)
  currentFolderId : p'.currentFolderId = p.currentFolderId

/-- A page that does nothing stays where it is. -/
theorem Stays.refl (p : Page) : Stays p p := ⟨fun h => h, fun _ h => ⟨h, fun h => h⟩, rfl⟩

/-- Clearing the state leaves the page, so that nothing more is asked of it. -/
theorem Stays.of_gone (p : Page) : Stays p p.clearStateAndReload :=
  ⟨fun hgone => (by cases hgone), fun hgone => (by cases hgone), rfl⟩

/-- An answer to a poll: the page stays as it is, or leaves the loading area. -/
theorem checkStatus_stays {answer : Answer}
    (hlink : ∀ finalUrl, answer = .json (some .r2_done) finalUrl → finalUrl.getD "" ≠ "")
    (timer : Option ℤ) (p : Page) : Stays p (p.checkStatus answer timer) := by
  rw [checkStatus.eq_def]
  split
  case h_2 => exact ⟨fun hgone => (by cases hgone), fun hgone => (by cases hgone), rfl⟩
  case h_6 => exact ⟨fun h => h, fun _ hloading => (by cases hloading), rfl⟩
  case h_8 finalUrl =>
    rw [onR2Done_leaves (hlink finalUrl rfl)]
    exact ⟨fun h => h, fun _ hloading => (by cases hloading), rfl⟩
  case h_9 => exact ⟨fun hgone => (by cases hgone), fun hgone => (by cases hgone), rfl⟩
  all_goals exact ⟨fun h => h, fun _ hloading => ⟨hloading, fun h => h⟩, rfl⟩

/-- An answer to a poll sends no request, provided that `r2_done` comes with its link. -/
theorem checkStatus_requests {answer : Answer}
    (hlink : ∀ finalUrl, answer = .json (some .r2_done) finalUrl → finalUrl.getD "" ≠ "")
    (timer : Option ℤ) (p : Page) : (p.checkStatus answer timer).requests = p.requests := by
  rw [checkStatus.eq_def]
  split
  case h_8 finalUrl => rw [onR2Done_leaves (hlink finalUrl rfl)]; rfl
  all_goals rfl

end Page

/-! ### The invariant -/

namespace Session

open Page

variable {cfg : ServerConfig} {s s' : Session}

/-- A request that a page waits for before it polls. -/
def Opens : Request → Prop
  | .process => True
  | .upload _ => True
  | _ => False

/-- A step that opens nothing: what is on its way stays on its way, up to polls and cancels, and no
entry is lost that the page depends on. -/
structure Idles (s s' : Session) : Prop where
  telling : ∀ id, ∀ job ∈ s'.server.jobs id, job.Telling
  jobs : ∀ id, s.server.jobs id ≠ none → s'.server.jobs id ≠ none ∨ ¬ s.Waits id
  page : s.page.Stays s'.page
  requests : ∀ request ∈ s.page.requests, Opens request → request ∈ s'.page.requests
  replies : ∀ reply ∈ s'.replies, reply ∈ s.replies
  opened : ∀ reply ∈ s.replies, Opens reply.request → reply ∈ s'.replies
  cancel : ∀ id, .cancel id true ∈ s.replies → .cancel id true ∈ s'.replies ∨ ¬ s.Waits id

/-- A request that opens a job stays in flight through a step that opens nothing. -/
theorem Idles.inFlight (h : Idles s s') {request : Request} (hopens : Opens request)
    (hflight : s.InFlight request) : s'.InFlight request := by
  rcases hflight with hrequest | ⟨reply, hreply, rfl⟩
  · exact Or.inl (h.requests request hrequest hopens)
  · exact Or.inr ⟨reply, h.opened reply hreply hopens, rfl⟩

/-- A step that opens nothing keeps the invariant. -/
theorem Attends.idles (hs : Attends s) (h : Idles s s') : Attends s' where
  telling := h.telling
  link id finalUrl hreply := hs.link id finalUrl (h.replies _ hreply)
  started hgone id hreply := by
    have hold := h.replies _ hreply
    have hwaits : s.Waits id := ⟨h.page.gone hgone, Or.inl hold⟩
    rcases hs.started (h.page.gone hgone) id hold with hcancel | hjob
    · exact Or.inl ((h.cancel id hcancel).resolve_right (not_not_intro hwaits))
    · exact Or.inr ((h.jobs id hjob).resolve_right (not_not_intro hwaits))
  polling hgone hloading := by
    obtain ⟨hloading', hpolling⟩ := h.page.loadingArea hgone hloading
    rcases hs.polling (h.page.gone hgone) hloading' with hprocess | ⟨id, hupload⟩ | hlive
    · exact Or.inl (h.inFlight trivial hprocess)
    · exact Or.inr (Or.inl ⟨id, h.inFlight trivial hupload⟩)
    · exact Or.inr (Or.inr (hpolling hlive))
  entry hgone hloading := by
    have hgone' := h.page.gone hgone
    obtain ⟨hloading', -⟩ := h.page.loadingArea hgone hloading
    rw [h.page.currentFolderId]
    -- an upload that is still to be accepted, or that is refused, is enough
    by_cases hrequest : .upload s.page.currentFolderId ∈ s.page.requests
    · exact Or.inr (Or.inl (h.requests _ hrequest trivial))
    by_cases hrefused : .upload s.page.currentFolderId false ∈ s.replies
    · exact Or.inr (Or.inr (Or.inl (h.opened _ hrefused trivial)))
    have hwaits : s.Waits s.page.currentFolderId :=
      ⟨hgone', Or.inr ⟨hloading', rfl, hrequest, hrefused⟩⟩
    rcases hs.entry hgone' hloading' with hprocess | hupload | hupload | hcancel | hjob
    · exact Or.inl (h.inFlight trivial hprocess)
    · exact absurd hupload hrequest
    · exact absurd hupload hrefused
    · have hkept := (h.cancel _ hcancel).resolve_right (not_not_intro hwaits)
      exact Or.inr (Or.inr (Or.inr (Or.inl hkept)))
    · have hkept := (h.jobs _ hjob).resolve_right (not_not_intro hwaits)
      exact Or.inr (Or.inr (Or.inr (Or.inr hkept)))

/-- Nothing is asked of a page that is left. -/
theorem Attends.of_gone (hs : Attends s) (hserver : s'.server = s.server)
    (hgone : s'.page.gone = true) (hreplies : ∀ reply ∈ s'.replies, reply ∈ s.replies) :
    Attends s' where
  telling := hserver ▸ hs.telling
  link id finalUrl hreply := hs.link id finalUrl (hreplies _ hreply)
  started h := absurd (hgone.symm.trans h) (by simp)
  polling h := absurd (hgone.symm.trans h) (by simp)
  entry h := absurd (hgone.symm.trans h) (by simp)

/-- The page asks for something that it waits for. -/
theorem Attends.opens (hs : Attends s) {page : Page} {request : Request}
    (hgone : page.gone = s.page.gone) (hid : page.currentFolderId = s.page.currentFolderId)
    (hrequests : page.requests = s.page.requests ++ [request])
    (hrequest : request = .process ∨ request = .upload s.page.currentFolderId) :
    Attends { s with page := page } where
  telling := hs.telling
  link := hs.link
  started h := hs.started (hgone ▸ h)
  polling _ _ := by
    have hmem : request ∈ page.requests :=
      hrequests ▸ List.mem_append_right _ (List.mem_singleton.mpr rfl)
    rcases hrequest with rfl | rfl
    · exact Or.inl (Or.inl hmem)
    · exact Or.inr (Or.inl ⟨_, Or.inl hmem⟩)
  entry _ _ := by
    have hmem : request ∈ page.requests :=
      hrequests ▸ List.mem_append_right _ (List.mem_singleton.mpr rfl)
    rcases hrequest with rfl | rfl
    · exact Or.inl (Or.inl hmem)
    · exact Or.inr (Or.inl (hid ▸ hmem))

/-- The page learns of a job that has its entry, and polls. -/
theorem Attends.learns (hs : Attends s) (hgone : s.page.gone = false) {jobId : String}
    (hreply : .process (some jobId) ∈ s.replies) :
    Attends { s with
      page := { s.page with currentFolderId := jobId }.startPolling jobId
      replies := s.replies.erase (.process (some jobId)) } where
  telling := hs.telling
  link id finalUrl h := hs.link id finalUrl (List.mem_of_mem_erase h)
  started _ id h := by
    refine (hs.started hgone id (List.mem_of_mem_erase h)).imp_left fun hcancel => ?_
    exact (List.mem_erase_of_ne (by simp)).mpr hcancel
  polling _ _ := Or.inr (Or.inr (polling_startPolling _ jobId))
  entry _ _ := by
    rcases hs.started hgone jobId hreply with hcancel | hjob
    · refine Or.inr (Or.inr (Or.inr (Or.inl ?_)))
      exact (List.mem_erase_of_ne (by simp)).mpr hcancel
    · exact Or.inr (Or.inr (Or.inr (Or.inr hjob)))

/-- The upload has been accepted, and `index.html` polls again. -/
theorem Attends.accepted (hs : Attends s) (hgone : s.page.gone = false) (folderId : String) :
    Attends { s with
      page := s.page.startPolling s.page.currentFolderId
      replies := s.replies.erase (.upload folderId true) } where
  telling := hs.telling
  link id finalUrl h := hs.link id finalUrl (List.mem_of_mem_erase h)
  started _ id h := by
    refine (hs.started hgone id (List.mem_of_mem_erase h)).imp_left fun hcancel => ?_
    exact (List.mem_erase_of_ne (by simp)).mpr hcancel
  polling _ _ := Or.inr (Or.inr (polling_startPolling _ _))
  entry _ hloading := by
    rcases hs.entry hgone hloading with hprocess | hupload | hrefused | hcancel | hjob
    · refine Or.inl (hprocess.imp (List.mem_append_left _) fun ⟨reply, hreply, heq⟩ => ?_)
      refine ⟨reply, (List.mem_erase_of_ne ?_).mpr hreply, heq⟩
      rintro rfl
      cases heq
    · exact Or.inr (Or.inl (List.mem_append_left _ hupload))
    · exact Or.inr (Or.inr (Or.inl ((List.mem_erase_of_ne (by simp)).mpr hrefused)))
    · exact Or.inr (Or.inr (Or.inr (Or.inl ((List.mem_erase_of_ne (by simp)).mpr hcancel))))
    · exact Or.inr (Or.inr (Or.inr (Or.inr hjob)))

/-! ### Answers -/

/-- A request that is answered stays in flight. -/
theorem InFlight.answer {request : Request} {reply : Reply} (hreply : reply.request = request)
    {server : Server} (h : s.answer request reply server = some s') {request' : Request}
    (hflight : s.InFlight request') : s'.InFlight request' := by
  obtain ⟨-, heq⟩ := Option.ite_none_right_eq_some.mp h
  obtain rfl := Option.some.inj heq
  rcases hflight with hrequest | ⟨reply', hreply', heq⟩
  · by_cases hsame : request' = request
    · subst hsame
      exact Or.inr ⟨reply, List.mem_append_right _ (List.mem_singleton.mpr rfl), hreply⟩
    · exact Or.inl ((List.mem_erase_of_ne hsame).mpr hrequest)
  · exact Or.inr ⟨reply', List.mem_append_left _ hreply', heq⟩

/-- What the server has to see to when it answers. -/
structure Answers (s : Session) (reply : Reply) (server : Server) : Prop where
  telling : ∀ id, ∀ job ∈ server.jobs id, job.Telling
  link : ∀ id finalUrl, reply = .status id (.json (some .r2_done) finalUrl) → finalUrl.getD "" ≠ ""
  jobs : ∀ id, s.server.jobs id ≠ none → reply = .cancel id true ∨ server.jobs id ≠ none
  started : ∀ id, reply = .process (some id) → server.jobs id ≠ none
  accepted : ∀ id, reply = .upload id true → server.jobs id ≠ none

/-- **The server answers** a request of the page. -/
theorem Attends.answer (hs : Attends s) {request : Request} {reply : Reply} {server : Server}
    (h : s.answer request reply server = some s') (hreply : reply.request = request)
    (hanswers : s.Answers reply server) : Attends s' := by
  have hflight : ∀ request', s.InFlight request' → s'.InFlight request' :=
    fun _ => InFlight.answer hreply h
  obtain ⟨-, heq⟩ := Option.ite_none_right_eq_some.mp h
  obtain rfl := Option.some.inj heq
  have hself : reply ∈ s.replies ++ [reply] :=
    List.mem_append_right _ (List.mem_singleton.mpr rfl)
  have hjobs : ∀ id, s.server.jobs id ≠ none →
      .cancel id true ∈ s.replies ++ [reply] ∨ server.jobs id ≠ none :=
    fun id hjob => (hanswers.jobs id hjob).imp_left fun hcancel => by rwa [← hcancel]
  refine ⟨hanswers.telling, fun id finalUrl hmem => ?_, fun hgone id hmem => ?_,
    fun hgone hloading => ?_, fun hgone hloading => ?_⟩
  · rcases List.mem_append.mp hmem with hold | hnew
    · exact hs.link id finalUrl hold
    · exact hanswers.link id finalUrl (List.mem_singleton.mp hnew).symm
  · rcases List.mem_append.mp hmem with hold | hnew
    · rcases hs.started hgone id hold with hcancel | hjob
      · exact Or.inl (List.mem_append_left _ hcancel)
      · exact hjobs id hjob
    · exact Or.inr (hanswers.started id (List.mem_singleton.mp hnew).symm)
  · rcases hs.polling hgone hloading with hprocess | ⟨id, hupload⟩ | hlive
    · exact Or.inl (hflight _ hprocess)
    · exact Or.inr (Or.inl ⟨id, hflight _ hupload⟩)
    · exact Or.inr (Or.inr hlive)
  · rcases hs.entry hgone hloading with hprocess | hupload | hrefused | hcancel | hjob
    · exact Or.inl (hflight _ hprocess)
    · -- the upload is accepted, and has its entry, or it is refused
      by_cases hsame : .upload s.page.currentFolderId = request
      · cases reply with
        | upload id ok =>
            obtain rfl : s.page.currentFolderId = id :=
              Request.upload.inj (hsame.trans hreply.symm)
            cases ok with
            | true => exact Or.inr (Or.inr (Or.inr (Or.inr (hanswers.accepted _ rfl))))
            | false => exact Or.inr (Or.inr (Or.inl hself))
        | process jobId => cases hsame.trans hreply.symm
        | status jobId answer => cases hsame.trans hreply.symm
        | cancel folderId ok => cases hsame.trans hreply.symm
      · exact Or.inr (Or.inl ((List.mem_erase_of_ne hsame).mpr hupload))
    · exact Or.inr (Or.inr (Or.inl (List.mem_append_left _ hrefused)))
    · exact Or.inr (Or.inr (Or.inr (Or.inl (List.mem_append_left _ hcancel))))
    · exact Or.inr (Or.inr (Or.inr (hjobs _ hjob)))

/-! ### Steps -/

/-- The page changes, and opens nothing. -/
theorem Attends.of_page (hs : Attends s) {page : Page} (hpage : s.page.Stays page)
    (hrequests : ∀ request ∈ s.page.requests, Opens request → request ∈ page.requests) :
    Attends { s with page := page } :=
  hs.idles ⟨hs.telling, fun _ hjob => Or.inl hjob, hpage, hrequests, fun _ h => h, fun _ h _ => h,
    fun _ h => Or.inl h⟩

/-- The page hears of a poll or of a cancel. -/
theorem Attends.of_reply (hs : Attends s) {page : Page} {reply : Reply}
    (hpage : s.page.Stays page) (hrequests : page.requests = s.page.requests)
    (hclosed : ¬ Opens reply.request)
    (hcancel : ∀ id, reply = .cancel id true → page.gone = true ∨ ¬ s.Waits id) :
    Attends { s with page := page, replies := s.replies.erase reply } := by
  by_cases hgone : page.gone = true
  · exact hs.of_gone rfl hgone fun _ h => List.mem_of_mem_erase h
  · refine hs.idles ⟨hs.telling, fun _ hjob => Or.inl hjob, hpage, ?_,
      fun _ h => List.mem_of_mem_erase h, fun reply' h hopens => ?_, fun id h => ?_⟩
    · exact fun request h _ => hrequests ▸ h
    · refine (List.mem_erase_of_ne ?_).mpr h
      rintro rfl
      exact hclosed hopens
    · by_cases heq : reply = .cancel id true
      · exact Or.inr ((hcancel id heq).resolve_left hgone)
      · exact Or.inl ((List.mem_erase_of_ne fun h => heq h.symm).mpr h)

/-- A page that is loaded, with a job that the server knows. -/
theorem Attends.load (hs : Attends s) {savedJob : Option String} (kind : PageKind)
    (hsaved : ∀ id, savedJob = some id → id = "" ∨ s.server.jobs id ≠ none) :
    Attends ⟨s.server, Page.load kind savedJob, []⟩ where
  telling := hs.telling
  link id finalUrl h := by cases h
  started _ id h := by cases h
  polling _ hloading := by
    cases savedJob with
    | none => cases hloading
    | some id =>
        dsimp only at hloading ⊢
        rw [Page.load] at hloading ⊢
        split at hloading
        · cases hloading
        next hne =>
          rw [if_neg hne]
          exact Or.inr (Or.inr (polling_startPolling _ id))
  entry _ hloading := by
    cases savedJob with
    | none => cases hloading
    | some id =>
        dsimp only at hloading ⊢
        rw [Page.load] at hloading ⊢
        split at hloading
        · cases hloading
        next hne =>
          rw [if_neg hne]
          exact Or.inr (Or.inr (Or.inr (Or.inr ((hsaved id rfl).resolve_left hne))))

/-- What the user and the page's timers do keeps the page attending to its job. -/
theorem Attends.act (hs : Attends s) {action : Action} {page : Page}
    (h : s.page.Effect action page) : Attends { s with page := page } := by
  cases h with
  | submit hform => exact hs.opens rfl rfl rfl (Or.inl rfl)
  | poll handle jobId hpoll =>
      refine hs.of_page ⟨fun h => h, fun _ h => ⟨h, fun h => h⟩, rfl⟩ fun request h _ => ?_
      exact List.mem_append_left _ h
  | tick handle timeLeft hlive =>
      rw [tick]
      split
      · exact hs.opens rfl rfl rfl (Or.inr rfl)
      · exact hs.of_page ⟨fun h => h, fun _ h => ⟨h, fun h => h⟩, rfl⟩ fun request h _ => h
  | clickUpload hpreview => exact hs.opens rfl rfl rfl (Or.inr rfl)
  | clickCancel hpreview =>
      refine hs.of_page ⟨fun h => h, fun _ h => ⟨h, fun h => h⟩, rfl⟩ fun request h _ => ?_
      exact List.mem_append_left _ h
  | clickAgain hfinal => exact hs.of_gone rfl rfl fun _ h => h

/-- An answer that the page hears keeps it attending. -/
theorem Attends.deliver (hs : Attends s) (hgone : s.page.gone = false) {reply : Reply}
    {timer : Option ℤ} (hkept : s.Kept (.deliver reply timer)) (hreply : reply ∈ s.replies) :
    Attends { s with
      page := s.page.receive reply timer, replies := s.replies.erase reply } := by
  have hleft : ∀ reply' ∈ s.replies.erase reply, reply' ∈ s.replies :=
    fun _ h => List.mem_of_mem_erase h
  cases reply with
  | process jobId =>
      cases jobId with
      | none => exact hs.of_gone rfl rfl hleft
      | some jobId => exact hs.learns hgone hreply
  | status jobId answer =>
      have hlink : ∀ finalUrl, answer = .json (some .r2_done) finalUrl → finalUrl.getD "" ≠ "" :=
        fun finalUrl heq => hs.link jobId finalUrl (heq ▸ hreply)
      exact hs.of_reply (checkStatus_stays hlink timer s.page)
        (checkStatus_requests hlink timer s.page) (fun h => h) (by simp)
  | upload folderId ok =>
      cases ok with
      | true =>
          have hkind : s.page.kind = .index := hkept
          have hpage : s.page.receive (.upload folderId true) timer =
              s.page.startPolling s.page.currentFolderId := by
            rw [receive, onUploadAccepted, hkind]
          rw [hpage]
          exact hs.accepted hgone folderId
      | false => exact hs.of_gone rfl rfl hleft
  | cancel folderId ok =>
      cases ok with
      | true => exact hs.of_gone rfl rfl hleft
      | false => exact hs.of_reply (Stays.refl s.page) rfl (fun h => h) (by simp)

/-- A request of the page that gets lost. -/
theorem Attends.fail (hs : Attends s) (request : Request) :
    Attends { s with
      page := { s.page with requests := s.page.requests.erase request }.receive
        request.failure none } := by
  have hother : ¬ Opens request → ∀ request' ∈ s.page.requests, Opens request' →
      request' ∈ s.page.requests.erase request := by
    intro hclosed request' h hopens
    refine (List.mem_erase_of_ne ?_).mpr h
    rintro rfl
    exact hclosed hopens
  cases request with
  | process => exact hs.of_gone rfl rfl fun _ h => h
  | upload folderId => exact hs.of_gone rfl rfl fun _ h => h
  | status jobId =>
      exact hs.of_page ⟨fun h => h, fun _ h => ⟨h, fun h => h⟩, rfl⟩ (hother fun h => h)
  | cancel folderId =>
      exact hs.of_page ⟨fun h => h, fun _ h => ⟨h, fun h => h⟩, rfl⟩ (hother fun h => h)

/-- An answer that gets lost, if it is one that may get lost, keeps the page attending. -/
theorem Attends.drop (hs : Attends s) {reply : Reply} (hkept : s.Kept (.drop reply)) :
    Attends { s with
      page := s.page.receive reply.request.failure none
      replies := s.replies.erase reply } := by
  have hleft : ∀ reply' ∈ s.replies.erase reply, reply' ∈ s.replies :=
    fun _ h => List.mem_of_mem_erase h
  cases reply with
  | process jobId => exact hs.of_gone rfl rfl hleft
  | upload folderId ok => exact hs.of_gone rfl rfl hleft
  | status jobId answer => exact hs.of_reply (Stays.refl s.page) rfl (fun h => h) (by simp)
  | cancel folderId ok =>
      refine hs.of_reply (Stays.refl s.page) rfl (fun h => h) fun id heq => Or.inr ?_
      obtain ⟨rfl, rfl⟩ := Reply.cancel.inj heq
      exact hkept

/-- A step the server takes for others keeps the page attending. -/
theorem Attends.server (hs : Attends s) {e : Mogo.Event} (hkept : s.Kept (.server e))
    {server : Server} (hstep : Server.step cfg s.server e = some server) :
    Attends { s with server := server } := by
  refine hs.idles ⟨Server.telling_step hstep hs.telling, fun id hjob => ?_, Stays.refl s.page,
    fun _ h _ => h, fun _ h => h, fun _ h _ => h, fun _ h => Or.inl h⟩
  by_cases hcancel : e = .cancel id
  · subst hcancel
    exact Or.inr hkept
  · exact Or.inl (Server.jobs_kept hstep hcancel hjob)

/-- The server answers with what it has made of the request. -/
theorem Answers.of_step (hs : Attends s) {e : Mogo.Event} {server : Server}
    (hstep : Server.step cfg s.server e = some server) {reply : Reply}
    (hcancel : ∀ id, e = .cancel id → reply = .cancel id true)
    (hstatus : ∀ id answer, reply ≠ .status id answer)
    (hstarted : ∀ id, reply = .process (some id) → server.jobs id ≠ none)
    (haccepted : ∀ id, reply = .upload id true → server.jobs id ≠ none) :
    s.Answers reply server where
  telling := Server.telling_step hstep hs.telling
  link id finalUrl heq := absurd heq (hstatus id _)
  jobs id hjob := by
    by_cases heq : e = .cancel id
    · exact Or.inl (hcancel id heq)
    · exact Or.inr (Server.jobs_kept hstep heq hjob)
  started := hstarted
  accepted := haccepted

/-- **One step** of a page and its server keeps the page attending. -/
theorem Attends.step (hs : Attends s) {e : Event} (hkept : s.Kept e)
    (hstep : Session.step cfg s e = some s') : Attends s' := by
  cases e with
  | server e =>
      obtain ⟨server, hserver, rfl⟩ := Option.map_eq_some_iff.mp hstep
      exact hs.server hkept hserver
  | restart =>
      obtain rfl := Option.some.inj hstep
      refine hs.idles ⟨fun id job hjob => ?_, fun id _ => Or.inr (hkept id), Stays.refl s.page,
        fun _ h _ => h, fun _ h => h, fun _ h _ => h, fun _ h => Or.inl h⟩
      cases hjob
  | load kind savedJob =>
      obtain rfl := Option.some.inj hstep
      refine hs.load kind fun id heq => ?_
      subst heq
      exact hkept
  | act action =>
      obtain ⟨-, hact⟩ := Option.ite_none_left_eq_some.mp hstep
      obtain ⟨page, hpage, rfl⟩ := Option.map_eq_some_iff.mp hact
      exact hs.act (act_effect hpage)
  | process p size =>
      obtain ⟨server, hserver, hanswer⟩ := Option.bind_eq_some_iff.mp hstep
      refine hs.answer hanswer rfl
        (.of_step hs hserver (by simp) (by simp) (fun id heq => ?_) (by simp))
      obtain rfl := Option.some.inj (Reply.process.inj heq)
      cases Server.step_effect hserver with
      | process _ _ _ => exact Server.jobs_ne_none (Server.startPipeline_status p size)
  | status jobId =>
      obtain ⟨-, hanswer⟩ := Option.ite_none_left_eq_some.mp hstep
      refine hs.answer hanswer rfl ⟨hs.telling, fun id finalUrl heq => ?_,
        fun _ hjob => Or.inr hjob, by simp, by simp⟩
      obtain ⟨rfl, hjson⟩ := Reply.status.inj heq
      rw [Server.statusAnswer] at hjson
      cases hjob : s.server.jobs jobId with
      | none =>
          rw [hjob] at hjson
          cases hjson
      | some job =>
          rw [hjob] at hjson
          obtain ⟨hdone, rfl⟩ := Answer.json.inj hjson
          obtain ⟨url, hurl, hne⟩ := (hs.telling jobId job hjob).finalUrl hdone
          simpa [hurl] using hne
  | upload folderId series episode =>
      obtain ⟨server, hserver, hanswer⟩ := Option.bind_eq_some_iff.mp hstep
      refine hs.answer hanswer rfl
        (.of_step hs hserver (by simp) (by simp) (by simp) fun id heq => ?_)
      obtain ⟨rfl, hfolder⟩ := Reply.upload.inj heq
      exact Server.upload_jobs hserver (Option.isSome_iff_ne_none.mp hfolder)
  | cancel folderId =>
      obtain ⟨server, hserver, hanswer⟩ := Option.bind_eq_some_iff.mp hstep
      exact hs.answer hanswer rfl
        (.of_step hs hserver (by simp) (by simp) (by simp) (by simp))
  | deliver reply timer =>
      obtain ⟨⟨hgone, hreply⟩, heq⟩ := Option.ite_none_right_eq_some.mp hstep
      obtain rfl := Option.some.inj heq
      exact hs.deliver hgone hkept hreply
  | fail request =>
      obtain ⟨-, heq⟩ := Option.ite_none_right_eq_some.mp hstep
      obtain rfl := Option.some.inj heq
      exact hs.fail request
  | drop reply =>
      obtain ⟨-, heq⟩ := Option.ite_none_right_eq_some.mp hstep
      obtain rfl := Option.some.inj heq
      exact hs.drop hkept

/-! ### The main result -/

/-- A page that is attended to is not stranded. -/
theorem Attends.notStranded (hs : Attends s) : s.NotStranded := by
  intro hgone hloading _ hrequests hreplies
  have hflight : ∀ request, ¬ s.InFlight request := by
    intro request hflight
    rcases hflight with hrequest | ⟨reply, hreply, -⟩
    · rw [hrequests] at hrequest
      cases hrequest
    · rw [hreplies] at hreply
      cases hreply
  constructor
  · rcases hs.polling hgone hloading with hprocess | ⟨id, hupload⟩ | hlive
    · exact absurd hprocess (hflight _)
    · exact absurd hupload (hflight _)
    · exact hlive
  · intro _
    rcases hs.entry hgone hloading with hprocess | hupload | hrefused | hcancel | hjob
    · exact absurd hprocess (hflight _)
    · exact absurd (Or.inl hupload) (hflight _)
    · exact absurd (Or.inr ⟨_, hrefused, rfl⟩) (hflight _)
    · exact absurd (Or.inr ⟨_, hcancel, rfl⟩) (hflight _)
    · obtain ⟨job, hjob⟩ := Option.ne_none_iff_exists'.mp hjob
      rw [Server.statusAnswer, hjob]
      exact follows_telling (hs.telling _ job hjob) s.page

/-- Before a page is opened there is nothing to attend to. -/
theorem Initial.attends (h : Initial s) : Attends s where
  telling id job hjob := by
    rw [h.server.jobs id] at hjob
    cases hjob
  link id finalUrl hreply := by
    rw [h.replies] at hreply
    cases hreply
  started hgone := absurd (h.gone.symm.trans hgone) (by simp)
  polling hgone := absurd (h.gone.symm.trans hgone) (by simp)
  entry hgone := absurd (h.gone.symm.trans hgone) (by simp)

/-- **No page is stranded**, in any run of a page and its server in which no upload of a podcast
page is accepted and no entry is lost that the page depends on. -/
theorem never_stranded {cfg : ServerConfig} {s₀ s : Session} (h₀ : Initial s₀)
    (h : Reach (Session.step cfg) Kept s₀ s) : s.NotStranded :=
  (h.invariant h₀.attends fun _ _ _ hkept hs hstep => hs.step hkept hstep).notStranded

/-! ### Examples -/

/-- No page is open, and the server has just been started. -/
def closed : Session := ⟨Server.fresh, Page.blank .index |>.clearStateAndReload, []⟩

/-- A closed page beside a fresh server is a state to start from. -/
theorem closed_initial : Initial closed := ⟨Server.fresh_initial, rfl, rfl⟩

/-- A page submits its form, and hears that its job is `compressing`. -/
def submitted (kind : PageKind) (p : Pipeline) : List Event :=
  [.load kind none, .act .submit, .process p 10, .deliver (.process (some p.folderId)) none,
    .status p.folderId,
    .deliver (.status p.folderId (.json (some .compressing) none)) none]

/-- The page of a video polls, and follows its job. -/
theorem never_stranded_lecture : ∃ s,
    run (Session.step mogoConfig) closed (submitted .index lecture) = some s ∧ s.NotStranded ∧
      s.page.Polling := by
  have hstate : (run (Session.step mogoConfig) closed (submitted .index lecture)).map
      (fun s => (s.page.gone, s.page.loadingArea, s.page.currentFolderId, s.page.requests,
        s.replies)) = some (false, true, "17-lecture", [], []) := rfl
  obtain ⟨s, hrun, hs⟩ := Option.map_eq_some_iff.mp hstate
  simp only [Prod.mk.injEq] at hs
  obtain ⟨hgone, hloading, hid, hrequests, hreplies⟩ := hs
  have hkept : ∀ s, ∀ e ∈ submitted .index lecture, Kept s e := by
    simp [submitted, Kept]
  have hnot := never_stranded closed_initial (Reach.start.run hkept hrun)
  exact ⟨s, hrun, hnot, (hnot hgone hloading (by simp [hid]) hrequests hreplies).1⟩

/-- The page of a podcast uploads it. -/
def podcastUpload : List Event :=
  submitted .podcast talk ++
    [.server (.written talk .encode ⟨"playlist.m3u8", [1]⟩),
      .server (.callback (.pipeline talk .encode) (.ended ⟨true, true⟩)),
      .server (.callback (.pipeline talk .extract) (.ended ⟨true, true⟩)),
      .server (.callback (.pipeline talk .whisper) (.ended ⟨true, true⟩)),
      .act (.poll 0), .status "18-talk",
      .deliver (.status "18-talk" (.json (some .done) none)) none,
      .act .clickUpload, .upload "18-talk" "My Show" "3", .deliver (.upload "18-talk" true) none]

/-- **Pages are stranded**: the page of a podcast, once its upload has been accepted, as it does not
poll any more; and a page whose server has been restarted, as it polls for ever. -/
theorem not_never_stranded :
    (∃ s, run (Session.step mogoConfig) closed podcastUpload = some s ∧
      ¬ s.page.Polling ∧ ¬ s.NotStranded) ∧
    ∃ s, run (Session.step mogoConfig) closed (submitted .index lecture ++ [.restart]) = some s ∧
      s.server.statusAnswer "17-lecture" = .json none none ∧ ¬ s.NotStranded := by
  constructor
  · have hstate : (run (Session.step mogoConfig) closed podcastUpload).map
        (fun s => (s.page.gone, s.page.loadingArea, s.page.currentFolderId, s.page.requests,
          s.replies, s.page.polls)) = some (false, true, "18-talk", [], [], []) := rfl
    obtain ⟨s, hrun, hs⟩ := Option.map_eq_some_iff.mp hstate
    simp only [Prod.mk.injEq] at hs
    obtain ⟨hgone, hloading, hid, hrequests, hreplies, hpolls⟩ := hs
    have hdead : ¬ s.page.Polling := by
      rintro ⟨handle, jobId, -, hmem⟩
      rw [hpolls] at hmem
      cases hmem
    refine ⟨s, hrun, hdead, fun hnot => ?_⟩
    exact hdead (hnot hgone hloading (by simp [hid]) hrequests hreplies).1
  · have hstate : (run (Session.step mogoConfig) closed
        (submitted .index lecture ++ [.restart])).map
        (fun s => (s.page.gone, s.page.loadingArea, s.page.currentFolderId, s.page.requests,
          s.replies, s.server.crashed, s.server.statusAnswer "17-lecture")) =
        some (false, true, "17-lecture", [], [], false, .json none none) := rfl
    obtain ⟨s, hrun, hs⟩ := Option.map_eq_some_iff.mp hstate
    simp only [Prod.mk.injEq] at hs
    obtain ⟨hgone, hloading, hid, hrequests, hreplies, hup, hanswer⟩ := hs
    refine ⟨s, hrun, hanswer, fun hnot => ?_⟩
    have hfollows := (hnot hgone hloading (by simp [hid]) hrequests hreplies).2 hup none
    rw [hid, hanswer] at hfollows
    rcases hfollows with ⟨status, finalUrl, heq, -⟩ | ⟨-, hleft | hleft⟩
    · cases heq
    · exact absurd (hloading.symm.trans hleft) (by simp)
    · exact absurd (hgone.symm.trans hleft) (by simp)

end Session

end Mogo
