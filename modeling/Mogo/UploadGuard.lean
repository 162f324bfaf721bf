import Mogo.ServerSteps
import Mogo.Session

/-!
# A Page Publishes What It Has Seen Done

`/upload-to-r2` does not ask whether the pipeline of a job is through. The pages do: the button and
the countdown that request an upload appear with the answer `done`. This module follows the answer
back to the server: whatever is restarted, cancelled or lost on the way, and whatever other tabs do,
the page requests the upload of a job only if the server had it `done` before.

A page follows one job only. Until the server has started it, nothing of it is on its way
(`Unstarted`); from then on all the page asks and hears about is that job (`Following`).

## Main results

* `Session.uploads_follow_done`: an upload request of a page comes after `done` on the server.
-/

namespace Mogo

open Transition

namespace Page

variable {H : String → Prop} {job : String} {p p' : Page}

/-- A page that follows its job. `H` is what is known of the jobs that may be published. -/
structure Following (H : String → Prop) (job : String) (p : Page) : Prop where
  current : p.currentFolderId = job
  uploadForm : p.uploadForm = false
  process : .process ∉ p.requests
  polls : ∀ poll ∈ p.polls, poll.2 = job
  status : ∀ jobId, .status jobId ∈ p.requests → jobId = job
  preview : p.previewArea = true ∨ p.countdowns ≠ [] → H job
  upload : ∀ folderId, .upload folderId ∈ p.requests → H folderId

/-- A page that follows its job does so when less is known of the jobs. -/
theorem Following.mono {H' : String → Prop} (h : p.Following H job) (hsub : ∀ id, H id → H' id) :
    p.Following H' job :=
  ⟨h.current, h.uploadForm, h.process, h.polls, h.status, fun hp => hsub _ (h.preview hp),
    fun id hid => hsub _ (h.upload id hid)⟩

/-- A page that asks for its job, and for nothing else. -/
theorem Following.send (h : p.Following H job) (request : Request) (hprocess : request ≠ .process)
    (hstatus : ∀ jobId, request = .status jobId → jobId = job)
    (hupload : ∀ folderId, request = .upload folderId → H folderId) :
    (p.send request).Following H job := by
  refine ⟨h.current, h.uploadForm, fun hmem => ?_, h.polls, fun jobId hmem => ?_, h.preview,
    fun folderId hmem => ?_⟩
  · rcases List.mem_append.mp hmem with hold | hnew
    · exact h.process hold
    · exact hprocess (List.mem_singleton.mp hnew).symm
  · rcases List.mem_append.mp hmem with hold | hnew
    · exact h.status jobId hold
    · exact hstatus jobId (List.mem_singleton.mp hnew).symm
  · rcases List.mem_append.mp hmem with hold | hnew
    · exact h.upload folderId hold
    · exact hupload folderId (List.mem_singleton.mp hnew).symm

/-- A page with fewer requests, intervals and buttons follows the same job. -/
theorem Following.of_sub (h : p.Following H job) (hcurrent : p'.currentFolderId = p.currentFolderId)
    (hform : p'.uploadForm = p.uploadForm)
    (hrequests : ∀ request ∈ p'.requests, request ∈ p.requests)
    (hpolls : ∀ poll ∈ p'.polls, poll ∈ p.polls)
    (hpreview : p'.previewArea = true → p.previewArea = true)
    (hcountdowns : p'.countdowns ≠ [] → p.countdowns ≠ []) : p'.Following H job :=
  ⟨hcurrent.trans h.current, hform.trans h.uploadForm, fun hmem => h.process (hrequests _ hmem),
    fun poll hpoll => h.polls poll (hpolls poll hpoll),
    fun jobId hmem => h.status jobId (hrequests _ hmem),
    fun hp => h.preview (hp.imp hpreview hcountdowns),
    fun folderId hmem => h.upload folderId (hrequests _ hmem)⟩

/-- A page that starts to poll for its job follows this job. -/
theorem Following.startPolling (h : p.Following H job) : (p.startPolling job).Following H job := by
  have hsend := h.send (.status job) (by simp)
    (fun jobId heq => (Request.status.inj heq).symm) (by simp)
  refine ⟨hsend.current, hsend.uploadForm, hsend.process, fun poll hpoll => ?_, hsend.status,
    hsend.preview, hsend.upload⟩
  rcases List.mem_append.mp hpoll with hold | hnew
  · exact h.polls poll hold
  · rw [List.mem_singleton.mp hnew]

/-- A page that stops polling still follows its job. -/
theorem Following.clearPolling (h : p.Following H job) : p.clearPolling.Following H job :=
  h.of_sub rfl rfl (fun _ hmem => hmem) (fun _ hpoll => List.mem_of_mem_filter hpoll) (fun hp => hp)
    fun hc => hc

/-- A page that stops its countdown still follows its job. -/
theorem Following.clearCountdown (h : p.Following H job) : p.clearCountdown.Following H job :=
  h.of_sub rfl rfl (fun _ hmem => hmem) (fun _ hpoll => hpoll) (fun hp => hp)
    fun hc hnone => hc (by rw [Page.clearCountdown, hnone]; rfl)

/-- The page requests the upload of its job, which may be published. -/
theorem Following.uploadToR2 (h : p.Following H job) (hjob : H job) :
    p.uploadToR2.Following H job := by
  have hsend := h.clearCountdown.send (.upload p.currentFolderId) (by simp) (by simp)
    fun folderId heq => by rwa [← Request.upload.inj heq, h.current]
  exact ⟨hsend.current, hsend.uploadForm, hsend.process, hsend.polls, hsend.status, fun _ => hjob,
    hsend.upload⟩

/-- A page that shows the links still follows its job. -/
theorem Following.onR2Done (h : p.Following H job) (finalUrl : Option String) :
    (p.onR2Done finalUrl).Following H job := by
  have hclear := h.clearPolling
  have hfinal : { p.clearPolling with loadingArea := false, finalArea := true }.Following H job :=
    hclear.of_sub rfl rfl (fun _ h => h) (fun _ h => h) (fun h => h) fun h => h
  rw [Page.onR2Done]
  cases p.kind with
  | podcast => exact hfinal
  | index =>
      dsimp only
      rw [showPublishedLink]
      split
      · exact hclear
      · exact hfinal

/-- **An answer about the job**: with `done`, it may be published. -/
theorem Following.checkStatus (h : p.Following H job) {answer : Answer}
    (hdone : ∀ finalUrl, answer = .json (some .done) finalUrl → H job) (timer : Option ℤ) :
    (p.checkStatus answer timer).Following H job := by
  have hclear := h.clearPolling
  rw [checkStatus.eq_def]
  split
  case h_6 finalUrl =>
    have hjob : H job := hdone finalUrl rfl
    exact ⟨hclear.current, hclear.uploadForm, hclear.process, hclear.polls, hclear.status,
      fun _ => hjob, hclear.upload⟩
  case h_8 finalUrl => exact h.onR2Done finalUrl
  case h_2 => exact hclear.of_sub rfl rfl (fun _ h => h) (fun _ h => h) (fun h => h) fun h => h
  case h_9 => exact hclear.of_sub rfl rfl (fun _ h => h) (fun _ h => h) (fun h => h) fun h => h
  all_goals exact h.of_sub rfl rfl (fun _ h => h) (fun _ h => h) (fun h => h) fun h => h

/-- **An answer** to what the page has asked. -/
theorem Following.receive (h : p.Following H job) {reply : Reply}
    (hprocess : reply.request ≠ .process)
    (hdone : ∀ jobId finalUrl, reply = .status jobId (.json (some .done) finalUrl) → H job)
    (timer : Option ℤ) : (p.receive reply timer).Following H job := by
  have hgone : p.clearStateAndReload.Following H job :=
    h.of_sub rfl rfl (fun _ h => h) (fun _ h => h) (fun h => h) fun h => h
  cases reply with
  | process jobId => exact absurd rfl hprocess
  | status jobId answer =>
      exact h.checkStatus (fun finalUrl heq => hdone jobId finalUrl (heq ▸ rfl)) timer
  | upload folderId ok =>
      cases ok with
      | false => exact hgone
      | true =>
          rw [Page.receive, onUploadAccepted, h.current]
          cases p.kind with
          | index => exact h.startPolling
          | podcast => exact h
  | cancel folderId ok =>
      cases ok with
      | false => exact h
      | true => exact hgone

/-- A tick of a live countdown leaves the page following its job, whose upload it may request. -/
theorem Following.tick (h : p.Following H job) {handle : ℕ} {timeLeft : ℤ}
    (hlive : p.countdowns.lookup handle = some timeLeft) :
    (p.tick handle timeLeft).Following H job := by
  have hne : p.countdowns ≠ [] := by
    rintro hnone
    rw [hnone] at hlive
    cases hlive
  have hjob : H job := h.preview (Or.inr hne)
  have hticked : Following H job { p with
      countdowns := p.countdowns.map fun countdown =>
        if countdown.1 = handle then (handle, timeLeft - 1) else countdown } :=
    ⟨h.current, h.uploadForm, h.process, h.polls, h.status, fun _ => hjob, h.upload⟩
  rw [Page.tick]
  split
  · exact hticked.clearCountdown.uploadToR2 hjob
  · exact hticked

/-- **What the user and the timers do.** -/
theorem Following.act (h : p.Following H job) {action : Action} (heffect : Effect p action p') :
    p'.Following H job := by
  cases heffect with
  | submit hform =>
      rw [h.uploadForm] at hform
      cases hform
  | poll handle jobId hpoll =>
      refine h.send _ (by simp) (fun jobId' heq => ?_) (by simp)
      obtain ⟨before, after, hpolls, -⟩ := List.lookup_eq_some_iff.mp hpoll
      rw [← Request.status.inj heq]
      refine h.polls (handle, jobId) ?_
      rw [hpolls]
      exact List.mem_append_right _ List.mem_cons_self
  | tick handle timeLeft hlive => exact h.tick hlive
  | clickUpload hpreview => exact h.uploadToR2 (h.preview (Or.inl hpreview))
  | clickCancel hpreview => exact h.clearCountdown.send _ (by simp) (by simp) (by simp)
  | clickAgain hfinal =>
      exact h.of_sub rfl rfl (fun _ h => h) (fun _ h => h) (fun h => h) fun h => h

end Page

namespace Session

variable {cfg : ServerConfig} {H : String → Prop} {job : String} {s s' : Session}

/-- A page whose job is not known yet: it has at most asked for it. -/
structure Unstarted (s : Session) : Prop where
  polls : s.page.polls = []
  previewArea : s.page.previewArea = false
  countdowns : s.page.countdowns = []
  flight : s.page.requests = [] ∧ s.replies = [] ∨
    s.page.uploadForm = false ∧ (s.page.requests = [.process] ∧ s.replies = [] ∨
      s.page.requests = [] ∧ ∃ jobId, s.replies = [.process jobId])

/-- A page that follows its job, and the answers on their way to it. -/
structure Following (H : String → Prop) (job : String) (s : Session) : Prop where
  page : s.page.Following H job
  process : ∀ reply ∈ s.replies, reply.request ≠ .process
  done : ∀ jobId finalUrl, .status jobId (.json (some .done) finalUrl) ∈ s.replies →
    jobId = job ∧ H jobId

/-- The invariant: of what the page may publish, `H` is known. -/
def Guarded (H : String → Prop) (s : Session) : Prop := s.Unstarted ∨ ∃ job, s.Following H job

/-- What is guarded stays guarded when less is known of the jobs. -/
theorem Guarded.mono {H' : String → Prop} (h : s.Guarded H) (hsub : ∀ id, H id → H' id) :
    s.Guarded H' := by
  refine h.imp_right fun ⟨job, h⟩ => ⟨job, h.page.mono hsub, h.process, fun jobId url hmem => ?_⟩
  exact (h.done jobId url hmem).imp_right (hsub _)

/-- The invariant is about the page and its messages, so the server may do anything. -/
theorem Guarded.server (h : s.Guarded H) (server : Server) :
    Guarded H { s with server := server } :=
  h.imp (fun h => ⟨h.polls, h.previewArea, h.countdowns, h.flight⟩)
    fun ⟨job, h⟩ => ⟨job, h.page, h.process, h.done⟩

/-- A page that has just been loaded is guarded, with a saved job or without one. -/
theorem guarded_load (server : Server) (kind : PageKind) (savedJob : Option String) :
    Guarded H ⟨server, Page.load kind savedJob, []⟩ := by
  have hblank : Guarded H ⟨server, Page.blank kind, []⟩ :=
    Or.inl ⟨rfl, rfl, rfl, Or.inl ⟨rfl, rfl⟩⟩
  cases savedJob with
  | none => exact hblank
  | some jobId =>
      rw [Page.load]
      split
      · exact hblank
      · have hpage : Page.Following H jobId { Page.blank kind with
            currentFolderId := jobId
            uploadForm := false
            loadingArea := true } :=
          ⟨rfl, rfl, by simp [Page.blank], by simp [Page.blank], by simp [Page.blank],
            by simp [Page.blank], by simp [Page.blank]⟩
        exact Or.inr ⟨jobId, hpage.startPolling, by simp, by simp⟩

/-- What the user and the page's timers do leaves the system guarded. -/
theorem Guarded.act (h : s.Guarded H) {action : Page.Action} {page : Page}
    (heffect : s.page.Effect action page) : Guarded H { s with page := page } := by
  rcases h with h | ⟨job, h⟩
  · left
    cases heffect with
    | submit hform =>
        obtain ⟨hrequests, hreplies⟩ := h.flight.resolve_right fun hflight => by
          rw [hflight.1] at hform
          cases hform
        refine ⟨h.polls, h.previewArea, h.countdowns, Or.inr ⟨rfl, Or.inl ⟨?_, hreplies⟩⟩⟩
        rw [Page.submit, Page.send, hrequests]
        rfl
    | poll handle jobId hpoll =>
        rw [h.polls] at hpoll
        cases hpoll
    | tick handle timeLeft hlive =>
        rw [h.countdowns] at hlive
        cases hlive
    | clickUpload hpreview =>
        rw [h.previewArea] at hpreview
        cases hpreview
    | clickCancel hpreview =>
        rw [h.previewArea] at hpreview
        cases hpreview
    | clickAgain hfinal => exact ⟨h.polls, h.previewArea, h.countdowns, h.flight⟩
  · exact Or.inr ⟨job, h.page.act heffect, h.process, h.done⟩

/-- **The server answers.** If it says `done`, that is known. -/
theorem Guarded.answer (h : s.Guarded H) {request : Request} {reply : Reply} {server : Server}
    (hanswer : s.answer request reply server = some s') (hreply : reply.request = request)
    (hdone : ∀ jobId finalUrl, reply = .status jobId (.json (some .done) finalUrl) → H jobId) :
    s'.Guarded H := by
  obtain ⟨hmem, heq⟩ := Option.ite_none_right_eq_some.mp hanswer
  obtain rfl := Option.some.inj heq
  rcases h with h | ⟨job, h⟩
  · rcases h.flight with ⟨hnone, -⟩ | ⟨hform, ⟨hone, hreplies⟩ | ⟨hnone, -⟩⟩
    · rw [hnone] at hmem
      cases hmem
    · rw [hone, List.mem_singleton] at hmem
      subst hmem
      cases reply with
      | process jobId =>
          refine Or.inl ⟨h.polls, h.previewArea, h.countdowns,
            Or.inr ⟨hform, Or.inr ⟨?_, jobId, ?_⟩⟩⟩
          · rw [hone]
            rfl
          · rw [hreplies]
            rfl
      | status jobId answer => cases hreply
      | upload folderId ok => cases hreply
      | cancel folderId ok => cases hreply
    · rw [hnone] at hmem
      cases hmem
  · have hpage : Page.Following H job { s.page with requests := s.page.requests.erase request } :=
      h.page.of_sub rfl rfl (fun _ hr => List.mem_of_mem_erase hr) (fun _ h => h) (fun h => h)
        fun h => h
    refine Or.inr ⟨job, hpage, fun reply' hmem' => ?_, fun jobId finalUrl hmem' => ?_⟩
    · rcases List.mem_append.mp hmem' with hold | hnew
      · exact h.process reply' hold
      · rw [List.mem_singleton.mp hnew, hreply]
        rintro rfl
        exact h.page.process hmem
    · rcases List.mem_append.mp hmem' with hold | hnew
      · exact h.done jobId finalUrl hold
      · have heq := (List.mem_singleton.mp hnew).symm
        have hrequest : request = .status jobId := by
          rw [← hreply, heq]
          rfl
        exact ⟨h.page.status jobId (hrequest ▸ hmem), hdone jobId finalUrl heq⟩

/-- A page without a job that is told that there will be none. -/
theorem Unstarted.refused (h : s.Unstarted) {page : Page} {replies : List Reply}
    (hpage : page = { s.page with requests := [] }.clearStateAndReload) (hreplies : replies = []) :
    Guarded H { s with page := page, replies := replies } := by
  subst hpage hreplies
  exact Or.inl ⟨h.polls, h.previewArea, h.countdowns, Or.inl ⟨rfl, rfl⟩⟩

/-- **An answer reaches the page**, and the session stays guarded. -/
theorem Guarded.deliver (h : s.Guarded H) {reply : Reply} (hmem : reply ∈ s.replies)
    (timer : Option ℤ) :
    Guarded H { s with page := s.page.receive reply timer, replies := s.replies.erase reply } := by
  rcases h with h | ⟨job, h⟩
  · rcases h.flight with ⟨-, hnone⟩ | ⟨hform, ⟨-, hnone⟩ | ⟨hrequests, jobId, hone⟩⟩
    · rw [hnone] at hmem
      cases hmem
    · rw [hnone] at hmem
      cases hmem
    · rw [hone, List.mem_singleton] at hmem
      subst hmem
      have herase : s.replies.erase (.process jobId) = [] := by
        rw [hone, List.erase_cons_head]
      cases jobId with
      | none =>
          refine h.refused ?_ herase
          rw [← hrequests]
          rfl
      | some jobId =>
          have hpage : Page.Following H jobId { s.page with currentFolderId := jobId } :=
            ⟨rfl, hform, by simp [hrequests], by simp [h.polls], by simp [hrequests],
              by simp [h.previewArea, h.countdowns], by simp [hrequests]⟩
          exact Or.inr ⟨jobId, hpage.startPolling, by simp [herase], by simp [herase]⟩
  · refine Or.inr ⟨job, h.page.receive (h.process reply hmem) (fun jobId finalUrl heq => ?_) timer,
      fun reply' hmem' => h.process reply' (List.mem_of_mem_erase hmem'),
      fun jobId finalUrl hmem' => h.done jobId finalUrl (List.mem_of_mem_erase hmem')⟩
    obtain ⟨rfl, hjob⟩ := h.done jobId finalUrl (heq ▸ hmem)
    exact hjob

/-- The failure of a request answers that request. -/
theorem failure_request (request : Request) : request.failure.request = request := by
  cases request <;> rfl

/-- A request that has failed is not answered with `done`. -/
theorem failure_ne_done {request : Request} {jobId : String} {finalUrl : Option String} :
    request.failure ≠ .status jobId (.json (some .done) finalUrl) := by
  cases request <;> simp [Request.failure]

/-- A request that gets lost leaves the system guarded. -/
theorem Guarded.fail (h : s.Guarded H) {request : Request} (hmem : request ∈ s.page.requests) :
    Guarded H { s with
      page := { s.page with requests := s.page.requests.erase request }.receive
        request.failure none } := by
  rcases h with h | ⟨job, h⟩
  · rcases h.flight with ⟨hnone, -⟩ | ⟨hform, ⟨hone, hreplies⟩ | ⟨hnone, -⟩⟩
    · rw [hnone] at hmem
      cases hmem
    · rw [hone, List.mem_singleton] at hmem
      subst hmem
      refine h.refused ?_ hreplies
      rw [hone, List.erase_cons_head]
      rfl
    · rw [hnone] at hmem
      cases hmem
  · have hpage : Page.Following H job { s.page with requests := s.page.requests.erase request } :=
      h.page.of_sub rfl rfl (fun _ hr => List.mem_of_mem_erase hr) (fun _ h => h) (fun h => h)
        fun h => h
    refine Or.inr ⟨job, hpage.receive ?_ (fun _ _ heq => absurd heq failure_ne_done) none,
      h.process, h.done⟩
    rw [failure_request]
    rintro rfl
    exact h.page.process hmem

/-- An answer that gets lost leaves the system guarded. -/
theorem Guarded.drop (h : s.Guarded H) {reply : Reply} (hmem : reply ∈ s.replies) :
    Guarded H { s with
      page := s.page.receive reply.request.failure none
      replies := s.replies.erase reply } := by
  rcases h with h | ⟨job, h⟩
  · rcases h.flight with ⟨-, hnone⟩ | ⟨hform, ⟨-, hnone⟩ | ⟨hrequests, jobId, hone⟩⟩
    · rw [hnone] at hmem
      cases hmem
    · rw [hnone] at hmem
      cases hmem
    · rw [hone, List.mem_singleton] at hmem
      subst hmem
      refine h.refused ?_ (by rw [hone, List.erase_cons_head])
      rw [← hrequests]
      rfl
  · refine Or.inr ⟨job, h.page.receive ?_ (fun _ _ heq => absurd heq failure_ne_done) none,
      fun reply' hmem' => h.process reply' (List.mem_of_mem_erase hmem'),
      fun jobId finalUrl hmem' => h.done jobId finalUrl (List.mem_of_mem_erase hmem')⟩
    rw [failure_request]
    exact h.process reply hmem

/-- The status that the server answers is the status it has. -/
theorem status_of_answer {server : Server} {jobId : String} {finalUrl : Option String}
    (h : server.statusAnswer jobId = .json (some .done) finalUrl) :
    server.status jobId = some .done := by
  rw [Server.statusAnswer] at h
  rw [Server.status]
  cases hjob : server.jobs jobId with
  | none =>
      rw [hjob] at h
      cases h
  | some job =>
      rw [hjob] at h
      exact (Answer.json.inj h).1

/-- **Every step** keeps the page guarded, if it is known which jobs the server has `done`. -/
theorem Guarded.step (h : s.Guarded H) (hdone : ∀ id, s.server.status id = some .done → H id)
    {e : Event} (hstep : Session.step cfg s e = some s') : s'.Guarded H := by
  cases e with
  | server e =>
      obtain ⟨server, -, rfl⟩ := Option.map_eq_some_iff.mp hstep
      exact h.server server
  | restart => exact Option.some.inj hstep ▸ h.server _
  | load kind savedJob => exact Option.some.inj hstep ▸ guarded_load _ kind savedJob
  | act action =>
      rw [Session.step.eq_def] at hstep
      dsimp only at hstep
      split at hstep
      · cases hstep
      · obtain ⟨page, hact, rfl⟩ := Option.map_eq_some_iff.mp hstep
        exact h.act (Page.act_effect hact)
  | process p size =>
      obtain ⟨server, -, hanswer⟩ := Option.bind_eq_some_iff.mp hstep
      exact h.answer hanswer rfl (by simp)
  | status jobId =>
      rw [Session.step.eq_def] at hstep
      dsimp only at hstep
      split at hstep
      · cases hstep
      · refine h.answer hstep rfl fun jobId' finalUrl heq => ?_
        obtain ⟨rfl, hanswer⟩ := Reply.status.inj heq
        exact hdone _ (status_of_answer hanswer)
  | upload folderId series episode =>
      obtain ⟨server, -, hanswer⟩ := Option.bind_eq_some_iff.mp hstep
      exact h.answer hanswer rfl (by simp)
  | cancel folderId =>
      obtain ⟨server, -, hanswer⟩ := Option.bind_eq_some_iff.mp hstep
      exact h.answer hanswer rfl (by simp)
  | deliver reply timer =>
      obtain ⟨⟨-, hmem⟩, heq⟩ := Option.ite_none_right_eq_some.mp hstep
      exact Option.some.inj heq ▸ h.deliver hmem timer
  | fail request =>
      obtain ⟨⟨-, hmem⟩, heq⟩ := Option.ite_none_right_eq_some.mp hstep
      exact Option.some.inj heq ▸ h.fail hmem
  | drop reply =>
      obtain ⟨⟨-, hmem⟩, heq⟩ := Option.ite_none_right_eq_some.mp hstep
      exact Option.some.inj heq ▸ h.drop hmem

/-- **A page publishes what it has seen done.** In every run of a page that is loaded, and of its
server, an upload request of the page for a job comes after a state in which the server had that job
`done`. -/
theorem uploads_follow_done {server : Server} {kind : PageKind} {savedJob : Option String}
    {es : List Event}
    (hrun : run (Session.step cfg) ⟨server, Page.load kind savedJob, []⟩ es = some s) {id : String}
    (hrequest : .upload id ∈ s.page.requests) :
    Passes (Session.step cfg) (fun s => s.server.status id = some .done)
      ⟨server, Page.load kind savedJob, []⟩ es := by
  have hguarded : s.Guarded fun id => Passes (Session.step cfg)
      (fun s => s.server.status id = some .done) ⟨server, Page.load kind savedJob, []⟩ es := by
    refine run_history (I := fun es s => s.Guarded fun id => Passes (Session.step cfg)
      (fun s => s.server.status id = some .done) ⟨server, Page.load kind savedJob, []⟩ es)
      (guarded_load server kind savedJob) (fun es s e s' hbefore hs hstep => ?_) hrun
    exact (hs.step (fun id hdone => .of_last hbefore hdone) hstep).mono fun id h => h.append [e]
  rcases hguarded with h | ⟨job, h⟩
  · rcases h.flight with ⟨hnone, -⟩ | ⟨-, ⟨hone, -⟩ | ⟨hnone, -⟩⟩
    · rw [hnone] at hrequest
      cases hrequest
    · rw [hone] at hrequest
      simp at hrequest
    · rw [hnone] at hrequest
      cases hrequest
  · exact h.page.upload id hrequest

/-- The podcast, from the form to the upload, with a server that is restarted in between. -/
def talkPublished : List Event :=
  [.act .submit, .process talk 10, .deliver (.process (some "18-talk")) none] ++
    (talkDone.drop 1).map .server ++
    [.status "18-talk", .restart, .deliver (.status "18-talk" (.json (some .done) none)) (some 1),
      .act (.tick 1)]

/-- The podcast, whose upload follows the report that it is done. -/
theorem uploads_follow_done_talk :
    Passes (Session.step mogoConfig) (fun s => s.server.status "18-talk" = some .done)
      ⟨Server.fresh, Page.load .podcast none, []⟩ talkPublished := by
  have hrun : run (Session.step mogoConfig) ⟨Server.fresh, Page.load .podcast none, []⟩
      talkPublished = some _ := rfl
  exact uploads_follow_done hrun (by decide)

end Session

end Mogo
