import Mogo.Page

/-!
# One Upload per Job

`index.html` sends one request for the upload of a job, from the button or from the countdown, and
has one countdown, as long as `done` is answered once: `showPreview` starts a countdown every time,
and `countdownTimer` holds the handle of the last one only. Two polls in flight that both answer
`done` are enough to lose a countdown that nothing can end any more.

## Main results

* `one_upload`: a page whose previews come one at a time uploads once.
* `second_countdown`, `second_upload`: what a second preview leads to.
* `not_one_upload`: two answers `done` lead to two countdowns and to two uploads.
-/

namespace Mogo

namespace Page

open Transition

/-- An answer `done` comes before any countdown is live and any upload is requested. -/
def FirstPreview (p : Page) (e : Event) : Prop :=
  ∀ jobId finalUrl timer, e = .receive (.status jobId (.json (some .done) finalUrl)) timer →
    p.countdowns = [] ∧ p.posted = []

/-- The countdown that is live is the one whose handle is known, and there is none once the upload
has been requested. -/
structure SingleUpload (p : Page) : Prop where
  countdowns : p.countdowns = [] ∨
    ∃ handle timeLeft, p.countdowns = [(handle, timeLeft)] ∧ p.countdownTimer = some handle
  posted : p.posted = [] ∨
    (∃ id, p.posted = [id]) ∧ p.countdowns = [] ∧ p.previewArea = false

/-- What leaves countdowns, uploads and the preview alone. -/
structure Quiet (p p' : Page) : Prop where
  countdowns : p'.countdowns = p.countdowns
  countdownTimer : p'.countdownTimer = p.countdownTimer
  posted : p'.posted = p.posted
  previewArea : p'.previewArea = p.previewArea

variable {p p' : Page}

/-- What leaves countdowns, uploads and the preview alone keeps the page to one upload. -/
theorem SingleUpload.quiet (h : SingleUpload p) (hquiet : Quiet p p') : SingleUpload p' where
  countdowns := by
    rw [hquiet.countdowns, hquiet.countdownTimer]
    exact h.countdowns
  posted := by
    rw [hquiet.posted, hquiet.countdowns, hquiet.previewArea]
    exact h.posted

/-- A page that has just been loaded has no upload under way. -/
theorem load_single (kind : PageKind) (savedJob : Option String) :
    SingleUpload (load kind savedJob) := by
  have hnone : (load kind savedJob).countdowns = [] ∧ (load kind savedJob).posted = [] := by
    cases savedJob with
    | none => exact ⟨rfl, rfl⟩
    | some savedJob =>
        rw [load]
        split
        · exact ⟨rfl, rfl⟩
        · exact ⟨rfl, rfl⟩
  exact ⟨Or.inl hnone.1, Or.inl hnone.2⟩

/-! ### The functions of the page -/

/-- The countdown whose handle is known is the only one. -/
theorem SingleUpload.clearCountdown (h : SingleUpload p) : p.clearCountdown.countdowns = [] := by
  rw [Page.clearCountdown]
  rcases h.countdowns with hnone | ⟨handle, timeLeft, hone, htimer⟩
  · rw [hnone]
    rfl
  · rw [hone, htimer]
    simp

/-- The upload, before it has been requested. -/
theorem SingleUpload.uploadToR2 (h : SingleUpload p) (hposted : p.posted = []) :
    SingleUpload p.uploadToR2 where
  countdowns := Or.inl h.clearCountdown
  posted := Or.inr ⟨⟨p.currentFolderId, congrArg _ hposted⟩, h.clearCountdown, rfl⟩

/-- The first preview of a page starts its only countdown. -/
theorem SingleUpload.showPreview (timer : Option ℤ) (hcountdowns : p.countdowns = [])
    (hposted : p.posted = []) : SingleUpload (p.showPreview timer) where
  countdowns := Or.inr ⟨p.nextHandle, timeLeft timer, by simp [Page.showPreview, hcountdowns], rfl⟩
  posted := Or.inl hposted

/-- Showing the links of an upload starts no other upload. -/
theorem onR2Done_quiet (finalUrl : Option String) (p : Page) : Quiet p (p.onR2Done finalUrl) := by
  rw [onR2Done]
  cases p.kind with
  | index =>
      dsimp only
      rw [showPublishedLink]
      split
      · exact ⟨rfl, rfl, rfl, rfl⟩
      · exact ⟨rfl, rfl, rfl, rfl⟩
  | podcast => exact ⟨rfl, rfl, rfl, rfl⟩

/-- Whatever the answer is, `done` apart. -/
theorem checkStatus_quiet {answer : Answer}
    (hanswer : ∀ finalUrl, answer ≠ .json (some .done) finalUrl)
    (timer : Option ℤ) (p : Page) : Quiet p (p.checkStatus answer timer) := by
  rw [checkStatus.eq_def]
  split
  case h_6 finalUrl => exact absurd rfl (hanswer finalUrl)
  case h_8 finalUrl => exact onR2Done_quiet finalUrl p
  all_goals exact ⟨rfl, rfl, rfl, rfl⟩

/-- What is received, `done` apart, starts no countdown and no upload. -/
theorem receive_quiet {reply : Reply}
    (hreply : ∀ jobId finalUrl, reply ≠ .status jobId (.json (some .done) finalUrl))
    (timer : Option ℤ) (p : Page) : Quiet p (p.receive reply timer) := by
  cases reply with
  | process jobId =>
      cases jobId with
      | none => exact ⟨rfl, rfl, rfl, rfl⟩
      | some jobId => exact ⟨rfl, rfl, rfl, rfl⟩
  | status jobId answer =>
      refine checkStatus_quiet (fun finalUrl heq => ?_) timer p
      exact hreply jobId finalUrl (congrArg _ heq)
  | upload folderId ok =>
      cases ok with
      | true =>
          rw [receive, onUploadAccepted]
          cases p.kind with
          | index => exact ⟨rfl, rfl, rfl, rfl⟩
          | podcast => exact ⟨rfl, rfl, rfl, rfl⟩
      | false => exact ⟨rfl, rfl, rfl, rfl⟩
  | cancel folderId ok =>
      cases ok with
      | true => exact ⟨rfl, rfl, rfl, rfl⟩
      | false => exact ⟨rfl, rfl, rfl, rfl⟩

/-- A tick of the live countdown counts down, or posts the upload and ends the countdown. -/
theorem SingleUpload.tick (h : SingleUpload p) {handle : ℕ} {timeLeft : ℤ}
    (hlive : p.countdowns.lookup handle = some timeLeft) :
    SingleUpload (p.tick handle timeLeft) := by
  rcases h.countdowns with hnone | ⟨handle', timeLeft', hone, htimer⟩
  · rw [hnone] at hlive
    cases hlive
  · have hhandle : handle = handle' := by
      by_contra hne
      rw [hone, List.lookup_cons, beq_false_of_ne hne] at hlive
      cases hlive
    subst hhandle
    have hposted : p.posted = [] := by
      refine h.posted.resolve_right fun hposted => ?_
      rw [hone] at hposted
      exact absurd hposted.2.1 (List.cons_ne_nil _ _)
    have hticked : SingleUpload { p with
        countdowns := p.countdowns.map fun countdown =>
          if countdown.1 = handle then (handle, timeLeft - 1) else countdown } :=
      ⟨Or.inr ⟨handle, timeLeft - 1, by simp [hone], htimer⟩, Or.inl hposted⟩
    rw [Page.tick]
    split
    · refine SingleUpload.uploadToR2 ⟨Or.inl hticked.clearCountdown, Or.inl hposted⟩ hposted
    · exact hticked

/-! ### Steps -/

/-- What the user and the page's timers do leaves the page with one upload at most. -/
theorem SingleUpload.act (h : SingleUpload p) {action : Action} (hact : Effect p action p') :
    SingleUpload p' := by
  cases hact with
  | submit hform => exact h.quiet ⟨rfl, rfl, rfl, rfl⟩
  | poll handle jobId hpoll => exact h.quiet ⟨rfl, rfl, rfl, rfl⟩
  | tick handle timeLeft hlive => exact h.tick hlive
  | clickUpload hpreview =>
      refine h.uploadToR2 (h.posted.resolve_right fun hposted => ?_)
      exact absurd (hposted.2.2.symm.trans hpreview) (by simp)
  | clickCancel hpreview =>
      refine ⟨Or.inl h.clearCountdown, h.posted.imp_right fun hposted => ?_⟩
      exact ⟨hposted.1, h.clearCountdown, hposted.2.2⟩
  | clickAgain hfinal => exact h.quiet ⟨rfl, rfl, rfl, rfl⟩

/-- **One step** of a page that shows its preview once leaves it with one upload at most. -/
theorem SingleUpload.step (h : SingleUpload p) {e : Event} (hfirst : FirstPreview p e)
    (hstep : Page.step p e = some p') : SingleUpload p' := by
  cases e with
  | act action => exact h.act (step_act hstep).2
  | receive reply timer =>
      obtain ⟨-, rfl⟩ := step_receive hstep
      have herase : SingleUpload { p with requests := p.requests.erase reply.request } :=
        h.quiet ⟨rfl, rfl, rfl, rfl⟩
      by_cases hdone : ∃ jobId finalUrl, reply = .status jobId (.json (some .done) finalUrl)
      · obtain ⟨jobId, finalUrl, rfl⟩ := hdone
        obtain ⟨hcountdowns, hposted⟩ := hfirst jobId finalUrl timer rfl
        exact SingleUpload.showPreview timer hcountdowns hposted
      · exact herase.quiet (receive_quiet
          (fun jobId finalUrl heq => hdone ⟨jobId, finalUrl, heq⟩) timer _)

/-- A second preview while a countdown is live makes a second one. -/
theorem second_countdown (hlive : p.countdowns ≠ []) (timer : Option ℤ) :
    2 ≤ (p.showPreview timer).countdowns.length := by
  have hlength := List.length_pos_iff.mpr hlive
  rw [showPreview]
  dsimp only
  rw [List.length_append, List.length_singleton]
  omega

/-- A second preview after the upload makes a second upload, at a click. -/
theorem second_upload (hposted : p.currentFolderId ∈ p.posted) (timer : Option ℤ)
    (hlive : p.gone = false) :
    ∃ p', Page.step (p.showPreview timer) (.act .clickUpload) = some p' ∧
      2 ≤ p'.posted.count p.currentFolderId := by
  refine ⟨(p.showPreview timer).uploadToR2, ?_, ?_⟩
  · rw [Page.step, showPreview, if_neg (by simp [hlive])]
    rfl
  · have hcount := List.count_pos_iff.mpr hposted
    rw [uploadToR2, showPreview]
    dsimp only
    rw [List.count_cons_self]
    omega

/-! ### The main result -/

/-- **One upload per job.** In every run of `index.html`, for any saved job, whose answers `done`
come before any countdown is live and any upload is requested, the page requests at most one upload
of a job, and at most one countdown is live. -/
theorem one_upload {savedJob : Option String} {p : Page}
    (h : Reach Page.step FirstPreview (load .index savedJob) p) :
    (∀ id, p.posted.count id ≤ 1) ∧ p.countdowns.length ≤ 1 := by
  have hsingle : SingleUpload p := h.invariant (load_single .index savedJob)
    fun p e p' hfirst hp hstep => hp.step hfirst hstep
  constructor
  · intro id
    rcases hsingle.posted with hnone | ⟨⟨id', hone⟩, -, -⟩
    · simp [hnone]
    · rw [hone]
      exact List.count_le_length
  · rcases hsingle.countdowns with hnone | ⟨handle, timeLeft, hone, -⟩
    · simp [hnone]
    · simp [hone]

/-- The page of a saved job that has become `done`: the countdown runs down once. -/
theorem one_upload_lecture : ∃ p,
    run Page.step (load .index (some "17-lecture"))
      [.receive (.status "17-lecture" (.json (some .done) none)) (some 1), .act (.tick 1)] =
        some p ∧
      p.posted = ["17-lecture"] ∧ (∀ id, p.posted.count id ≤ 1) ∧ p.countdowns.length ≤ 1 := by
  have hposted : (run Page.step (load .index (some "17-lecture"))
      [.receive (.status "17-lecture" (.json (some .done) none)) (some 1), .act (.tick 1)]).map
      Page.posted = some ["17-lecture"] := by decide
  obtain ⟨p, hrun, hp⟩ := Option.map_eq_some_iff.mp hposted
  rw [run_cons] at hrun
  obtain ⟨p₁, hdone, hrest⟩ := Option.bind_eq_some_iff.mp hrun
  rw [run_cons] at hrest
  obtain ⟨p₂, htick, hend⟩ := Option.bind_eq_some_iff.mp hrest
  obtain rfl := Option.some.inj hend
  refine ⟨p₂, hrun, hp, one_upload ((Reach.start.step ?_ hdone).step ?_ htick)⟩
  · exact fun _ _ _ _ => ⟨rfl, rfl⟩
  · exact fun _ _ _ he => by cases he

/-- **Two answers `done`** lead to two live countdowns, and to two requests for the same upload: one
when the second countdown has run down, and one more at each tick of the first, which nothing ends
any more. -/
theorem not_one_upload :
    (run Page.step (load .index (some "17-lecture"))
      [.act (.poll 0), .receive (.status "17-lecture" (.json (some .done) none)) (some 1),
        .receive (.status "17-lecture" (.json (some .done) none)) (some 1)]).map
        (fun p => p.countdowns) = some [(1, 1), (2, 1)] ∧
      (run Page.step (load .index (some "17-lecture"))
        [.act (.poll 0), .receive (.status "17-lecture" (.json (some .done) none)) (some 1),
          .receive (.status "17-lecture" (.json (some .done) none)) (some 1), .act (.tick 2),
          .act (.tick 1), .act (.tick 1)]).map
        (fun p => (p.posted, p.countdowns)) =
        some (["17-lecture", "17-lecture", "17-lecture"], [(1, -1)]) := by
  decide

end Page

end Mogo
