import Mogo.Server
import Mogo.Transition

/-!
# The Pages

`index.html` and `podcast.html` as far as they follow a job: the area a page shows, its polling
intervals and countdowns with the one variable that holds the handle of each, and the requests it
waits for. `setInterval` gives a new handle every time; `clearInterval` ends the interval of the
handle it is given, and no other.

The pages differ in two places: what they do when the upload to R2 has been accepted, and when it
is done.

## Main results

* `Page.receive`: what the answer to a request makes of a page.
* `Page.step`: what the user, the timers and the answers make of it.
* `Page.step_act`, `Page.step_receive`: what a step does.
-/

namespace Mogo

/-- The pages that follow a job: that of videos and that of podcasts. -/
inductive PageKind where
  | index
  | podcast
  deriving DecidableEq, Repr

/-- What a page asks of the server: `/process` or `/process-podcast`, `/status`, `/upload-to-r2`
and `/cancel`. -/
inductive Request where
  | process
  | status (jobId : String)
  | upload (folderId : String)
  | cancel (folderId : String)
  deriving DecidableEq, Repr

/-- What becomes of a request for the status: it fails, it is answered 404, or it is answered with
an object that may have the properties `status` and `finalUrl`. -/
inductive Answer where
  | failed
  | notFound
  | json (status : Option Status) (finalUrl : Option String)
  deriving DecidableEq, Repr

/-- What becomes of a request. A pipeline that has been started has a job id. -/
inductive Reply where
  | process (jobId : Option String)
  | status (jobId : String) (answer : Answer)
  | upload (folderId : String) (ok : Bool)
  | cancel (folderId : String) (ok : Bool)
  deriving DecidableEq, Repr

/-- The request that a reply is to. -/
def Reply.request : Reply → Request
  | .process _ => .process
  | .status jobId _ => .status jobId
  | .upload folderId _ => .upload folderId
  | .cancel folderId _ => .cancel folderId

/-- A page. `shown` is the status that `statusText` tells of, and `posted` remembers the jobs for
which `/upload-to-r2` has been requested. A page that is `gone` has been left or reloaded. -/
structure Page where
  kind : PageKind
  uploadForm : Bool
  loadingArea : Bool
  previewArea : Bool
  finalArea : Bool
  shown : Option Status
  currentFolderId : String
  pollingInterval : Option ℕ
  countdownTimer : Option ℕ
  polls : List (ℕ × String)
  countdowns : List (ℕ × ℤ)
  nextHandle : ℕ
  requests : List Request
  posted : List String
  gone : Bool
  deriving DecidableEq, Repr

namespace Page

/-- The page before its script has run. -/
def blank (kind : PageKind) : Page :=
  ⟨kind, true, false, false, false, none, "", none, none, [], [], 0, [], [], false⟩

/-- `fetch`, and `xhr.send`: the request is in flight. -/
def send (request : Request) (p : Page) : Page := { p with requests := p.requests ++ [request] }

/-- `clearInterval(pollingInterval)`. -/
def clearPolling (p : Page) : Page :=
  { p with polls := p.polls.filter fun poll => some poll.1 ≠ p.pollingInterval }

/-- `clearInterval(countdownTimer)`. -/
def clearCountdown (p : Page) : Page :=
  { p with countdowns := p.countdowns.filter fun countdown => some countdown.1 ≠ p.countdownTimer }

/-- `clearStateAndReload`, and `window.location.reload`. -/
def clearStateAndReload (p : Page) : Page := { p with gone := true }

/-- `startPolling`. The first request is sent at once. -/
def startPolling (jobId : String) (p : Page) : Page :=
  { p.send (.status jobId) with
    polls := p.polls ++ [(p.nextHandle, jobId)]
    pollingInterval := some p.nextHandle
    nextHandle := p.nextHandle + 1 }

/-- `window.onload`, with the job that is saved in the local storage. -/
def load (kind : PageKind) : Option String → Page
  | none => blank kind
  | some savedJob =>
    if savedJob = "" then blank kind
    else
      { blank kind with
        currentFolderId := savedJob
        uploadForm := false
        loadingArea := true }.startPolling savedJob

/-- `parseInt(localStorage.getItem(..)) || 30`. What is no number is `none`. -/
def timeLeft (timer : Option ℤ) : ℤ :=
  match timer with
  | none => 30
  | some n => if n = 0 then 30 else n

/-- `showPreview`: the loading area makes way for the preview, and a countdown is started. -/
def showPreview (timer : Option ℤ) (p : Page) : Page :=
  { p with
    loadingArea := false
    previewArea := true
    countdowns := p.countdowns ++ [(p.nextHandle, timeLeft timer)]
    countdownTimer := some p.nextHandle
    nextHandle := p.nextHandle + 1 }

/-- `showPublishedLink` of `index.html`. Without a link it returns after an `alert`. -/
def showPublishedLink (finalUrl : Option String) (p : Page) : Page :=
  if finalUrl.getD "" = "" then p else { p with loadingArea := false, finalArea := true }

/-- What a page does with `r2_done`. -/
def onR2Done (finalUrl : Option String) (p : Page) : Page :=
  match p.kind with
  | .index => p.clearPolling.showPublishedLink finalUrl
  | .podcast => { p.clearPolling with loadingArea := false, finalArea := true }

/-- `checkStatus`, once the answer is there. -/
def checkStatus (answer : Answer) (timer : Option ℤ) (p : Page) : Page :=
  match answer with
  | .failed => p
  | .notFound => p.clearPolling.clearStateAndReload
  | .json (some .compressing) _ => { p with shown := some .compressing }
  | .json (some .whisper) _ => { p with shown := some .whisper }
  | .json (some .translating) _ => { p with shown := some .translating }
  | .json (some .done) _ => p.clearPolling.showPreview timer
  | .json (some .uploading_r2) _ => { p with shown := some .uploading_r2 }
  | .json (some .r2_done) finalUrl => p.onR2Done finalUrl
  | .json (some .error) _ => p.clearPolling.clearStateAndReload
  | .json none _ => p

/-- `uploadToR2`, up to its request. -/
def uploadToR2 (p : Page) : Page :=
  { p.clearCountdown.send (.upload p.currentFolderId) with
    previewArea := false
    loadingArea := true
    shown := some .uploading_r2
    posted := p.currentFolderId :: p.posted }

/-- `uploadToR2`, once its request has been accepted. -/
def onUploadAccepted (p : Page) : Page :=
  match p.kind with
  | .index => p.startPolling p.currentFolderId
  | .podcast => p

/-- The form is submitted: the request is sent, and the loading area is shown in place of the
form. -/
def submit (p : Page) : Page :=
  { p.send .process with uploadForm := false, loadingArea := true }

/-- What the answer to a request makes of a page. -/
def receive (reply : Reply) (timer : Option ℤ) (p : Page) : Page :=
  match reply with
  | .process (some jobId) => { p with currentFolderId := jobId }.startPolling jobId
  | .process none => p.clearStateAndReload
  | .status _ answer => p.checkStatus answer timer
  | .upload _ true => p.onUploadAccepted
  | .upload _ false => p.clearStateAndReload
  | .cancel _ true => p.clearStateAndReload
  | .cancel _ false => p

/-- A countdown ticks: it has a second less, and at zero the upload is requested. -/
def tick (handle : ℕ) (timeLeft : ℤ) (p : Page) : Page :=
  let p' := { p with
    countdowns := p.countdowns.map fun countdown =>
      if countdown.1 = handle then (handle, timeLeft - 1) else countdown }
  if timeLeft - 1 ≤ 0 then p'.clearCountdown.uploadToR2 else p'

/-- What the user and the timers do. -/
inductive Action where
  | submit
  | poll (handle : ℕ)
  | tick (handle : ℕ)
  | clickUpload
  | clickCancel
  | clickAgain
  deriving DecidableEq, Repr

/-- What an action makes of a page. A button can be clicked while its area is shown. -/
def act (p : Page) : Action → Option Page
  | .submit => if p.uploadForm then some p.submit else none
  | .poll handle => (p.polls.lookup handle).map fun jobId => p.send (.status jobId)
  | .tick handle => (p.countdowns.lookup handle).map fun timeLeft => p.tick handle timeLeft
  | .clickUpload => if p.previewArea then some p.uploadToR2 else none
  | .clickCancel =>
    if p.previewArea then some (p.clearCountdown.send (.cancel p.currentFolderId)) else none
  | .clickAgain => if p.finalArea then some p.clearStateAndReload else none

/-- What happens to a page: an action, or the answer to a request that is in flight. -/
inductive Event where
  | act (action : Action)
  | receive (reply : Reply) (timer : Option ℤ)
  deriving DecidableEq, Repr

/-- What an event makes of a page, if it can happen. -/
def step (p : Page) (e : Event) : Option Page :=
  if p.gone then none
  else
    match e with
    | .act action => p.act action
    | .receive reply timer =>
      if reply.request ∈ p.requests then
        some ({ p with requests := p.requests.erase reply.request }.receive reply timer)
      else none

/-! ### Steps -/

/-- What an action of the user or of a timer does to the page. -/
inductive Effect (p : Page) : Action → Page → Prop
  | submit (hform : p.uploadForm = true) : Effect p .submit p.submit
  | poll (handle : ℕ) (jobId : String) (hpoll : p.polls.lookup handle = some jobId) :
      Effect p (.poll handle) (p.send (.status jobId))
  | tick (handle : ℕ) (timeLeft : ℤ) (hlive : p.countdowns.lookup handle = some timeLeft) :
      Effect p (.tick handle) (p.tick handle timeLeft)
  | clickUpload (hpreview : p.previewArea = true) : Effect p .clickUpload p.uploadToR2
  | clickCancel (hpreview : p.previewArea = true) :
      Effect p .clickCancel (p.clearCountdown.send (.cancel p.currentFolderId))
  | clickAgain (hfinal : p.finalArea = true) : Effect p .clickAgain p.clearStateAndReload

variable {p p' : Page}

/-- What an action does to a page is one of the effects that are listed. -/
theorem act_effect {action : Action} (h : p.act action = some p') : Effect p action p' := by
  cases action with
  | submit =>
      obtain ⟨hform, heq⟩ := Option.ite_none_right_eq_some.mp h
      exact Option.some.inj heq ▸ .submit hform
  | poll handle =>
      obtain ⟨jobId, hpoll, rfl⟩ := Option.map_eq_some_iff.mp h
      exact .poll handle jobId hpoll
  | tick handle =>
      obtain ⟨timeLeft, hlive, rfl⟩ := Option.map_eq_some_iff.mp h
      exact .tick handle timeLeft hlive
  | clickUpload =>
      obtain ⟨hpreview, heq⟩ := Option.ite_none_right_eq_some.mp h
      exact Option.some.inj heq ▸ .clickUpload hpreview
  | clickCancel =>
      obtain ⟨hpreview, heq⟩ := Option.ite_none_right_eq_some.mp h
      exact Option.some.inj heq ▸ .clickCancel hpreview
  | clickAgain =>
      obtain ⟨hfinal, heq⟩ := Option.ite_none_right_eq_some.mp h
      exact Option.some.inj heq ▸ .clickAgain hfinal

/-- An action of a page that is still there. -/
theorem step_act {action : Action} (h : step p (.act action) = some p') :
    p.gone = false ∧ Effect p action p' := by
  rw [step.eq_def] at h
  split at h
  · cases h
  next hgone => exact ⟨Bool.eq_false_iff.mpr hgone, act_effect h⟩

/-- The answer to a request that is in flight. -/
theorem step_receive {reply : Reply} {timer : Option ℤ}
    (h : step p (.receive reply timer) = some p') :
    reply.request ∈ p.requests ∧
      p' = { p with requests := p.requests.erase reply.request }.receive reply timer := by
  rw [step.eq_def] at h
  split at h
  · cases h
  · obtain ⟨hrequest, heq⟩ := Option.ite_none_right_eq_some.mp h
    exact ⟨hrequest, (Option.some.inj heq).symm⟩

end Page

end Mogo
