import Mogo.CallbackScope
import Mogo.Page

/-!
# A Page and the Server

The server of a page, the page, and the requests and answers on their way between them. The server
does what it does for others too: pipelines go on, other tabs start, publish and cancel jobs. It can
be restarted, and the page can be loaded at any time, with whatever job the local storage holds. A
request or an answer can get lost.

## Main results

* `Session.step`: what an event makes of a page and its server.
* `Session.InFlight`: a request stays in flight until it is answered.
-/

namespace Mogo

open Transition

namespace Server

/-- `res.json(jobs[req.params.jobId] || {error: 'Not found'})`. -/
def statusAnswer (jobId : String) (s : Server) : Answer :=
  match s.jobs jobId with
  | some job => .json job.status job.finalUrl
  | none => .json none none

/-- The process ends and is started again. What is on disk and in the bucket stays. -/
def restart (s : Server) : Server :=
  { s with jobs := fun _ => none, tasks := [], crashed := false, cancelled := [] }

end Server

/-- What the page makes of a request that fails. -/
def Request.failure : Request → Reply
  | .process => .process none
  | .status jobId => .status jobId .failed
  | .upload folderId => .upload folderId false
  | .cancel folderId => .cancel folderId false

/-- The server, a page, and the answers on their way back to it. The requests that have not reached
the server yet are those of the page. -/
structure Session where
  server : Server
  page : Page
  replies : List Reply

namespace Session

/-- What can happen: an event of the server that is not of this page, a restart, a page load; an
action on the page; a request of the page that reaches the server; an answer that reaches the page;
a request or an answer that gets lost. -/
inductive Event where
  | server (e : Mogo.Event)
  | restart
  | load (kind : PageKind) (savedJob : Option String)
  | act (action : Page.Action)
  | process (p : Pipeline) (size : ℕ)
  | status (jobId : String)
  | upload (folderId series episode : String)
  | cancel (folderId : String)
  | deliver (reply : Reply) (timer : Option ℤ)
  | fail (request : Request)
  | drop (reply : Reply)
  deriving DecidableEq, Repr

variable (cfg : ServerConfig)

/-- The server answers a request of the page, and the answer is on its way. -/
def answer (request : Request) (reply : Reply) (s : Session) (server : Server) : Option Session :=
  if request ∈ s.page.requests then
    some ⟨server, { s.page with requests := s.page.requests.erase request }, s.replies ++ [reply]⟩
  else none

/-- What an event makes of a session, if it can happen. -/
def step (s : Session) (e : Event) : Option Session :=
  match e with
  | .server e => (Server.step cfg s.server e).map fun server => { s with server := server }
  | .restart => some { s with server := s.server.restart }
  | .load kind savedJob => some ⟨s.server, Page.load kind savedJob, []⟩
  | .act action =>
    if s.page.gone then none
    else (s.page.act action).map fun page => { s with page := page }
  | .process p size =>
    (Server.step cfg s.server (.process p size)).bind
      (s.answer .process (.process (some p.folderId)))
  | .status jobId =>
    if s.server.crashed then none
    else s.answer (.status jobId) (.status jobId (s.server.statusAnswer jobId)) s.server
  | .upload folderId series episode =>
    (Server.step cfg s.server (.uploadToR2 folderId series episode)).bind
      (s.answer (.upload folderId)
        (.upload folderId (s.server.folders (cfg.outputFolder folderId)).isSome))
  | .cancel folderId =>
    (Server.step cfg s.server (.cancel folderId)).bind
      (s.answer (.cancel folderId) (.cancel folderId true))
  | .deliver reply timer =>
    if s.page.gone = false ∧ reply ∈ s.replies then
      some { s with page := s.page.receive reply timer, replies := s.replies.erase reply }
    else none
  | .fail request =>
    if s.page.gone = false ∧ request ∈ s.page.requests then
      some { s with
        page := { s.page with requests := s.page.requests.erase request }.receive
          request.failure none }
    else none
  | .drop reply =>
    if s.page.gone = false ∧ reply ∈ s.replies then
      some { s with
        page := s.page.receive reply.request.failure none
        replies := s.replies.erase reply }
    else none

/-- A request that is not answered yet, as the page sees it. -/
def InFlight (s : Session) (request : Request) : Prop :=
  request ∈ s.page.requests ∨ ∃ reply ∈ s.replies, reply.request = request

/-- No page is open yet, and the server has just been started. -/
structure Initial (s : Session) : Prop where
  server : s.server.Initial
  gone : s.page.gone = true
  replies : s.replies = []

end Session

end Mogo
