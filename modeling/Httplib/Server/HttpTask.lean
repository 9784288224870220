import Httplib.Lib.Machine
import Httplib.Server.ResponseFraming
import Httplib.Server.Routing

/-!
# The loop over the requests of a connection

`session::http_task::then` (`lib/server/session.cpp:168`) as a machine: one event for what the
connection, the router or a user handler does next. What the loop owes the connection is that it
begins to read a header only where the last request ends; `http_task_boundary` says in which runs it
does.
-/

namespace Httplib

/-- Where one turn of the loop is. -/
inductive HttpPc where
  /-- In `pre_routing`. -/
  | preRouting
  /-- In the `async_write` of the 100 reply. -/
  | continueReply
  /-- In the loop of `async_read_some`. -/
  | readBody
  /-- In `proc_routing`. -/
  | procRouting
  /-- In `post_routing`. -/
  | postRouting
  /-- In the `async_write` of the response. -/
  | asyncWrite
  deriving DecidableEq

/-- What a turn of the loop works on. -/
structure HttpTurn (Json Handler : Type) where
  pc : HttpPc
  req : Request
  resp : Response Json Handler
  /-- `body_parser.is_done()`: the body was read to its end, or there is none. -/
  bodyDone : Bool

/-- The state of `http_task::then`. -/
inductive HttpTask (Json Handler : Type) where
  /-- Before `async_read_header`; it remembers whether the body of the request before it was read to
  its end. -/
  | readHeader (bodyDone : Bool)
  | turn (turn : HttpTurn Json Handler)
  /-- Another task goes on with the connection. -/
  | handedOver
  /-- The task has returned without a next one: the connection is closed. -/
  | finished

/-- What happens next on a connection. -/
inductive HttpEvent (Json Handler : Type) where
  /-- `async_read_header` fails. -/
  | headerFailed
  /-- A header was read, which asks to keep the connection or not, and to upgrade it or not. -/
  | header (req : Request) (keepAlive upgrade bodyDone : Bool)
  /-- `pre_routing` returns. -/
  | preRouted
  /-- The 100 reply is written, or not. -/
  | continued (ok : Bool)
  /-- A part of the body is read, which may be the last one. -/
  | bodyRead (bodyDone : Bool)
  /-- Reading the body fails. -/
  | bodyFailed
  /-- `proc_routing` returns; a handler it has run has made this of the response. -/
  | procRouted (handler : Response Json Handler → Response Json Handler)
  /-- `post_routing` returns; its two handlers do this to the response. -/
  | postRouted (notFound post : Response Json Handler → Response Json Handler)
  /-- An exception leaves what the task does before a user handler runs, with or without
  `keep_alive(false)` behind it. -/
  | thrown (what : Bytes) (closed : Bool)
  /-- An exception leaves a user handler, which has made this of the response. -/
  | handlerThrew (what : Bytes) (handler : Response Json Handler → Response Json Handler)
  /-- The response is written, or not. -/
  | written (ok : Bool)

section Model

variable {Handler Ws Regex Json StreamHandler : Type} [StdRegex Regex]

namespace HttpTurn

/-- The `catch` blocks (`session.cpp:244`). -/
def caught (t : HttpTurn Json StreamHandler) (what : Bytes) : HttpTurn Json StreamHandler :=
  { t with
    pc := .asyncWrite
    resp := t.resp.setStringContent what (bytes "text/plain") 500 }

/-- The way from the 100 reply to the loop over the body, and past it if there is none
(`session.cpp:225`). -/
def enterBody (t : HttpTurn Json StreamHandler) : HttpTurn Json StreamHandler :=
  { t with pc := if t.bodyDone then .procRouting else .readBody }

/-- `pre_routing` and what follows it (`session.cpp:216`). -/
def preRouted (host : Host) (router : Router Handler Ws Regex) (t : HttpTurn Json StreamHandler) :
    HttpTurn Json StreamHandler :=
  match router.preRouting host t.req t.resp with
  | (true, resp) =>
    if iequals (t.req.fields.get .expect) (bytes "100-continue") then
      { t with pc := .continueReply, resp }
    else { t with resp }.enterBody
  | (false, resp) => { t with pc := .postRouting, resp }

/-- `proc_routing` (`session.cpp:240`). -/
def procRouted (host : Host) (router : Router Handler Ws Regex)
    (handler : Response Json StreamHandler → Response Json StreamHandler)
    (t : HttpTurn Json StreamHandler) : HttpTurn Json StreamHandler :=
  match router.procRouting host t.req t.resp with
  | .run _ req => { t with pc := .postRouting, req, resp := handler t.resp }
  | .answered resp => { t with pc := .postRouting, resp }

/-- `router_impl::post_routing` (`router_impl.cpp:279`). -/
def postRouted (router : Router Handler Ws Regex)
    (notFound post : Response Json StreamHandler → Response Json StreamHandler)
    (t : HttpTurn Json StreamHandler) : HttpTurn Json StreamHandler :=
  let resp :=
    if router.notFoundHandler.isSome ∧ t.resp.header.result = 404 then notFound t.resp else t.resp
  { t with pc := .asyncWrite, resp := if router.postHandler.isSome then post resp else resp }

/-- The end of a turn (`session.cpp:268`): `async_write` may throw, fail or succeed. -/
def written (preparePayload : ResponseHeader → Option ResponseHeader) (supported : Bytes → Bool)
    (t : HttpTurn Json StreamHandler) (ok : Bool) : HttpTask Json StreamHandler :=
  match t.resp.prepare preparePayload supported t.req with
  | none => .finished
  | some resp => if ok ∧ resp.header.keepAlive then .readHeader t.bodyDone else .finished

end HttpTurn

/-- `http_task::then` (`session.cpp:168`), over the `prepare_payload` of Beast and the codings that
are built in. -/
def httpTask (host : Host) (preparePayload : ResponseHeader → Option ResponseHeader)
    (supported : Bytes → Bool) (router : Router Handler Ws Regex) :
    Machine (HttpTask Json StreamHandler) (HttpEvent Json StreamHandler) where
  init s := s = .readHeader true
  step
    | .readHeader _, .headerFailed => some .finished
    | .readHeader _, .header req keepAlive upgrade bodyDone =>
      if req.method = .connect ∨ upgrade then some .handedOver
      else some (.turn
        { pc := .preRouting, req, resp := .new host req.version keepAlive, bodyDone })
    | .turn t, event =>
      match t.pc, event with
      | .preRouting, .preRouted => some (.turn (t.preRouted host router))
      | .preRouting, .thrown what closed =>
        some (.turn ((if closed then { t with resp := t.resp.setKeepAlive false } else t).caught
          what))
      | .continueReply, .continued ok => some (if ok then .turn t.enterBody else .finished)
      | .continueReply, .thrown what false => some (.turn (t.caught what))
      | .readBody, .bodyRead bodyDone =>
        some (.turn (if bodyDone then { t with pc := .procRouting, bodyDone } else t))
      | .readBody, .bodyFailed => some .finished
      | .readBody, .thrown what false => some (.turn (t.caught what))
      | .procRouting, .procRouted handler => some (.turn (t.procRouted host router handler))
      | .procRouting, .thrown what false => some (.turn (t.caught what))
      | .procRouting, .handlerThrew what handler =>
        some (.turn ({ t with resp := handler t.resp }.caught what))
      | .postRouting, .postRouted notFound post => some (.turn (t.postRouted router notFound post))
      | .postRouting, .handlerThrew what handler =>
        some (.turn ({ t with resp := handler t.resp }.caught what))
      | .asyncWrite, .written ok => some (t.written preparePayload supported ok)
      | _, _ => none
    | _, _ => none

/-! ## The boundary between two requests -/

/-- The handlers of `post_routing` leave keep-alive off: the last one that runs makes a response without
it. -/
def HttpTurn.LeavesOff (router : Router Handler Ws Regex)
    (notFound post : Response Json StreamHandler → Response Json StreamHandler)
    (t : HttpTurn Json StreamHandler) : Prop :=
  let missing := router.notFoundHandler.isSome ∧ t.resp.header.result = 404
  (router.postHandler.isSome →
    (post (if missing then notFound t.resp else t.resp)).header.keepAlive = false) ∧
  (router.postHandler = none → missing → (notFound t.resp).header.keepAlive = false)

namespace HttpTask

/-- A header is read only where the body before it was read to its end, and a response is written
behind an unread body only to close the connection. -/
def Boundary : HttpTask Json StreamHandler → Prop
  | .readHeader bodyDone => bodyDone = true
  | .turn t => t.pc = .asyncWrite → t.bodyDone = true ∨ t.resp.header.keepAlive = false
  | _ => True

/-- A step that does not leave the body unread on a connection that is kept: no exception is thrown
before the end of the body while keep-alive is on, and no handler turns it on behind a refusal. -/
def Closes (router : Router Handler Ws Regex) :
    HttpTask Json StreamHandler → HttpEvent Json StreamHandler → Prop
  | .turn t, .thrown _ closed =>
    t.bodyDone = true ∨ closed = true ∨ t.resp.header.keepAlive = false
  | .turn t, .handlerThrew _ handler =>
    t.bodyDone = true ∨ (handler t.resp).header.keepAlive = false
  | .turn t, .postRouted notFound post =>
    t.bodyDone = true ∨ t.LeavesOff router notFound post
  | _, _ => True

/-- What holds between the steps of a turn: a body is behind `proc_routing`, and behind a refusal
keep-alive is off. -/
def Inv : HttpTask Json StreamHandler → Prop
  | .readHeader bodyDone => bodyDone = true
  | .turn t =>
    (t.pc = .procRouting → t.bodyDone = true) ∧
      (t.pc = .postRouting ∨ t.pc = .asyncWrite →
        t.bodyDone = true ∨ t.resp.header.keepAlive = false)
  | _ => True

theorem Inv.boundary {s : HttpTask Json StreamHandler} (h : s.Inv) : s.Boundary := by
  cases s with
  | readHeader => exact h
  | turn t => exact fun hpc => h.2 (.inr hpc)
  | handedOver | finished => trivial

end HttpTask

/-- `pre_routing` refuses only with keep-alive off. -/
theorem Router.keepAlive_preRouting {host : Host} {router : Router Handler Ws Regex} {req : Request}
    {resp resp' : Response Json StreamHandler}
    (h : router.preRouting host req resp = (false, resp')) : resp'.header.keepAlive = false := by
  unfold Router.preRouting at h
  split at h
  case h_6 =>
    obtain ⟨node, st⟩ := router.root.matchNodes (collect req.method) (splitSegments req.path)
      { params := [], seen := [] }
    dsimp only at h
    split at h
    · split at h
      · cases h
      · split at h <;> (cases h; rfl)
    · split at h <;> (cases h; rfl)
  all_goals cases h

/-- `async_write` leaves keep-alive as it is. -/
theorem Response.keepAlive_prepare {preparePayload : ResponseHeader → Option ResponseHeader}
    (hpayload : ∀ h h', preparePayload h = some h' → h'.keepAlive = h.keepAlive)
    {supported : Bytes → Bool} {req : Request} {r r' : Response Json StreamHandler}
    (h : r.prepare preparePayload supported req = some r') :
    r'.header.keepAlive = r.header.keepAlive := by
  have hencoding : ∀ header : ResponseHeader,
      (applyEncoding supported req header).keepAlive = header.keepAlive := by
    intro header
    unfold applyEncoding
    dsimp only
    split <;> rfl
  obtain ⟨header, hheader, rfl⟩ := Option.map_eq_some_iff.1 h
  have hkeep : header.keepAlive = r.header.keepAlive := by
    unfold prepareHeader at hheader
    split at hheader
    · cases hheader; rfl
    · split at hheader
      · cases hheader; exact hencoding _
      · obtain ⟨h₁, hpre, rfl⟩ := Option.map_eq_some_iff.1 hheader
        exact (hencoding _).trans (hpayload _ _ hpre)
  split <;> exact hkeep

namespace HttpTurn

variable {t : HttpTurn Json StreamHandler}

theorem inv_caught (what : Bytes) (h : t.bodyDone = true ∨ t.resp.header.keepAlive = false) :
    (HttpTask.turn (t.caught what)).Inv :=
  ⟨nofun, fun _ => h⟩

theorem inv_enterBody : (HttpTask.turn t.enterBody).Inv := by
  unfold enterBody
  cases hdone : t.bodyDone with
  | true => exact ⟨fun _ => rfl, fun _ => .inl rfl⟩
  | false => exact ⟨nofun, nofun⟩

/-- `pre_routing` hands on a request whose body is to be read, or one it has refused. -/
theorem inv_preRouted (host : Host) (router : Router Handler Ws Regex) :
    (HttpTask.turn (t.preRouted host router)).Inv := by
  unfold preRouted
  split
  · split
    · exact ⟨nofun, nofun⟩
    · exact inv_enterBody
  · next resp hrefused => exact ⟨nofun, fun _ => .inr (Router.keepAlive_preRouting hrefused)⟩

theorem inv_procRouted (host : Host) (router : Router Handler Ws Regex)
    (handler : Response Json StreamHandler → Response Json StreamHandler)
    (hdone : t.bodyDone = true) : (HttpTask.turn (t.procRouted host router handler)).Inv := by
  unfold procRouted
  split <;> exact ⟨nofun, fun _ => .inl hdone⟩

omit [StdRegex Regex] in
/-- Where keep-alive is off and the handlers leave it so, `post_routing` does. -/
theorem keepAlive_postRouted {router : Router Handler Ws Regex}
    {notFound post : Response Json StreamHandler → Response Json StreamHandler}
    (hoff : t.resp.header.keepAlive = false) (hleaves : t.LeavesOff router notFound post) :
    (t.postRouted router notFound post).resp.header.keepAlive = false := by
  obtain ⟨hpost, hmissing⟩ := hleaves
  unfold postRouted
  dsimp only
  split
  · next hsome => exact hpost hsome
  · next hnone =>
    split
    · next hruns => exact hmissing (Option.not_isSome_iff_eq_none.1 hnone) hruns
    · exact hoff

/-- Behind a written response the loop goes on only with keep-alive. -/
theorem inv_written {preparePayload : ResponseHeader → Option ResponseHeader}
    (hpayload : ∀ h h', preparePayload h = some h' → h'.keepAlive = h.keepAlive)
    {supported : Bytes → Bool} (ok : Bool)
    (h : t.bodyDone = true ∨ t.resp.header.keepAlive = false) :
    (t.written preparePayload supported ok).Inv := by
  unfold written
  split
  · trivial
  · next resp hprepare =>
    split
    · next hkeep =>
      refine h.resolve_right fun hoff => ?_
      rw [Response.keepAlive_prepare hpayload hprepare, hoff] at hkeep
      exact absurd hkeep.2 nofun
    · trivial

end HttpTurn

/-- A step of the loop keeps what holds between its steps. -/
theorem HttpTask.Inv.step {host : Host} {preparePayload : ResponseHeader → Option ResponseHeader}
    (hpayload : ∀ h h', preparePayload h = some h' → h'.keepAlive = h.keepAlive)
    {supported : Bytes → Bool} {router : Router Handler Ws Regex}
    {s s' : HttpTask Json StreamHandler} {event : HttpEvent Json StreamHandler} (h : s.Inv)
    (hcloses : s.Closes router event)
    (hstep : (httpTask host preparePayload supported router).step s event = some s') : s'.Inv := by
  unfold httpTask at hstep
  dsimp only at hstep
  split at hstep
  · cases hstep; trivial
  · split at hstep
    · cases hstep; trivial
    · cases hstep
      exact ⟨nofun, nofun⟩
  · next t event =>
    obtain ⟨hproc, hpost⟩ := h
    split at hstep
    -- `pre_routing`
    · cases hstep
      exact HttpTurn.inv_preRouted host router
    · next what closed _ =>
      cases hstep
      refine HttpTurn.inv_caught what ?_
      rcases hcloses with hdone | rfl | hoff
      · left; split <;> exact hdone
      · exact .inr rfl
      · right; split
        · rfl
        · exact hoff
    -- the 100 reply
    · next ok _ =>
      cases hstep
      split
      · exact HttpTurn.inv_enterBody
      · trivial
    · next what _ =>
      cases hstep
      exact HttpTurn.inv_caught what (hcloses.imp_right (·.resolve_left nofun))
    -- the body
    · next bodyDone hpc =>
      cases hstep
      cases bodyDone with
      | true => exact ⟨fun _ => rfl, fun _ => .inl rfl⟩
      | false => exact ⟨hproc, hpost⟩
    · cases hstep; trivial
    · next what _ =>
      cases hstep
      exact HttpTurn.inv_caught what (hcloses.imp_right (·.resolve_left nofun))
    -- `proc_routing`
    · next handler hpc =>
      cases hstep
      exact HttpTurn.inv_procRouted host router handler (hproc hpc)
    · next what hpc =>
      cases hstep
      exact HttpTurn.inv_caught what (.inl (hproc hpc))
    · next what handler hpc =>
      cases hstep
      exact HttpTurn.inv_caught what (.inl (hproc hpc))
    -- `post_routing`
    · next notFound post hpc =>
      cases hstep
      refine ⟨nofun, fun _ => ?_⟩
      rcases hpost (.inl hpc) with hdone | hoff
      · exact .inl hdone
      · exact hcloses.imp_right (HttpTurn.keepAlive_postRouted hoff)
    · next what handler hpc =>
      cases hstep
      exact HttpTurn.inv_caught what hcloses
    -- the response
    · next ok hpc =>
      cases hstep
      exact HttpTurn.inv_written hpayload ok (hpost (.inr hpc))
    · cases hstep
  · cases hstep

/-- **The boundary between two requests.** In every run of the loop in which no exception is thrown
before the end of the body while keep-alive is on, and no handler turns keep-alive on behind a
refusal, a header is read only where the body before it was read to its end; where it was not, the
response is written only to close the connection. -/
theorem http_task_boundary (host : Host)
    {preparePayload : ResponseHeader → Option ResponseHeader}
    (hpayload : ∀ h h', preparePayload h = some h' → h'.keepAlive = h.keepAlive)
    (supported : Bytes → Bool) (router : Router Handler Ws Regex)
    {s : HttpTask Json StreamHandler}
    (h : (httpTask host preparePayload supported router).Reaches (HttpTask.Closes router) s) :
    s.Boundary := by
  refine HttpTask.Inv.boundary (h.invariant ?_ ?_)
  · rintro s rfl
    rfl
  · exact fun s event s' hinv hcloses hstep => hinv.step hpayload hcloses hstep

end Model

/-- `prepare_payload` for a body without `size` leaves keep-alive as it is. -/
theorem keepAlive_chunkedPayload (h h' : ResponseHeader) (heq : chunkedPayload h = some h') :
    h'.keepAlive = h.keepAlive := by
  unfold chunkedPayload at heq
  split at heq <;> (cases heq; rfl)

/-- A router that answers a POST under a number. -/
def numberRouter : Router Unit Unit Bytes :=
  let _ := literalRegex
  (Router.setHttpHandler {} .post (bytes "/\x7bid:7\x7d") ()).1

open scoped Platform.Plain in
/-- A POST that is read to its end and answered. -/
theorem http_task_boundary_post :
    letI := literalRegex
    ∃ s : HttpTask Unit Unit,
      (httpTask plainHost chunkedPayload (fun _ => false) numberRouter).Reaches
        (HttpTask.Closes numberRouter) s ∧
      s = .readHeader true ∧ s.Boundary := by
  let _ := literalRegex
  have hreaches : (httpTask plainHost chunkedPayload (fun _ => false) numberRouter).Reaches
      (HttpTask.Closes numberRouter) (.readHeader true : HttpTask Unit Unit) := by
    refine .step (a := .written true) (.step (a := .postRouted id id)
      (.step (a := .procRouted (·.setStringContent (bytes "ok") (bytes "text/plain") 200))
      (.step (a := .bodyRead true) (.step (a := .preRouted)
      (.step (a := .header (.ofHeader .post (bytes "/7") 11 []) true false false)
      (.init rfl) ?_ rfl) ?_ rfl) ?_ rfl) ?_ rfl) ?_ rfl) ?_ rfl
    all_goals first | trivial | exact .inl rfl
  exact ⟨_, hreaches, rfl, http_task_boundary plainHost keepAlive_chunkedPayload (fun _ => false)
    numberRouter hreaches⟩

open scoped Platform.Plain in
/-- `regex_match` throws while a POST is routed: its body is read as the next header. -/
theorem http_task_boundary_regex_error :
    letI := literalRegex
    ¬ ∀ (host : Host) (preparePayload : ResponseHeader → Option ResponseHeader)
      (supported : Bytes → Bool) (router : Router Unit Unit Bytes) (s : HttpTask Unit Unit),
      (∀ h h', preparePayload h = some h' → h'.keepAlive = h.keepAlive) →
      (httpTask host preparePayload supported router).Reachable s → s.Boundary := by
  let _ := literalRegex
  intro h
  have hrun : (httpTask plainHost chunkedPayload (fun _ => false) numberRouter).run
      (.readHeader true)
      [.header (.ofHeader .post (bytes "/7") 11 []) true false false,
        .thrown (bytes "regex_error") false, .written true] =
      some (.readHeader false : HttpTask Unit Unit) := rfl
  have hboundary := h plainHost chunkedPayload (fun _ => false) numberRouter _
    keepAlive_chunkedPayload (Machine.Reachable.run (.init rfl) hrun)
  exact absurd hboundary Bool.false_ne_true

end Httplib
