import Httplib.Server.HttpTask

/-!
# The exchanges of a connection

What `session::http_task::then` (`lib/server/session.cpp:168`) does on its connection, as a log: the
headers it reads, the 100 replies, the ends of the bodies, the handlers it runs and the responses it
writes. `http_task_exchanges` takes the log of every run apart into exchanges, one behind the other, each
of one request with one response.
-/

namespace Httplib

/-- What is seen of a connection. -/
inductive HttpWire (Handler Json StreamHandler : Type) where
  /-- A header was read. -/
  | asked (req : Request)
  /-- A header was read with which another task goes on. -/
  | handedOver (req : Request)
  /-- The 100 reply was written. -/
  | continued
  /-- The body was read to its end. -/
  | bodyRead
  | ran (handler : Handler) (req : Request)
  /-- An exception was caught. -/
  | threw (what : Bytes)
  | answered (resp : Response Json StreamHandler)

section Model

variable {Handler Ws Regex Json StreamHandler : Type} [StdRegex Regex]

/-- The handler that `proc_routing` runs, if there is one for the request. -/
def HttpTurn.handlers (host : Host) (router : Router Handler Ws Regex)
    (t : HttpTurn Json StreamHandler) : List (HttpWire Handler Json StreamHandler) :=
  match router.procRouting host t.req t.resp with
  | .run handler req => [.ran handler req]
  | .answered _ => []

/-- What is seen of a step. -/
def HttpTask.wire (host : Host) (preparePayload : ResponseHeader → Option ResponseHeader)
    (supported : Bytes → Bool) (router : Router Handler Ws Regex) :
    HttpTask Json StreamHandler → HttpEvent Json StreamHandler →
      List (HttpWire Handler Json StreamHandler)
  | .readHeader _, .header req _ upgrade _ =>
    if req.method = .connect ∨ upgrade then [.handedOver req] else [.asked req]
  | .turn t, event =>
    match t.pc, event with
    | .continueReply, .continued true => [.continued]
    | .readBody, .bodyRead true => [.bodyRead]
    | .procRouting, .procRouted _ => t.handlers host router
    | .procRouting, .handlerThrew what _ => t.handlers host router ++ [.threw what]
    | .preRouting, .thrown what _ | .continueReply, .thrown what _ | .readBody, .thrown what _
    | .procRouting, .thrown what _ | .postRouting, .handlerThrew what _ => [.threw what]
    | .asyncWrite, .written true =>
      match t.resp.prepare preparePayload supported t.req with
      | some resp => [.answered resp]
      | none => []
    | _, _ => []
  | _, _ => []

/-- What a connection has to do with one request before it is answered. -/
structure HttpExchange (Handler : Type) where
  req : Request
  /-- The request asks to keep the connection. -/
  keepAlive : Bool
  /-- The header announces no body. -/
  noBody : Bool
  continued : Bool := false
  bodyRead : Bool := false
  ran : Option (Handler × Request) := none
  threw : Option Bytes := none

namespace HttpExchange

/-- The exchange on the wire, before the response. -/
def log (x : HttpExchange Handler) : List (HttpWire Handler Json StreamHandler) :=
  .asked x.req :: ((if x.continued then [.continued] else []) ++
    (if x.bodyRead then [.bodyRead] else []) ++ (x.ran.map fun r => .ran r.1 r.2).toList ++
    (x.threw.map .threw).toList)

variable (Json StreamHandler) in
/-- `pre_routing` lets the request pass and leaves the response as it was made (`session.cpp:209`). -/
def Accepted (host : Host) (router : Router Handler Ws Regex) (x : HttpExchange Handler) : Prop :=
  let resp : Response Json StreamHandler := .new host x.req.version x.keepAlive
  router.preRouting host x.req resp = (true, resp)

variable (Json StreamHandler) in
/-- The exchange is as it should be: a 100 reply only for a request that waits for it and passes, the
body is read only then, and a handler, which is that of the route, runs only behind the body. -/
structure Valid (host : Host) (router : Router Handler Ws Regex) (x : HttpExchange Handler) : Prop where
  continued : x.continued = true →
    iequals (x.req.fields.get .expect) (bytes "100-continue") = true ∧
      x.Accepted Json StreamHandler host router
  bodyRead : x.bodyRead = true → x.noBody = false ∧ x.Accepted Json StreamHandler host router
  ran : ∀ r ∈ x.ran, (x.noBody = true ∨ x.bodyRead = true) ∧ x.Accepted Json StreamHandler host router ∧
    ∀ resp : Response Json StreamHandler, router.procRouting host x.req resp = .run r.1 r.2

/-- The turn that works on the exchange. -/
structure Begun (host : Host) (x : HttpExchange Handler) (t : HttpTurn Json StreamHandler) : Prop where
  req : t.req = x.req
  resp : t.resp = .new host x.req.version x.keepAlive
  bodyDone : t.bodyDone = (x.noBody || x.bodyRead)
  ran : x.ran = none
  threw : x.threw = none

/-- The response to an exception is its text, with 500. -/
def Answer (x : HttpExchange Handler) (resp : Response Json StreamHandler) : Prop :=
  ∀ what ∈ x.threw, resp.header.result = 500 ∧
    resp.body = if x.req.method = .head then .empty else .string what

/-- How far the exchange is where the turn is. -/
def Matches (host : Host) (router : Router Handler Ws Regex) (x : HttpExchange Handler)
    (t : HttpTurn Json StreamHandler) : Prop :=
  match t.pc with
  | .preRouting => x.Begun host t ∧ x.continued = false ∧ x.bodyRead = false
  | .continueReply =>
    x.Begun host t ∧ x.continued = false ∧ x.bodyRead = false ∧
      iequals (x.req.fields.get .expect) (bytes "100-continue") = true ∧
      x.Accepted Json StreamHandler host router
  | .readBody => x.Begun host t ∧ t.bodyDone = false ∧ x.Accepted Json StreamHandler host router
  | .procRouting => x.Begun host t ∧ t.bodyDone = true ∧ x.Accepted Json StreamHandler host router
  | .postRouting => t.req.method = x.req.method ∧ x.threw = none
  | .asyncWrite => t.req.method = x.req.method ∧
    ∀ what ∈ x.threw, ∃ resp : Response Json StreamHandler,
      t.resp = resp.setStringContent what (bytes "text/plain") 500

end HttpExchange

/-- A request that passes leaves the response as it is. -/
theorem Router.preRouting_accepted {host : Host} {router : Router Handler Ws Regex} {req : Request}
    {resp resp' : Response Json StreamHandler}
    (h : router.preRouting host req resp = (true, resp')) : resp' = resp := by
  unfold Router.preRouting at h
  split at h
  case h_6 =>
    obtain ⟨node, st⟩ := router.root.matchNodes (collect req.method) (splitSegments req.path)
      { params := [], seen := [] }
    dsimp only at h
    split at h
    · split at h
      · cases h; rfl
      · split at h <;> cases h
    · split at h <;> cases h
  all_goals cases h; rfl

/-- Which handler runs does not hang on the response. -/
theorem Router.procRouting_run {host : Host} {router : Router Handler Ws Regex} {req req' : Request}
    {resp : Response Json StreamHandler} {handler : Handler}
    (h : router.procRouting host req resp = .run handler req') (resp' : Response Json StreamHandler) :
    router.procRouting host req resp' = .run handler req' := by
  unfold Router.procRouting at h ⊢
  dsimp only at h ⊢
  split at h
  · split at h
    · cases h
      rfl
    · cases h
  · cases h

theorem Router.method_of_run {host : Host} {router : Router Handler Ws Regex} {req req' : Request}
    {resp : Response Json StreamHandler} {handler : Handler}
    (h : router.procRouting host req resp = .run handler req') : req'.method = req.method := by
  unfold Router.procRouting at h
  dsimp only at h
  split at h
  · split at h
    · cases h
      rfl
    · cases h
  · cases h

/-- The text of an exception is sent with its status. -/
theorem Response.prepare_setStringContent {preparePayload : ResponseHeader → Option ResponseHeader}
    {supported : Bytes → Bool} {req : Request} {r r' : Response Json StreamHandler} {data : Bytes}
    {status : Nat}
    (h : (r.setStringContent data (bytes "text/plain") status).prepare preparePayload supported req =
      some r') :
    r'.header.result = status ∧ r'.body = if req.method = .head then .empty else .string data := by
  obtain ⟨header, hheader, rfl⟩ := Option.map_eq_some_iff.1 h
  have hresult : header.result = status := by
    have hsent : header = applyEncoding supported req
        (r.setStringContent data (bytes "text/plain") status).header := (Option.some.inj hheader).symm
    rw [hsent]
    unfold applyEncoding
    dsimp only
    split <;> rfl
  split
  · exact ⟨hresult, rfl⟩
  · exact ⟨hresult, rfl⟩

namespace HttpExchange

variable {host : Host} {preparePayload : ResponseHeader → Option ResponseHeader}
  {supported : Bytes → Bool} {router : Router Handler Ws Regex} {x : HttpExchange Handler}
  {t : HttpTurn Json StreamHandler} {event : HttpEvent Json StreamHandler}
  {s' : HttpTask Json StreamHandler}

/-- From the 100 reply, or without one, to the body or past it. -/
theorem matches_enterBody (hbegun : x.Begun host t) (haccepted : x.Accepted Json StreamHandler host router) :
    x.Matches host router t.enterBody := by
  cases hdone : t.bodyDone with
  | true =>
    have hpc : t.enterBody = { t with pc := .procRouting } := by rw [HttpTurn.enterBody, hdone, if_pos rfl]
    rw [hpc]
    exact ⟨⟨hbegun.req, hbegun.resp, hbegun.bodyDone, hbegun.ran, hbegun.threw⟩, hdone, haccepted⟩
  | false =>
    have hpc : t.enterBody = { t with pc := .readBody } := by
      rw [HttpTurn.enterBody, hdone, if_neg Bool.false_ne_true]
    rw [hpc]
    exact ⟨⟨hbegun.req, hbegun.resp, hbegun.bodyDone, hbegun.ran, hbegun.threw⟩, hdone, haccepted⟩

/-- `pre_routing` returns. -/
theorem matches_preRouted (hbegun : x.Begun host t) (hcontinued : x.continued = false)
    (hread : x.bodyRead = false) : x.Matches host router (t.preRouted host router) := by
  unfold HttpTurn.preRouted
  split
  · next resp hpass =>
    rw [hbegun.req, hbegun.resp] at hpass
    obtain rfl := Router.preRouting_accepted hpass
    have hbegun' : x.Begun host ({ t with resp := .new host x.req.version x.keepAlive } :
        HttpTurn Json StreamHandler) := ⟨hbegun.req, rfl, hbegun.bodyDone, hbegun.ran, hbegun.threw⟩
    split
    · next hexpect =>
      rw [hbegun.req] at hexpect
      exact ⟨⟨hbegun.req, rfl, hbegun.bodyDone, hbegun.ran, hbegun.threw⟩, hcontinued, hread, hexpect, hpass⟩
    · exact matches_enterBody hbegun' hpass
  · exact ⟨congrArg Request.method hbegun.req, hbegun.threw⟩

/-- What a step of a turn comes to, and what is seen of it: the turn goes on with that on the wire, or it
ends without a response, or with one. -/
inductive TurnStep (host : Host) (router : Router Handler Ws Regex) (x : HttpExchange Handler) :
    HttpTask Json StreamHandler → List (HttpWire Handler Json StreamHandler) → Prop
  | goesOn {t' x' wire} : Valid Json StreamHandler host router x' → x'.Matches host router t' →
      x'.log = x.log ++ wire → TurnStep host router x (.turn t') wire
  | ends : TurnStep host router x .finished []
  | answers (resp : Response Json StreamHandler) (bodyDone : Bool) : x.Answer resp →
      TurnStep host router x (if resp.header.keepAlive then .readHeader bodyDone else .finished)
        [.answered resp]

/-- Before the handler has run. -/
theorem Matches.begun (h : x.Matches host router t) (hpost : t.pc ≠ .postRouting)
    (hwrite : t.pc ≠ .asyncWrite) : x.Begun host t := by
  unfold Matches at h
  split at h
  · exact h.1
  · exact h.1
  · exact h.1
  · exact h.1
  · next hpc => exact absurd hpc hpost
  · next hpc => exact absurd hpc hwrite

/-- No exception was caught yet. -/
theorem Matches.not_threw (h : x.Matches host router t) (hwrite : t.pc ≠ .asyncWrite) :
    t.req.method = x.req.method ∧ x.threw = none := by
  rcases eq_or_ne t.pc .postRouting with hpost | hpost
  · rw [Matches, hpost] at h
    exact h
  · have hbegun := h.begun hpost hwrite
    exact ⟨congrArg Request.method hbegun.req, hbegun.threw⟩

/-- An exception is caught, behind what was seen before it in the step. -/
theorem TurnStep.threw {x' : HttpExchange Handler} {what : Bytes} {t' : HttpTurn Json StreamHandler}
    {before : List (HttpWire Handler Json StreamHandler)} (hvalid : x'.Valid Json StreamHandler host router)
    (hlog : x'.log = x.log ++ before) (hmethod : t'.req.method = x'.req.method) (hthrew : x'.threw = none) :
    x.TurnStep host router (.turn (t'.caught what)) (before ++ [.threw what]) := by
  let x'' : HttpExchange Handler := { x' with threw := some what }
  have hvalid' : x''.Valid Json StreamHandler host router := ⟨hvalid.continued, hvalid.bodyRead, hvalid.ran⟩
  have hmatches' : x''.Matches host router (t'.caught what) := by
    refine ⟨hmethod, fun what' hwhat => ?_⟩
    cases Option.some.inj hwhat
    exact ⟨t'.resp, rfl⟩
  refine .goesOn hvalid' hmatches' ?_
  rw [← List.append_assoc, ← hlog]
  simp [log, x'', hthrew]

/-- Nothing is seen of the step. -/
theorem TurnStep.silent (hvalid : x.Valid Json StreamHandler host router)
    (hmatches : x.Matches host router t) :
    x.TurnStep host router (.turn t) [] :=
  .goesOn hvalid hmatches (List.append_nil _).symm

/-- The 100 reply. -/
theorem TurnStep.continued (hvalid : x.Valid Json StreamHandler host router)
    (hpc : t.pc = .continueReply) (hmatches : x.Matches host router t) :
    x.TurnStep host router (.turn t.enterBody) [.continued] := by
  rw [Matches, hpc] at hmatches
  obtain ⟨hbegun, hcontinued, hread, hexpect, haccepted⟩ := hmatches
  let x' : HttpExchange Handler := { x with continued := true }
  have hvalid' : x'.Valid Json StreamHandler host router :=
    ⟨fun _ => ⟨hexpect, haccepted⟩, hvalid.bodyRead, hvalid.ran⟩
  have hmatches' : x'.Matches host router t.enterBody :=
    matches_enterBody ⟨hbegun.req, hbegun.resp, hbegun.bodyDone, hbegun.ran, hbegun.threw⟩ haccepted
  refine .goesOn hvalid' hmatches' ?_
  simp [log, x', hcontinued, hread, hbegun.ran, hbegun.threw]

/-- The end of the body. -/
theorem TurnStep.bodyRead (hvalid : x.Valid Json StreamHandler host router) (hpc : t.pc = .readBody)
    (hmatches : x.Matches host router t) :
    x.TurnStep host router (.turn { t with pc := .procRouting, bodyDone := true }) [.bodyRead] := by
  rw [Matches, hpc] at hmatches
  obtain ⟨hbegun, hdone, haccepted⟩ := hmatches
  have hnot : x.noBody = false ∧ x.bodyRead = false := by
    have hboth := hbegun.bodyDone.symm.trans hdone
    exact Bool.or_eq_false_iff.1 hboth
  let x' : HttpExchange Handler := { x with bodyRead := true }
  have hvalid' : x'.Valid Json StreamHandler host router := by
    refine ⟨hvalid.continued, fun _ => ⟨hnot.1, haccepted⟩, fun r hr => ?_⟩
    rw [show x'.ran = none from hbegun.ran] at hr
    cases hr
  have hmatches' : x'.Matches host router { t with pc := .procRouting, bodyDone := true } :=
    ⟨⟨hbegun.req, hbegun.resp, by simp [x'], hbegun.ran, hbegun.threw⟩, rfl, haccepted⟩
  refine .goesOn hvalid' hmatches' ?_
  simp [log, x', hnot.2, hbegun.ran, hbegun.threw]

/-- What `proc_routing` runs is the handler of the route, behind the body. -/
theorem Valid.handlers (hvalid : x.Valid Json StreamHandler host router) (hpc : t.pc = .procRouting)
    (hmatches : x.Matches host router t) :
    ∃ x' : HttpExchange Handler, x'.Valid Json StreamHandler host router ∧
      x'.log = x.log ++ t.handlers host router ∧ x'.req = x.req ∧ x'.threw = none := by
  rw [Matches, hpc] at hmatches
  obtain ⟨hbegun, hdone, haccepted⟩ := hmatches
  rw [hbegun.bodyDone, Bool.or_eq_true] at hdone
  unfold HttpTurn.handlers
  split
  · next handler req hrun =>
    rw [hbegun.req] at hrun
    let x' : HttpExchange Handler := { x with ran := some (handler, req) }
    have hvalid' : x'.Valid Json StreamHandler host router := by
      refine ⟨hvalid.continued, hvalid.bodyRead, fun r hr => ?_⟩
      cases Option.some.inj hr
      exact ⟨hdone, haccepted, Router.procRouting_run hrun⟩
    refine ⟨x', hvalid', ?_, rfl, hbegun.threw⟩
    simp [log, x', hbegun.ran, hbegun.threw]
  · exact ⟨x, hvalid, (List.append_nil _).symm, rfl, hbegun.threw⟩

/-- The method stays when the route is found. -/
theorem method_procRouted (handler : Response Json StreamHandler → Response Json StreamHandler) :
    (t.procRouted host router handler).req.method = t.req.method := by
  rw [HttpTurn.procRouted]
  split
  · next hrun => exact Router.method_of_run hrun
  · rfl

/-- **What a step of a turn does.** -/
theorem turnStep_of_step (hvalid : x.Valid Json StreamHandler host router)
    (hmatches : x.Matches host router t)
    (hstep : (httpTask host preparePayload supported router).step (.turn t) event = some s') :
    x.TurnStep host router s' (HttpTask.wire host preparePayload supported router (.turn t) event) := by
  have hcaught : ∀ {t' : HttpTurn Json StreamHandler} {what : Bytes}, t.pc ≠ .asyncWrite →
      t'.req.method = t.req.method → x.TurnStep host router (.turn (t'.caught what)) [.threw what] := by
    intro t' what hpc hmethod
    obtain ⟨hsame, hthrew⟩ := hmatches.not_threw hpc
    have hthrown : x.TurnStep host router (.turn (t'.caught what)) ([] ++ [.threw what]) :=
      .threw hvalid (List.append_nil _).symm (hmethod.trans hsame) hthrew
    exact hthrown
  simp only [httpTask] at hstep
  split at hstep
  -- `pre_routing`
  · next hpc =>
    cases hstep
    have hmatches' := hmatches
    rw [Matches, hpc] at hmatches'
    obtain ⟨hbegun, hcontinued, hread⟩ := hmatches'
    have hsilent := TurnStep.silent hvalid (matches_preRouted hbegun hcontinued hread)
    simpa only [HttpTask.wire, hpc] using hsilent
  · next what closed hpc =>
    cases hstep
    simp only [HttpTask.wire, hpc]
    refine hcaught (by rw [hpc]; nofun) ?_
    split <;> rfl
  -- the 100 reply
  · next ok hpc =>
    cases hstep
    cases ok with
    | true => simpa only [HttpTask.wire, hpc, if_true] using TurnStep.continued hvalid hpc hmatches
    | false => simpa only [HttpTask.wire, hpc, Bool.false_eq_true, if_false] using TurnStep.ends
  · next what hpc =>
    cases hstep
    simp only [HttpTask.wire, hpc]
    exact hcaught (by rw [hpc]; nofun) rfl
  -- the body
  · next bodyDone hpc =>
    cases hstep
    cases bodyDone with
    | true => simpa only [HttpTask.wire, hpc, if_true] using TurnStep.bodyRead hvalid hpc hmatches
    | false =>
      simpa only [HttpTask.wire, hpc, Bool.false_eq_true, if_false] using TurnStep.silent hvalid hmatches
  · next hpc =>
    cases hstep
    simpa only [HttpTask.wire, hpc] using TurnStep.ends
  · next what hpc =>
    cases hstep
    simp only [HttpTask.wire, hpc]
    exact hcaught (by rw [hpc]; nofun) rfl
  -- `proc_routing`
  · next handler hpc =>
    cases hstep
    obtain ⟨x', hvalid', hlog, hreq, hthrew⟩ := hvalid.handlers hpc hmatches
    obtain ⟨hsame, -⟩ := hmatches.not_threw (by rw [hpc]; nofun)
    have hbehind : (t.procRouted host router handler).pc = .postRouting := by
      rw [HttpTurn.procRouted]
      split <;> rfl
    have hmatches' : x'.Matches host router (t.procRouted host router handler) := by
      rw [Matches, hbehind, method_procRouted, hreq]
      exact ⟨hsame, hthrew⟩
    simp only [HttpTask.wire, hpc]
    exact .goesOn hvalid' hmatches' hlog
  · next what hpc =>
    cases hstep
    simp only [HttpTask.wire, hpc]
    exact hcaught (by rw [hpc]; nofun) rfl
  · next what handler hpc =>
    cases hstep
    obtain ⟨x', hvalid', hlog, hreq, hthrew⟩ := hvalid.handlers hpc hmatches
    obtain ⟨hsame, -⟩ := hmatches.not_threw (by rw [hpc]; nofun)
    simp only [HttpTask.wire, hpc]
    exact .threw hvalid' hlog (hsame.trans (congrArg Request.method hreq.symm)) hthrew
  -- `post_routing`
  · next hpc =>
    cases hstep
    obtain ⟨hsame, hthrew⟩ := hmatches.not_threw (by rw [hpc]; nofun)
    simp only [HttpTask.wire, hpc]
    refine .silent hvalid ⟨hsame, fun what hwhat => ?_⟩
    rw [hthrew] at hwhat
    cases hwhat
  · next what handler hpc =>
    cases hstep
    simp only [HttpTask.wire, hpc]
    exact hcaught (by rw [hpc]; nofun) rfl
  -- the response
  · next ok hpc =>
    cases hstep
    rw [Matches, hpc] at hmatches
    obtain ⟨hmethod, hthrew⟩ := hmatches
    rw [HttpTurn.written]
    cases hprepare : t.resp.prepare preparePayload supported t.req with
    | none => cases ok <;> simpa only [HttpTask.wire, hpc, hprepare] using TurnStep.ends
    | some resp =>
      have hanswer : x.Answer resp := by
        intro what hwhat
        obtain ⟨resp₀, hresp⟩ := hthrew what hwhat
        rw [hresp] at hprepare
        obtain ⟨hresult, hbody⟩ := Response.prepare_setStringContent hprepare
        rw [hmethod] at hbody
        exact ⟨hresult, hbody⟩
      cases ok with
      | true => simpa [HttpTask.wire, hpc, hprepare] using TurnStep.answers resp t.bodyDone hanswer
      | false => simpa [HttpTask.wire, hpc] using TurnStep.ends
  · cases hstep

/-! ## Whole runs -/

/-- The exchange with its response. -/
def answeredLog (x : HttpExchange Handler × Response Json StreamHandler) :
    List (HttpWire Handler Json StreamHandler) := x.1.log ++ [.answered x.2]

/-- What is on the wire behind the exchanges that were answered. -/
def Rest (host : Host) (router : Router Handler Ws Regex) :
    HttpTask Json StreamHandler → List (HttpWire Handler Json StreamHandler) → Prop
  | .readHeader _, rest => rest = []
  | .turn t, rest =>
    ∃ x : HttpExchange Handler, x.Valid Json StreamHandler host router ∧ x.Matches host router t ∧
      rest = x.log
  | .handedOver, rest => ∃ req, rest = [.handedOver req]
  | .finished, rest =>
    rest = [] ∨ ∃ x : HttpExchange Handler, x.Valid Json StreamHandler host router ∧ rest = x.log

/-- The log is made of exchanges that were answered, and of the rest. Only behind the last response the
connection may be closed. -/
structure Exchanged (host : Host) (router : Router Handler Ws Regex) (s : HttpTask Json StreamHandler)
    (done : List (HttpExchange Handler × Response Json StreamHandler))
    (rest : List (HttpWire Handler Json StreamHandler)) : Prop where
  valid : ∀ x ∈ done, x.1.Valid Json StreamHandler host router ∧ x.1.Answer x.2
  behind : Rest host router s rest
  kept : (∀ x ∈ done, x.2.header.keepAlive = true) ∨
    s = .finished ∧ rest = [] ∧ ∀ x ∈ done.dropLast, x.2.header.keepAlive = true

variable {s : HttpTask Json StreamHandler}
  {done : List (HttpExchange Handler × Response Json StreamHandler)}
  {rest : List (HttpWire Handler Json StreamHandler)}

/-- Before the end every connection was kept. -/
theorem Exchanged.all_kept (h : Exchanged host router s done rest) (hs : s ≠ .finished) :
    ∀ x ∈ done, x.2.header.keepAlive = true :=
  h.kept.resolve_right fun hfinished => hs hfinished.1

/-- A step that answers nothing. -/
theorem Exchanged.goOn {rest' : List (HttpWire Handler Json StreamHandler)}
    (h : Exchanged host router s done rest) (hs : s ≠ .finished) (hrest : Rest host router s' rest') :
    Exchanged host router s' done rest' :=
  ⟨h.valid, hrest, .inl (h.all_kept hs)⟩

/-- A response. -/
theorem Exchanged.answer (h : Exchanged host router s done rest) (hs : s ≠ .finished)
    (hvalid : x.Valid Json StreamHandler host router) {resp : Response Json StreamHandler}
    (hanswer : x.Answer resp) (bodyDone : Bool) :
    Exchanged host router (if resp.header.keepAlive then .readHeader bodyDone else .finished)
      (done ++ [(x, resp)]) [] := by
  have hdone : ∀ y ∈ done ++ [(x, resp)], y.1.Valid Json StreamHandler host router ∧ y.1.Answer y.2 := by
    intro y hy
    rcases List.mem_append.1 hy with hy | hy
    · exact h.valid y hy
    · cases List.mem_singleton.1 hy
      exact ⟨hvalid, hanswer⟩
  cases hkeep : resp.header.keepAlive with
  | true =>
    refine ⟨hdone, rfl, .inl fun y hy => ?_⟩
    rcases List.mem_append.1 hy with hy | hy
    · exact h.all_kept hs y hy
    · cases List.mem_singleton.1 hy
      exact hkeep
  | false =>
    refine ⟨hdone, .inl rfl, .inr ⟨rfl, rfl, ?_⟩⟩
    rw [List.dropLast_concat]
    exact h.all_kept hs

/-- A step of the connection. -/
theorem Exchanged.step (h : Exchanged host router s done rest)
    (hstep : (httpTask host preparePayload supported router).step s event = some s') :
    ∃ done' rest', Exchanged host router s' done' rest' ∧
      done.flatMap answeredLog ++ rest ++ HttpTask.wire host preparePayload supported router s event =
        done'.flatMap answeredLog ++ rest' := by
  cases s with
  | readHeader bodyDone =>
    obtain rfl : rest = [] := h.behind
    cases event with
    | headerFailed =>
      cases hstep
      exact ⟨done, [], h.goOn nofun (.inl rfl), by simp [HttpTask.wire]⟩
    | header req keepAlive upgrade noBody =>
      simp only [httpTask] at hstep
      simp only [HttpTask.wire]
      split at hstep
      · next hother =>
        cases hstep
        rw [if_pos hother]
        exact ⟨done, _, h.goOn nofun ⟨req, rfl⟩, by simp⟩
      · next hhere =>
        cases hstep
        rw [if_neg hhere]
        let x : HttpExchange Handler := { req, keepAlive, noBody }
        have hvalid : x.Valid Json StreamHandler host router := ⟨nofun, nofun, nofun⟩
        let t : HttpTurn Json StreamHandler :=
          { pc := .preRouting
            req
            resp := .new host req.version keepAlive
            bodyDone := noBody }
        have hbegun : x.Begun host t := ⟨rfl, rfl, (Bool.or_false _).symm, rfl, rfl⟩
        have hmatches : x.Matches host router t := ⟨hbegun, rfl, rfl⟩
        exact ⟨done, x.log, h.goOn nofun ⟨x, hvalid, hmatches, rfl⟩, by simp [log, x]⟩
    | _ => cases hstep
  | turn t =>
    obtain ⟨x, hvalid, hmatches, rfl⟩ := h.behind
    have hturn := turnStep_of_step hvalid hmatches hstep
    revert hturn
    generalize HttpTask.wire host preparePayload supported router (.turn t) event = wire
    intro hturn
    cases hturn with
    | @goesOn t' x' wire hvalid' hmatches' hlog =>
      refine ⟨done, x'.log, h.goOn nofun ⟨x', hvalid', hmatches', rfl⟩, ?_⟩
      rw [hlog, List.append_assoc]
    | ends =>
      exact ⟨done, x.log, h.goOn nofun (.inr ⟨x, hvalid, rfl⟩), List.append_nil _⟩
    | answers resp bodyDone hanswer =>
      refine ⟨_, _, h.answer nofun hvalid hanswer bodyDone, ?_⟩
      simp [answeredLog]
  | handedOver | finished => cases hstep

end HttpExchange

open HttpExchange in
/-- **The exchanges of a connection.** In every run of the loop, whatever the connection, the router and
the user's handlers do, the log is made of exchanges one behind the other, in each of which one request is
followed by at most one 100 reply, the end of its body, its handler, an exception, and one response, in
this order; behind them stands at most one exchange without its response, or a header with which another
task goes on. A 100 reply is sent only to a request that waits for it and that passes `pre_routing`, a
handler runs only where it is that of the route and the body has been read, an exception is answered with
its text and 500, and behind a response that closes the connection nothing follows. -/
theorem http_task_exchanges (host : Host) (preparePayload : ResponseHeader → Option ResponseHeader)
    (supported : Bytes → Bool) (router : Router Handler Ws Regex) {s : HttpTask Json StreamHandler}
    {log : List (HttpWire Handler Json StreamHandler)}
    (h : ((httpTask host preparePayload supported router).logged
      (HttpTask.wire host preparePayload supported router)).Reachable (s, log)) :
    ∃ (done : List (HttpExchange Handler × Response Json StreamHandler)) (rest : _),
      log = done.flatMap answeredLog ++ rest ∧ Exchanged host router s done rest := by
  refine h.log_invariant (I := fun s log =>
    ∃ (done : List (HttpExchange Handler × Response Json StreamHandler)) (rest : _), log = done.flatMap answeredLog ++ rest ∧ Exchanged host router s done rest) ?_ ?_
  · intro s hs
    have hbegin : s = .readHeader true := hs
    subst hbegin
    exact ⟨[], [], rfl, ⟨List.forall_mem_nil _, rfl, .inl (List.forall_mem_nil _)⟩⟩
  · rintro s log event s' ⟨done, rest, rfl, hexchanged⟩ hstep
    obtain ⟨done', rest', hexchanged', heq⟩ := hexchanged.step hstep
    exact ⟨done', rest', heq, hexchanged'⟩

end Model

open scoped Platform.Plain in
/-- A POST that waits for a 100 reply. -/
def waitingPost : Request :=
  .ofHeader .post (bytes "/7") 11 [(.expect, bytes "100-continue")]

/-- The reply is sent, the body is read, and the handler answers. -/
theorem http_task_exchanges_post :
    letI := literalRegex
    ∃ (log : List (HttpWire Unit Unit Unit))
      (done : List (HttpExchange Unit × Response Unit Unit)) (rest : List (HttpWire Unit Unit Unit)),
      log.length = 5 ∧ log = done.flatMap HttpExchange.answeredLog ++ rest ∧
      HttpExchange.Exchanged plainHost numberRouter (.readHeader true) done rest := by
  let _ := literalRegex
  let m := (httpTask plainHost chunkedPayload (fun _ => false) numberRouter).logged
    (@HttpTask.wire Unit Unit Bytes Unit Unit _ plainHost chunkedPayload (fun _ => false)
      numberRouter)
  have hbegin : m.Reachable (.readHeader true, []) := .init ⟨rfl, rfl⟩
  have hrun : ∃ log, m.run (.readHeader true, [])
      [.header waitingPost true false false, .preRouted, .continued true, .bodyRead true,
        .procRouted (·.setStringContent (bytes "ok") (bytes "text/plain") 200), .postRouted id id,
        .written true] = some (.readHeader true, log) ∧ log.length = 5 := ⟨_, rfl, rfl⟩
  obtain ⟨log, hrun, hlength⟩ := hrun
  obtain ⟨done, rest, hlog, hexchanged⟩ :=
    http_task_exchanges plainHost chunkedPayload (fun _ => false) numberRouter (hbegin.run hrun)
  exact ⟨log, done, rest, hlength, hlog, hexchanged⟩

end Httplib
