import Httplib.Server.HttpExchange

/-!
# The server's end of a connection

A connection that a `session::http_task` (`lib/server/session.cpp:168`) serves, and over which one request
after the other comes: which headers it has read, which responses it has begun to send, and the bytes that
are on their way. `HttpConnection.Served` is what holds of it in every run.
-/

namespace Httplib

/-- The server's end of a connection, and what is on its way to the client. -/
structure HttpConnection (Handler Json StreamHandler : Type) where
  server : HttpTask Json StreamHandler := .readHeader true
  log : List (HttpWire Handler Json StreamHandler) := []
  /-- The responses that `async_write` has begun to send. -/
  replies : List (Response Json StreamHandler) := []
  down : Bytes := []

section Model

variable {Handler Ws Regex Json StreamHandler : Type} [StdRegex Regex]

/-- The requests whose header the server has read. -/
def HttpWire.asks : List (HttpWire Handler Json StreamHandler) → List Request :=
  List.filterMap fun
    | .asked req | .handedOver req => some req
    | _ => none

namespace HttpConnection

/-- The response that a step begins to send. -/
def reply (preparePayload : ResponseHeader → Option ResponseHeader) (supported : Bytes → Bool) :
    HttpTask Json StreamHandler → HttpEvent Json StreamHandler → Option (Response Json StreamHandler)
  | .turn t, .written _ => t.resp.prepare preparePayload supported t.req
  | _, _ => none

/-- The bytes that a step sends: of a message whose writing fails, only a part. -/
def sent (preparePayload : ResponseHeader → Option ResponseHeader) (supported : Bytes → Bool)
    (wire : Response Json StreamHandler → Bytes) (continueReply : Bytes)
    (server : HttpTask Json StreamHandler) (event : HttpEvent Json StreamHandler) (part : Nat) : Bytes :=
  match event with
  | .written ok =>
    let text := ((reply preparePayload supported server event).map wire).getD []
    if ok then text else text.take part
  | .continued ok => if ok then continueReply else continueReply.take part
  | _ => []

/-- A step of the server. -/
def serve (host : Host) (preparePayload : ResponseHeader → Option ResponseHeader)
    (supported : Bytes → Bool) (router : Router Handler Ws Regex)
    (wire : Response Json StreamHandler → Bytes) (continueReply : Bytes)
    (c : HttpConnection Handler Json StreamHandler) (event : HttpEvent Json StreamHandler) (part : Nat) :
    Option (HttpConnection Handler Json StreamHandler) :=
  ((httpTask host preparePayload supported router).step c.server event).map fun server =>
    { server
      log := c.log ++ HttpTask.wire host preparePayload supported router c.server event
      replies := c.replies ++ (reply preparePayload supported c.server event).toList
      down := c.down ++ sent preparePayload supported wire continueReply c.server event part }

end HttpConnection

namespace HttpWire

/-- The responses that the server has written. -/
def answers : List (HttpWire Handler Json StreamHandler) → List (Response Json StreamHandler) :=
  List.filterMap fun
    | .answered resp => some resp
    | _ => none

variable {x : HttpExchange Handler}
  {done : List (HttpExchange Handler × Response Json StreamHandler)}

/-- One exchange asks for one request. -/
@[simp] theorem asks_log : asks (x.log : List (HttpWire Handler Json StreamHandler)) = [x.req] := by
  unfold asks HttpExchange.log
  cases x.continued <;> cases x.bodyRead <;> cases x.ran <;> cases x.threw <;> rfl

/-- What is logged in front of a response holds no answer. -/
@[simp] theorem answers_log : answers (x.log : List (HttpWire Handler Json StreamHandler)) = [] := by
  unfold answers HttpExchange.log
  cases x.continued <;> cases x.bodyRead <;> cases x.ran <;> cases x.threw <;> rfl

/-- The requests of two logs are those of the one and then those of the other. -/
@[simp] theorem asks_append (l l' : List (HttpWire Handler Json StreamHandler)) :
    asks (l ++ l') = asks l ++ asks l' := List.filterMap_append

/-- So are the answers. -/
@[simp] theorem answers_append (l l' : List (HttpWire Handler Json StreamHandler)) :
    answers (l ++ l') = answers l ++ answers l' := List.filterMap_append

/-- Exchanges that are done have asked for their requests, in order. -/
@[simp] theorem asks_done : asks (done.flatMap HttpExchange.answeredLog) = done.map (·.1.req) := by
  induction done with
  | nil => rfl
  | cons x done ih =>
    rw [List.flatMap_cons, asks_append, ih, HttpExchange.answeredLog, asks_append, asks_log]
    rfl

/-- And have been answered with their responses, in the same order. -/
@[simp] theorem answers_done : answers (done.flatMap HttpExchange.answeredLog) = done.map Prod.snd := by
  induction done with
  | nil => rfl
  | cons x done ih =>
    rw [List.flatMap_cons, answers_append, ih, HttpExchange.answeredLog, answers_append, answers_log]
    rfl

variable {host : Host} {preparePayload : ResponseHeader → Option ResponseHeader}
  {supported : Bytes → Bool} {router : Router Handler Ws Regex} {s s' : HttpTask Json StreamHandler}
  {event : HttpEvent Json StreamHandler}

/-- Running the handlers asks for no request. -/
@[simp] theorem asks_handlers (t : HttpTurn Json StreamHandler) : asks (t.handlers host router) = [] := by
  unfold HttpTurn.handlers
  split <;> rfl

/-- Nor does it write a response. -/
@[simp] theorem answers_handlers (t : HttpTurn Json StreamHandler) :
    answers (t.handlers host router) = [] := by
  unfold HttpTurn.handlers
  split <;> rfl

/-- A response is written at the end of a turn. -/
theorem pc_of_written {t : HttpTurn Json StreamHandler} {ok : Bool}
    (hstep : (httpTask host preparePayload supported router).step (.turn t) (.written ok) = some s') :
    t.pc = .asyncWrite ∧ s' = t.written preparePayload supported ok := by
  simp only [httpTask] at hstep
  split at hstep
  all_goals first
    | next hpc heq => cases heq; cases hstep; exact ⟨hpc, rfl⟩
    | next heq => cases heq
    | cases hstep

/-- A 100 reply is written before the body is read. -/
theorem pc_of_continued {t : HttpTurn Json StreamHandler} {ok : Bool}
    (hstep : (httpTask host preparePayload supported router).step (.turn t) (.continued ok) = some s') :
    t.pc = .continueReply := by
  simp only [httpTask] at hstep
  split at hstep
  all_goals first
    | next hpc heq => cases heq; exact hpc
    | next heq => cases heq
    | cases hstep

/-- Within a turn nothing is asked. -/
theorem asks_turn (t : HttpTurn Json StreamHandler) (event : HttpEvent Json StreamHandler) :
    asks (HttpTask.wire host preparePayload supported router (.turn t) event) = [] := by
  simp only [HttpTask.wire]
  split
  case h_3 => exact asks_handlers t
  case h_4 => rw [asks_append, asks_handlers]; rfl
  case h_10 => split <;> rfl
  all_goals rfl

/-- A step asks only where it reads a header. -/
theorem asks_wire (hstep : (httpTask host preparePayload supported router).step s event = some s') :
    asks (HttpTask.wire host preparePayload supported router s event) =
      match event with
      | .header req _ _ _ => [req]
      | _ => [] := by
  cases s with
  | readHeader bodyDone =>
    cases event with
    | header req keepAlive upgrade noBody =>
      simp only [HttpTask.wire]
      split <;> rfl
    | _ => rfl
  | turn t =>
    rw [asks_turn]
    cases event with
    | header => simp [httpTask] at hstep
    | _ => rfl
  | handedOver | finished => cases hstep

/-- A step answers only where it writes a response. -/
theorem answers_wire (hne : ∀ ok, event ≠ .written ok) :
    answers (HttpTask.wire host preparePayload supported router s event) = [] := by
  cases s with
  | readHeader bodyDone =>
    cases event with
    | header req keepAlive upgrade noBody =>
      simp only [HttpTask.wire]
      split <;> rfl
    | _ => rfl
  | turn t =>
    simp only [HttpTask.wire]
    split
    case h_3 => exact answers_handlers t
    case h_4 => rw [answers_append, answers_handlers]; rfl
    case h_10 => exact absurd rfl (hne true)
    all_goals rfl
  | handedOver | finished => rfl

/-- A response that is written is answered. -/
theorem answers_written {t : HttpTurn Json StreamHandler} (hpc : t.pc = .asyncWrite) :
    answers (HttpTask.wire host preparePayload supported router (.turn t) (.written true)) =
      (t.resp.prepare preparePayload supported t.req).toList := by
  simp only [HttpTask.wire, hpc]
  cases t.resp.prepare preparePayload supported t.req <;> rfl

/-- One whose writing fails is not. -/
theorem answers_not_written {t : HttpTurn Json StreamHandler} (hpc : t.pc = .asyncWrite) :
    answers (HttpTask.wire host preparePayload supported router (.turn t) (.written false)) = [] := by
  simp only [HttpTask.wire, hpc]
  rfl

end HttpWire

/-- What the client asks the server for: no tunnel, and no 100 reply. -/
def Request.Plain (req : Request) : Prop :=
  req.method ≠ .connect ∧ iequals (req.fields.get .expect) (bytes "100-continue") = false

/-- The event reads a header that asks to upgrade the connection. -/
def HttpEvent.Upgrades : HttpEvent Json StreamHandler → Prop
  | .header _ _ upgrade _ => upgrade = true
  | _ => False

namespace HttpConnection

open HttpWire HttpExchange

variable {host : Host} {preparePayload : ResponseHeader → Option ResponseHeader}
  {supported : Bytes → Bool} {router : Router Handler Ws Regex}
  {wire : Response Json StreamHandler → Bytes} {continueReply : Bytes}
  {c c' : HttpConnection Handler Json StreamHandler} {requests : List Request}
  {event : HttpEvent Json StreamHandler} {part : Nat}

/-- What holds of a connection over which requests were sent: the server reads their headers in order, and
its responses are those of its exchanges; the last one may have been lost on the way. -/
structure Served (host : Host) (router : Router Handler Ws Regex) (requests : List Request)
    (c : HttpConnection Handler Json StreamHandler) : Prop where
  exchanged : ∃ done rest, c.log = done.flatMap answeredLog ++ rest ∧
    Exchanged host router c.server done rest
  asked : asks c.log <+: requests
  replied : c.replies = answers c.log ∨
    c.server = .finished ∧ (answers c.log).length < (asks c.log).length ∧
      ∃ resp, c.replies = answers c.log ++ [resp]
  boundary : c.server.Inv
  stays : c.server ≠ .handedOver
  quiet : asks c.log = [] → c.down = []

/-- A turn works on the last of the requests that were read. -/
theorem Served.turn (h : c.Served host router requests) {t : HttpTurn Json StreamHandler}
    (ht : c.server = .turn t) :
    ∃ x : HttpExchange Handler, x.Valid Json StreamHandler host router ∧ x.Matches host router t ∧
      c.replies = answers c.log ∧ (asks c.log)[c.replies.length]? = some x.req := by
  obtain ⟨done, rest, hlog, hexchanged⟩ := h.exchanged
  have hbehind := hexchanged.behind
  rw [ht] at hbehind
  obtain ⟨x, hvalid, hmatches, rfl⟩ := hbehind
  have hreplies : c.replies = answers c.log := by
    refine h.replied.resolve_right fun hlost => ?_
    rw [ht] at hlost
    cases hlost.1
  refine ⟨x, hvalid, hmatches, hreplies, ?_⟩
  rw [hreplies, hlog]
  simp

/-- Behind the exchanges nothing is answered. -/
theorem answers_of_rest {server : HttpTask Json StreamHandler}
    {rest : List (HttpWire Handler Json StreamHandler)} (h : Rest host router server rest) :
    answers rest = [] := by
  cases server with
  | readHeader =>
    obtain rfl : rest = [] := h
    rfl
  | turn t =>
    obtain ⟨x, -, -, rfl⟩ := h
    exact answers_log
  | handedOver =>
    obtain ⟨req, rfl⟩ := h
    rfl
  | finished =>
    rcases h with rfl | ⟨x, -, rfl⟩
    · rfl
    · exact answers_log

/-- The number of the responses. -/
theorem Served.length_replies (h : c.Served host router requests) :
    c.replies.length ≤ (asks c.log).length := by
  obtain ⟨done, rest, hlog, hexchanged⟩ := h.exchanged
  rcases h.replied with hreplies | ⟨-, hlt, resp, hreplies⟩
  · rw [hreplies, hlog]
    simp [answers_of_rest hexchanged.behind]
  · rw [hreplies, List.length_append]
    exact hlt

/-- More requests are sent over the connection. -/
theorem Served.mono (h : c.Served host router requests) {requests' : List Request}
    (hrequests : requests <+: requests') : c.Served host router requests' :=
  ⟨h.exchanged, h.asked.trans hrequests, h.replied, h.boundary, h.stays, h.quiet⟩

/-- The client has received a part of what is on its way. -/
theorem Served.drop (h : c.Served host router requests) (n : Nat) :
    ({ c with down := c.down.drop n } : HttpConnection Handler Json StreamHandler).Served host router
      requests := by
  refine ⟨h.exchanged, h.asked, h.replied, h.boundary, h.stays, fun hnone => ?_⟩
  dsimp only at hnone ⊢
  rw [h.quiet hnone, List.drop_nil]

/-- What a step of the server sends: nothing, or the response to the next request, or a part of it. -/
inductive Sends (wire : Response Json StreamHandler → Bytes)
    (preparePayload : ResponseHeader → Option ResponseHeader) (supported : Bytes → Bool)
    (requests : List Request) (c c' : HttpConnection Handler Json StreamHandler)
    (event : HttpEvent Json StreamHandler) : Prop
  | nothing : c'.replies = c.replies → c'.down = c.down →
      Sends wire preparePayload supported requests c c' event
  | response {t resp text req} : c.server = .turn t →
      reply preparePayload supported c.server event = some resp →
      requests[c.replies.length]? = some req → t.req.method = req.method →
      c'.replies = c.replies ++ [resp] → c'.down = c.down ++ text → text <+: wire resp →
      Sends wire preparePayload supported requests c c' event

/-- A request whose header the server has read is the one that was sent in its place. -/
theorem Served.request_of_asked (h : c.Served host router requests) {i : Nat} {req : Request}
    (hreq : (asks c.log)[i]? = some req) : requests[i]? = some req := by
  obtain ⟨hlt, rfl⟩ := List.getElem?_eq_some_iff.1 hreq
  exact List.prefix_iff_getElem?.1 h.asked i hlt

/-- A turn works on the next request to be answered. -/
theorem Served.request (h : c.Served host router requests) {t : HttpTurn Json StreamHandler}
    (ht : c.server = .turn t) :
    ∃ x : HttpExchange Handler, x.Matches host router t ∧ requests[c.replies.length]? = some x.req := by
  obtain ⟨x, -, hmatches, -, hlast⟩ := h.turn ht
  exact ⟨x, hmatches, h.request_of_asked hlast⟩

/-- What a step of the connection is: a step of the server, and what it logs, answers and sends. -/
theorem serve_inv
    (hserve : c.serve host preparePayload supported router wire continueReply event part = some c') :
    (httpTask host preparePayload supported router).step c.server event = some c'.server ∧
      c'.log = c.log ++ HttpTask.wire host preparePayload supported router c.server event ∧
      c'.replies = c.replies ++ (reply preparePayload supported c.server event).toList ∧
      c'.down = c.down ++ sent preparePayload supported wire continueReply c.server event part := by
  obtain ⟨server, hstep, rfl⟩ := Option.map_eq_some_iff.1 hserve
  exact ⟨hstep, rfl, rfl, rfl⟩

/-- A step of the server sends nothing else. -/
theorem Served.sends (h : c.Served host router requests) (hplain : ∀ req ∈ requests, req.Plain)
    (hserve : c.serve host preparePayload supported router wire continueReply event part = some c') :
    Sends wire preparePayload supported requests c c' event := by
  obtain ⟨hstep, -, hreplies, hdown⟩ := serve_inv hserve
  have hnothing : reply preparePayload supported c.server event = none →
      sent preparePayload supported wire continueReply c.server event part = [] →
      Sends wire preparePayload supported requests c c' event := by
    intro hreply hsent
    rw [hreply, Option.toList_none, List.append_nil] at hreplies
    rw [hsent, List.append_nil] at hdown
    exact .nothing hreplies hdown
  cases hserver : c.server with
  | readHeader bodyDone =>
    rw [hserver] at hstep hnothing
    cases event with
    | header | headerFailed => exact hnothing rfl rfl
    | _ => cases hstep
  | turn t =>
    obtain ⟨x, hmatches, hreq⟩ := h.request hserver
    rw [hserver] at hstep
    cases event with
    | written ok =>
      obtain ⟨hpc, -⟩ := pc_of_written hstep
      rw [Matches, hpc] at hmatches
      cases hreply : reply preparePayload supported c.server (.written ok) with
      | none =>
        refine hnothing hreply ?_
        simp [sent, hreply]
      | some resp =>
        rw [hreply] at hreplies
        refine .response hserver hreply hreq hmatches.1 hreplies hdown ?_
        simp only [sent, hreply, Option.map_some, Option.getD_some]
        split
        · exact List.prefix_rfl
        · exact List.take_prefix _ _
    | continued ok =>
      -- only a request that waits for it gets a 100 reply
      rw [Matches, pc_of_continued hstep] at hmatches
      have hexpect := hmatches.2.2.2.1
      rw [(hplain x.req (List.mem_of_getElem? hreq)).2] at hexpect
      cases hexpect
    | _ =>
      rw [hserver] at hnothing
      exact hnothing rfl rfl
  | handedOver => exact absurd hserver h.stays
  | finished =>
    rw [hserver] at hstep
    cases hstep

/-- The next header is that of the next request. -/
theorem Served.asked_concat (h : c.Served host router requests) {req : Request}
    (hreq : requests[(asks c.log).length]? = some req) : asks c.log ++ [req] <+: requests := by
  obtain ⟨later, rfl⟩ := h.asked
  rw [List.getElem?_append_right le_rfl, Nat.sub_self] at hreq
  cases later with
  | nil => cases hreq
  | cons next later =>
    cases Option.some.inj hreq
    exact ⟨later, by rw [List.append_assoc, List.singleton_append]⟩

/-- The responses after a step. -/
theorem Served.replied_of_step (h : c.Served host router requests)
    (hserve : c.serve host preparePayload supported router wire continueReply event part = some c') :
    c'.replies = answers c'.log ∨
      c'.server = .finished ∧ (answers c'.log).length < (asks c'.log).length ∧
        ∃ resp, c'.replies = answers c'.log ++ [resp] := by
  obtain ⟨hstep, hlog, hreplies, -⟩ := serve_inv hserve
  have hbefore : c.replies = answers c.log := by
    refine h.replied.resolve_right fun hlost => ?_
    rw [hlost.1] at hstep
    cases hstep
  rw [hlog, answers_append, asks_append, hreplies, hbefore]
  by_cases hwritten : ∃ ok, event = .written ok
  · obtain ⟨ok, rfl⟩ := hwritten
    cases hserver : c.server with
    | turn t =>
      rw [hserver] at hstep
      obtain ⟨hpc, hend⟩ := pc_of_written hstep
      cases ok with
      | true =>
        rw [answers_written hpc]
        exact .inl rfl
      | false =>
        rw [answers_not_written hpc, List.append_nil]
        cases hprepare : t.resp.prepare preparePayload supported t.req with
        | none =>
          refine .inl ?_
          rw [reply, hprepare]
          exact List.append_nil _
        | some resp =>
          -- the response is lost with the connection
          refine .inr ⟨?_, ?_, resp, ?_⟩
          · rw [hend, HttpTurn.written, hprepare]
            exact if_neg fun hok => Bool.false_ne_true hok.1
          · obtain ⟨x, -, -, -, hlast⟩ := h.turn hserver
            obtain ⟨hlt, -⟩ := List.getElem?_eq_some_iff.1 hlast
            rw [← hbefore, List.length_append]
            exact Nat.lt_add_right _ hlt
          · rw [reply, hprepare]
            rfl
    | readHeader | handedOver | finished =>
      rw [hserver] at hstep
      cases hstep
  · have hne : ∀ ok, event ≠ .written ok := fun ok heq => hwritten ⟨ok, heq⟩
    have hnone : reply preparePayload supported c.server event = none := by
      unfold reply
      split
      · exact absurd rfl (hne _)
      · rfl
    rw [answers_wire hne, hnone]
    exact .inl rfl

/-- A turn does not hand the connection over. -/
theorem stays_of_turn {x : HttpExchange Handler} {server : HttpTask Json StreamHandler}
    {log : List (HttpWire Handler Json StreamHandler)} (h : x.TurnStep host router server log) :
    server ≠ .handedOver := by
  cases h with
  | goesOn | ends =>
    intro hhanded
    cases hhanded
  | answers resp =>
    intro hhanded
    split at hhanded <;> cases hhanded

/-- A plain request does not hand the connection over. -/
theorem Served.stays_of_step (h : c.Served host router requests) (hplain : ∀ req ∈ requests, req.Plain)
    (hheader : ∀ req keepAlive upgrade noBody, event = .header req keepAlive upgrade noBody →
      requests[(asks c.log).length]? = some req)
    (hupgrade : ¬ event.Upgrades) {server : HttpTask Json StreamHandler}
    (hstep : (httpTask host preparePayload supported router).step c.server event = some server) :
    server ≠ .handedOver := by
  cases hserver : c.server with
  | readHeader bodyDone =>
    rw [hserver] at hstep
    cases event with
    | headerFailed =>
      rw [← Option.some.inj hstep]
      intro hhanded
      cases hhanded
    | header req keepAlive upgrade noBody =>
      have hreq := hheader _ _ _ _ rfl
      have hhere : ¬ (req.method = .connect ∨ upgrade = true) := by
        rintro (hconnect | hupgrade')
        · exact (hplain req (List.mem_of_getElem? hreq)).1 hconnect
        · exact hupgrade hupgrade'
      simp only [httpTask, if_neg hhere] at hstep
      intro hend
      rw [hend] at hstep
      cases hstep
    | _ => cases hstep
  | turn t =>
    obtain ⟨x, hvalid, hmatches, -, -⟩ := h.turn hserver
    rw [hserver] at hstep
    exact stays_of_turn (turnStep_of_step hvalid hmatches hstep)
  | handedOver => exact absurd hserver h.stays
  | finished =>
    rw [hserver] at hstep
    cases hstep

/-- A step of the server keeps what holds of a connection. -/
theorem Served.serve (hpayload : ∀ h h', preparePayload h = some h' → h'.keepAlive = h.keepAlive)
    (h : c.Served host router requests) (hplain : ∀ req ∈ requests, req.Plain)
    (hheader : ∀ req keepAlive upgrade noBody, event = .header req keepAlive upgrade noBody →
      requests[(asks c.log).length]? = some req)
    (hcloses : c.server.Closes router event) (hupgrade : ¬ event.Upgrades)
    (hserve : c.serve host preparePayload supported router wire continueReply event part = some c') :
    c'.Served host router requests := by
  have hsends := h.sends hplain hserve
  have hreplied := h.replied_of_step hserve
  obtain ⟨hstep, hlog, -, -⟩ := serve_inv hserve
  have hasks := asks_wire hstep
  refine ⟨?_, ?_, hreplied, h.boundary.step hpayload hcloses hstep, ?_, ?_⟩
  · obtain ⟨done, rest, heq, hexchanged⟩ := h.exchanged
    obtain ⟨done', rest', hexchanged', heq'⟩ := hexchanged.step hstep
    exact ⟨done', rest', by rw [hlog, heq, heq'], hexchanged'⟩
  · rw [hlog, asks_append, hasks]
    split
    · exact h.asked_concat (hheader _ _ _ _ rfl)
    · rw [List.append_nil]
      exact h.asked
  · exact h.stays_of_step hplain hheader hupgrade hstep
  · intro hnone
    rw [hlog, asks_append] at hnone
    obtain ⟨hbefore, -⟩ := List.append_eq_nil_iff.1 hnone
    cases hsends with
    | nothing _ hdown => rw [hdown, h.quiet hbefore]
    | response hserver =>
      obtain ⟨x, -, -, -, hlast⟩ := h.turn hserver
      rw [hbefore] at hlast
      cases hlast

/-- Nothing has happened on the connection yet. -/
theorem served_new (host : Host) (router : Router Handler Ws Regex) (requests : List Request) :
    ({} : HttpConnection Handler Json StreamHandler).Served host router requests where
  exchanged := ⟨[], [], rfl, List.forall_mem_nil _, rfl, .inl (List.forall_mem_nil _)⟩
  asked := List.nil_prefix
  replied := .inl rfl
  boundary := rfl
  stays hhanded := by cases hhanded
  quiet _ := rfl

/-- Each response is that of an exchange, whose request is the one that was sent in its place. -/
theorem Served.exchange (h : c.Served host router requests) {i : Nat} {resp : Response Json StreamHandler}
    (hresp : c.replies[i]? = some resp) :
    ∃ (x : HttpExchange Handler) (done : List (HttpExchange Handler × Response Json StreamHandler))
      (rest : List (HttpWire Handler Json StreamHandler)),
      requests[i]? = some x.req ∧ c.log = done.flatMap answeredLog ++ rest ∧
      Exchanged host router c.server done rest ∧
      (done[i]? = some (x, resp) ∨ c.server = .finished ∧ i = done.length ∧ rest = x.log) := by
  obtain ⟨done, rest, hlog, hexchanged⟩ := h.exchanged
  have hanswers : answers c.log = done.map Prod.snd := by
    simp [hlog, answers_of_rest hexchanged.behind]
  have hasks : asks c.log = done.map (·.1.req) ++ asks rest := by
    simp [hlog]
  have hdone : (done.map Prod.snd)[i]? = some resp → ∃ x : HttpExchange Handler,
      requests[i]? = some x.req ∧ done[i]? = some (x, resp) := by
    intro hi
    rw [List.getElem?_map] at hi
    obtain ⟨⟨x, resp⟩, hx, rfl⟩ := Option.map_eq_some_iff.1 hi
    refine ⟨x, h.request_of_asked ?_, hx⟩
    have hlt := (List.getElem?_eq_some_iff.1 hx).1
    rw [hasks, List.getElem?_append_left (by rwa [List.length_map]), List.getElem?_map, hx,
      Option.map_some]
  rcases h.replied with hreplies | ⟨hfinished, hmore, lost, hreplies⟩
  · rw [hreplies, hanswers] at hresp
    obtain ⟨x, hreq, hmem⟩ := hdone hresp
    exact ⟨x, done, rest, hreq, hlog, hexchanged, .inl hmem⟩
  · rw [hreplies, hanswers] at hresp
    rcases Nat.lt_or_ge i (done.map Prod.snd).length with hlt | hge
    · rw [List.getElem?_append_left hlt] at hresp
      obtain ⟨x, hreq, hmem⟩ := hdone hresp
      exact ⟨x, done, rest, hreq, hlog, hexchanged, .inl hmem⟩
    · -- the response that the connection was lost behind
      have hbehind := hexchanged.behind
      rw [hfinished] at hbehind
      rcases hbehind with rfl | ⟨x, -, rfl⟩
      · rw [hanswers, hasks, List.length_append, List.length_map, List.length_map] at hmore
        exact absurd hmore (Nat.lt_irrefl _)
      · have hi : i = done.length := by
          have hlt := (List.getElem?_eq_some_iff.1 hresp).1
          rw [List.length_append, List.length_map, List.length_singleton] at hlt
          rw [List.length_map] at hge
          omega
        refine ⟨x, done, _, h.request_of_asked ?_, hlog, hexchanged, .inr ⟨hfinished, hi, rfl⟩⟩
        rw [hasks, hi, asks_log]
        simp

end HttpConnection

end Model

end Httplib
