import Httplib.Client.HttpClient
import Httplib.Server.HttpConnection

/-!
# An HTTP conversation

An `http_client::impl` (`lib/client/client_impl.cpp`) whose connections are each served by a
`session::http_task` (`lib/server/session.cpp`). A request may be sent twice, over two connections, and the
parser of the client sees bytes only: `http_conversation` says which response a call of
`async_send_request` returns, and how often its request is served.
-/

namespace Httplib

/-- What a parser of responses says of the bytes it has taken: the header, or the body, has come to its
end (perhaps because the server sends nothing more), and the connection is to be kept. Of no bytes nothing
has come to its end. -/
structure ResponseParser where
  headerDone : Bytes → Bool
  bodyDone : Bytes → (eof : Bool) → Bool
  keepAlive : Bytes → Bool
  headerDone_nil : headerDone [] = false
  bodyDone_nil : ∀ eof, bodyDone [] eof = false

/-- The response to a HEAD or to another request, in `text`, does not end before its last byte. -/
def ResponseParser.Delimits (parser : ResponseParser) (head : Bool) (text : Bytes) : Prop :=
  ∀ part, part <+: text → part ≠ text →
    if head then parser.headerDone part = false else ∀ eof, parser.bodyDone part eof = false

/-- An attempt to send a request: the number of the call of `async_send_request`, and the number of the
connection. -/
structure SendAttempt where
  call : Nat
  conn : Nat
  req : Request

/-- A client, its connections, and the calls of `async_send_request` with what they have returned. -/
structure HttpConversation (Handler Json StreamHandler : Type) where
  client : HttpClient := {}
  conns : Nat → HttpConnection Handler Json StreamHandler := fun _ => {}
  calls : List Request := []
  attempts : List SendAttempt := []
  /-- The bytes that the parser of the response has taken. -/
  taken : Bytes := []
  /-- The calls that have returned a response, with its bytes. -/
  returned : List (Nat × Bytes) := []

/-- What happens next in a conversation. -/
inductive ConversationEvent (Json StreamHandler : Type) where
  /-- `async_send_request` is called. -/
  | send (req : Request) (resolve : Bool)
  | resolved
  | connected
  | wrote (done : Bool)
  /-- `async_read_some` completes: a number of bytes have come, and the parser has taken a number of
  those in the buffer. -/
  | read (received consumed : Nat) (eof : Bool)
  | failed (retried resolve : Bool)
  | close
  /-- Something happens at the server's end of a connection. Of a message whose writing fails, a part was
  sent. -/
  | server (conn : Nat) (event : HttpEvent Json StreamHandler) (part : Nat)
  /-- The task that the connection was handed over to writes to it. -/
  | handedOver (conn : Nat) (text : Bytes)

section Model

variable {Handler Ws Regex Json StreamHandler : Type} [StdRegex Regex]

namespace HttpConversation

/-- The attempts over a connection. -/
def along (s : HttpConversation Handler Json StreamHandler) (conn : Nat) : List SendAttempt :=
  s.attempts.filter (·.conn = conn)

/-- A connection changes. -/
def setConn (s : HttpConversation Handler Json StreamHandler) (conn : Nat)
    (c : HttpConnection Handler Json StreamHandler) : HttpConversation Handler Json StreamHandler :=
  { s with conns := Function.update s.conns conn c }

/-- The request of the last call is sent over a connection. -/
def attempt (s : HttpConversation Handler Json StreamHandler) (client : HttpClient) (conn : Nat)
    (req : Request) : HttpConversation Handler Json StreamHandler :=
  { s with
    client
    attempts := s.attempts ++ [{ call := s.calls.length - 1, conn, req }]
    taken := [] }

/-- The client goes on; where it comes to write, it sends the request of the last call. -/
def follow (s : HttpConversation Handler Json StreamHandler) (client : HttpClient) :
    HttpConversation Handler Json StreamHandler :=
  match client.pc, client.stream, s.calls.getLast? with
  | .writing, some stream, some req => s.attempt client stream.conn req
  | _, _, _ => { s with client }

/-- A read of the client. -/
def read (parser : ResponseParser) (policy : TimeoutPolicy)
    (s : HttpConversation Handler Json StreamHandler) (received consumed : Nat) (eof : Bool) :
    Option (HttpConversation Handler Json StreamHandler) :=
  s.client.stream.bind fun stream =>
    let c := s.conns stream.conn
    let arrived := c.down.take received
    let taken := s.taken ++ (s.client.buffer.map (·.byte) ++ arrived).take consumed
    let headerDone := parser.headerDone taken
    let bodyDone := parser.bodyDone taken eof
    ((httpClient policy).step s.client
      (.read arrived consumed headerDone bodyDone (parser.keepAlive taken))).map fun client =>
        { s.setConn stream.conn { c with down := c.down.drop received } with
          client
          taken
          returned :=
            if s.client.messageDone headerDone bodyDone then s.returned ++ [(s.calls.length - 1, taken)]
            else s.returned }

/-- What the server's end of a connection comes to do: a header that it reads is that of the next request,
unless a body before it was not read to its end. -/
def offered (s : HttpConversation Handler Json StreamHandler) (conn : Nat) :
    HttpEvent Json StreamHandler → Option (HttpEvent Json StreamHandler)
  | .header req keepAlive upgrade bodyDone =>
    match (s.conns conn).server with
    | .readHeader true =>
      ((s.along conn)[(HttpWire.asks (s.conns conn).log).length]?).map fun attempt =>
        .header attempt.req keepAlive upgrade bodyDone
    | _ => some (.header req keepAlive upgrade bodyDone)
  | event => some event

end HttpConversation

/-- A client and the server's ends of its connections, over the parser of the client, what is written for a
response, and the 100 reply. -/
def httpConversation (policy : TimeoutPolicy) (host : Host)
    (preparePayload : ResponseHeader → Option ResponseHeader) (supported : Bytes → Bool)
    (router : Router Handler Ws Regex) (parser : ResponseParser)
    (wire : Response Json StreamHandler → Bytes) (continueReply : Bytes) :
    Machine (HttpConversation Handler Json StreamHandler) (ConversationEvent Json StreamHandler) where
  init s := s = {}
  step s
    | .send req resolve =>
      ((httpClient policy).step s.client (.send (req.method = .head) resolve)).map fun client =>
        ({ s with calls := s.calls ++ [req] } : HttpConversation _ _ _).follow client
    | .resolved => ((httpClient policy).step s.client .resolved).map s.follow
    | .connected => ((httpClient policy).step s.client .connected).map s.follow
    | .wrote done => ((httpClient policy).step s.client (.wrote done)).map fun client => { s with client }
    | .read received consumed eof => s.read parser policy received consumed eof
    | .failed retried resolve => ((httpClient policy).step s.client (.failed retried resolve)).map s.follow
    | .close => ((httpClient policy).step s.client .close).map fun client => { s with client }
    | .server conn event part =>
      (s.offered conn event).bind fun event =>
        ((s.conns conn).serve host preparePayload supported router wire continueReply event part).map
          (s.setConn conn)
    | .handedOver conn text =>
      match (s.conns conn).server with
      | .handedOver =>
        some (s.setConn conn { s.conns conn with down := (s.conns conn).down ++ text })
      | _ => none

end Model

/-! ## Steps of the client -/

namespace HttpClient

variable {policy : TimeoutPolicy} {s : HttpClient} {stream : ClientStream}

/-- The next operation of an exchange is over the same connection. -/
theorem goOn_eq (hstream : s.stream = some stream) (pc : ClientPc) :
    ∃ stream' : ClientStream, stream'.conn = stream.conn ∧
      s.goOn policy pc = { s with pc, stream := some stream' } := by
  refine ⟨stream.expiresAfter policy false, conn_expiresAfter policy false stream, ?_⟩
  rw [goOn, expiresAfter, hstream]
  rfl

/-- A stream is connected over the connection it was made for. -/
theorem connect_eq (hstream : s.stream = some stream) :
    ∃ stream' : ClientStream, stream'.conn = stream.conn ∧
      s.connect policy = { s with pc := .connecting, stream := some stream' } := by
  refine ⟨{ stream.expiresAfter policy true with isOpen := true },
    conn_expiresAfter policy true stream, ?_⟩
  rw [connect, expiresAfter, hstream]
  rfl

/-- A request over the connection that is open. -/
theorem start_of_open (hopen : s.isOpen = true) (resolve : Bool) :
    ∃ stream stream' : ClientStream, s.stream = some stream ∧ stream.isOpen = true ∧
      stream'.conn = stream.conn ∧
      s.start policy resolve = { s with pc := .writing, stream := some stream' } := by
  obtain ⟨stream, hstream, hon⟩ := isOpen_iff.1 hopen
  obtain ⟨stream', hconn, heq⟩ := @goOn_eq policy s stream hstream .writing
  exact ⟨stream, stream', hstream, hon, hconn, by rw [start, if_pos hopen, heq]⟩

/-- A request over a new connection. -/
theorem start_of_closed (hclosed : s.isOpen = false) (resolve : Bool) :
    ∃ (pc : ClientPc) (stream' : ClientStream), (pc = .resolving ∨ pc = .connecting) ∧
      stream'.conn = s.made ∧
      s.start policy resolve = { s with pc, stream := some stream', made := s.made + 1 } := by
  rw [start, if_neg (Bool.eq_false_iff.1 hclosed)]
  cases resolve with
  | true => exact ⟨.resolving, _, .inl rfl, rfl, rfl⟩
  | false =>
    obtain ⟨stream', hconn, heq⟩ :=
      @connect_eq policy { s with stream := some { conn := s.made }, made := s.made + 1 } _ rfl
    exact ⟨.connecting, stream', .inr rfl, hconn, heq⟩

/-- The end of a response, behind which the connection is kept or not. -/
theorem finish_eq (hstream : s.stream = some stream) (keepAlive : Bool) :
    ∃ stream' : ClientStream, stream'.conn = stream.conn ∧
      s.finish keepAlive = { s with pc := .idle, stream := some stream' } := by
  cases keepAlive with
  | true => exact ⟨{ stream with armed := false }, rfl, by simp [finish, hstream]⟩
  | false =>
    exact ⟨{ stream with isOpen := false, armed := false }, rfl, by simp [finish, closeStream, hstream]⟩

end HttpClient

section Model

variable {Handler Ws Regex Json StreamHandler : Type} [StdRegex Regex]

namespace HttpConversation

variable {policy : TimeoutPolicy} {host : Host}
  {preparePayload : ResponseHeader → Option ResponseHeader} {supported : Bytes → Bool}
  {router : Router Handler Ws Regex} {parser : ResponseParser}
  {wire : Response Json StreamHandler → Bytes} {continueReply : Bytes}
  {s s' : HttpConversation Handler Json StreamHandler} {client : HttpClient}

/-- A step that keeps the messages apart: the client asks for no tunnel and no 100 reply, it closes the
connection only behind an empty read buffer, and the server keeps the boundary between two requests and
frames its responses. -/
def Orderly (preparePayload : ResponseHeader → Option ResponseHeader) (supported : Bytes → Bool)
    (router : Router Handler Ws Regex) (parser : ResponseParser)
    (wire : Response Json StreamHandler → Bytes) (s : HttpConversation Handler Json StreamHandler) :
    ConversationEvent Json StreamHandler → Prop
  | .send req _ => req.Plain
  | .failed _ _ | .close => s.client.buffer = []
  | .server conn event _ =>
    (s.conns conn).server.Closes router event ∧ ¬ event.Upgrades ∧
      ∀ t resp, (s.conns conn).server = .turn t →
        HttpConnection.reply preparePayload supported (s.conns conn).server event = some resp →
        parser.Delimits (t.req.method = .head) (wire resp)
  | _ => True

/-! ## The bytes on the way -/

/-- What is on the way behind the last of a number of requests: nothing yet, or the response to it, or the
part of it that is left. -/
def Awaits (parser : ResponseParser) (wire : Response Json StreamHandler → Bytes) (head : Bool)
    (requests : Nat) (c : HttpConnection Handler Json StreamHandler) (text : Bytes) : Prop :=
  c.replies.length + 1 = requests ∧ text = [] ∨
    c.replies.length = requests ∧ ∃ resp, c.replies.getLast? = some resp ∧ text <+: wire resp ∧
      parser.Delimits head (wire resp)

/-- The last request over the connection is that of the last call, and its response is awaited. -/
def InFlight (parser : ResponseParser) (wire : Response Json StreamHandler → Bytes)
    (s : HttpConversation Handler Json StreamHandler) : Prop :=
  ∃ stream ∈ s.client.stream, ∃ attempt, (s.along stream.conn).getLast? = some attempt ∧
    attempt.call + 1 = s.calls.length ∧ s.client.head = decide (attempt.req.method = .head) ∧
    Awaits parser wire s.client.head (s.along stream.conn).length (s.conns stream.conn)
      (s.taken ++ s.client.buffer.map (·.byte) ++ (s.conns stream.conn).down)

/-- What the client has before it. -/
def Expects (parser : ResponseParser) (wire : Response Json StreamHandler → Bytes)
    (s : HttpConversation Handler Json StreamHandler) : Prop :=
  match s.client.pc with
  | .idle =>
    s.client.buffer = [] ∧ ∀ stream ∈ s.client.stream, stream.isOpen = true →
      (s.conns stream.conn).down = [] ∧
        (s.conns stream.conn).replies.length = (s.along stream.conn).length
  | .resolving | .connecting =>
    s.client.buffer = [] ∧ ∃ stream ∈ s.client.stream, s.along stream.conn = []
  | .writing | .readingHeader | .readingBody => s.InFlight parser wire
  | .cancelled => s.client.buffer = []

/-- An attempt is to come. -/
def coming : ClientPc → Nat
  | .resolving | .connecting => 1
  | _ => 0

/-- The number of attempts for a call. -/
def tries (attempts : List SendAttempt) (call : Nat) : Nat := (attempts.filter (·.call = call)).length

/-- What holds of the attempts between the steps: they are made in the order of the calls and over ever new
connections, at most two for each call, and each call returns once. -/
structure Numbered (client : HttpClient) (calls : List Request) (attempts : List SendAttempt)
    (returned : List (Nat × Bytes)) : Prop where
  ordered : attempts.Pairwise fun a b =>
    a.call < b.call ∧ a.conn ≤ b.conn ∨ a.call = b.call ∧ a.conn < b.conn
  made : ∀ a ∈ attempts, a.conn < client.made
  called : ∀ a ∈ attempts, calls[a.call]? = some a.req
  newest : ∀ stream ∈ client.stream, stream.conn + 1 = client.made
  twice : ∀ call, tries attempts call ≤ 2
  budget : client.pc ≠ .idle → calls ≠ [] ∧
    tries attempts (calls.length - 1) + coming client.pc ≤ if client.retry then 1 else 2
  once : (returned.map Prod.fst).Pairwise (· < ·)
  before : ∀ x ∈ returned, x.1 < calls.length ∧ (client.pc ≠ .idle → x.1 + 1 < calls.length)

/-- What holds between the steps of an orderly conversation. -/
structure Inv (host : Host) (router : Router Handler Ws Regex) (parser : ResponseParser)
    (wire : Response Json StreamHandler → Bytes) (s : HttpConversation Handler Json StreamHandler) :
    Prop where
  served : ∀ conn, (s.conns conn).Served host router ((s.along conn).map (·.req))
  plain : ∀ req ∈ s.calls, req.Plain
  expects : s.Expects parser wire
  head : s.client.pc ≠ .idle →
    ∃ req, s.calls.getLast? = some req ∧ s.client.head = decide (req.method = .head)
  body : s.client.pc = .readingBody → s.client.head = false
  numbered : Numbered s.client s.calls s.attempts s.returned
  returned : ∀ x ∈ s.returned, ∃ a ∈ s.attempts, a.call = x.1 ∧
    ∃ (i : Nat) (resp : Response Json StreamHandler),
      (s.along a.conn)[i]? = some a ∧ (s.conns a.conn).replies[i]? = some resp ∧ x.2 = wire resp

@[simp] theorem client_setConn (s : HttpConversation Handler Json StreamHandler) (conn : Nat)
    (c : HttpConnection Handler Json StreamHandler) : (s.setConn conn c).client = s.client := rfl

/-- The connection that is set. -/
@[simp] theorem conns_setConn (s : HttpConversation Handler Json StreamHandler) (conn : Nat)
    (c : HttpConnection Handler Json StreamHandler) : (s.setConn conn c).conns conn = c :=
  Function.update_self _ _ _

/-- The other connections stay as they are. -/
theorem conns_setConn_of_ne {conn conn' : Nat} (hne : conn' ≠ conn)
    (c : HttpConnection Handler Json StreamHandler) : (s.setConn conn c).conns conn' = s.conns conn' :=
  Function.update_of_ne hne _ _

/-! ## The attempts -/

section

variable {client client' : HttpClient} {calls : List Request} {attempts : List SendAttempt}
  {returned : List (Nat × Bytes)}

/-- A request is sent for a call that was made. -/
theorem Numbered.call_lt (h : Numbered client calls attempts returned) {a : SendAttempt}
    (ha : a ∈ attempts) : a.call < calls.length := by
  obtain ⟨hlt, -⟩ := List.getElem?_eq_some_iff.1 (h.called a ha)
  exact hlt

/-- The connection that is kept is the newest one. -/
theorem Numbered.newest_of_conn (h : Numbered client calls attempts returned) {stream stream' : ClientStream}
    (hstream : client.stream = some stream) (hconn : stream'.conn = stream.conn) :
    ∀ kept ∈ some stream', kept.conn + 1 = client.made := by
  rintro _ ⟨⟩
  rw [hconn]
  exact h.newest stream hstream

/-- The client goes on with the call that it works on. -/
theorem Numbered.goOn (h : Numbered client calls attempts returned)
    (hbusy : client.pc ≠ .idle) (hmade : client'.made = client.made)
    (hnewest : ∀ stream ∈ client'.stream, stream.conn + 1 = client.made)
    (hretry : client'.retry = client.retry) (hcoming : coming client'.pc ≤ coming client.pc) :
    Numbered client' calls attempts returned where
  ordered := h.ordered
  made := by rw [hmade]; exact h.made
  called := h.called
  newest := by rw [hmade]; exact hnewest
  twice := h.twice
  budget _ := by
    obtain ⟨hcalls, hbudget⟩ := h.budget hbusy
    rw [hretry]
    exact ⟨hcalls, by omega⟩
  once := h.once
  before x hx := ⟨(h.before x hx).1, fun _ => (h.before x hx).2 hbusy⟩

/-- The call comes to its end. -/
theorem Numbered.idle (h : Numbered client calls attempts returned) (hpc : client'.pc = .idle)
    (hmade : client'.made = client.made)
    (hnewest : ∀ stream ∈ client'.stream, stream.conn + 1 = client.made) :
    Numbered client' calls attempts returned where
  ordered := h.ordered
  made := by rw [hmade]; exact h.made
  called := h.called
  newest := by rw [hmade]; exact hnewest
  twice := h.twice
  budget hbusy := absurd hpc hbusy
  once := h.once
  before x hx := ⟨(h.before x hx).1, fun hbusy => absurd hpc hbusy⟩

/-- The call returns. -/
theorem Numbered.returns (h : Numbered client calls attempts returned) (hpc : client.pc = .idle)
    (hlast : ∀ x ∈ returned, x.1 + 1 < calls.length) (hcalls : calls ≠ []) (text : Bytes) :
    Numbered client calls attempts (returned ++ [(calls.length - 1, text)]) where
  ordered := h.ordered
  made := h.made
  called := h.called
  newest := h.newest
  twice := h.twice
  budget := h.budget
  once := by
    rw [List.map_append, List.pairwise_append]
    refine ⟨h.once, List.pairwise_singleton _ _, ?_⟩
    intro k hk k' hk'
    obtain ⟨x, hx, rfl⟩ := List.mem_map.1 hk
    cases List.mem_singleton.1 hk'
    exact Nat.lt_sub_of_add_lt (hlast x hx)
  before x hx := by
    refine ⟨?_, fun hbusy => absurd hpc hbusy⟩
    rcases List.mem_append.1 hx with hx | hx
    · exact (h.before x hx).1
    · cases List.mem_singleton.1 hx
      exact Nat.sub_lt (List.length_pos_iff.2 hcalls) Nat.one_pos

/-- A new connection is made for an attempt. -/
theorem Numbered.connect (h : Numbered client calls attempts returned)
    (hmade : client'.made = client.made + 1)
    (hnewest : ∀ stream ∈ client'.stream, stream.conn + 1 = client'.made) (hcalls : calls ≠ [])
    (hbudget : tries attempts (calls.length - 1) + 1 ≤ if client'.retry then 1 else 2)
    (hbefore : ∀ x ∈ returned, x.1 + 1 < calls.length) : Numbered client' calls attempts returned where
  ordered := h.ordered
  made a ha := by rw [hmade]; exact Nat.lt_succ_of_lt (h.made a ha)
  called := h.called
  newest := hnewest
  twice := h.twice
  budget _ := by
    refine ⟨hcalls, le_trans (Nat.add_le_add_left ?_ _) hbudget⟩
    unfold coming
    split <;> omega
  once := h.once
  before x hx := ⟨(h.before x hx).1, fun _ => hbefore x hx⟩

/-- A new call. -/
theorem Numbered.call (h : Numbered client calls attempts returned) (hpc : client.pc = .idle)
    (req : Request) : Numbered client (calls ++ [req]) attempts returned ∧
      tries attempts ((calls ++ [req]).length - 1) = 0 ∧
      ∀ x ∈ returned, x.1 + 1 < (calls ++ [req]).length := by
  have hlength : (calls ++ [req]).length = calls.length + 1 := List.length_append
  refine ⟨⟨h.ordered, h.made, ?_, h.newest, h.twice, fun hbusy => absurd hpc hbusy, h.once, ?_⟩, ?_, ?_⟩
  · intro a ha
    rw [List.getElem?_append_left (h.call_lt ha)]
    exact h.called a ha
  · intro x hx
    refine ⟨?_, fun hbusy => absurd hpc hbusy⟩
    rw [hlength]
    exact Nat.lt_succ_of_lt (h.before x hx).1
  · rw [hlength, Nat.add_sub_cancel, tries, List.length_eq_zero_iff, List.filter_eq_nil_iff]
    intro a ha heq
    exact absurd (of_decide_eq_true heq) (h.call_lt ha).ne
  · intro x hx
    rw [hlength]
    exact Nat.succ_lt_succ (h.before x hx).1

/-- An attempt is made. -/
theorem Numbered.attempt (h : Numbered client calls attempts returned) {stream : ClientStream}
    (hmade : client'.made = client.made) (hpc : coming client'.pc = 0)
    (hstream : client'.stream = some stream) (hconn : stream.conn + 1 = client.made)
    {req : Request} (hlast : calls.getLast? = some req)
    (hnew : ∀ a ∈ attempts, a.call + 1 = calls.length → a.conn ≠ stream.conn)
    (hbudget : tries attempts (calls.length - 1) + 1 ≤ if client'.retry then 1 else 2)
    (hbefore : ∀ x ∈ returned, x.1 + 1 < calls.length) :
    Numbered client' calls (attempts ++ [{ call := calls.length - 1, conn := stream.conn, req }])
      returned := by
  have hcalls : calls ≠ [] := List.ne_nil_of_mem (List.mem_of_getLast? hlast)
  have hpos := List.length_pos_iff.2 hcalls
  have htries : ∀ call, tries (attempts ++ [{ call := calls.length - 1, conn := stream.conn, req }]) call =
      tries attempts call + if calls.length - 1 = call then 1 else 0 := by
    intro call
    rw [tries, List.filter_append, List.length_append, tries]
    congr 1
    by_cases heq : calls.length - 1 = call <;> simp [heq]
  have htwo : (if client'.retry then 1 else 2) ≤ 2 := by split <;> omega
  refine ⟨?_, ?_, ?_, ?_, ?_, ?_, h.once, fun x hx => ⟨(h.before x hx).1, fun _ => hbefore x hx⟩⟩
  · rw [List.pairwise_append]
    refine ⟨h.ordered, List.pairwise_singleton _ _, ?_⟩
    intro a ha b hb
    cases List.mem_singleton.1 hb
    have hlt := h.call_lt ha
    have hmade := h.made a ha
    have hne := hnew a ha
    dsimp only
    omega
  · intro a ha
    rw [hmade]
    rcases List.mem_append.1 ha with ha | ha
    · exact h.made a ha
    · cases List.mem_singleton.1 ha
      exact Nat.lt_of_succ_le hconn.le
  · intro a ha
    rcases List.mem_append.1 ha with ha | ha
    · exact h.called a ha
    · cases List.mem_singleton.1 ha
      rw [← List.getLast?_eq_getElem?]
      exact hlast
  · rw [hstream, hmade]
    rintro _ ⟨⟩
    exact hconn
  · intro call
    rw [htries]
    split
    · next heq =>
      rw [← heq]
      exact hbudget.trans htwo
    · exact h.twice call
  · intro _
    refine ⟨hcalls, ?_⟩
    rw [hpc, htries, if_pos rfl]
    exact hbudget

end

/-! ## The server goes on -/

section

variable {c c' : HttpConnection Handler Json StreamHandler} {requests : List Request} {head : Bool}
  {event : HttpEvent Json StreamHandler}

open HttpConnection

/-- The server sends the response to the last request, or nothing. -/
theorem Awaits.sends {front : Bytes} (h : Awaits parser wire head requests.length c (front ++ c.down))
    (hsends : Sends wire preparePayload supported requests c c' event) {req : Request}
    (hlast : requests.getLast? = some req) (hhead : head = decide (req.method = .head))
    (hdelimits : ∀ t resp, c.server = .turn t → reply preparePayload supported c.server event = some resp →
      parser.Delimits (t.req.method = .head) (wire resp)) :
    Awaits parser wire head requests.length c' (front ++ c'.down) := by
  cases hsends with
  | nothing hreplies hdown =>
    rw [hdown]
    unfold Awaits at h ⊢
    rwa [hreplies]
  | @response t resp text req' hserver hreply hreq hmethod hreplies hdown htext =>
    obtain ⟨hlt, -⟩ := List.getElem?_eq_some_iff.1 hreq
    rcases h with ⟨hone, hnil⟩ | ⟨hall, -⟩
    · obtain ⟨rfl, hempty⟩ := List.append_eq_nil_iff.1 hnil
      -- the request that is answered is the last one
      have hsame : req' = req := by
        rw [List.getLast?_eq_getElem?, ← hone, Nat.add_sub_cancel, hreq] at hlast
        exact Option.some.inj hlast
      have hdelimit := hdelimits t resp hserver hreply
      rw [hmethod, hsame, ← hhead] at hdelimit
      refine .inr ⟨?_, resp, ?_, ?_, hdelimit⟩
      · rw [hreplies, List.length_append]
        exact hone
      · rw [hreplies, List.getLast?_concat]
      · rw [hdown, hempty]
        exact htext
    · exact absurd hall hlt.ne

end

/-- What was returned stays where it was found. -/
theorem Inv.returned_mono (h : s.Inv host router parser wire)
    (s' : HttpConversation Handler Json StreamHandler)
    (hattempts : s.attempts <+: s'.attempts)
    (hreplies : ∀ conn, (s.conns conn).replies <+: (s'.conns conn).replies) {x : Nat × Bytes}
    (hx : x ∈ s.returned) : ∃ a ∈ s'.attempts, a.call = x.1 ∧
      ∃ (i : Nat) (resp : Response Json StreamHandler),
        (s'.along a.conn)[i]? = some a ∧ (s'.conns a.conn).replies[i]? = some resp ∧ x.2 = wire resp := by
  obtain ⟨a, ha, hcall, i, resp, hover, hreply, htext⟩ := h.returned x hx
  have hprefix : ∀ {α : Type} {l l' : List α} {i : Nat} {b : α}, l <+: l' → l[i]? = some b →
      l'[i]? = some b := by
    intro α l l' i b hl hb
    obtain ⟨hlt, rfl⟩ := List.getElem?_eq_some_iff.1 hb
    exact List.prefix_iff_getElem?.1 hl i hlt
  exact ⟨a, hattempts.subset ha, hcall, i, resp, hprefix (hattempts.filter _) hover,
    hprefix (hreplies _) hreply, htext⟩

/-- A header that is read is that of the next request. -/
theorem Inv.offered (h : s.Inv host router parser wire) {conn part : Nat}
    {event event' : HttpEvent Json StreamHandler} {c : HttpConnection Handler Json StreamHandler}
    (hoffered : s.offered conn event = some event')
    (hserve : (s.conns conn).serve host preparePayload supported router wire continueReply event' part =
      some c) :
    event' = event ∧ (∀ req keepAlive upgrade noBody, event ≠ .header req keepAlive upgrade noBody) ∨
      ∃ req req' keepAlive upgrade noBody, event = .header req keepAlive upgrade noBody ∧
      event' = .header req' keepAlive upgrade noBody ∧
      ((s.along conn).map (·.req))[(HttpWire.asks (s.conns conn).log).length]? = some req' := by
  cases event with
  | header req keepAlive upgrade noBody =>
    have hboundary := (h.served conn).boundary
    unfold HttpConversation.offered at hoffered
    cases hserver : (s.conns conn).server with
    | readHeader bodyDone =>
      rw [hserver] at hboundary
      obtain rfl : bodyDone = true := hboundary
      rw [hserver] at hoffered
      obtain ⟨attempt, hattempt, rfl⟩ := Option.map_eq_some_iff.1 hoffered
      refine .inr ⟨req, attempt.req, keepAlive, upgrade, noBody, rfl, rfl, ?_⟩
      rw [List.getElem?_map, hattempt, Option.map_some]
    | turn | handedOver | finished =>
      obtain ⟨hstep, -⟩ := HttpConnection.serve_inv hserve
      rw [hserver] at hoffered hstep
      cases Option.some.inj hoffered
      simp [httpTask] at hstep
  | _ =>
    refine .inl ⟨(Option.some.inj hoffered).symm, ?_⟩
    intro req keepAlive upgrade noBody hheader
    cases hheader

/-- A connection over which the server has sent what it has, and perhaps one response more. -/
theorem Inv.setConn (h : s.Inv host router parser wire) {conn : Nat}
    {c : HttpConnection Handler Json StreamHandler}
    (hserved : c.Served host router ((s.along conn).map (·.req)))
    (hreplies : (s.conns conn).replies <+: c.replies) (hexpects : (s.setConn conn c).Expects parser wire) :
    (s.setConn conn c).Inv host router parser wire := by
  refine ⟨?_, h.plain, hexpects, h.head, h.body, h.numbered, ?_⟩
  · intro conn'
    rcases eq_or_ne conn' conn with rfl | hne
    · rw [conns_setConn]
      exact hserved
    · rw [conns_setConn_of_ne hne]
      exact h.served conn'
  · intro x hx
    refine h.returned_mono (s.setConn conn c) List.prefix_rfl (fun conn' => ?_) hx
    rcases eq_or_ne conn' conn with rfl | hne
    · rw [conns_setConn]
      exact hreplies
    · rw [conns_setConn_of_ne hne]

/-- A step of the server's end of a connection. -/
theorem Inv.server (hpayload : ∀ h h', preparePayload h = some h' → h'.keepAlive = h.keepAlive)
    (h : s.Inv host router parser wire) {conn part : Nat} {event event' : HttpEvent Json StreamHandler}
    {c : HttpConnection Handler Json StreamHandler} (hoffered : s.offered conn event = some event')
    (hcloses : (s.conns conn).server.Closes router event) (hupgrade : ¬ event.Upgrades)
    (hdelimits : ∀ t resp, (s.conns conn).server = .turn t →
      HttpConnection.reply preparePayload supported (s.conns conn).server event = some resp →
      parser.Delimits (t.req.method = .head) (wire resp))
    (hserve : (s.conns conn).serve host preparePayload supported router wire continueReply event' part =
      some c) :
    (s.setConn conn c).Inv host router parser wire := by
  have hserved := h.served conn
  have hplain : ∀ req ∈ (s.along conn).map (·.req), req.Plain := by
    intro req hreq
    obtain ⟨a, ha, rfl⟩ := List.mem_map.1 hreq
    exact h.plain _ (List.mem_of_getElem? (h.numbered.called a (List.mem_of_mem_filter ha)))
  obtain ⟨hheader, hcloses', hupgrade', hdelimits'⟩ :
      (∀ req keepAlive upgrade noBody, event' = .header req keepAlive upgrade noBody →
        ((s.along conn).map (·.req))[(HttpWire.asks (s.conns conn).log).length]? = some req) ∧
      (s.conns conn).server.Closes router event' ∧ ¬ event'.Upgrades ∧
      ∀ t resp, (s.conns conn).server = .turn t →
        HttpConnection.reply preparePayload supported (s.conns conn).server event' = some resp →
        parser.Delimits (t.req.method = .head) (wire resp) := by
    rcases h.offered hoffered hserve with ⟨rfl, hno⟩ | ⟨req, req', keepAlive, upgrade, noBody, rfl, rfl, hreq⟩
    · exact ⟨fun _ _ _ _ heq => absurd heq (hno _ _ _ _), hcloses, hupgrade, hdelimits⟩
    · refine ⟨?_, ?_, hupgrade, ?_⟩
      · rintro _ _ _ _ ⟨⟩
        exact hreq
      · unfold HttpTask.Closes
        split <;> trivial
      · intro t resp ht hreply
        rw [ht] at hreply
        cases hreply
  have hserved' := hserved.serve hpayload hplain hheader hcloses' hupgrade' hserve
  have hsends := hserved.sends hplain hserve
  obtain ⟨-, -, hreplies, -⟩ := HttpConnection.serve_inv hserve
  refine h.setConn hserved' (by rw [hreplies]; exact List.prefix_append _ _) ?_
  have hexpects := h.expects
  have hother : ∀ {conn'}, conn' ≠ conn → (s.setConn conn c).conns conn' = s.conns conn' :=
    fun hne => conns_setConn_of_ne hne c
  have hflight : s.InFlight parser wire → (s.setConn conn c).InFlight parser wire := by
    rintro ⟨stream, hstream, attempt, hlast, hcall, hhead, hawaits⟩
    refine ⟨stream, hstream, attempt, hlast, hcall, hhead, ?_⟩
    rcases eq_or_ne stream.conn conn with rfl | hne
    · rw [conns_setConn]
      rw [← List.length_map (·.req)] at hawaits ⊢
      have hreq : ((s.along stream.conn).map (·.req)).getLast? = some attempt.req := by
        rw [List.getLast?_map, hlast, Option.map_some]
      exact hawaits.sends hsends hreq hhead hdelimits'
    · rw [hother hne]
      exact hawaits
  cases hpc : s.client.pc with
  | idle =>
    simp only [Expects, client_setConn, hpc] at hexpects ⊢
    refine ⟨hexpects.1, fun stream hstream hopen => ?_⟩
    have hsettled := hexpects.2 stream hstream hopen
    rcases eq_or_ne stream.conn conn with hconn | hne
    · subst hconn
      rw [conns_setConn]
      cases hsends with
      | nothing hreplies hdown =>
        rw [hdown, hreplies]
        exact hsettled
      | response _ _ hreq =>
        obtain ⟨hlt, -⟩ := List.getElem?_eq_some_iff.1 hreq
        rw [List.length_map] at hlt
        exact absurd hsettled.2 hlt.ne
    · rw [hother hne]
      exact hsettled
  | resolving | connecting | cancelled =>
    simp only [Expects, client_setConn, hpc] at hexpects ⊢
    exact hexpects
  | writing | readingHeader | readingBody =>
    simp only [Expects, client_setConn, hpc] at hexpects ⊢
    exact hflight hexpects

/-! ## The client goes on -/

/-- A client that does not write sends no request. -/
theorem follow_of_ne (hpc : client.pc ≠ .writing) : s.follow client = { s with client } := by
  unfold follow
  split
  · next h _ _ => exact absurd h hpc
  · rfl

/-- A request that is sent is the next one over its connection. -/
theorem along_attempt (s : HttpConversation Handler Json StreamHandler) (client : HttpClient) (conn : Nat)
    (req : Request) (conn' : Nat) :
    (s.attempt client conn req).along conn' =
      s.along conn' ++ if conn = conn' then [{ call := s.calls.length - 1, conn, req }] else [] := by
  unfold along attempt
  rw [List.filter_append]
  by_cases heq : conn = conn' <;> simp [heq]

/-- Only the client goes on. -/
theorem Inv.goOn (h : s.Inv host router parser wire)
    (hexpects : ({ s with client } : HttpConversation _ _ _).Expects parser wire)
    (hhead : client.pc ≠ .idle →
      ∃ req, s.calls.getLast? = some req ∧ client.head = decide (req.method = .head))
    (hbody : client.pc = .readingBody → client.head = false)
    (hnumbered : Numbered client s.calls s.attempts s.returned) :
    ({ s with client } : HttpConversation _ _ _).Inv host router parser wire :=
  ⟨h.served, h.plain, hexpects, hhead, hbody, hnumbered, h.returned⟩

/-- A request is sent over a connection on which nothing is awaited. -/
theorem Inv.attempt (h : s.Inv host router parser wire) {stream : ClientStream} {req : Request}
    (hpc : client.pc = .writing) (hstream : client.stream = some stream) (hbuffer : client.buffer = [])
    (hlast : s.calls.getLast? = some req) (hhead : client.head = decide (req.method = .head))
    (hdown : (s.conns stream.conn).down = [])
    (hreplies : (s.conns stream.conn).replies.length = (s.along stream.conn).length)
    (hnumbered : Numbered client s.calls
      (s.attempts ++ [{ call := s.calls.length - 1, conn := stream.conn, req }]) s.returned) :
    (s.follow client).Inv host router parser wire := by
  have hfollow : s.follow client = s.attempt client stream.conn req := by
    rw [follow, hpc, hstream, hlast]
  have hcalls : s.calls ≠ [] := List.ne_nil_of_mem (List.mem_of_getLast? hlast)
  rw [hfollow]
  have hflight : (s.attempt client stream.conn req).InFlight parser wire := by
    refine ⟨stream, hstream, { call := s.calls.length - 1, conn := stream.conn, req }, ?_, ?_, hhead, ?_⟩
    · rw [along_attempt, if_pos rfl, List.getLast?_concat]
    · exact Nat.sub_add_cancel (List.length_pos_iff.2 hcalls)
    · refine .inl ⟨?_, ?_⟩
      · rw [along_attempt, if_pos rfl, List.length_append, ← hreplies]
        rfl
      · simp only [HttpConversation.attempt, hbuffer, hdown, List.map_nil, List.append_nil]
  refine ⟨?_, h.plain, ?_, fun _ => ⟨req, hlast, hhead⟩, fun hbody => ?_, hnumbered, fun x hx => ?_⟩
  · intro conn
    rw [along_attempt]
    refine (h.served conn).mono ?_
    rw [List.map_append]
    exact List.prefix_append _ _
  · rw [Expects, show (s.attempt client stream.conn req).client.pc = .writing from hpc]
    exact hflight
  · rw [show client.pc = .readingBody from hbody] at hpc
    cases hpc
  · exact h.returned_mono (s.attempt client stream.conn req) (List.prefix_append _ _)
      (fun _ => List.prefix_rfl) hx

/-- Over a new connection nothing is awaited. -/
theorem Inv.fresh (h : s.Inv host router parser wire) {conn : Nat} (hnew : s.along conn = []) :
    (s.conns conn).down = [] ∧ (s.conns conn).replies.length = (s.along conn).length := by
  have hserved := h.served conn
  have hasked := hserved.asked
  rw [hnew] at hasked
  have hnil := List.prefix_nil.1 hasked
  refine ⟨hserved.quiet hnil, ?_⟩
  have hlength := hserved.length_replies
  rw [hnil] at hlength
  rw [hnew]
  exact Nat.le_zero.1 hlength

/-- The client makes a new connection for the last call. -/
theorem Inv.startClosed (h : s.Inv host router parser wire) (hclosed : client.isOpen = false)
    (hbuffer : client.buffer = []) (hmade : client.made = s.client.made)
    (hhead : ∃ req, s.calls.getLast? = some req ∧ client.head = decide (req.method = .head))
    (hbudget : tries s.attempts (s.calls.length - 1) + 1 ≤ if client.retry then 1 else 2)
    (hbefore : ∀ x ∈ s.returned, x.1 + 1 < s.calls.length) (resolve : Bool) :
    (s.follow (client.start policy resolve)).Inv host router parser wire := by
  obtain ⟨pc, stream, hpc, hconn, heq⟩ := @HttpClient.start_of_closed policy client hclosed resolve
  have hcalls : s.calls ≠ [] := by
    obtain ⟨req, hlast, -⟩ := hhead
    exact List.ne_nil_of_mem (List.mem_of_getLast? hlast)
  have hnew : s.along stream.conn = [] := by
    refine List.filter_eq_nil_iff.2 fun a ha hsame => ?_
    have hlt := h.numbered.made a ha
    rw [of_decide_eq_true hsame, hconn, hmade] at hlt
    exact absurd hlt (Nat.lt_irrefl _)
  have hne : pc ≠ .writing := by
    rcases hpc with rfl | rfl <;> (intro hwriting; cases hwriting)
  rw [heq, follow_of_ne hne]
  have hnewest : ∀ stream' ∈ (some stream : Option ClientStream), stream'.conn + 1 = client.made + 1 := by
    rintro _ ⟨⟩
    rw [hconn]
  have hnumbered : Numbered { client with pc, stream := some stream, made := client.made + 1 }
      s.calls s.attempts s.returned :=
    h.numbered.connect (congrArg (· + 1) hmade) hnewest hcalls hbudget hbefore
  refine h.goOn ?_ (fun _ => hhead) (fun hbody => ?_) hnumbered
  · rcases hpc with rfl | rfl <;> exact ⟨hbuffer, stream, rfl, hnew⟩
  · rcases hpc with rfl | rfl <;> cases hbody

/-- A client that is anywhere but idle has a call in progress. -/
theorem busy_of_eq {pc : ClientPc} (hpc : client.pc = pc) (hne : pc ≠ .idle) : client.pc ≠ .idle := by
  rw [hpc]
  exact hne

/-- A new call. -/
theorem Inv.call (h : s.Inv host router parser wire) (hpc : s.client.pc = .idle) {req : Request}
    (hplain : req.Plain) :
    ({ s with calls := s.calls ++ [req] } : HttpConversation _ _ _).Inv host router parser wire := by
  obtain ⟨hnumbered, -, -⟩ := h.numbered.call hpc req
  refine ⟨h.served, ?_, ?_, fun hbusy => absurd hpc hbusy, h.body, hnumbered, h.returned⟩
  · intro req' hreq'
    rcases List.mem_append.1 hreq' with hreq' | hreq'
    · exact h.plain req' hreq'
    · cases List.mem_singleton.1 hreq'
      exact hplain
  · have hexpects := h.expects
    unfold Expects at hexpects ⊢
    rw [hpc] at hexpects ⊢
    exact hexpects

/-- `async_send_request` is called. -/
theorem Inv.send (h : s.Inv host router parser wire) (hpc : s.client.pc = .idle) {req : Request}
    (hplain : req.Plain) (resolve : Bool) :
    (({ s with calls := s.calls ++ [req] } : HttpConversation _ _ _).follow
      (({ s.client with head := decide (req.method = .head), retry := true } : HttpClient).start policy
        resolve)).Inv host router parser wire := by
  have hcall := h.call hpc hplain
  obtain ⟨-, htries, hbefore⟩ := h.numbered.call hpc req
  have hexpects := h.expects
  rw [Expects, hpc] at hexpects
  have hlast : (s.calls ++ [req]).getLast? = some req := List.getLast?_concat
  have hbudget : tries s.attempts ((s.calls ++ [req]).length - 1) + 1 ≤ 1 := by rw [htries]
  cases hopen : s.client.isOpen with
  | false =>
    have hclosed : ({ s.client with head := decide (req.method = .head), retry := true } :
        HttpClient).isOpen = false := hopen
    exact hcall.startClosed hclosed hexpects.1 rfl ⟨req, hlast, rfl⟩ hbudget hbefore resolve
  | true =>
    obtain ⟨stream, stream', hstream, hon, hconn, heq⟩ := @HttpClient.start_of_open policy
      { s.client with head := decide (req.method = .head), retry := true } hopen resolve
    obtain ⟨hdown, hreplies⟩ := hexpects.2 stream hstream hon
    rw [heq]
    rw [← hconn] at hdown hreplies
    have hnew : ∀ a ∈ s.attempts, a.call + 1 = (s.calls ++ [req]).length → a.conn ≠ stream'.conn := by
      intro a ha hsame
      have hlt := h.numbered.call_lt ha
      rw [List.length_append, List.length_singleton] at hsame
      omega
    have hnewest := h.numbered.newest_of_conn hstream hconn stream' rfl
    exact hcall.attempt (by rfl) (by rfl) hexpects.1 hlast (by rfl) hdown hreplies
      (hcall.numbered.attempt (by rfl) (by rfl) (by rfl) hnewest hlast hnew hbudget hbefore)

/-- The host is resolved. -/
theorem Inv.resolved (h : s.Inv host router parser wire) (hpc : s.client.pc = .resolving) :
    (s.follow (s.client.connect policy)).Inv host router parser wire := by
  have hexpects := h.expects
  rw [Expects, hpc] at hexpects
  obtain ⟨hbuffer, stream, hstream, hnew⟩ := hexpects
  obtain ⟨stream', hconn, heq⟩ := @HttpClient.connect_eq policy s.client stream hstream
  have hbusy := busy_of_eq hpc (by decide)
  have hnewest := h.numbered.newest_of_conn hstream hconn
  have hnumbered : Numbered { s.client with pc := .connecting, stream := some stream' } s.calls s.attempts
      s.returned :=
    h.numbered.goOn hbusy rfl hnewest rfl (by rw [hpc]; rfl)
  rw [heq, follow_of_ne]
  · refine h.goOn ⟨hbuffer, stream', rfl, ?_⟩ (fun _ => h.head hbusy) (fun hbody => ?_) hnumbered
    · rw [hconn]
      exact hnew
    · cases hbody
  · intro hwriting
    cases hwriting

/-- The connection is made. -/
theorem Inv.connected (h : s.Inv host router parser wire) (hpc : s.client.pc = .connecting) :
    (s.follow (s.client.goOn policy .writing)).Inv host router parser wire := by
  have hexpects := h.expects
  rw [Expects, hpc] at hexpects
  obtain ⟨hbuffer, stream, hstream, hnew⟩ := hexpects
  obtain ⟨stream', hconn, heq⟩ := @HttpClient.goOn_eq policy s.client stream hstream .writing
  have hbusy := busy_of_eq hpc (by decide)
  obtain ⟨req, hlast, hhead⟩ := h.head hbusy
  obtain ⟨-, hbudget⟩ := h.numbered.budget hbusy
  rw [hpc] at hbudget
  rw [← hconn] at hnew
  obtain ⟨hdown, hreplies⟩ := h.fresh hnew
  have hother : ∀ a ∈ s.attempts, a.call + 1 = s.calls.length → a.conn ≠ stream'.conn :=
    fun a ha _ hsame => List.filter_eq_nil_iff.1 hnew a ha (decide_eq_true hsame)
  have hnewest := h.numbered.newest_of_conn hstream hconn stream' rfl
  rw [heq]
  exact h.attempt (by rfl) (by rfl) hbuffer hlast hhead hdown hreplies
    (h.numbered.attempt (by rfl) (by rfl) (by rfl) hnewest hlast hother hbudget
      fun x hx => (h.numbered.before x hx).2 hbusy)

/-- The client goes on with the message. -/
theorem Inv.wrote (h : s.Inv host router parser wire) (hpc : s.client.pc = .writing) {pc : ClientPc}
    (hnext : pc = .writing ∨ pc = .readingHeader) :
    ({ s with client := s.client.goOn policy pc } : HttpConversation _ _ _).Inv host router parser
      wire := by
  have hexpects := h.expects
  rw [Expects, hpc] at hexpects
  obtain ⟨stream, hstream, attempt, hflight⟩ := hexpects
  obtain ⟨stream', hconn, heq⟩ := @HttpClient.goOn_eq policy s.client stream hstream pc
  have hbusy := busy_of_eq hpc (by decide)
  have hnewest := h.numbered.newest_of_conn hstream hconn
  rw [← hconn] at hflight
  rw [heq]
  have hcoming : coming pc ≤ coming s.client.pc := by
    rcases hnext with rfl | rfl <;> exact Nat.zero_le _
  refine h.goOn ?_ (fun _ => h.head hbusy) ?_ (h.numbered.goOn hbusy rfl hnewest rfl hcoming)
  · rcases hnext with rfl | rfl <;> exact ⟨stream', rfl, attempt, hflight⟩
  · rcases hnext with rfl | rfl <;> (intro hbody; cases hbody)

/-- No connection is open. -/
theorem closed_closeStream (client : HttpClient) {stream : ClientStream}
    (hstream : stream ∈ client.closeStream.stream) : stream.isOpen = false := by
  obtain ⟨stream, -, rfl⟩ := Option.map_eq_some_iff.1 hstream
  rfl

/-- A stream that is closed is still the newest. -/
theorem newest_closeStream (h : ∀ stream ∈ client.stream, stream.conn + 1 = client.made) :
    ∀ stream ∈ client.closeStream.stream, stream.conn + 1 = client.made := by
  intro stream hstream
  obtain ⟨stream, hmem, rfl⟩ := Option.map_eq_some_iff.1 hstream
  exact h stream hmem

/-- The operation fails, and the request is sent again or not. -/
theorem Inv.failed (h : s.Inv host router parser wire) (hbusy : s.client.pc ≠ .idle)
    (hbuffer : s.client.buffer = []) (retried resolve : Bool) :
    (s.follow (s.client.fail policy retried resolve)).Inv host router parser wire := by
  have hnewest := newest_closeStream h.numbered.newest
  unfold HttpClient.fail
  dsimp only
  split
  · next hretry =>
    obtain ⟨-, hbudget⟩ := h.numbered.budget hbusy
    rw [show s.client.retry = true from hretry.2, if_pos rfl] at hbudget
    have hclosed : ({ s.client.closeStream with retry := false } : HttpClient).isOpen = false :=
      HttpClient.isOpen_closeStream
    exact h.startClosed hclosed hbuffer rfl (h.head hbusy)
      (Nat.succ_le_succ ((Nat.le_add_right _ _).trans hbudget))
      (fun x hx => (h.numbered.before x hx).2 hbusy) resolve
  · have hnumbered : Numbered { s.client.closeStream with pc := .idle } s.calls s.attempts s.returned :=
      h.numbered.idle rfl rfl hnewest
    rw [follow_of_ne]
    · refine h.goOn ⟨hbuffer, fun stream hstream hopen => ?_⟩ (fun hbusy => absurd rfl hbusy)
        (fun hbody => ?_) hnumbered
      · rw [closed_closeStream s.client hstream] at hopen
        cases hopen
      · cases hbody
    · intro hwriting
      cases hwriting

/-- `close` is called. -/
theorem Inv.close (h : s.Inv host router parser wire) (hbuffer : s.client.buffer = []) :
    ({ s with client := s.client.close } : HttpConversation _ _ _).Inv host router parser wire := by
  have hnewest := newest_closeStream h.numbered.newest
  have hexpects := h.expects
  unfold HttpClient.close
  split
  · next hpc =>
    refine h.goOn ?_ (fun hbusy => absurd hpc hbusy) h.body (h.numbered.idle hpc rfl hnewest)
    rw [Expects, show (s.client.closeStream).pc = .idle from hpc]
    refine ⟨hbuffer, fun stream hstream hopen => ?_⟩
    rw [closed_closeStream s.client hstream] at hopen
    cases hopen
  · next hpc =>
    have hbusy := busy_of_eq hpc (by decide)
    rw [Expects, hpc] at hexpects
    obtain ⟨-, stream, hstream, hnew⟩ := hexpects
    refine h.goOn ?_ (fun _ => h.head hbusy) h.body (h.numbered.goOn hbusy rfl hnewest rfl le_rfl)
    rw [Expects, show (s.client.closeStream).pc = .resolving from hpc]
    exact ⟨hbuffer, _, Option.mem_map_of_mem _ hstream, hnew⟩
  · next hidle _ =>
    exact h.goOn hbuffer (fun _ => h.head hidle) (fun hbody => by cases hbody)
      (h.numbered.goOn hidle rfl hnewest rfl (Nat.zero_le _))

/-- The whole response was taken, and nothing is left behind it. -/
theorem Awaits.whole {head : Bool} {requests : Nat} {c : HttpConnection Handler Json StreamHandler}
    {taken rest : Bytes} (h : Awaits parser wire head requests c (taken ++ rest)) {eof : Bool}
    (hheader : head = true → parser.headerDone taken = true)
    (hbody : head = false → parser.bodyDone taken eof = true) :
    c.replies.length = requests ∧ rest = [] ∧ ∃ resp, c.replies.getLast? = some resp ∧ taken = wire resp := by
  rcases h with ⟨-, hnil⟩ | ⟨hlength, resp, hlast, hprefix, hdelimits⟩
  · -- nothing has come yet
    obtain ⟨rfl, -⟩ := List.append_eq_nil_iff.1 hnil
    cases head with
    | true => exact absurd (hheader rfl) (by rw [parser.headerDone_nil]; exact Bool.false_ne_true)
    | false => exact absurd (hbody rfl) (by rw [parser.bodyDone_nil]; exact Bool.false_ne_true)
  · have htaken : taken = wire resp := by
      by_contra hne
      have hpart := hdelimits taken ((List.prefix_append _ _).trans hprefix) hne
      cases head with
      | true =>
        rw [if_pos rfl, hheader rfl] at hpart
        cases hpart
      | false =>
        rw [if_neg Bool.false_ne_true] at hpart
        have hnot := hpart eof
        rw [hbody rfl] at hnot
        cases hnot
    subst htaken
    have hlen := hprefix.length_le
    rw [List.length_append] at hlen
    exact ⟨hlength, List.length_eq_zero_iff.1 (by omega), resp, hlast, rfl⟩

/-- What a read makes of the client. -/
theorem read_eq {stream : ClientStream} (hstream : client.stream = some stream) (received : Bytes)
    (consumed : Nat) (headerDone bodyDone keepAlive : Bool) :
    let buffer := (client.buffer ++ received.map fun byte => (⟨stream.conn, byte⟩ : Received)).drop consumed
    (client.messageDone headerDone bodyDone = true → ∃ stream' : ClientStream,
      stream'.conn = stream.conn ∧
      client.read policy received consumed headerDone bodyDone keepAlive stream =
        { client with pc := .idle, stream := some stream', buffer }) ∧
    (client.messageDone headerDone bodyDone = false → ∃ (stream' : ClientStream) (pc : ClientPc),
      stream'.conn = stream.conn ∧
      (pc = .readingHeader ∨ pc = .readingBody ∧ (client.pc = .readingHeader → headerDone = true)) ∧
      client.read policy received consumed headerDone bodyDone keepAlive stream =
        { client with pc, stream := some stream', buffer }) := by
  intro buffer
  constructor
  · intro hdone
    obtain ⟨stream', hconn, heq⟩ := @HttpClient.finish_eq { client with buffer } stream hstream keepAlive
    refine ⟨stream', hconn, ?_⟩
    rw [HttpClient.read]
    exact (if_pos hdone).trans heq
  · intro hmore
    by_cases hheader : client.pc = .readingHeader ∧ ¬ headerDone = true
    · obtain ⟨stream', hconn, heq⟩ :=
        @HttpClient.goOn_eq policy { client with buffer } stream hstream .readingHeader
      refine ⟨stream', .readingHeader, hconn, .inl rfl, ?_⟩
      rw [HttpClient.read]
      refine (if_neg (Bool.eq_false_iff.1 hmore)).trans ?_
      rw [if_pos hheader]
      exact heq
    · obtain ⟨stream', hconn, heq⟩ :=
        @HttpClient.goOn_eq policy { client with buffer } stream hstream .readingBody
      refine ⟨stream', .readingBody, hconn, .inr ⟨rfl, fun hpc => ?_⟩, ?_⟩
      · by_contra hnot
        exact hheader ⟨hpc, hnot⟩
      · rw [HttpClient.read]
        refine (if_neg (Bool.eq_false_iff.1 hmore)).trans ?_
        rw [if_neg hheader]
        exact heq

/-- The last attempt over a connection, and its response. -/
theorem Inv.last_returned (h : s.Inv host router parser wire) {conn : Nat} {a : SendAttempt}
    {resp : Response Json StreamHandler} (hlast : (s.along conn).getLast? = some a)
    (hlength : (s.conns conn).replies.length = (s.along conn).length)
    (hresp : (s.conns conn).replies.getLast? = some resp) :
    a ∈ s.attempts ∧ a.conn = conn ∧ a.call < s.calls.length ∧ ∃ i : Nat,
      (s.along conn)[i]? = some a ∧ (s.conns conn).replies[i]? = some resp := by
  have hmem := List.mem_of_getLast? hlast
  have ha := List.mem_of_mem_filter hmem
  refine ⟨ha, of_decide_eq_true (List.mem_filter.1 hmem).2, h.numbered.call_lt ha, _,
    List.getLast?_eq_getElem? ▸ hlast, ?_⟩
  rw [← hlength, ← List.getLast?_eq_getElem?]
  exact hresp

/-- The bytes that are received, taken or left, are those that were on the way. -/
theorem append_received (taken buffer down : Bytes) (received consumed : Nat) :
    taken ++ (buffer ++ down.take received).take consumed ++
      ((buffer ++ down.take received).drop consumed ++ down.drop received) = taken ++ buffer ++ down := by
  rw [List.append_assoc, ← List.append_assoc (List.take consumed _), List.take_append_drop,
    List.append_assoc buffer, List.take_append_drop, List.append_assoc]

/-- What a parser says that is done with the message. -/
theorem parsed_of_messageDone (hreading : client.pc = .readingHeader ∨ client.pc = .readingBody)
    (hbody : client.pc = .readingBody → client.head = false) {headerDone bodyDone : Bool}
    (hdone : client.messageDone headerDone bodyDone = true) :
    (client.head = true → headerDone = true) ∧ (client.head = false → bodyDone = true) := by
  unfold HttpClient.messageDone at hdone
  rcases hreading with hpc | hpc
  · rw [if_pos hpc, Bool.and_eq_true, Bool.or_eq_true] at hdone
    exact ⟨fun _ => hdone.1, fun hget => hdone.2.resolve_left (by rw [hget]; exact Bool.false_ne_true)⟩
  · have hnot : client.pc ≠ .readingHeader := by
      rw [hpc]
      decide
    rw [if_neg hnot] at hdone
    exact ⟨fun hhead => absurd ((hbody hpc).symm.trans hhead) Bool.false_ne_true, fun _ => hdone⟩

/-- The client receives a part of what is on its way over a connection. -/
def receive (s : HttpConversation Handler Json StreamHandler) (conn n : Nat) :
    HttpConversation Handler Json StreamHandler :=
  s.setConn conn { s.conns conn with down := (s.conns conn).down.drop n }

/-- What the client receives changes nothing in what was answered. -/
@[simp] theorem replies_receive (s : HttpConversation Handler Json StreamHandler) (conn n conn' : Nat) :
    ((s.receive conn n).conns conn').replies = (s.conns conn').replies := by
  unfold receive
  rcases eq_or_ne conn' conn with rfl | hne
  · rw [conns_setConn]
  · rw [conns_setConn_of_ne hne]

/-- What the client receives is off the way. -/
@[simp] theorem down_receive (s : HttpConversation Handler Json StreamHandler) (conn n : Nat) :
    ((s.receive conn n).conns conn).down = (s.conns conn).down.drop n := by
  rw [receive, conns_setConn]

/-- What the client receives changes nothing in what the server owes. -/
theorem Inv.served_receive (h : s.Inv host router parser wire) (conn n conn' : Nat) :
    ((s.receive conn n).conns conn').Served host router ((s.along conn').map (·.req)) := by
  unfold receive
  rcases eq_or_ne conn' conn with rfl | hne
  · rw [conns_setConn]
    exact (h.served _).drop n
  · rw [conns_setConn_of_ne hne]
    exact h.served conn'

/-- A read. -/
theorem Inv.read (h : s.Inv host router parser wire) {received consumed : Nat} {eof : Bool}
    (hread : s.read parser policy received consumed eof = some s') : s'.Inv host router parser wire := by
  obtain ⟨stream, hstream, hread⟩ := Option.bind_eq_some_iff.1 hread
  obtain ⟨client, hstep, rfl⟩ := Option.map_eq_some_iff.1 hread
  obtain ⟨hreading, hstep⟩ := Option.ite_none_right_eq_some.1 hstep
  rw [hstream, Option.map_some] at hstep
  have hflight : s.InFlight parser wire := by
    have hexpects := h.expects
    rcases hreading with hpc | hpc <;> (rw [Expects, hpc] at hexpects; exact hexpects)
  obtain ⟨_, hmem, attempt, hlast, hcall, hhead, hawaits⟩ := hflight
  rw [hstream] at hmem
  cases hmem
  have hbusy : s.client.pc ≠ .idle := by rcases hreading with hpc | hpc <;> exact busy_of_eq hpc (by decide)
  rw [← append_received s.taken _ _ received consumed] at hawaits
  have hbytes : ∀ arrived : Bytes,
      ((s.client.buffer ++ arrived.map fun byte => (⟨stream.conn, byte⟩ : Received)).drop consumed).map
        (·.byte) = (s.client.buffer.map (·.byte) ++ arrived).drop consumed := by
    intro arrived
    rw [List.map_drop, List.map_append, List.map_map]
    exact congrArg (fun l => List.drop consumed (_ ++ l)) (List.map_id arrived)
  -- what was received is taken off the connection
  let s₁ := s.receive stream.conn received
  have hserved := h.served_receive stream.conn received
  have hreplies := s.replies_receive stream.conn received
  have hdown := s.down_receive stream.conn received
  have hcases := @read_eq policy s.client stream hstream ((s.conns stream.conn).down.take received) consumed
    (parser.headerDone (s.taken ++ (s.client.buffer.map (·.byte) ++
      (s.conns stream.conn).down.take received).take consumed))
    (parser.bodyDone (s.taken ++ (s.client.buffer.map (·.byte) ++
      (s.conns stream.conn).down.take received).take consumed) eof)
    (parser.keepAlive (s.taken ++ (s.client.buffer.map (·.byte) ++
      (s.conns stream.conn).down.take received).take consumed))
  rw [Option.some.inj hstep] at hcases
  have hbuffer := hbytes ((s.conns stream.conn).down.take received)
  dsimp only at hcases ⊢
  generalize s.taken ++ (s.client.buffer.map (·.byte) ++
    (s.conns stream.conn).down.take received).take consumed = taken at hcases hawaits ⊢
  rw [← hbuffer, ← hdown] at hawaits
  generalize (s.client.buffer ++ ((s.conns stream.conn).down.take received).map fun byte =>
    (⟨stream.conn, byte⟩ : Received)).drop consumed = buffer at hcases hawaits
  change Inv host router parser wire { s₁ with client, taken, returned := _ }
  cases hdone : s.client.messageDone (parser.headerDone taken) (parser.bodyDone taken eof) with
  | true =>
    obtain ⟨stream', hconn, rfl⟩ := hcases.1 hdone
    obtain ⟨hheader, hbody⟩ := parsed_of_messageDone hreading h.body hdone
    obtain ⟨hlength, hrest, resp, hresp, rfl⟩ := hawaits.whole hheader hbody
    obtain ⟨hempty, hnothing⟩ := List.append_eq_nil_iff.1 hrest
    obtain ⟨ha, hsame, hlt, i, hi, hreply⟩ := h.last_returned hlast hlength hresp
    have hnumbered : Numbered { s.client with pc := .idle, stream := some stream', buffer } s.calls
        s.attempts s.returned :=
      h.numbered.idle rfl rfl (h.numbered.newest_of_conn hstream hconn)
    rw [if_pos rfl]
    refine ⟨hserved, h.plain, ⟨List.map_eq_nil_iff.1 hempty, ?_⟩, fun hbusy => absurd rfl hbusy,
      fun hbody => ?_, hnumbered.returns rfl (fun x hx => (h.numbered.before x hx).2 hbusy)
        (h.numbered.budget hbusy).1 _, fun x hx => ?_⟩
    · rintro _ ⟨⟩ -
      rw [hconn]
      exact ⟨hnothing, (congrArg List.length (hreplies _)).trans hlength⟩
    · cases hbody
    · rcases List.mem_append.1 hx with hx | hx
      · exact h.returned_mono s₁ List.prefix_rfl (fun conn => hreplies conn ▸ List.prefix_rfl) hx
      · cases List.mem_singleton.1 hx
        refine ⟨attempt, ha, Nat.eq_sub_of_add_eq hcall, i, resp, ?_, ?_, rfl⟩
        · rw [hsame]
          exact hi
        · rw [hsame]
          exact (congrArg (·[i]?) (hreplies _)).trans hreply
  | false =>
    obtain ⟨stream', pc, hconn, hpc, rfl⟩ := hcases.2 hdone
    have hnumbered : Numbered { s.client with pc, stream := some stream', buffer } s.calls
        s.attempts s.returned := by
      refine h.numbered.goOn hbusy rfl (h.numbered.newest_of_conn hstream hconn) rfl ?_
      rcases hpc with rfl | ⟨rfl, -⟩ <;> exact Nat.zero_le _
    rw [if_neg Bool.false_ne_true]
    have hflight : ({ s₁ with
        client := { s.client with pc, stream := some stream', buffer }
        taken
        returned := s.returned } : HttpConversation Handler Json StreamHandler).InFlight parser wire := by
      refine ⟨stream', rfl, attempt, ?_, hcall, hhead, ?_⟩
      · rw [hconn]
        exact hlast
      · rw [hconn, List.append_assoc]
        unfold Awaits at hawaits ⊢
        rw [hreplies]
        exact hawaits
    refine ⟨hserved, h.plain, ?_, fun _ => h.head hbusy, fun hbody => ?_, hnumbered, fun x hx =>
      h.returned_mono s₁ List.prefix_rfl (fun conn => hreplies conn ▸ List.prefix_rfl) hx⟩
    · rcases hpc with rfl | ⟨rfl, -⟩ <;> exact hflight
    · rcases hpc with rfl | ⟨rfl, hheader⟩
      · cases hbody
      · -- a HEAD is done with its header
        rcases hreading with hpc | hpc
        · rw [HttpClient.messageDone, if_pos hpc, hheader hpc, Bool.true_and] at hdone
          exact (Bool.or_eq_false_iff.1 hdone).1
        · exact h.body hpc

/-- An orderly step keeps the invariant. -/
theorem Inv.step (hpayload : ∀ h h', preparePayload h = some h' → h'.keepAlive = h.keepAlive)
    (h : s.Inv host router parser wire) {event : ConversationEvent Json StreamHandler}
    (horderly : s.Orderly preparePayload supported router parser wire event)
    (hstep : (httpConversation policy host preparePayload supported router parser wire
      continueReply).step s event = some s') : s'.Inv host router parser wire := by
  cases event with
  | send req resolve =>
    obtain ⟨client, hclient, rfl⟩ := Option.map_eq_some_iff.1 hstep
    obtain ⟨hpc, heq⟩ := Option.ite_none_right_eq_some.1 hclient
    cases heq
    exact h.send hpc horderly resolve
  | resolved =>
    obtain ⟨client, hclient, rfl⟩ := Option.map_eq_some_iff.1 hstep
    obtain ⟨hpc, heq⟩ := Option.ite_none_right_eq_some.1 hclient
    obtain ⟨stream, -, rfl⟩ := Option.map_eq_some_iff.1 heq
    exact h.resolved hpc
  | connected =>
    obtain ⟨client, hclient, rfl⟩ := Option.map_eq_some_iff.1 hstep
    obtain ⟨hpc, heq⟩ := Option.ite_none_right_eq_some.1 hclient
    cases heq
    exact h.connected hpc
  | wrote done =>
    obtain ⟨client, hclient, rfl⟩ := Option.map_eq_some_iff.1 hstep
    obtain ⟨hpc, heq⟩ := Option.ite_none_right_eq_some.1 hclient
    cases heq
    refine h.wrote hpc ?_
    cases done with
    | true => exact .inr rfl
    | false => exact .inl rfl
  | read received consumed eof => exact h.read hstep
  | failed retried resolve =>
    obtain ⟨client, hclient, rfl⟩ := Option.map_eq_some_iff.1 hstep
    obtain ⟨hpc, heq⟩ := Option.ite_none_left_eq_some.1 hclient
    cases heq
    exact h.failed hpc horderly retried resolve
  | close =>
    cases hstep
    exact h.close horderly
  | server conn event part =>
    obtain ⟨event', hoffered, hstep⟩ := Option.bind_eq_some_iff.1 hstep
    obtain ⟨c, hserve, rfl⟩ := Option.map_eq_some_iff.1 hstep
    exact h.server hpayload hoffered horderly.1 horderly.2.1 horderly.2.2 hserve
  | handedOver conn text =>
    simp only [httpConversation] at hstep
    split at hstep
    · next hserver => exact absurd hserver (h.served conn).stays
    · cases hstep

/-- Nothing has happened yet. -/
theorem inv_new : ({} : HttpConversation Handler Json StreamHandler).Inv host router parser wire where
  served _ := HttpConnection.served_new host router _
  plain := List.forall_mem_nil _
  expects := ⟨rfl, fun _ hstream => by cases hstream⟩
  head hbusy := absurd rfl hbusy
  body hbody := by cases hbody
  numbered :=
    { ordered := .nil
      made := List.forall_mem_nil _
      called := List.forall_mem_nil _
      newest _ hstream := by cases hstream
      twice _ := Nat.zero_le _
      budget hbusy := absurd rfl hbusy
      once := .nil
      before := List.forall_mem_nil _ }
  returned := List.forall_mem_nil _

/-- What a call has returned: the response that the server gave to the request of this call, in its place
among the exchanges over the connection; behind the last of them the connection may have been lost. -/
def Answered (host : Host) (router : Router Handler Ws Regex)
    (wire : Response Json StreamHandler → Bytes) (s : HttpConversation Handler Json StreamHandler)
    (x : Nat × Bytes) : Prop :=
  ∃ (a : SendAttempt) (i : Nat) (exchange : HttpExchange Handler) (resp : Response Json StreamHandler)
    (done : List (HttpExchange Handler × Response Json StreamHandler))
    (rest : List (HttpWire Handler Json StreamHandler)),
    (s.along a.conn)[i]? = some a ∧ a.call = x.1 ∧ s.calls[x.1]? = some exchange.req ∧
    (s.conns a.conn).replies[i]? = some resp ∧ x.2 = wire resp ∧
    (s.conns a.conn).log = done.flatMap HttpExchange.answeredLog ++ rest ∧
    HttpExchange.Exchanged host router (s.conns a.conn).server done rest ∧
    (done[i]? = some (exchange, resp) ∨
      (s.conns a.conn).server = .finished ∧ i = done.length ∧ rest = exchange.log)

end HttpConversation

open HttpConversation in
/-- **Whose response it is.** In every run of a client and the servers of its connections in which the
client asks for no tunnel and no 100 reply and closes a connection only behind an empty read buffer, and
the servers keep the boundary between two requests and frame their responses, whatever fails, is closed,
resent or cut into pieces: a call of `async_send_request` returns at most once, and the bytes it returns
are the whole response of one exchange of the server whose request is that of the call. The request is
sent at most twice, each time over another connection, and over each connection the server reads the
headers of the requests in the order of the calls, each once. -/
theorem http_conversation {policy : TimeoutPolicy} {host : Host}
    {preparePayload : ResponseHeader → Option ResponseHeader} {supported : Bytes → Bool}
    {router : Router Handler Ws Regex} {parser : ResponseParser}
    {wire : Response Json StreamHandler → Bytes} {continueReply : Bytes}
    (hpayload : ∀ h h', preparePayload h = some h' → h'.keepAlive = h.keepAlive)
    {s : HttpConversation Handler Json StreamHandler}
    (h : (httpConversation policy host preparePayload supported router parser wire continueReply).Reaches
      (Orderly preparePayload supported router parser wire) s) :
    (∀ x ∈ s.returned, s.Answered host router wire x) ∧
      (s.returned.map Prod.fst).Pairwise (· < ·) ∧
      (∀ call, tries s.attempts call ≤ 2) ∧
      (s.attempts.Pairwise fun a b =>
        a.call < b.call ∧ a.conn ≤ b.conn ∨ a.call = b.call ∧ a.conn < b.conn) ∧
      ∀ conn, HttpWire.asks (s.conns conn).log <+: (s.along conn).map (·.req) := by
  have hinv : s.Inv host router parser wire := by
    refine h.invariant ?_ fun s event s' hinv horderly hstep => hinv.step hpayload horderly hstep
    rintro s rfl
    exact inv_new
  refine ⟨fun x hx => ?_, hinv.numbered.once, hinv.numbered.twice, hinv.numbered.ordered,
    fun conn => (hinv.served conn).asked⟩
  obtain ⟨a, ha, hcall, i, resp, halong, hreply, htext⟩ := hinv.returned x hx
  obtain ⟨exchange, done, rest, hreq, hlog, hexchanged, hwhere⟩ := (hinv.served a.conn).exchange hreply
  rw [List.getElem?_map, halong, Option.map_some] at hreq
  refine ⟨a, i, exchange, resp, done, rest, halong, hcall, ?_, hreply, htext, hlog, hexchanged, hwhere⟩
  rw [← hcall, hinv.numbered.called a ha]
  exact hreq

end Model

/-- A parser of responses that are headers only. -/
def headerParser : ResponseParser where
  headerDone text := decide (bytes "\r\n\r\n" <:+ text)
  bodyDone text _ := decide (bytes "\r\n\r\n" <:+ text)
  keepAlive _ := true
  headerDone_nil := by decide
  bodyDone_nil _ := by decide

/-- A response without content. -/
def noContentText : Bytes := bytes "HTTP/1.1 204 No Content\r\n\r\n"

/-- The text of a 204 is a response that ends with its header. -/
theorem delimits_noContent (head : Bool) : headerParser.Delimits head noContentText := by
  intro part hpart hne
  have hlt : part.length < 27 := by
    refine lt_of_le_of_ne hpart.length_le fun hlength => hne (hpart.eq_of_length hlength)
  have hopen : ∀ n < 27, ¬ bytes "\r\n\r\n" <:+ noContentText.take n := by decide
  have hnot := hopen part.length hlt
  rw [← List.prefix_iff_eq_take.1 hpart] at hnot
  cases head with
  | true => exact decide_eq_false hnot
  | false => exact fun _ => decide_eq_false hnot

open scoped Platform.Plain in
/-- A POST without fields. -/
def plainPost : Request := .ofHeader .post (bytes "/7") 11 []

/-- A test for orderly steps without exceptions. -/
def HttpConversation.steady (s : HttpConversation Unit Unit Unit) : ConversationEvent Unit Unit → Bool
  | .send req _ =>
    req.method ≠ .connect && !iequals (req.fields.get .expect) (bytes "100-continue")
  | .failed _ _ | .close => s.client.buffer.isEmpty
  | .server _ (.header _ _ upgrade _) _ => !upgrade
  | .server conn (.postRouted _ _) _ =>
    match (s.conns conn).server with
    | .turn t => t.bodyDone
    | _ => true
  | .server _ (.thrown _ _) _ | .server _ (.handlerThrew _ _) _ => false
  | _ => true

/-- The test is sound. -/
theorem HttpConversation.orderly_of_steady {s : HttpConversation Unit Unit Unit}
    {event : ConversationEvent Unit Unit} (h : s.steady event = true) :
    letI := literalRegex
    s.Orderly chunkedPayload (fun _ => false) numberRouter headerParser (fun _ => noContentText) event := by
  let _ := literalRegex
  cases event with
  | send req resolve =>
    obtain ⟨hmethod, hexpect⟩ := Bool.and_eq_true_iff.1 h
    exact ⟨of_decide_eq_true hmethod, Bool.not_eq_true' _ ▸ hexpect⟩
  | failed | close => exact List.isEmpty_iff.1 h
  | server conn event part =>
    refine ⟨?_, ?_, fun _ _ _ _ => delimits_noContent _⟩
    · cases hserver : (s.conns conn).server with
      | turn t =>
        cases event with
        | thrown | handlerThrew => cases h
        | postRouted =>
          rw [steady, hserver] at h
          exact .inl h
        | _ => trivial
      | _ => cases event <;> trivial
    · cases event with
      | header req keepAlive upgrade bodyDone =>
        rintro rfl
        cases h
      | _ => exact id
  | _ => trivial

/-- A POST whose connection is lost when it was sent, and that is answered when it is sent again. -/
theorem http_conversation_resent :
    letI := literalRegex
    ∃ s : HttpConversation Unit Unit Unit, s.returned = [(0, noContentText)] ∧
      HttpConversation.tries s.attempts 0 = 2 ∧
      s.Answered plainHost numberRouter (fun _ => noContentText) (0, noContentText) := by
  let _ := literalRegex
  have hrun : (((httpConversation .overall plainHost chunkedPayload (fun _ => false) numberRouter
      headerParser (fun _ : Response Unit Unit => noContentText) []).checked HttpConversation.steady).run {}
        [.send plainPost false, .connected, .wrote true, .server 0 (.header plainPost true false false) 0,
          .failed true false, .connected, .wrote true, .server 1 (.header plainPost true false false) 0,
          .server 1 .preRouted 0, .server 1 (.bodyRead true) 0,
          .server 1 (.procRouted (·.setEmptyContent 204)) 0, .server 1 (.postRouted id id) 0,
          .server 1 (.written true) 0, .read 27 27 false]).map
            (fun s => (s.returned, HttpConversation.tries s.attempts 0)) =
      some ([(0, noContentText)], 2) := by decide +kernel
  obtain ⟨s, hrun, hseen⟩ := Option.map_eq_some_iff.1 hrun
  obtain ⟨hreturned, htries⟩ := Prod.mk.inj hseen
  have hreaches := Machine.Reaches.of_checked hrun (fun _ _ => HttpConversation.orderly_of_steady)
    (.init rfl)
  obtain ⟨hanswered, -⟩ := http_conversation keepAlive_chunkedPayload hreaches
  exact ⟨s, hreturned, htries, hanswered _ (by rw [hreturned]; exact List.mem_singleton_self _)⟩

end Httplib
