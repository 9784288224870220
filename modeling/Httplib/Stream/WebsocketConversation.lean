import Httplib.Client.WsClient
import Httplib.Lib.Duplex
import Httplib.Server.WebsocketSession

/-!
# A WebSocket conversation

A `ws_client` (`lib/client/ws_client_impl.cpp`) and a `websocket_conn_impl`
(`lib/server/websocket_conn_impl.cpp`) at the two ends of one connection: a read takes the next frame that
the other end has put out, a ping is passed over, and the close frame of the other end is answered.
`websocket_conversation` says what the message handlers of each end are called with.
-/

namespace Httplib

/-! ## Messages -/

/-- The message that a call of `send_message` or `send` brings. -/
def WsAction.message? : WsAction → Option WsMessage
  | .message data binary => some ⟨data, binary⟩
  | .ping _ | .close => none

/-- The message in a frame. -/
def WsFrame.message? : WsFrame → Option WsMessage
  | .message data binary => some ⟨data, binary⟩
  | .ping _ | .close _ | .closeReply => none

/-- The message that a handler of the server is called with. -/
def WsCall.message? : WsCall → Option WsMessage
  | .messageHandler data binary => some ⟨data, binary⟩
  | .openHandler | .closeHandler => none

/-- The message that a handler of the client is called with. -/
def WsClientCall.message? : WsClientCall → Option WsMessage
  | .messageHandler data binary => some ⟨data, binary⟩
  | .openHandler _ | .closeHandler => none

/-- The frames of calls hold their messages. -/
@[simp] theorem WsAction.filterMap_frame (acts : List WsAction) :
    (acts.map frame).filterMap WsFrame.message? = acts.filterMap message? := by
  rw [List.filterMap_map]
  refine List.filterMap_congr fun act _ => ?_
  cases act <;> rfl

/-- A message is what its call is made with. -/
@[simp] theorem WsMessage.filterMap_call (messages : List WsMessage) :
    (messages.map WsMessage.call).filterMap WsCall.message? = messages := by
  rw [List.filterMap_map]
  exact List.filterMap_some

/-- The answer to a close frame holds no message. -/
theorem WsStream.messages_frames {ws : WsStream} {sent : List WsAction} {reply : List WsFrame}
    (hframes : ws.frames = sent.map WsAction.frame ++ reply)
    (hreply : reply = [] ∨ reply = [.closeReply] ∧ ws.usable = false) :
    ws.frames.filterMap WsFrame.message? = sent.filterMap WsAction.message? := by
  have hnone : reply.filterMap WsFrame.message? = [] := by
    rcases hreply with rfl | ⟨rfl, -⟩ <;> rfl
  rw [hframes, List.filterMap_append, WsAction.filterMap_frame, hnone, List.append_nil]

/-! ## The server as a party -/

/-- What is on the wire stays there. -/
theorem WsStream.frames_prefix {ws ws' : WsStream} {event : StreamEvent}
    (hstep : ws.step event = some ws') : ws.frames <+: ws'.frames := by
  cases event with
  | written =>
    simp only [step] at hstep
    split at hstep
    · obtain ⟨-, heq⟩ := Option.ite_none_right_eq_some.1 hstep
      cases heq
      exact List.prefix_append _ _
    · cases hstep
  | failed =>
    simp only [step] at hstep
    split at hstep
    · obtain ⟨-, heq⟩ := Option.ite_none_right_eq_some.1 hstep
      cases heq
      exact List.prefix_rfl
    · cases hstep
  | expired =>
    obtain ⟨-, heq⟩ := Option.ite_none_right_eq_some.1 hstep
    cases heq
    exact List.prefix_rfl
  | closed =>
    obtain ⟨-, heq⟩ := Option.ite_none_right_eq_some.1 hstep
    cases heq
    exact List.prefix_append _ _
  | lost =>
    cases hstep
    exact List.prefix_rfl

namespace WebsocketSession

variable {entry : WsHandlerEntry} {s s' : WebsocketSession} {event : SessionEvent}

/-- The frames that a step takes from the wire of the client. -/
def takes : SessionEvent → List WsFrame
  | .run (.read message) => [.message message.data message.binary]
  | .stream .closed => [WsAction.close.frame]
  | _ => []

/-- The session takes back no frame that it has put out. -/
theorem frames_prefix (hstep : (websocketSession entry).step s event = some s') :
    s.ws.frames <+: s'.ws.frames := by
  cases sending_of_step hstep with
  | queue event _ hws =>
    obtain ⟨binary, action, hbegin⟩ := @WsStream.begin_eq s.queue s'.queue s.ws
    rw [hws, hbegin]
  | stream event hws => exact WsStream.frames_prefix hws
  | accept _ hws => rw [hws]; exact List.prefix_rfl
  | call act _ heq => rw [heq]
  | quiet hws => rw [hws]

/-- A step of the queue reads nothing. -/
theorem messages_queueStep {event : QueueEvent WsAction} (hstep : s.queueStep event = some s') :
    s'.messages = s.messages := by
  obtain ⟨queue, -, rfl⟩ := Option.map_eq_some_iff.1 hstep
  rfl

/-- The loop reads the message of the frame that its step takes. -/
theorem messages_runStep {event : RunEvent} (hstep : s.runStep entry event = some s') :
    s'.messages = s.messages ++ (takes (.run event)).filterMap WsFrame.message? := by
  cases event with
  | accepted | refused =>
    obtain ⟨-, heq⟩ := Option.ite_none_right_eq_some.1 hstep
    cases heq
    exact (List.append_nil _).symm
  | read message =>
    simp only [runStep] at hstep
    split at hstep
    · cases hstep
      rfl
    · cases hstep
  | readFailed =>
    simp only [runStep] at hstep
    split at hstep
    · cases hstep
      exact (List.append_nil _).symm
    · cases hstep
  | returned =>
    simp only [runStep] at hstep
    split at hstep
    · split at hstep <;>
      · cases hstep
        exact (List.append_nil _).symm
    · split at hstep <;>
      · cases hstep
        exact (List.append_nil _).symm
    · cases hstep
      exact (List.append_nil _).symm
    · cases hstep
  | clear | wait | waited =>
    obtain ⟨-, heq⟩ := Option.ite_none_right_eq_some.1 hstep
    exact (messages_queueStep heq).trans (List.append_nil _).symm
  | shutdown =>
    obtain ⟨-, heq⟩ := Option.ite_none_right_eq_some.1 hstep
    split at heq <;> exact (messages_queueStep heq).trans (List.append_nil _).symm

/-- So does a step of the session, and only a step that takes a message reads one. -/
theorem messages_step (hstep : (websocketSession entry).step s event = some s') :
    s'.messages = s.messages ++ (takes event).filterMap WsFrame.message? := by
  cases event with
  | call act =>
    cases hstep
    split <;> exact (List.append_nil _).symm
  | check i =>
    obtain ⟨act, -, hstep⟩ := Option.bind_eq_some_iff.1 hstep
    exact (messages_queueStep hstep).trans (List.append_nil _).symm
  | push i | perform i => exact (messages_queueStep hstep).trans (List.append_nil _).symm
  | ended i =>
    obtain ⟨-, hstep⟩ := Option.ite_none_right_eq_some.1 hstep
    exact (messages_queueStep hstep).trans (List.append_nil _).symm
  | stream event =>
    obtain ⟨ws, -, rfl⟩ := Option.map_eq_some_iff.1 hstep
    cases event <;> exact (List.append_nil _).symm
  | run event => exact messages_runStep hstep

/-- A connection of the server as one end of a conversation. -/
def party (entry : WsHandlerEntry) : Party WebsocketSession SessionEvent WsFrame.message? where
  machine := websocketSession entry
  put s := s.ws.frames
  got s := s.messages
  takes := takes
  start := by
    rintro s rfl
    exact ⟨rfl, rfl⟩
  put_prefix _ _ _ := frames_prefix
  got_step _ _ _ := messages_step

end WebsocketSession

namespace WebsocketConn

variable {entry : WsHandlerEntry}

/-- The loop calls the message handler with the first of the messages. -/
theorem messages_readLoop {n : Nat} {conn : WebsocketConn} (hbuffer : conn.buffer = [])
    (messages : List WsMessage) :
    ∃ handled, handled <+: messages ∧ (readLoop entry n conn messages).1.calls.filterMap WsCall.message? =
      conn.calls.filterMap WsCall.message? ++ handled := by
  induction messages generalizing n conn with
  | nil =>
    refine ⟨[], List.prefix_rfl, ?_⟩
    rw [readLoop, call, List.filterMap_append]
    rfl
  | cons message messages ih =>
    rw [readLoop_cons hbuffer]
    have hnext : (conn.calls ++ [message.call]).filterMap WsCall.message? =
        conn.calls.filterMap WsCall.message? ++ [message] := by
      rw [List.filterMap_append]
      rfl
    cases entry.messageHandler n with
    | throwsOther => exact ⟨[message], List.prefix_append [message] messages, hnext⟩
    | returns | throws =>
      obtain ⟨handled, hprefix, hcalls⟩ :=
        @ih (n + 1) { buffer := [], calls := conn.calls ++ [message.call] } rfl
      refine ⟨message :: handled, List.cons_prefix_cons.2 ⟨rfl, hprefix⟩, hcalls.trans ?_⟩
      rw [hnext, List.append_assoc]
      rfl

/-- The messages that the handler is called for are a beginning of those read. -/
theorem messages_run (accepted : Bool) (messages : List WsMessage) :
    (run (some entry) accepted messages).1.calls.filterMap WsCall.message? <+: messages := by
  rw [run]
  dsimp only
  split
  · exact List.nil_prefix
  · cases entry.openHandler with
    | returns =>
      obtain ⟨handled, hprefix, hcalls⟩ := @messages_readLoop entry 0
        (({} : WebsocketConn).call .openHandler) rfl messages
      dsimp only
      rw [hcalls]
      exact hprefix
    | throws | throwsOther => exact List.nil_prefix

end WebsocketConn

namespace WebsocketSession

variable {entry : WsHandlerEntry} {s : WebsocketSession}

/-- The messages that the handler has been called with are the first of those that have been read. -/
theorem calls_prefix (h : (websocketSession entry).Reachable s) :
    s.conn.calls.filterMap WsCall.message? <+: s.messages := by
  have hcalled := called_of_reachable h
  have hlooping : ∀ n, s.Looping entry n → s.conn.calls.filterMap WsCall.message? <+: s.messages := by
    intro n hlooping
    rw [hlooping.calls, List.filterMap_cons]
    dsimp only [WsCall.message?]
    rw [WsMessage.filterMap_call]
  cases hrun : s.run with
  | accepting | opening =>
    rw [hrun] at hcalled
    rw [hcalled.1]
    exact List.nil_prefix
  | reading n | handling n message =>
    rw [hrun] at hcalled
    exact hlooping _ hcalled.1
  | failed | cleared | requested | waiting =>
    rw [hrun] at hcalled
    exact hlooping _ hcalled
  | closing =>
    rw [hrun] at hcalled
    rw [hcalled.2.2, List.cons_append, List.filterMap_cons, List.filterMap_append]
    dsimp only [WsCall.message?]
    rw [WsMessage.filterMap_call]
    exact (List.append_nil s.messages).symm ▸ List.prefix_rfl
  | left how =>
    rw [hrun] at hcalled
    obtain ⟨accepted, hcalls, -⟩ := hcalled
    rw [hcalls]
    exact WebsocketConn.messages_run _ _

end WebsocketSession

/-! ## The client as a party -/

namespace WsClient

variable {handlers : WsHandlers} {c c' : WsClient} {event : WsClientEvent}

/-- The frames that a step takes from the wire of the server. -/
def takes : WsClientEvent → List WsFrame
  | .run (.read message) => [.message message.data message.binary]
  | .stream .closed => [WsAction.close.frame]
  | _ => []

/-- What a step of the queue leaves alone. -/
theorem kept_queueStep {event : QueueEvent WsAction} (hstep : c.queueStep event = some c') :
    c'.ws.frames = c.ws.frames ∧ c'.messages = c.messages := by
  obtain ⟨queue, -, rfl⟩ := Option.map_eq_some_iff.1 hstep
  have hsame : ∀ (acts : List WsAction) (c : WsClient),
      (acts.foldl begin c).ws.frames = c.ws.frames ∧ (acts.foldl begin c).messages = c.messages := by
    intro acts
    induction acts with
    | nil => exact fun _ => ⟨rfl, rfl⟩
    | cons act acts ih =>
      intro c
      have hbegin : (c.begin act).ws.frames = c.ws.frames ∧ (c.begin act).messages = c.messages := by
        unfold begin
        split
        · exact ⟨rfl, rfl⟩
        · split <;> exact ⟨rfl, rfl⟩
      exact ⟨(ih _).1.trans hbegin.1, (ih _).2.trans hbegin.2⟩
  exact hsame _ _

/-- The call of the close handler neither sends nor reads. -/
theorem kept_callClose : (c.callClose handlers).ws.frames = c.ws.frames ∧
    (c.callClose handlers).messages = c.messages := by
  unfold callClose
  split <;> exact ⟨rfl, rfl⟩

/-- Nor does a turn of the loop. -/
theorem kept_loop (n : Nat) : (c.loop handlers n).ws.frames = c.ws.frames ∧
    (c.loop handlers n).messages = c.messages := by
  unfold loop
  split
  · exact ⟨rfl, rfl⟩
  · exact kept_callClose

/-- A step of the coroutine puts out nothing, and reads the messages that it takes. -/
theorem kept_runStep {event : WsClientRunEvent} (hstep : c.runStep handlers event = some c') :
    c'.ws.frames = c.ws.frames ∧
      c'.messages = c.messages ++ (takes (.run event)).filterMap WsFrame.message? := by
  cases event with
  | connected success =>
    obtain ⟨-, heq⟩ := Option.ite_none_right_eq_some.1 hstep
    cases heq
    cases success <;> exact ⟨rfl, (List.append_nil _).symm⟩
  | read message =>
    simp only [runStep] at hstep
    split at hstep
    · split at hstep
      · cases hstep
        exact ⟨rfl, rfl⟩
      · cases hstep
        exact kept_loop _
    · cases hstep
  | readFailed =>
    simp only [runStep] at hstep
    split at hstep
    · cases hstep
      exact ⟨kept_callClose.1, kept_callClose.2.trans (List.append_nil _).symm⟩
    · cases hstep
  | returned =>
    have hloop : ∀ n, (c.loop handlers n).ws.frames = c.ws.frames ∧
        (c.loop handlers n).messages = c.messages ++ [] :=
      fun n => ⟨(kept_loop n).1, (kept_loop n).2.trans (List.append_nil _).symm⟩
    simp only [runStep] at hstep
    split at hstep
    · split at hstep
      · cases hstep
        exact ⟨rfl, (List.append_nil _).symm⟩
      · split at hstep
        · cases hstep
          exact hloop _
        · cases hstep
          exact ⟨rfl, (List.append_nil _).symm⟩
    · split at hstep
      · cases hstep
        exact ⟨rfl, (List.append_nil _).symm⟩
      · cases hstep
        exact hloop _
    · split at hstep <;>
      · cases hstep
        exact ⟨rfl, (List.append_nil _).symm⟩
    · cases hstep

/-- The client takes back no frame, and reads the messages of the frames that its steps take. -/
theorem kept_step (hstep : (wsClient handlers).step c event = some c') :
    c.ws.frames <+: c'.ws.frames ∧
      c'.messages = c.messages ++ (takes event).filterMap WsFrame.message? := by
  have hqueue : ∀ {c₀ : WsClient} {event : QueueEvent WsAction}, c₀.queueStep event = some c' →
      c₀.ws = c.ws → c₀.messages = c.messages →
      c.ws.frames <+: c'.ws.frames ∧ c'.messages = c.messages ++ [] := by
    intro c₀ event hstep hws hmessages
    obtain ⟨hframes, hkept⟩ := kept_queueStep hstep
    rw [hframes, hkept, hws, hmessages]
    exact ⟨List.prefix_rfl, (List.append_nil _).symm⟩
  cases event with
  | send data binary =>
    cases hstep
    exact ⟨List.prefix_rfl, (List.append_nil _).symm⟩
  | close =>
    have hclear : { c with offered := c.offered ++ [WsAction.close] }.queueStep .clear = some c' :=
      hstep
    exact hqueue hclear rfl rfl
  | check i =>
    obtain ⟨act, -, hstep⟩ := Option.bind_eq_some_iff.1 hstep
    exact hqueue hstep rfl rfl
  | push i | perform i => exact hqueue hstep rfl rfl
  | ended i =>
    obtain ⟨-, hstep⟩ := Option.ite_none_right_eq_some.1 hstep
    exact hqueue hstep rfl rfl
  | stream event =>
    obtain ⟨ws, hws, rfl⟩ := Option.map_eq_some_iff.1 hstep
    refine ⟨WsStream.frames_prefix hws, ?_⟩
    cases event <;> exact (List.append_nil _).symm
  | run event =>
    obtain ⟨hframes, hmessages⟩ := kept_runStep hstep
    exact ⟨hframes ▸ List.prefix_rfl, hmessages⟩

/-- A client as one end of a conversation. -/
def party (handlers : WsHandlers) : Party WsClient WsClientEvent WsFrame.message? where
  machine := wsClient handlers
  put c := c.ws.frames
  got c := c.messages
  takes := takes
  start := by
    rintro c rfl
    exact ⟨rfl, rfl⟩
  put_prefix _ _ _ hstep := (kept_step hstep).1
  got_step _ _ _ hstep := (kept_step hstep).2

/-- The calls that messages are due are made with these messages. -/
theorem messages_due (messages : List WsMessage) :
    (due handlers messages).filterMap WsClientCall.message? <+: messages := by
  unfold due
  split
  · rw [List.filterMap_map]
    exact List.filterMap_some.symm ▸ List.prefix_rfl
  · exact List.nil_prefix

/-- The messages that the client calls its handler for are a beginning of those read. -/
theorem messages_paired (connected : Bool) (messages : List WsMessage) :
    (paired handlers connected messages).filterMap WsClientCall.message? <+: messages := by
  unfold paired
  rw [List.filterMap_cons]
  dsimp only [WsClientCall.message?]
  split
  · rw [List.filterMap_append]
    have hclose : (if handlers.closeHandler.isSome then [WsClientCall.closeHandler]
        else []).filterMap WsClientCall.message? = [] := by split <;> rfl
    rw [hclose, List.append_nil]
    exact messages_due messages
  · exact List.nil_prefix

/-- The messages that the handler has been called with are the first of those that have been read. -/
theorem calls_prefix (h : (wsClient handlers).Reachable c) :
    c.calls.filterMap WsClientCall.message? <+: c.messages := by
  have hcalled := called_of_reachable h
  have hlooping : c.Looping handlers → c.calls.filterMap WsClientCall.message? <+: c.messages := by
    intro hcalls
    rw [show c.calls = _ from hcalls, List.filterMap_cons]
    exact messages_due c.messages
  cases hrun : c.run with
  | connecting | opening connected =>
    rw [hrun] at hcalled
    rw [hcalled.1]
    exact List.nil_prefix
  | reading n | handling n =>
    rw [hrun] at hcalled
    exact hlooping hcalled.1
  | closing =>
    rw [hrun] at hcalled
    rw [show c.calls = _ from hcalled]
    exact messages_paired true c.messages
  | left thrown =>
    rw [hrun] at hcalled
    cases thrown with
    | false =>
      obtain ⟨connected, hcalls, -⟩ := hcalled
      rw [hcalls]
      exact messages_paired connected c.messages
    | true =>
      obtain ⟨connected, hcalls, -⟩ := hcalled
      exact (hcalls.filterMap _).trans (messages_paired connected c.messages)

end WsClient

/-- A client and a connection of the server at the two ends of one connection. The handshake is not on the
wires: either end may find it to have succeeded first. -/
def wsConversation (handlers : WsHandlers) (entry : WsHandlerEntry) :
    Machine (Duplex WsClient WebsocketSession WsFrame) (DuplexEvent WsClientEvent SessionEvent) :=
  (WsClient.party handlers).duplex (WebsocketSession.party entry)

/-- **Messages arrive once, in order and unchanged.** In every run of a client and a connection of the
server, whatever their callers, performers, handlers and streams do:

To the client, the calls of the message handler are made with the first messages that have been read, and
the accepted calls of `send_message` bring these messages, then those on the wire; while the stream of the
server is usable, what follows is what is being sent or waits in the queue.

To the server it is the same, but for the calls that the client has dropped: before its handshake, and at
a call of `close`. What has been sent is a part of the accepted calls in their order, and the first of them
if none was dropped. -/
theorem websocket_conversation {handlers : WsHandlers} {entry : WsHandlerEntry}
    {d : Duplex WsClient WebsocketSession WsFrame}
    (h : (wsConversation handlers entry).Reachable d) :
    (d.left.calls.filterMap WsClientCall.message? <+: d.left.messages ∧
      d.left.messages ++ d.toLeft.filterMap WsFrame.message? <+:
        d.right.queue.accepted.filterMap WsAction.message? ∧
      (d.right.ws.usable = true → d.right.queue.accepted.filterMap WsAction.message? =
        d.left.messages ++ d.toLeft.filterMap WsFrame.message? ++
          (d.right.ws.action.toList ++ d.right.queue.que).filterMap WsAction.message?)) ∧
    (d.right.conn.calls.filterMap WsCall.message? <+: d.right.messages ∧
      ∃ sent, sent.Sublist d.left.queue.accepted ∧
        sent.filterMap WsAction.message? =
          d.right.messages ++ d.toRight.filterMap WsFrame.message? ∧
        (d.left.skipped = [] → d.left.queue.removed = [] → sent <+: d.left.queue.accepted ∧
          (d.left.ws.usable = true →
            d.left.queue.accepted = sent ++ d.left.ws.action.toList ++ d.left.queue.que))) := by
  obtain ⟨hclient, hserver, htoRight, htoLeft⟩ := Party.delivered h
  have hinv := WsClient.inv_of_reachable hclient
  have hinv' := WebsocketSession.inv_of_reachable hserver
  obtain ⟨reply, hframes, hreply, -⟩ := hinv.sends.wire
  obtain ⟨reply', hframes', hreply', -⟩ := hinv'.sends.wire
  have hout : d.left.ws.sent.filterMap WsAction.message? =
      d.right.messages ++ d.toRight.filterMap WsFrame.message? :=
    (WsStream.messages_frames hframes hreply).symm.trans htoRight.messages
  have hout' : d.right.ws.sent.filterMap WsAction.message? =
      d.left.messages ++ d.toLeft.filterMap WsFrame.message? :=
    (WsStream.messages_frames hframes' hreply').symm.trans htoLeft.messages
  refine ⟨⟨WsClient.calls_prefix hclient, ?_, fun husable => ?_⟩,
    WebsocketSession.calls_prefix hserver, d.left.ws.sent, ?_, hout, fun hskipped hremoved => ?_⟩
  · rw [← hout']
    exact hinv'.sent.filterMap _
  · rw [hinv'.accepted husable, List.append_assoc, List.filterMap_append, hout']
  · obtain ⟨fates, haccepted, hstarted, -⟩ := hinv.sends.inv.history.fates
    obtain ⟨lost, hsplit, -⟩ := hinv.sends.outbox.split
    have hkept : ((fates.filter (·.2)).map Prod.fst).Sublist (fates.map Prod.fst) :=
      List.filter_sublist.map _
    rw [← hstarted, hsplit] at hkept
    have hsent : d.left.ws.sent.Sublist (d.left.skipped ++ d.left.ws.sent ++ lost) :=
      (List.sublist_append_right _ _).trans (List.sublist_append_left _ _)
    rw [haccepted]
    exact (hsent.trans hkept).trans (List.sublist_append_left _ _)
  · have hhistory := hinv.sends.inv.history
    rw [hremoved] at hhistory
    obtain ⟨lost, hsplit, -, hlive⟩ := hinv.sends.outbox.split
    rw [hskipped, List.nil_append] at hsplit
    rw [hhistory.of_not_dropped, hsplit, List.append_assoc]
    refine ⟨List.prefix_append _ _, fun husable => ?_⟩
    rw [hlive (hinv.sends.usable_iff.1 husable), List.append_assoc]

/-- The client sends two messages, and the server answers the first one while the second is on the wire. -/
theorem websocket_conversation_two :
    ∃ (handlers : WsHandlers) (entry : WsHandlerEntry) (d : Duplex WsClient WebsocketSession WsFrame),
      (wsConversation handlers entry).Reachable d ∧
      d.left.calls = [.openHandler true, .messageHandler (bytes "c") false] ∧
      d.right.messages = [⟨bytes "a", true⟩] ∧ d.toRight = [.message (bytes "b") false] ∧
      d.left.messages ++ d.toLeft.filterMap WsFrame.message? <+:
        d.right.queue.accepted.filterMap WsAction.message? := by
  let handlers : WsHandlers :=
    { openHandler := .returns, messageHandler := some fun _ => .returns, closeHandler := none }
  let entry : WsHandlerEntry :=
    { openHandler := .returns, messageHandler := fun _ => .returns, closeHandler := .returns }
  have hrun : ((wsConversation handlers entry).run ⟨{}, {}, [], []⟩
      [.right (.run .accepted), .left (.run (.connected true)), .right (.run .returned),
        .left (.run .returned), .left (.send (bytes "a") true), .left (.check 0), .left (.push 0),
        .left (.perform 0), .left (.stream .written), .left (.ended 0),
        .right (.run (.read ⟨bytes "a", true⟩)), .left (.send (bytes "b") false),
        .right (.call (.message (bytes "c") false)), .right (.check 0), .left (.check 0),
        .left (.push 0), .left (.perform 0), .left (.stream .written), .right (.push 0),
        .right (.perform 0), .right (.stream .written),
        .left (.run (.read ⟨bytes "c", false⟩))]).map
          (fun d => (d.left.calls, d.right.messages, d.toRight)) =
      some ([.openHandler true, .messageHandler (bytes "c") false], [⟨bytes "a", true⟩],
        [.message (bytes "b") false]) := by decide +kernel
  obtain ⟨d, hrun, hseen⟩ := Option.map_eq_some_iff.1 hrun
  obtain ⟨hcalls, hrest⟩ := Prod.mk.inj hseen
  obtain ⟨hmessages, hwire⟩ := Prod.mk.inj hrest
  have hinit : (wsConversation handlers entry).Reachable ⟨{}, {}, [], []⟩ :=
    .init ⟨rfl, rfl, rfl, rfl⟩
  have hreachable := hinit.run hrun
  exact ⟨handlers, entry, d, hreachable, hcalls, hmessages, hwire,
    (websocket_conversation hreachable).1.2.1⟩

end Httplib
