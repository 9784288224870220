import Httplib.Server.WebsocketConn
import Httplib.Stream.WebsocketStream

/-!
# The WebSocket client

`ws_client::impl` (`lib/client/ws_client_impl.cpp`) as a machine: the coroutine of one call of
`async_run`, the performer of its queue, its stream, and any number of callers of `send` and `close`
take their steps in any order. `ws_client_sends` says what becomes of the calls of `send`, and
`ws_client_calls` which handlers are called.
-/

namespace Httplib

/-- The handlers of `set_handler_impl` by how their calls end: the one of the open handler, those of the
message handler in their order, and the one of the close handler. The open handler is called without a look
at whether it is set: an empty `std::function` throws, so it counts as a call that `.throws`. -/
structure WsHandlers where
  openHandler : CallEnd
  messageHandler : Option (Nat → CallEnd)
  closeHandler : Option CallEnd

/-- A call of a handler, with what it is given; `async_connect` has succeeded or not. -/
inductive WsClientCall where
  | openHandler (connected : Bool)
  | messageHandler (data : Bytes) (binary : Bool)
  | closeHandler
deriving DecidableEq

/-- How far the coroutine of `async_run` (`ws_client_impl.cpp:203`) has come. -/
inductive WsClientRun where
  | connecting
  | opening (connected : Bool)
  /-- `async_read` waits for the `n`th message. -/
  | reading (n : Nat)
  | handling (n : Nat)
  | closing
  /-- The coroutine is over, by an exception or not. -/
  | left (thrown : Bool)
deriving DecidableEq

/-- A step of the coroutine. -/
inductive WsClientRunEvent where
  /-- `async_connect` returns. -/
  | connected (success : Bool)
  | read (message : WsMessage)
  | readFailed
  /-- The handler that is being called comes to its end. -/
  | returned
deriving DecidableEq

/-- A step of the client. -/
inductive WsClientEvent where
  /-- `send` is called, and stands before its push. -/
  | send (data : Bytes) (binary : Bool)
  /-- `close` is called: it clears the queue, and stands before its push. -/
  | close
  /-- One of the calls goes into `push`. -/
  | check (i : Nat)
  | push (i : Nat)
  | perform (i : Nat)
  | ended (i : Nat)
  | stream (event : StreamEvent)
  | run (event : WsClientRunEvent)
deriving DecidableEq

/-- `ws_client::impl` (`ws_client_impl.h:9`), with the calls in progress. -/
structure WsClient where
  run : WsClientRun := .connecting
  /-- The messages that have been read. -/
  messages : List WsMessage := []
  buffer : Bytes := []
  calls : List WsClientCall := []
  ws : WsStream := {}
  queue : ActionQueue WsAction := {}
  /-- The calls that stand before `push`. -/
  offered : List WsAction := []
  /-- The actions that were started before the handshake, and have done nothing. -/
  skipped : List WsAction := []

namespace WsClient

/-- The first part of `async_send` and of `async_close` (`ws_client_impl.cpp:68`): an action that finds
the stream not open does nothing. -/
def begin (c : WsClient) (act : WsAction) : WsClient :=
  if c.ws.isOpen then { c with ws := c.ws.start act }
  else if c.ws.opened then c
  else { c with skipped := c.skipped ++ [act] }

/-- A step of the queue; an action that is started goes on to its operation. -/
def queueStep (c : WsClient) (event : QueueEvent WsAction) : Option WsClient :=
  ((actionQueue WsAction).step c.queue event).map fun queue =>
    (c.queue.begun queue).foldl begin { c with queue }

/-- A handler is called. -/
def call (c : WsClient) (run : WsClientRun) (call : WsClientCall) : WsClient :=
  { c with run, calls := c.calls ++ [call] }

/-- Behind the loop the close handler is called, if there is one. -/
def callClose (handlers : WsHandlers) (c : WsClient) : WsClient :=
  if handlers.closeHandler.isSome then c.call .closing .closeHandler else { c with run := .left false }

/-- The head of the loop: `async_read` empties the buffer. -/
def loop (handlers : WsHandlers) (n : Nat) (c : WsClient) : WsClient :=
  if c.ws.isOpen then { c with run := .reading n, buffer := [] } else c.callClose handlers

/-- A handler has thrown: `detached` drops it. -/
def throwing (c : WsClient) : WsClient := { c with run := .left true }

/-- A step of the coroutine, none where it stands elsewhere. -/
def runStep (handlers : WsHandlers) (c : WsClient) : WsClientRunEvent → Option WsClient
  | .connected success =>
    if c.run = .connecting then
      let c := if success then { c with ws := c.ws.accept } else c
      some (c.call (.opening success) (.openHandler success))
    else none
  | .read message =>
    match c.run with
    | .reading n =>
      let c := { c with buffer := c.buffer ++ message.data, messages := c.messages ++ [message] }
      if handlers.messageHandler.isSome then
        some (c.call (.handling n) (.messageHandler c.buffer message.binary))
      else some (c.loop handlers (n + 1))
    | _ => none
  | .readFailed =>
    match c.run with
    | .reading _ => some ({ c with ws := { c.ws with isOpen := false } }.callClose handlers)
    | _ => none
  | .returned =>
    match c.run with
    | .opening connected =>
      if handlers.openHandler ≠ .returns then some c.throwing
      else if connected then some (c.loop handlers 0)
      else some { c with run := .left false }
    | .handling n =>
      if ∃ messageHandler ∈ handlers.messageHandler, messageHandler n ≠ .returns then some c.throwing
      else some (c.loop handlers (n + 1))
    | .closing =>
      if ∃ closeHandler ∈ handlers.closeHandler, closeHandler ≠ .returns then some c.throwing
      else some { c with run := .left false }
    | _ => none

end WsClient

/-- A client whose handlers are `handlers`, with any number of callers, behind the start of
`async_run`. -/
def wsClient (handlers : WsHandlers) : Machine WsClient WsClientEvent where
  init c := c = {}
  step c
    | .send data binary => some { c with offered := c.offered ++ [.message data binary] }
    | .close => { c with offered := c.offered ++ [WsAction.close] }.queueStep .clear
    | .check i =>
      c.offered[i]?.bind fun act =>
        { c with offered := c.offered.eraseIdx i }.queueStep (.check act)
    | .push i => c.queueStep (.push i)
    | .perform i => c.queueStep (.perform i)
    | .ended i => if c.ws.action = none then c.queueStep (.ended i) else none
    | .stream event => (c.ws.step event).map fun ws => { c with ws }
    | .run event => c.runStep handlers event

namespace WsClient

variable {handlers : WsHandlers} {c c' : WsClient}

/-! ## What is sent -/

/-- What holds between the steps of a client. -/
structure Inv (c : WsClient) : Prop where
  sends : WsStream.Sends c.queue c.ws c.skipped
  offered : ∀ act ∈ c.offered, act.Fits
  waiting : ∀ act, act ∈ c.queue.checked ∨ act ∈ c.queue.que → act.Fits
  connecting : c.run = .connecting → c.ws.opened = false

/-- The invariant holds before the first call. -/
theorem Inv.init : ({} : WsClient).Inv where
  sends := WsStream.sends_empty
  offered := nofun
  waiting act hact := by simp at hact
  connecting _ := rfl

/-- A step of the queue keeps the invariant. -/
theorem Inv.queueStep (h : c.Inv) {event : QueueEvent WsAction} (hstep : c.queueStep event = some c')
    (hended : ∀ i, event = .ended i → c.ws.action = none)
    (hcheck : ∀ act, event = .check act → act.Fits) : c'.Inv := by
  obtain ⟨queue, hqueue, rfl⟩ := Option.map_eq_some_iff.1 hstep
  have hinv := h.sends.inv.step hqueue
  have hwaiting := ActionQueue.all_of_step hcheck h.waiting hqueue
  cases h.sends.inv.starts hqueue with
  | began act hque hstarted hidle hexecuting =>
    have hbegun : c.queue.begun queue = [act] := by simp [ActionQueue.begun, hstarted]
    have hfits := h.waiting act (.inr (hque ▸ List.mem_cons_self))
    rw [hbegun, List.foldl_cons, List.foldl_nil, begin]
    split
    · next hopen =>
      have hopened : c.ws.opened = true :=
        (Bool.eq_false_or_eq_true _).resolve_right fun hunopened =>
          absurd (hopen.symm.trans (h.sends.unopened hunopened).1) Bool.false_ne_true.symm
      exact ⟨h.sends.start hinv hstarted hidle hexecuting hopened, h.offered, hwaiting, h.connecting⟩
    · next hclosed =>
      split
      · next hopened =>
        exact ⟨h.sends.drop hinv hstarted hidle hopened (Bool.eq_false_iff.2 hclosed) hfits,
          h.offered, hwaiting, h.connecting⟩
      · next hunopened =>
        exact ⟨h.sends.skip hinv hstarted hidle (Bool.eq_false_iff.2 hunopened) hfits,
          h.offered, hwaiting, h.connecting⟩
  | ended hstarted =>
    rw [ActionQueue.begun_of_eq hstarted]
    refine ⟨h.sends.quiet hinv hstarted fun act hact => ?_, h.offered, hwaiting, h.connecting⟩
    rw [hended _ rfl] at hact
    cases hact
  | quiet hstarted hexecuting =>
    rw [ActionQueue.begun_of_eq hstarted]
    exact ⟨h.sends.quiet hinv hstarted fun act hact => hexecuting.trans (h.sends.action act hact),
      h.offered, hwaiting, h.connecting⟩

/-- Calls of handlers keep the invariant. -/
theorem Inv.of_same (h : c.Inv) (hws : c'.ws = c.ws) (hqueue : c'.queue = c.queue)
    (hskipped : c'.skipped = c.skipped) (hoffered : c'.offered = c.offered)
    (hrun : c'.run ≠ .connecting) : c'.Inv :=
  ⟨by rw [hws, hqueue, hskipped]; exact h.sends, by rw [hoffered]; exact h.offered,
    by rw [hqueue]; exact h.waiting, fun hconnecting => absurd hconnecting hrun⟩

/-- The call of the close handler keeps it. -/
theorem Inv.callClose (h : c.Inv) : (c.callClose handlers).Inv := by
  unfold WsClient.callClose
  split <;> exact h.of_same rfl rfl rfl rfl nofun

/-- So does a turn of the loop. -/
theorem Inv.loop (h : c.Inv) (n : Nat) : (c.loop handlers n).Inv := by
  unfold WsClient.loop
  split
  · exact h.of_same rfl rfl rfl rfl nofun
  · exact h.callClose

/-- So does a handler that throws. -/
theorem Inv.throwing (h : c.Inv) : c.throwing.Inv := h.of_same rfl rfl rfl rfl nofun

/-- A step of the coroutine keeps the invariant. -/
theorem Inv.runStep (h : c.Inv) {event : WsClientRunEvent}
    (hstep : c.runStep handlers event = some c') : c'.Inv := by
  cases event with
  | connected success =>
    obtain ⟨hrun, heq⟩ := Option.ite_none_right_eq_some.1 hstep
    cases heq
    split
    · exact ⟨h.sends.accept (h.connecting hrun), h.offered, h.waiting, nofun⟩
    · exact h.of_same rfl rfl rfl rfl nofun
  | read message =>
    simp only [WsClient.runStep] at hstep
    split at hstep
    · next n _ =>
      have hread : ({ c with
          buffer := c.buffer ++ message.data, messages := c.messages ++ [message] } : WsClient).Inv :=
        ⟨h.sends, h.offered, h.waiting, h.connecting⟩
      split at hstep
      · cases hstep
        exact hread.of_same rfl rfl rfl rfl nofun
      · cases hstep
        exact hread.loop (n + 1)
    · cases hstep
  | readFailed =>
    simp only [WsClient.runStep] at hstep
    split at hstep
    · next n hrun =>
      cases hstep
      have hlost : ({ c with ws := { c.ws with isOpen := false } } : WsClient).Inv :=
        ⟨h.sends.lost, h.offered, h.waiting, h.connecting⟩
      exact hlost.callClose
    · cases hstep
  | returned =>
    simp only [WsClient.runStep] at hstep
    split at hstep
    · split at hstep
      · cases hstep
        exact h.throwing
      · split at hstep
        · cases hstep
          exact h.loop 0
        · cases hstep
          exact h.of_same rfl rfl rfl rfl nofun
    · next n _ =>
      split at hstep
      · cases hstep
        exact h.throwing
      · cases hstep
        exact h.loop (n + 1)
    · split at hstep
      · cases hstep
        exact h.throwing
      · cases hstep
        exact h.of_same rfl rfl rfl rfl nofun
    · cases hstep

/-- Every step keeps the invariant. -/
theorem Inv.step (h : c.Inv) {event : WsClientEvent}
    (hstep : (wsClient handlers).step c event = some c') : c'.Inv := by
  have hoffer : ∀ act : WsAction, act.Fits →
      ({ c with offered := c.offered ++ [act] } : WsClient).Inv := by
    intro act hfits
    refine ⟨h.sends, fun act' hact => ?_, h.waiting, h.connecting⟩
    rcases List.mem_append.1 hact with hact | hact
    · exact h.offered act' hact
    · cases List.mem_singleton.1 hact
      exact hfits
  cases event with
  | send data binary =>
    cases hstep
    exact hoffer _ trivial
  | close =>
    have hclear : { c with offered := c.offered ++ [WsAction.close] }.queueStep .clear = some c' := hstep
    exact (hoffer .close trivial).queueStep hclear nofun nofun
  | check i =>
    obtain ⟨act, hact, hstep⟩ := Option.bind_eq_some_iff.1 hstep
    have htaken : ({ c with offered := c.offered.eraseIdx i } : WsClient).Inv :=
      ⟨h.sends, fun act' hact' => h.offered act' (List.mem_of_mem_eraseIdx hact'), h.waiting,
        h.connecting⟩
    refine htaken.queueStep hstep nofun ?_
    rintro _ ⟨⟩
    exact h.offered act (List.mem_of_getElem? hact)
  | push i | perform i => exact h.queueStep hstep nofun nofun
  | ended i =>
    obtain ⟨hnone, hstep⟩ := Option.ite_none_right_eq_some.1 hstep
    exact h.queueStep hstep (fun _ _ => hnone) nofun
  | stream event =>
    obtain ⟨ws, hws, rfl⟩ := Option.map_eq_some_iff.1 hstep
    exact ⟨h.sends.stream_step hws, h.offered, h.waiting, fun hrun =>
      (WsStream.sent_of_step hws).1.trans (h.connecting hrun)⟩
  | run event => exact h.runStep hstep

/-- So it holds of every client that is reached. -/
theorem inv_of_reachable (h : (wsClient handlers).Reachable c) : c.Inv := by
  refine h.invariant ?_ fun c event c' hinv _ hstep => hinv.step hstep
  rintro c rfl
  exact Inv.init

end WsClient

/-- **What becomes of the calls of `send`.** In every state that any interleaving reaches, the accepted
calls are, in the order of their pushes, those that were started or removed by `close`, and behind them
those that wait. The started ones are first those that came before the handshake, which are dropped without
a trace, then those that are sent, each with its own data and type, and then those that are lost; while
the stream is usable nothing is lost but what is being sent. Nothing follows a close frame, and nothing is
on the wire before the handshake. -/
theorem ws_client_sends {handlers : WsHandlers} {c : WsClient} (h : (wsClient handlers).Reachable c) :
    ∃ (fates : List (WsAction × Bool)) (sent lost : List WsAction) (reply : List WsFrame),
      c.queue.accepted = fates.map Prod.fst ++ c.queue.que ∧
      c.skipped ++ sent ++ lost = (fates.filter (·.2)).map Prod.fst ∧
      c.queue.removed = (fates.filter (!·.2)).map Prod.fst ∧
      c.ws.frames = sent.map WsAction.frame ++ reply ∧
      (reply = [] ∨ reply = [.closeReply] ∧ c.ws.usable = false) ∧
      (∀ front back, sent = front ++ .close :: back →
        back = [] ∧ reply = [] ∧ c.ws.usable = false) ∧
      (c.ws.usable = true → lost = c.ws.action.toList) ∧
      (c.ws.opened = false → c.ws.frames = [] ∧ lost = []) := by
  have hinv := WsClient.inv_of_reachable h
  obtain ⟨fates, haccepted, hstarted, hremoved⟩ := hinv.sends.inv.history.fates
  obtain ⟨lost, hsplit, hbefore, hlive⟩ := hinv.sends.outbox.split
  obtain ⟨reply, hframes, hreply, hclose⟩ := hinv.sends.wire
  refine ⟨fates, c.ws.sent, lost, reply, haccepted, hsplit.symm.trans hstarted, hremoved, hframes,
    hreply, hclose, fun husable => hlive (hinv.sends.usable_iff.1 husable), fun hunopened => ?_⟩
  exact ⟨(hinv.sends.wire_of_unopened hunopened).2, (hbefore (if_pos hunopened)).2⟩

/-- One message before the handshake, one that is sent, and one that waits when `close` is called. -/
theorem ws_client_sends_three :
    ∃ (handlers : WsHandlers) (c : WsClient), (wsClient handlers).Reachable c ∧
      c.skipped = [.message (bytes "a") false] ∧ c.queue.removed = [.message (bytes "c") false] ∧
      c.ws.frames = [.message (bytes "b") true, .close (bytes "normal")] ∧
      ∃ (fates : List (WsAction × Bool)) (sent lost : List WsAction),
        c.queue.accepted = fates.map Prod.fst ++ c.queue.que ∧
        c.skipped ++ sent ++ lost = (fates.filter (·.2)).map Prod.fst := by
  let handlers : WsHandlers :=
    { openHandler := .returns, messageHandler := none, closeHandler := none }
  obtain ⟨c, hrun, hskipped, hremoved, hframes⟩ : ∃ c, (wsClient handlers).run {}
      [.send (bytes "a") false, .check 0, .push 0, .perform 0, .run (.connected true), .ended 0,
        .send (bytes "b") true, .check 0, .push 0, .perform 0, .send (bytes "c") false, .check 0,
        .push 0, .close, .stream .written, .check 0, .ended 0, .push 0, .perform 0,
        .stream .written] = some c ∧
      c.skipped = [.message (bytes "a") false] ∧ c.queue.removed = [.message (bytes "c") false] ∧
      c.ws.frames = [.message (bytes "b") true, .close (bytes "normal")] := ⟨_, rfl, rfl, rfl, rfl⟩
  have hreachable := Machine.Reachable.run (.init rfl) hrun
  obtain ⟨fates, sent, lost, -, haccepted, hstarted, -⟩ := ws_client_sends hreachable
  exact ⟨handlers, c, hreachable, hskipped, hremoved, hframes, fates, sent, lost, haccepted, hstarted⟩

namespace WsClient

variable {handlers : WsHandlers} {c c' : WsClient}

/-! ## What is called -/

/-- The calls that the messages are due. -/
def due (handlers : WsHandlers) (messages : List WsMessage) : List WsClientCall :=
  if handlers.messageHandler.isSome then messages.map fun m => .messageHandler m.data m.binary else []

/-- The calls of a run that no handler ends: behind a connect that has failed only the one of the open
handler. -/
def paired (handlers : WsHandlers) (connected : Bool) (messages : List WsMessage) :
    List WsClientCall :=
  .openHandler connected :: if connected then
    due handlers messages ++ (if handlers.closeHandler.isSome then [.closeHandler] else [])
  else []

/-- A further message is due its call behind those of the earlier ones. -/
theorem due_append (message : WsMessage) (messages : List WsMessage) :
    due handlers (messages ++ [message]) = due handlers messages ++
      if handlers.messageHandler.isSome then [.messageHandler message.data message.binary] else [] := by
  unfold due
  split <;> simp

/-- No call of the close handler is due to a message. -/
theorem closeHandler_not_mem_due (messages : List WsMessage) :
    WsClientCall.closeHandler ∉ due handlers messages := by
  unfold due
  split <;> simp

/-- The coroutine is in its loop. -/
def Looping (handlers : WsHandlers) (c : WsClient) : Prop :=
  c.calls = .openHandler true :: due handlers c.messages

/-- What the coroutine has called when it stands at a place. -/
def Called (handlers : WsHandlers) (c : WsClient) : WsClientRun → Prop
  | .connecting => c.calls = [] ∧ c.messages = []
  | .opening connected => c.calls = [.openHandler connected] ∧ c.messages = []
  | .reading n => c.Looping handlers ∧ c.messages.length = n ∧ c.buffer = []
  | .handling n => c.Looping handlers ∧ c.messages.length = n + 1
  | .closing => c.calls = paired handlers true c.messages
  | .left false =>
    ∃ connected, c.calls = paired handlers connected c.messages ∧ (connected = false → c.messages = [])
  | .left true =>
    ∃ connected, c.calls <+: paired handlers connected c.messages ∧
      (connected = false → c.messages = []) ∧
      (.closeHandler ∈ c.calls → ∃ closeHandler ∈ handlers.closeHandler, closeHandler ≠ .returns)

/-- What is called rests on no more than the calls, the messages and the buffer. -/
theorem Called.congr {run : WsClientRun} (h : c.Called handlers run) (hcalls : c'.calls = c.calls)
    (hmessages : c'.messages = c.messages) (hbuffer : c'.buffer = c.buffer) :
    c'.Called handlers run := by
  cases run with
  | connecting | opening | reading | handling | closing =>
    simpa only [Called, Looping, hcalls, hmessages, hbuffer] using h
  | left thrown => cases thrown <;> simpa only [Called, hcalls, hmessages] using h

/-- A step of the queue calls nothing. -/
theorem Called.queueStep {event : QueueEvent WsAction} (hstep : c.queueStep event = some c')
    (h : c.Called handlers c.run) : c'.Called handlers c'.run := by
  obtain ⟨queue, -, rfl⟩ := Option.map_eq_some_iff.1 hstep
  have hsame : ∀ (acts : List WsAction) (c : WsClient), c.Called handlers c.run →
      (acts.foldl begin c).Called handlers (acts.foldl begin c).run := by
    intro acts
    induction acts with
    | nil => exact fun _ h => h
    | cons act acts ih =>
      intro c h
      refine ih (c.begin act) ?_
      unfold begin
      split
      · exact h.congr rfl rfl rfl
      · split
        · exact h
        · exact h.congr rfl rfl rfl
  exact hsame _ _ (h.congr rfl rfl rfl)

/-- Behind the loop the close handler is called. -/
theorem Looping.callClose (h : c.Looping handlers) :
    (c.callClose handlers).Called handlers (c.callClose handlers).run := by
  have hcalls : c.calls = .openHandler true :: due handlers c.messages := h
  unfold WsClient.callClose
  split
  · next hclose => simp [call, Called, paired, hcalls, hclose]
  · next hclose => exact ⟨true, by simp [paired, hcalls, hclose], nofun⟩

/-- The loop reads on, or is left. -/
theorem Looping.loop (h : c.Looping handlers) :
    (c.loop handlers c.messages.length).Called handlers (c.loop handlers c.messages.length).run := by
  unfold WsClient.loop
  split
  · exact ⟨h, rfl, rfl⟩
  · exact h.callClose

/-- A run whose loop a handler ends. -/
theorem Looping.throwing (h : c.Looping handlers) : c.throwing.Called handlers c.throwing.run := by
  have hcalls : c.calls = .openHandler true :: due handlers c.messages := h
  refine ⟨true, ?_, nofun, ?_⟩
  · simp [WsClient.throwing, paired, hcalls]
  · intro hclose
    rw [WsClient.throwing, hcalls] at hclose
    simp [closeHandler_not_mem_due] at hclose

/-- The end of a handler. -/
theorem Called.returned (h : c.Called handlers c.run) (hstep : c.runStep handlers .returned = some c') :
    c'.Called handlers c'.run := by
  simp only [WsClient.runStep] at hstep
  split at hstep
  · next connected hrun =>
    rw [hrun] at h
    obtain ⟨hcalls, hmessages⟩ := h
    split at hstep
    · cases hstep
      refine ⟨connected, ?_, fun _ => hmessages, ?_⟩
      · simp [WsClient.throwing, paired, hcalls]
      · simp [WsClient.throwing, hcalls]
    · split at hstep
      · next hconnected =>
        cases hstep
        have hlooping : c.Looping handlers := by
          simp [Looping, hcalls, hmessages, hconnected, due]
        have hloop := hlooping.loop
        rw [hmessages] at hloop
        exact hloop
      · next hconnected =>
        cases hstep
        refine ⟨false, ?_, fun _ => hmessages⟩
        simp [paired, hcalls, hconnected]
  · next n hrun =>
    rw [hrun] at h
    obtain ⟨hlooping, hlength⟩ := h
    split at hstep
    · cases hstep
      exact hlooping.throwing
    · cases hstep
      exact hlength ▸ hlooping.loop
  · next hrun =>
    rw [hrun] at h
    have hcalls : c.calls = paired handlers true c.messages := h
    split at hstep
    · next hthrows =>
      cases hstep
      exact ⟨true, by rw [WsClient.throwing, hcalls], nofun, fun _ => hthrows⟩
    · cases hstep
      exact ⟨true, hcalls, nofun⟩
  · cases hstep

/-- Every step of the coroutine keeps what has been called. -/
theorem Called.runStep (h : c.Called handlers c.run) {event : WsClientRunEvent}
    (hstep : c.runStep handlers event = some c') : c'.Called handlers c'.run := by
  cases event with
  | connected success =>
    obtain ⟨hrun, heq⟩ := Option.ite_none_right_eq_some.1 hstep
    rw [hrun] at h
    obtain ⟨hcalls, hmessages⟩ := h
    cases heq
    cases success <;> exact ⟨by simp [call, hcalls], hmessages⟩
  | read message =>
    simp only [WsClient.runStep] at hstep
    split at hstep
    · next n hrun =>
      rw [hrun] at h
      obtain ⟨hlooping, hlength, hbuffer⟩ := h
      have hcalls : c.calls = .openHandler true :: due handlers c.messages := hlooping
      split at hstep
      · next hhandler =>
        cases hstep
        refine ⟨?_, by simp [call, hlength]⟩
        simp [Looping, call, hcalls, due_append, hhandler, hbuffer]
      · next hhandler =>
        cases hstep
        have hread : ({ c with
            buffer := c.buffer ++ message.data, messages := c.messages ++ [message] } :
            WsClient).Looping handlers := by
          simp [Looping, hcalls, due_append, hhandler]
        have hloop := hread.loop
        rw [show (c.messages ++ [message]).length = n + 1 by simp [hlength]] at hloop
        exact hloop
    · cases hstep
  | readFailed =>
    simp only [WsClient.runStep] at hstep
    split at hstep
    · next n hrun =>
      rw [hrun] at h
      cases hstep
      have hlost : ({ c with ws := { c.ws with isOpen := false } } : WsClient).Looping handlers := h.1
      exact hlost.callClose
    · cases hstep
  | returned => exact h.returned hstep

/-- The calls made are, at every point of a run, those that its place in the coroutine says. -/
theorem called_of_reachable (h : (wsClient handlers).Reachable c) : c.Called handlers c.run := by
  refine h.invariant (I := fun c => c.Called handlers c.run) ?_ fun c event c' hcalled _ hstep => ?_
  · rintro c rfl
    exact ⟨rfl, rfl⟩
  · cases event with
    | send data binary =>
      cases hstep
      exact hcalled.congr rfl rfl rfl
    | close =>
      have hclear : { c with offered := c.offered ++ [WsAction.close] }.queueStep .clear = some c' :=
        hstep
      exact Called.queueStep hclear (hcalled.congr rfl rfl rfl)
    | check i =>
      obtain ⟨act, -, hstep⟩ := Option.bind_eq_some_iff.1 hstep
      exact Called.queueStep hstep (hcalled.congr rfl rfl rfl)
    | push i | perform i => exact Called.queueStep hstep hcalled
    | ended i =>
      obtain ⟨-, hstep⟩ := Option.ite_none_right_eq_some.1 hstep
      exact Called.queueStep hstep hcalled
    | stream event =>
      obtain ⟨ws, -, rfl⟩ := Option.map_eq_some_iff.1 hstep
      exact hcalled.congr rfl rfl rfl
    | run event => exact hcalled.runStep hstep

end WsClient

/-- **The handlers of the client are paired.** However the callers, the performer and the stream interleave
with the coroutine of `async_run`, its calls are the first of those that are due: the open handler with what
the connect has come to, and behind a success one call for each message, with exactly its bytes and type,
and the close handler. A coroutine that is left by no exception has made all of them. One that is left by
an exception has not called the close handler, unless that has thrown it. -/
theorem ws_client_calls {handlers : WsHandlers} {c : WsClient} (h : (wsClient handlers).Reachable c) :
    (c.run = .connecting → c.calls = [] ∧ c.messages = []) ∧
    (c.run ≠ .connecting → ∃ connected,
      c.calls <+: WsClient.paired handlers connected c.messages ∧
      (connected = false → c.messages = []) ∧
      (c.run = .left false → c.calls = WsClient.paired handlers connected c.messages) ∧
      (c.run = .left true → .closeHandler ∈ c.calls →
        ∃ closeHandler ∈ handlers.closeHandler, closeHandler ≠ .returns)) := by
  have hcalled := WsClient.called_of_reachable h
  have hlooping : c.Looping handlers → c.calls <+: WsClient.paired handlers true c.messages := by
    intro hcalls
    simp [WsClient.paired, show c.calls = _ from hcalls]
  cases hrun : c.run with
  | connecting =>
    rw [hrun] at hcalled
    exact ⟨fun _ => hcalled, fun hne => absurd rfl hne⟩
  | opening connected =>
    rw [hrun] at hcalled
    refine ⟨nofun, fun _ => ⟨connected, ?_, fun _ => hcalled.2, nofun, nofun⟩⟩
    simp [WsClient.paired, hcalled.1]
  | reading n =>
    rw [hrun] at hcalled
    exact ⟨nofun, fun _ => ⟨true, hlooping hcalled.1, nofun, nofun, nofun⟩⟩
  | handling n =>
    rw [hrun] at hcalled
    exact ⟨nofun, fun _ => ⟨true, hlooping hcalled.1, nofun, nofun, nofun⟩⟩
  | closing =>
    rw [hrun] at hcalled
    exact ⟨nofun, fun _ => ⟨true, by rw [show c.calls = _ from hcalled], nofun, nofun, nofun⟩⟩
  | left thrown =>
    rw [hrun] at hcalled
    refine ⟨nofun, fun _ => ?_⟩
    cases thrown with
    | false =>
      obtain ⟨connected, hcalls, hmessages⟩ := hcalled
      exact ⟨connected, by rw [hcalls], hmessages, fun _ => hcalls, nofun⟩
    | true =>
      obtain ⟨connected, hprefix, hmessages, hclose⟩ := hcalled
      exact ⟨connected, hprefix, hmessages, nofun, fun _ => hclose⟩

/-- A client that reads two messages and is closed by its peer. -/
theorem ws_client_calls_two :
    ∃ (handlers : WsHandlers) (c : WsClient), (wsClient handlers).Reachable c ∧ c.run = .left false ∧
      ∃ connected, c.calls = WsClient.paired handlers connected c.messages ∧
        c.messages = [⟨bytes "a", false⟩, ⟨bytes "b", true⟩] := by
  let handlers : WsHandlers :=
    { openHandler := .returns, messageHandler := some fun _ => .returns, closeHandler := some .returns }
  obtain ⟨c, hrun, hleft, hmessages⟩ : ∃ c, (wsClient handlers).run {}
      [.run (.connected true), .run .returned, .run (.read ⟨bytes "a", false⟩), .run .returned,
        .run (.read ⟨bytes "b", true⟩), .stream .closed, .run .returned, .run .returned] = some c ∧
      c.run = .left false ∧ c.messages = [⟨bytes "a", false⟩, ⟨bytes "b", true⟩] :=
    ⟨_, rfl, rfl, rfl⟩
  have hreachable := Machine.Reachable.run (.init rfl) hrun
  obtain ⟨connected, -, -, hcalls, -⟩ := (ws_client_calls hreachable).2 (by rw [hleft]; nofun)
  exact ⟨handlers, c, hreachable, hleft, connected, hcalls hleft, hmessages⟩

end Httplib
