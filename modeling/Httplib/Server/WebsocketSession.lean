import Httplib.Server.WebsocketConn
import Httplib.Stream.WebsocketStream

/-!
# A WebSocket connection under concurrent calls

`websocket_conn_impl` (`lib/server/websocket_conn_impl.cpp`) as a machine: its coroutine `run`, the
performer of its queue, its stream, and any number of callers of `send_message`, `send_ping` and `close`
take their steps in any order. `websocket_session_sends` says what the peer is sent,
`websocket_session_calls` that the handlers are called as by `run` alone, and `websocket_session_stuck`
what a ping that is too long does.
-/

namespace Httplib

/-- How far `websocket_conn_impl::run` (`websocket_conn_impl.cpp:74`) has come, behind
`query_ws_handler`. -/
inductive WsRun where
  | accepting
  | opening
  /-- `async_read` waits for the `n`th message. -/
  | reading (n : Nat)
  /-- The message handler is called with the `n`th message. -/
  | handling (n : Nat) (message : WsMessage)
  /-- A read has failed. -/
  | failed
  | cleared
  /-- `async_shutdown` stands before its wait. -/
  | requested
  | waiting
  | closing
  | left (how : CallEnd)
deriving DecidableEq

/-- A step of `run`. -/
inductive RunEvent where
  | accepted
  | refused
  | read (message : WsMessage)
  | readFailed
  /-- The handler that is being called comes to its end. -/
  | returned
  | clear
  | shutdown
  | wait
  | waited
deriving DecidableEq

/-- A step of the connection. -/
inductive SessionEvent where
  /-- `send_message`, `send_ping` or `close` asks `is_open`. -/
  | call (act : WsAction)
  /-- One of the calls that have found the stream open goes into `push`. -/
  | check (i : Nat)
  | push (i : Nat)
  | perform (i : Nat)
  | ended (i : Nat)
  | stream (event : StreamEvent)
  | run (event : RunEvent)
deriving DecidableEq

/-- `websocket_conn_impl` (`websocket_conn_impl.hpp:16`), with the calls in progress. -/
structure WebsocketSession where
  run : WsRun := .accepting
  /-- The messages that have been read. -/
  messages : List WsMessage := []
  conn : WebsocketConn := {}
  ws : WsStream := {}
  queue : ActionQueue WsAction := {}
  /-- The calls that have found the stream open and stand before `push`. -/
  offered : List WsAction := []

namespace WebsocketSession

/-- A step of the queue; an action that is started goes on to its operation. -/
def queueStep (s : WebsocketSession) (event : QueueEvent WsAction) : Option WebsocketSession :=
  ((actionQueue WsAction).step s.queue event).map fun queue =>
    { s with queue, ws := s.ws.begin s.queue queue }

/-- `run` behind its wait for the queue. -/
def callClose (s : WebsocketSession) : WebsocketSession :=
  { s with run := .closing, conn := s.conn.call .closeHandler }

/-- A step of `run`, none where it stands elsewhere. -/
def runStep (entry : WsHandlerEntry) (s : WebsocketSession) : RunEvent → Option WebsocketSession
  | .accepted =>
    if s.run = .accepting then
      some { s with run := .opening, ws := s.ws.accept, conn := s.conn.call .openHandler }
    else none
  | .refused => if s.run = .accepting then some { s with run := .left .returns } else none
  | .read message =>
    match s.run with
    | .reading n =>
      let conn := s.conn.read message
      some { s with
        run := .handling n message
        messages := s.messages ++ [message]
        conn := conn.call (.messageHandler conn.buffer message.binary) }
    | _ => none
  | .readFailed =>
    match s.run with
    | .reading _ => some { s with run := .failed, ws := { s.ws with isOpen := false } }
    | _ => none
  | .returned =>
    match s.run with
    | .opening =>
      match entry.openHandler with
      | .returns => some { s with run := .reading 0 }
      | .throws => some { s with run := .left .returns }
      | .throwsOther => some { s with run := .left .throwsOther }
    | .handling n message =>
      match entry.messageHandler n with
      | .throwsOther => some { s with run := .left .throwsOther }
      | .returns | .throws =>
        some { s with run := .reading (n + 1), conn := s.conn.consume message.data.length }
    | .closing =>
      some { s with
        run := .left (if entry.closeHandler = .throwsOther then .throwsOther else .returns) }
    | _ => none
  | .clear => if s.run = .failed then { s with run := .cleared }.queueStep .clear else none
  | .shutdown =>
    if s.run = .cleared then
      -- a queue that is shut down already and idle is not waited for
      if ¬ s.queue.running ∧ s.queue.shutdowning then s.callClose.queueStep (.shutdown true)
      else { s with run := .requested }.queueStep (.shutdown true)
    else none
  | .wait => if s.run = .requested then { s with run := .waiting }.queueStep .wait else none
  | .waited => if s.run = .waiting then s.callClose.queueStep .waited else none

end WebsocketSession

/-- A connection whose handlers are `entry`, with any number of callers. -/
def websocketSession (entry : WsHandlerEntry) : Machine WebsocketSession SessionEvent where
  init s := s = {}
  step s
    | .call act => some (if s.ws.isOpen then { s with offered := s.offered ++ [act] } else s)
    | .check i =>
      s.offered[i]?.bind fun act =>
        { s with offered := s.offered.eraseIdx i }.queueStep (.check act)
    | .push i => s.queueStep (.push i)
    | .perform i => s.queueStep (.perform i)
    | .ended i => if s.ws.action = none then s.queueStep (.ended i) else none
    | .stream event => (s.ws.step event).map fun ws => { s with ws }
    | .run event => s.runStep entry event

namespace WebsocketSession

variable {entry : WsHandlerEntry} {s s' : WebsocketSession}

/-! ## What is sent -/

/-- `run` has not moved, or stands neither before the handshake nor at a failed read. -/
def Leads (s s' : WebsocketSession) : Prop :=
  s'.run = s.run ∨ s'.run ≠ .accepting ∧ s'.run ≠ .failed

/-- `Sending s s'`: what a step from `s` to `s'` does to the queue, the stream and the calls. -/
inductive Sending (s s' : WebsocketSession) : Prop
  | queue (event : QueueEvent WsAction) :
      (actionQueue WsAction).step s.queue event = some s'.queue →
      s'.ws = s.ws.begin s.queue s'.queue → (∀ i, event = .ended i → s.ws.action = none) →
      (∀ act, event = .check act → act ∈ s.offered) → (event = .clear → s.run = .failed) →
      s'.offered ⊆ s.offered → s.Leads s' → Sending s s'
  | stream (event : StreamEvent) : s.ws.step event = some s'.ws → s'.queue = s.queue →
      s'.offered = s.offered → s'.run = s.run ∨ s'.run = .failed ∧ s'.ws.isOpen = false → Sending s s'
  | accept : s.run = .accepting → s'.ws = s.ws.accept → s'.queue = s.queue →
      s'.offered = s.offered → s'.run = .opening → Sending s s'
  | call (act : WsAction) : s.ws.isOpen = true → s' = { s with offered := s.offered ++ [act] } →
      Sending s s'
  | quiet : s'.ws = s.ws → s'.queue = s.queue → s'.offered = s.offered →
      s.Leads s' → Sending s s'

/-- A step of the queue is one that leaves the rest alone. -/
theorem sending_queueStep {s₀ : WebsocketSession} {event : QueueEvent WsAction}
    (hstep : s₀.queueStep event = some s') (hqueue : s₀.queue = s.queue) (hws : s₀.ws = s.ws)
    (hended : ∀ i, event = .ended i → s.ws.action = none)
    (hcheck : ∀ act, event = .check act → act ∈ s.offered)
    (hclear : event = .clear → s.run = .failed) (hoffered : s₀.offered ⊆ s.offered)
    (hleads : s.Leads s₀) : Sending s s' := by
  obtain ⟨queue, hqueue', rfl⟩ := Option.map_eq_some_iff.1 hstep
  rw [hqueue] at hqueue'
  refine .queue event hqueue' ?_ hended hcheck hclear hoffered hleads
  simp [hqueue, hws]

/-- What a step of `run` does. -/
theorem sending_runStep {event : RunEvent} (hstep : s.runStep entry event = some s') :
    Sending s s' := by
  cases event with
  | accepted =>
    obtain ⟨hrun, heq⟩ := Option.ite_none_right_eq_some.1 hstep
    cases heq
    exact .accept hrun rfl rfl rfl rfl
  | refused =>
    obtain ⟨hrun, heq⟩ := Option.ite_none_right_eq_some.1 hstep
    cases heq
    exact .quiet rfl rfl rfl (.inr ⟨nofun, nofun⟩)
  | read message =>
    simp only [runStep] at hstep
    split at hstep
    · cases hstep
      exact .quiet rfl rfl rfl (.inr ⟨nofun, nofun⟩)
    · cases hstep
  | readFailed =>
    simp only [runStep] at hstep
    split at hstep
    · cases hstep
      exact .stream .lost rfl rfl rfl (.inr ⟨rfl, rfl⟩)
    · cases hstep
  | returned =>
    simp only [runStep] at hstep
    split at hstep
    · split at hstep <;>
      · cases hstep
        exact .quiet rfl rfl rfl (.inr ⟨nofun, nofun⟩)
    · split at hstep <;>
      · cases hstep
        exact .quiet rfl rfl rfl (.inr ⟨nofun, nofun⟩)
    · cases hstep
      exact .quiet rfl rfl rfl (.inr ⟨nofun, nofun⟩)
    · cases hstep
  | clear =>
    obtain ⟨hrun, heq⟩ := Option.ite_none_right_eq_some.1 hstep
    exact sending_queueStep heq rfl rfl nofun nofun (fun _ => hrun) (List.Subset.refl _)
      (.inr ⟨nofun, nofun⟩)
  | shutdown =>
    obtain ⟨-, heq⟩ := Option.ite_none_right_eq_some.1 hstep
    split at heq <;>
      exact sending_queueStep heq rfl rfl nofun nofun nofun (List.Subset.refl _)
        (.inr ⟨nofun, nofun⟩)
  | wait | waited =>
    obtain ⟨-, heq⟩ := Option.ite_none_right_eq_some.1 hstep
    exact sending_queueStep heq rfl rfl nofun nofun nofun (List.Subset.refl _)
      (.inr ⟨nofun, nofun⟩)

/-- What a step does. -/
theorem sending_of_step {event : SessionEvent}
    (hstep : (websocketSession entry).step s event = some s') : Sending s s' := by
  cases event with
  | call act =>
    cases hstep
    split
    · next hopen => exact .call act hopen rfl
    · exact .quiet rfl rfl rfl (.inl rfl)
  | check i =>
    obtain ⟨act, hact, hstep⟩ := Option.bind_eq_some_iff.1 hstep
    refine sending_queueStep hstep rfl rfl nofun ?_ nofun List.eraseIdx_subset (.inl rfl)
    rintro _ ⟨⟩
    exact List.mem_of_getElem? hact
  | push i => exact sending_queueStep hstep rfl rfl nofun nofun nofun (List.Subset.refl _) (.inl rfl)
  | perform i =>
    exact sending_queueStep hstep rfl rfl nofun nofun nofun (List.Subset.refl _) (.inl rfl)
  | ended i =>
    obtain ⟨hnone, hstep⟩ := Option.ite_none_right_eq_some.1 hstep
    exact sending_queueStep hstep rfl rfl (fun _ _ => hnone) nofun nofun (List.Subset.refl _)
      (.inl rfl)
  | stream event =>
    obtain ⟨ws, hws, rfl⟩ := Option.map_eq_some_iff.1 hstep
    exact .stream event hws rfl rfl (.inl rfl)
  | run event => exact sending_runStep hstep

/-- What holds between the steps of a connection. -/
structure Inv (s : WebsocketSession) : Prop where
  sends : WsStream.Sends s.queue s.ws []
  sent : s.ws.sent <+: s.queue.accepted
  kept : s.ws.usable = true → s.queue.removed = []
  unopened : s.ws.opened = false →
    s.offered = [] ∧ s.queue.checked = [] ∧ s.queue.accepted = []
  accepting : s.run = .accepting → s.ws.opened = false
  failed : s.run = .failed → s.ws.usable = false

theorem Inv.init : ({} : WebsocketSession).Inv where
  sends := WsStream.sends_empty
  sent := List.nil_prefix
  kept := nofun
  unopened _ := ⟨rfl, rfl, rfl⟩
  accepting _ := rfl
  failed := nofun

/-- Nothing waits and nothing was dropped before the first push. -/
theorem Inv.empty (h : s.Inv) (hunopened : s.ws.opened = false) :
    s.queue.removed = [] ∧ s.queue.que = [] := by
  have hhistory := h.sends.inv.history
  rw [(h.unopened hunopened).2.2] at hhistory
  exact hhistory.of_not_accepted.2

/-- While the stream is usable, what has been accepted is sent, being sent, or waits. -/
theorem Inv.accepted (h : s.Inv) (husable : s.ws.usable = true) :
    s.queue.accepted = s.ws.sent ++ s.ws.action.toList ++ s.queue.que := by
  have hhistory := h.sends.inv.history
  rw [h.kept husable] at hhistory
  obtain ⟨rest, hstarted, -, hlive⟩ := h.sends.outbox.split
  rw [hhistory.of_not_dropped, hstarted, hlive (h.sends.usable_iff.1 husable), List.nil_append]

/-- A place that `run` has not moved to is one where it stood. -/
theorem Leads.eq (h : s.Leads s') {run : WsRun} (hrun : s'.run = run)
    (hplace : run = .accepting ∨ run = .failed) : s.run = run := by
  rcases h with hsame | ⟨haccepting, hfailed⟩
  · exact hsame.symm.trans hrun
  · rcases hplace with rfl | rfl
    · exact absurd hrun haccepting
    · exact absurd hrun hfailed

/-- A step of the queue keeps the invariant. -/
theorem Inv.queue (h : s.Inv) {event : QueueEvent WsAction}
    (hstep : (actionQueue WsAction).step s.queue event = some s'.queue)
    (hws : s'.ws = s.ws.begin s.queue s'.queue) (hended : ∀ i, event = .ended i → s.ws.action = none)
    (hcheck : ∀ act, event = .check act → act ∈ s.offered) (hclear : event = .clear → s.run = .failed)
    (hoffered : s'.offered ⊆ s.offered) (hleads : s.Leads s') : s'.Inv := by
  have hsends := h.sends.queue_step hstep hended fun hunopened => (h.empty hunopened).2
  rw [← hws] at hsends
  obtain ⟨binary, action, hbegin⟩ := @WsStream.begin_eq s.queue s'.queue s.ws
  rw [hbegin] at hws
  have hsame : s'.ws.opened = s.ws.opened ∧ s'.ws.sent = s.ws.sent ∧ s'.ws.usable = s.ws.usable := by
    rw [hws]
    exact ⟨rfl, rfl, rfl⟩
  obtain ⟨hopened, hsent, husable⟩ := hsame
  refine ⟨hsends, ?_, ?_, ?_, ?_, ?_⟩
  · rw [hsent]
    exact h.sent.trans (ActionQueue.accepted_prefix hstep)
  · intro hlive
    rw [husable] at hlive
    refine (ActionQueue.removed_of_step (fun heq => ?_) hstep).trans (h.kept hlive)
    exact absurd (hlive.symm.trans (h.failed (hclear heq))) nofun
  · intro hunopened
    rw [hopened] at hunopened
    obtain ⟨hnone, hchecked, haccepted⟩ := h.unopened hunopened
    rw [hnone] at hcheck hoffered
    have hqueue := ActionQueue.accepted_of_step (fun act heq => nomatch hcheck act heq) hchecked hstep
    exact ⟨List.subset_nil.1 hoffered, hqueue.1, hqueue.2.trans haccepted⟩
  · intro hrun
    exact hopened.trans (h.accepting (hleads.eq hrun (.inl rfl)))
  · intro hrun
    exact husable.trans (h.failed (hleads.eq hrun (.inr rfl)))

/-- An event of the stream keeps the invariant. -/
theorem Inv.stream (h : s.Inv) {event : StreamEvent} (hstep : s.ws.step event = some s'.ws)
    (hqueue : s'.queue = s.queue) (hoffered : s'.offered = s.offered)
    (hrun : s'.run = s.run ∨ s'.run = .failed ∧ s'.ws.isOpen = false) : s'.Inv := by
  obtain ⟨hopened, husable, hsent⟩ := WsStream.sent_of_step hstep
  refine ⟨hqueue ▸ h.sends.stream_step hstep, ?_, ?_, ?_, ?_, ?_⟩
  · rw [hqueue]
    rcases hsent with hsent | ⟨act, hact, -, hlive, hsent⟩
    · exact hsent ▸ h.sent
    · rw [hsent, h.accepted hlive, hact]
      exact List.prefix_append _ _
  · intro hlive
    rw [hqueue]
    exact h.kept (husable hlive)
  · rw [hopened, hoffered, hqueue]
    exact h.unopened
  · intro haccepting
    rcases hrun with hrun | ⟨hrun, -⟩
    · exact hopened.trans (h.accepting (hrun ▸ haccepting))
    · exact absurd (hrun.symm.trans haccepting) nofun
  · intro hfailed
    rcases hrun with hrun | ⟨-, hclosed⟩
    · refine Bool.eq_false_iff.2 fun hlive => ?_
      exact absurd ((husable hlive).symm.trans (h.failed (hrun ▸ hfailed))) nofun
    · simp [WsStream.usable, hclosed]

/-- Every step keeps the invariant. -/
theorem Inv.step (h : s.Inv) {event : SessionEvent}
    (hstep : (websocketSession entry).step s event = some s') : s'.Inv := by
  cases sending_of_step hstep with
  | queue event hqueue hws hended hcheck hclear hoffered hleads =>
    exact h.queue hqueue hws hended hcheck hclear hoffered hleads
  | stream event hws hqueue hoffered hrun => exact h.stream hws hqueue hoffered hrun
  | accept hrun hws hqueue hoffered hrun' =>
    have hunopened := h.accepting hrun
    refine ⟨?_, ?_, ?_, ?_, ?_, ?_⟩
    · rw [hws, hqueue]
      exact h.sends.accept hunopened
    · rw [hws, hqueue]
      exact h.sent
    · intro _
      rw [hqueue]
      exact (h.empty hunopened).1
    · rw [hws]
      exact nofun
    · rw [hrun']
      exact nofun
    · rw [hrun']
      exact nofun
  | call act hopen heq =>
    subst heq
    refine ⟨h.sends, h.sent, h.kept, fun hunopened => ?_, h.accepting, h.failed⟩
    exact absurd (hopen.symm.trans (h.sends.unopened hunopened).1) nofun
  | quiet hws hqueue hoffered hleads =>
    refine ⟨?_, ?_, ?_, ?_, ?_, ?_⟩
    · rw [hws, hqueue]
      exact h.sends
    · rw [hws, hqueue]
      exact h.sent
    · rw [hws, hqueue]
      exact h.kept
    · rw [hws, hoffered, hqueue]
      exact h.unopened
    · rw [hws]
      exact fun hrun => h.accepting (hleads.eq hrun (.inl rfl))
    · rw [hws]
      exact fun hrun => h.failed (hleads.eq hrun (.inr rfl))

theorem inv_of_reachable (h : (websocketSession entry).Reachable s) : s.Inv := by
  refine h.invariant ?_ fun s event s' hinv _ hstep => hinv.step hstep
  rintro s rfl
  exact Inv.init

end WebsocketSession

/-- **What the peer is sent.** In every state that any interleaving of the callers, the performer, `run`
and the stream reaches, the frames on the wire are those of the first calls that were accepted, in the
order of their pushes, each with its own data and type, and behind them perhaps the answer to a close
frame of the peer. Nothing follows a close frame, and the stream is not open behind one. While the stream
is usable every accepted call has been sent, waits, or is the one whose action stands: that one is being
sent, or is a ping that has thrown because it is too long. No call is accepted before the handshake, and an
action is started only while no operation of another is outstanding. -/
theorem websocket_session_sends {entry : WsHandlerEntry} {s : WebsocketSession}
    (h : (websocketSession entry).Reachable s) :
    (∃ sent reply, s.ws.frames = sent.map WsAction.frame ++ reply ∧ sent <+: s.queue.accepted ∧
      (reply = [] ∨ reply = [.closeReply] ∧ s.ws.usable = false) ∧
      (∀ front back, sent = front ++ .close :: back →
        back = [] ∧ reply = [] ∧ s.ws.usable = false) ∧
      (s.ws.usable = true → s.queue.accepted = sent ++ s.ws.action.toList ++ s.queue.que)) ∧
    (s.ws.opened = false → s.queue.accepted = [] ∧ s.ws.frames = []) ∧
    (∀ i s', (websocketSession entry).step s (.perform i) = some s' →
      s'.queue.started ≠ s.queue.started → s.ws.action = none) := by
  have hinv := WebsocketSession.inv_of_reachable h
  refine ⟨?_, ?_, ?_⟩
  · obtain ⟨reply, hframes, hreply, hclose⟩ := hinv.sends.wire
    exact ⟨s.ws.sent, reply, hframes, hinv.sent, hreply, hclose, hinv.accepted⟩
  · intro hunopened
    exact ⟨(hinv.unopened hunopened).2.2, (hinv.sends.wire_of_unopened hunopened).2⟩
  · intro i s' hstep hstarted
    obtain ⟨queue, hqueue, rfl⟩ := Option.map_eq_some_iff.1 hstep
    cases hinv.sends.inv.starts hqueue with
    | began act _ _ hidle _ => exact hinv.sends.idle hidle
    | quiet hsame => exact absurd hsame hstarted

/-- A text and a binary message and a close, called before the first of them is sent. -/
theorem websocket_session_sends_three :
    ∃ (entry : WsHandlerEntry) (s : WebsocketSession), (websocketSession entry).Reachable s ∧
      s.ws.frames = [.message (bytes "a") false, .message (bytes "b") true, .close (bytes "normal")] ∧
      ∃ sent reply, s.ws.frames = sent.map WsAction.frame ++ reply ∧ sent <+: s.queue.accepted := by
  let entry : WsHandlerEntry :=
    { openHandler := .returns, messageHandler := fun _ => .returns, closeHandler := .returns }
  obtain ⟨s, hrun, hframes⟩ : ∃ s, (websocketSession entry).run {}
      [.run .accepted, .call (.message (bytes "a") false), .call (.message (bytes "b") true), .check 0,
        .push 0, .call .close, .perform 0, .check 0, .push 0, .check 0, .push 0, .stream .written,
        .ended 0, .perform 0, .stream .written, .ended 0, .perform 0, .stream .written] = some s ∧
      s.ws.frames = [.message (bytes "a") false, .message (bytes "b") true, .close (bytes "normal")] :=
    ⟨_, rfl, rfl⟩
  have hreachable := Machine.Reachable.run (.init rfl) hrun
  obtain ⟨⟨sent, reply, hsent, hprefix, -⟩, -⟩ := websocket_session_sends hreachable
  exact ⟨entry, s, hreachable, hframes, sent, reply, hsent, hprefix⟩

namespace WebsocketSession

variable {entry : WsHandlerEntry} {s s' : WebsocketSession}

/-! ## A ping that is too long -/

/-- While an action stands that has thrown, none is started and none is sent. -/
theorem Inv.step_stuck (h : s.Inv) {act : WsAction} (hact : s.ws.action = some act) (hfits : ¬ act.Fits)
    {event : SessionEvent} (hstep : (websocketSession entry).step s event = some s') :
    s'.queue.started = s.queue.started ∧ s'.ws.sent = s.ws.sent := by
  cases sending_of_step hstep with
  | queue event hqueue hws hended =>
    obtain ⟨binary, action, hbegin⟩ := @WsStream.begin_eq s.queue s'.queue s.ws
    have hsent : s'.ws.sent = s.ws.sent := by rw [hws, hbegin]
    refine ⟨?_, hsent⟩
    cases h.sends.inv.starts hqueue with
    | began act' _ _ hidle _ =>
      rw [h.sends.idle hidle] at hact
      cases hact
    | ended hstarted => exact hstarted
    | quiet hstarted => exact hstarted
  | stream event hws hqueue =>
    obtain ⟨-, -, hsent⟩ := WsStream.sent_of_step hws
    refine ⟨by rw [hqueue], hsent.resolve_right ?_⟩
    rintro ⟨act', hact', hfits', -⟩
    rw [hact] at hact'
    cases hact'
    exact hfits hfits'
  | accept _ hws hqueue =>
    rw [hws, hqueue]
    exact ⟨rfl, rfl⟩
  | call act' _ heq =>
    rw [heq]
    exact ⟨rfl, rfl⟩
  | quiet hws hqueue =>
    rw [hws, hqueue]
    exact ⟨rfl, rfl⟩

/-- The frames of the calls are those that are not an answer to the peer. -/
theorem Inv.frames_filter (h : s.Inv) :
    s.ws.frames.filter (· ≠ .closeReply) = s.ws.sent.map WsAction.frame := by
  have hall : (s.ws.sent.map WsAction.frame).filter (· ≠ .closeReply) = s.ws.sent.map WsAction.frame := by
    refine List.filter_eq_self.2 fun frame hframe => ?_
    obtain ⟨act, -, rfl⟩ := List.mem_map.1 hframe
    cases act <;> simp [WsAction.frame]
  rcases h.sends.frames with hframes | ⟨hframes, -⟩
  · rw [hframes, hall]
  · rw [hframes, List.filter_append, hall]
    simp

end WebsocketSession

/-- **A ping of more than 125 bytes ends all sending.** Once its action has been started, no other action
ever is, and no frame of any call is put out any more, whatever happens; nothing but the close frame of
the peer is still answered. -/
theorem websocket_session_stuck {entry : WsHandlerEntry} {s s' : WebsocketSession}
    (h : (websocketSession entry).Reachable s) {msg : Bytes} (hping : .ping msg ∈ s.queue.started)
    (hlong : 125 < msg.length) {events : List SessionEvent}
    (hrun : (websocketSession entry).run s events = some s') :
    s'.queue.started = s.queue.started ∧
      s'.ws.frames.filter (· ≠ .closeReply) = s.ws.frames.filter (· ≠ .closeReply) := by
  have hfits : ¬ (WsAction.ping msg).Fits := Nat.not_le.2 hlong
  induction events generalizing s with
  | nil =>
    cases hrun
    exact ⟨rfl, rfl⟩
  | cons event events ih =>
    obtain ⟨s₁, hstep, hrest⟩ := Option.bind_eq_some_iff.1 hrun
    have hinv := WebsocketSession.inv_of_reachable h
    have hreachable : (websocketSession entry).Reachable s₁ := .step h trivial hstep
    obtain ⟨hstarted, hsent⟩ := hinv.step_stuck (hinv.sends.stuck _ hping hfits) hfits hstep
    obtain ⟨hstarted', hframes⟩ := ih hreachable (hstarted ▸ hping) hrest
    refine ⟨hstarted'.trans hstarted, hframes.trans ?_⟩
    rw [(WebsocketSession.inv_of_reachable hreachable).frames_filter, hinv.frames_filter, hsent]

/-- A message that is called behind a ping that is too long: the stream stays open, and the message
waits. -/
theorem websocket_session_stuck_ping :
    ∃ (entry : WsHandlerEntry) (s s' : WebsocketSession), (websocketSession entry).Reachable s ∧
      s'.ws.isOpen = true ∧ s'.queue.que = [.message (bytes "a") false] ∧
      s'.queue.started = s.queue.started ∧
      s'.ws.frames.filter (· ≠ .closeReply) = s.ws.frames.filter (· ≠ .closeReply) := by
  let entry : WsHandlerEntry :=
    { openHandler := .returns, messageHandler := fun _ => .returns, closeHandler := .returns }
  obtain ⟨msg, hlong⟩ : ∃ msg : Bytes, 125 < msg.length := ⟨List.replicate 126 0, by simp⟩
  obtain ⟨s, s', hrun, hping, hrest, hopen, hque⟩ : ∃ s s', (websocketSession entry).run {}
      [.run .accepted, .call (.ping msg), .check 0, .push 0, .perform 0] = some s ∧
      s.queue.started = [.ping msg] ∧
      (websocketSession entry).run s
        [.call (.message (bytes "a") false), .check 0, .push 0] = some s' ∧
      s'.ws.isOpen = true ∧ s'.queue.que = [.message (bytes "a") false] :=
    ⟨_, _, rfl, rfl, rfl, rfl, rfl⟩
  have hreachable := Machine.Reachable.run (.init rfl) hrun
  exact ⟨entry, s, s', hreachable, hopen, hque,
    websocket_session_stuck hreachable (hping ▸ List.mem_singleton_self _) hlong hrest⟩

/-! ## What is called -/

/-- The loop in front of the messages behind those that have been handled. -/
theorem WebsocketConn.readLoop_append {entry : WsHandlerEntry} {conn : WebsocketConn} {n : Nat}
    (hbuffer : conn.buffer = []) {handled : List WsMessage}
    (hcaught : ∀ i < handled.length, entry.messageHandler (n + i) ≠ .throwsOther)
    (messages : List WsMessage) :
    readLoop entry n conn (handled ++ messages) =
      readLoop entry (n + handled.length)
        { buffer := [], calls := conn.calls ++ handled.map WsMessage.call } messages := by
  induction handled generalizing n conn with
  | nil =>
    obtain ⟨buffer, calls⟩ := conn
    cases hbuffer
    simp
  | cons message handled ih =>
    have hfirst : entry.messageHandler n ≠ .throwsOther := hcaught 0 (by simp)
    have hrest : ∀ i < handled.length, entry.messageHandler (n + 1 + i) ≠ .throwsOther := by
      intro i hi
      have hnext := hcaught (i + 1) (by simpa using hi)
      rwa [Nat.add_comm i 1, ← Nat.add_assoc] at hnext
    have hloop := @ih { buffer := [], calls := conn.calls ++ [message.call] } (n + 1) rfl hrest
    rw [List.cons_append, readLoop_cons hbuffer]
    cases houtcome : entry.messageHandler n with
    | throwsOther => exact absurd houtcome hfirst
    | returns | throws => simpa [Nat.add_assoc, Nat.add_comm 1] using hloop

namespace WebsocketSession

variable {entry : WsHandlerEntry} {s s' : WebsocketSession}

/-- `run` has read the messages, and has caught what the first `n` calls of the message handler have
thrown. -/
structure Looping (entry : WsHandlerEntry) (s : WebsocketSession) (n : Nat) : Prop where
  opened : entry.openHandler = .returns
  caught : ∀ i < n, entry.messageHandler i ≠ .throwsOther
  calls : s.conn.calls = .openHandler :: s.messages.map WsMessage.call

/-- What `run` has called when it stands at a place. -/
def Called (entry : WsHandlerEntry) (s : WebsocketSession) : WsRun → Prop
  | .accepting => s.conn = {} ∧ s.messages = []
  | .opening => s.conn = { calls := [.openHandler] } ∧ s.messages = []
  | .reading n => s.Looping entry n ∧ s.messages.length = n ∧ s.conn.buffer = []
  | .handling n message =>
    s.Looping entry n ∧ s.conn.buffer = message.data ∧
      ∃ handled, s.messages = handled ++ [message] ∧ handled.length = n
  | .failed | .cleared | .requested | .waiting => s.Looping entry s.messages.length
  | .closing =>
    entry.openHandler = .returns ∧
      (∀ i < s.messages.length, entry.messageHandler i ≠ .throwsOther) ∧
      s.conn.calls = (.openHandler :: s.messages.map WsMessage.call) ++ [.closeHandler]
  | .left how =>
    ∃ accepted, s.conn.calls = (WebsocketConn.run (some entry) accepted s.messages).1.calls ∧
      how = (WebsocketConn.run (some entry) accepted s.messages).2

/-- What is called rests on no more than the calls and the messages. -/
theorem Called.congr {run : WsRun} (h : s.Called entry run) (hmessages : s'.messages = s.messages)
    (hconn : s'.conn = s.conn) : s'.Called entry run := by
  have hlooping : ∀ n, s.Looping entry n → s'.Looping entry n := by
    intro n h
    exact ⟨h.opened, h.caught, by rw [hconn, hmessages]; exact h.calls⟩
  cases run with
  | accepting | opening | closing | left =>
    simp only [Called, hmessages, hconn] at h ⊢
    exact h
  | reading n | handling n message =>
    simp only [Called, hmessages, hconn] at h ⊢
    exact h.imp_left (hlooping n)
  | failed | cleared | requested | waiting =>
    simp only [Called, hmessages] at h ⊢
    exact hlooping _ h

/-- A step of the queue calls nothing. -/
theorem Called.queueStep {event : QueueEvent WsAction} (hstep : s.queueStep event = some s')
    (h : s.Called entry s.run) : s'.Called entry s'.run := by
  obtain ⟨queue, -, rfl⟩ := Option.map_eq_some_iff.1 hstep
  exact h.congr rfl rfl

/-- Behind the failed read the close handler is called. -/
theorem Looping.closing (h : s.Looping entry s.messages.length) :
    s.callClose.Called entry s.callClose.run := by
  refine ⟨h.opened, h.caught, ?_⟩
  rw [callClose, WebsocketConn.call, h.calls]

/-- The run that has come so far with the messages that are handled. -/
theorem run_of_caught (hopened : entry.openHandler = .returns) {handled : List WsMessage}
    (hcaught : ∀ i < handled.length, entry.messageHandler i ≠ .throwsOther)
    (messages : List WsMessage) :
    WebsocketConn.run (some entry) true (handled ++ messages) =
      WebsocketConn.readLoop entry handled.length
        { buffer := [], calls := .openHandler :: handled.map WsMessage.call } messages := by
  have hloop := @WebsocketConn.readLoop_append entry { calls := [.openHandler] } 0 rfl handled
    (by simpa using hcaught) messages
  rw [WebsocketConn.run_of_opens ⟨rfl, entry, rfl, hopened⟩, hloop]
  simp

/-- The end of a handler: `run` goes on, or is left as the sequence of the messages says. -/
theorem Called.returned (h : s.Called entry s.run) (hstep : s.runStep entry .returned = some s') :
    s'.Called entry s'.run := by
  simp only [WebsocketSession.runStep] at hstep
  split at hstep
  · next hrun =>
    rw [hrun] at h
    obtain ⟨hconn, hmessages⟩ := h
    cases houtcome : entry.openHandler with
    | returns =>
      rw [houtcome] at hstep
      cases hstep
      exact ⟨⟨houtcome, fun i hi => absurd hi (Nat.not_lt_zero i), by simp [hconn, hmessages]⟩,
        by simp [hmessages], by simp [hconn]⟩
    | throws | throwsOther =>
      rw [houtcome] at hstep
      cases hstep
      refine ⟨true, ?_, ?_⟩ <;> simp [WebsocketConn.run, houtcome, WebsocketConn.call, hconn]
  · next n message hrun =>
    rw [hrun] at h
    obtain ⟨hlooping, hbuffer, handled, hmessages, hlength⟩ := h
    cases houtcome : entry.messageHandler n with
    | throwsOther =>
      rw [houtcome] at hstep
      cases hstep
      have hcalled := run_of_caught hlooping.opened (hlength ▸ hlooping.caught) [message]
      rw [WebsocketConn.readLoop_cons rfl, hlength, houtcome] at hcalled
      refine ⟨true, ?_, ?_⟩
      · rw [hmessages, hcalled, hlooping.calls, hmessages]
        simp
      · rw [hmessages, hcalled]
    | returns | throws =>
      rw [houtcome] at hstep
      cases hstep
      refine ⟨⟨hlooping.opened, ?_, hlooping.calls⟩, by simp [hmessages, hlength], ?_⟩
      · intro i hi
        rcases Nat.lt_succ_iff_lt_or_eq.1 hi with hi | rfl
        · exact hlooping.caught i hi
        · rw [houtcome]
          intro hthrows
          cases hthrows
      · simp [WebsocketConn.consume, hbuffer]
  · next hrun =>
    rw [hrun] at h
    obtain ⟨hopened, hcaught, hcalls⟩ := h
    cases hstep
    have hcalled := run_of_caught hopened hcaught []
    rw [List.append_nil] at hcalled
    refine ⟨true, ?_, ?_⟩
    · rw [hcalled, hcalls]
      rfl
    · rw [hcalled]
      rfl
  · cases hstep

/-- Every step of `run` keeps what has been called. -/
theorem Called.runStep (h : s.Called entry s.run) {event : RunEvent}
    (hstep : s.runStep entry event = some s') : s'.Called entry s'.run := by
  cases event with
  | accepted =>
    obtain ⟨hrun, heq⟩ := Option.ite_none_right_eq_some.1 hstep
    rw [hrun] at h
    obtain ⟨hconn, hmessages⟩ := h
    cases heq
    exact ⟨by rw [hconn]; rfl, hmessages⟩
  | refused =>
    obtain ⟨hrun, heq⟩ := Option.ite_none_right_eq_some.1 hstep
    rw [hrun] at h
    obtain ⟨hconn, hmessages⟩ := h
    cases heq
    exact ⟨false, by rw [hconn]; rfl, rfl⟩
  | read message =>
    simp only [WebsocketSession.runStep] at hstep
    split at hstep
    · next n hrun =>
      rw [hrun] at h
      obtain ⟨hlooping, hlength, hbuffer⟩ := h
      cases hstep
      refine ⟨⟨hlooping.opened, hlooping.caught, ?_⟩, ?_, s.messages, rfl, hlength⟩
      · simp [WebsocketConn.call, WebsocketConn.read, hbuffer, hlooping.calls, WsMessage.call]
      · simp [WebsocketConn.call, WebsocketConn.read, hbuffer]
    · cases hstep
  | readFailed =>
    simp only [WebsocketSession.runStep] at hstep
    split at hstep
    · next n hrun =>
      rw [hrun] at h
      obtain ⟨hlooping, hlength, -⟩ := h
      cases hstep
      exact ⟨hlooping.opened, hlength ▸ hlooping.caught, hlooping.calls⟩
    · cases hstep
  | returned => exact h.returned hstep
  | clear =>
    obtain ⟨hrun, hqueue⟩ := Option.ite_none_right_eq_some.1 hstep
    rw [hrun] at h
    exact Called.queueStep hqueue (h.congr rfl rfl)
  | shutdown =>
    obtain ⟨hrun, hqueue⟩ := Option.ite_none_right_eq_some.1 hstep
    rw [hrun] at h
    split at hqueue
    · exact Called.queueStep hqueue (Looping.closing h)
    · exact Called.queueStep hqueue (h.congr rfl rfl)
  | wait =>
    obtain ⟨hrun, hqueue⟩ := Option.ite_none_right_eq_some.1 hstep
    rw [hrun] at h
    exact Called.queueStep hqueue (h.congr rfl rfl)
  | waited =>
    obtain ⟨hrun, hqueue⟩ := Option.ite_none_right_eq_some.1 hstep
    rw [hrun] at h
    exact Called.queueStep hqueue (Looping.closing h)

theorem called_of_reachable (h : (websocketSession entry).Reachable s) : s.Called entry s.run := by
  refine h.invariant (I := fun s => s.Called entry s.run) ?_ fun s event s' hcalled _ hstep => ?_
  · rintro s rfl
    exact ⟨rfl, rfl⟩
  · cases event with
    | call act =>
      cases hstep
      split <;> exact hcalled.congr rfl rfl
    | check i =>
      obtain ⟨act, -, hstep⟩ := Option.bind_eq_some_iff.1 hstep
      exact Called.queueStep hstep (hcalled.congr rfl rfl)
    | push i | perform i => exact Called.queueStep hstep hcalled
    | ended i =>
      obtain ⟨-, hstep⟩ := Option.ite_none_right_eq_some.1 hstep
      exact Called.queueStep hstep hcalled
    | stream event =>
      obtain ⟨ws, -, rfl⟩ := Option.map_eq_some_iff.1 hstep
      exact hcalled.congr rfl rfl
    | run event => exact hcalled.runStep hstep

/-- A run that has come to its loop calls at least what has been called. -/
theorem Looping.calls_behind {n : Nat} (h : s.Looping entry n) (hcaught : ∀ i < s.messages.length,
      entry.messageHandler i ≠ .throwsOther) :
    s.conn.calls <+: (WebsocketConn.run (some entry) true s.messages).1.calls := by
  have hcalled := run_of_caught h.opened hcaught []
  rw [List.append_nil] at hcalled
  rw [hcalled, h.calls]
  exact List.prefix_append _ _

end WebsocketSession

/-- **The handlers are called as by `run` alone.** However the callers, the performer and the stream
interleave with it, `run` calls the handlers for the messages that are read as the sequential function
does for them: when it is left, exactly these calls have been made and it is left as the function says;
until then they are the first of these calls. -/
theorem websocket_session_calls {entry : WsHandlerEntry} {s : WebsocketSession}
    (h : (websocketSession entry).Reachable s) :
    (∀ how, s.run = .left how → ∃ accepted,
      s.conn.calls = (WebsocketConn.run (some entry) accepted s.messages).1.calls ∧
        how = (WebsocketConn.run (some entry) accepted s.messages).2) ∧
    ((∀ how, s.run ≠ .left how) →
      s.conn.calls <+: (WebsocketConn.run (some entry) true s.messages).1.calls) := by
  have hcalled := WebsocketSession.called_of_reachable h
  constructor
  · intro how hrun
    rw [hrun] at hcalled
    exact hcalled
  · intro hleft
    cases hrun : s.run with
    | left how => exact absurd hrun (hleft how)
    | accepting =>
      rw [hrun] at hcalled
      rw [hcalled.1]
      exact List.nil_prefix
    | opening =>
      rw [hrun] at hcalled
      rw [hcalled.1, hcalled.2, WebsocketConn.run]
      cases entry.openHandler <;> simp [WebsocketConn.call, WebsocketConn.readLoop]
    | reading n =>
      rw [hrun] at hcalled
      exact hcalled.1.calls_behind (hcalled.2.1 ▸ hcalled.1.caught)
    | handling n message =>
      rw [hrun] at hcalled
      obtain ⟨hlooping, -, handled, hmessages, hlength⟩ := hcalled
      have hcalls := WebsocketSession.run_of_caught hlooping.opened (hlength ▸ hlooping.caught)
        [message]
      rw [WebsocketConn.readLoop_cons rfl] at hcalls
      rw [hlooping.calls, hmessages, hcalls]
      cases entry.messageHandler handled.length <;>
        simp [WebsocketConn.readLoop, WebsocketConn.call]
    | failed | cleared | requested | waiting =>
      rw [hrun] at hcalled
      exact WebsocketSession.Looping.calls_behind hcalled hcalled.caught
    | closing =>
      rw [hrun] at hcalled
      obtain ⟨hopened, hcaught, hcalls⟩ := hcalled
      have hrest := WebsocketSession.run_of_caught hopened hcaught []
      rw [List.append_nil] at hrest
      rw [hcalls, hrest]
      exact List.prefix_rfl

/-- A connection that reads a message while another is being sent; its message handler throws something
that `run` does not catch. -/
theorem websocket_session_calls_one :
    ∃ (entry : WsHandlerEntry) (s : WebsocketSession) (accepted : Bool),
      (websocketSession entry).Reachable s ∧ s.ws.frames = [.message (bytes "a") false] ∧
      s.conn.calls = [.openHandler, .messageHandler (bytes "b") true] ∧
      s.conn.calls = (WebsocketConn.run (some entry) accepted s.messages).1.calls ∧
      .throwsOther = (WebsocketConn.run (some entry) accepted s.messages).2 := by
  let entry : WsHandlerEntry :=
    { openHandler := .returns, messageHandler := fun _ => .throwsOther, closeHandler := .returns }
  obtain ⟨s, hrun, hleft, hframes, hcalls⟩ : ∃ s, (websocketSession entry).run {}
      [.run .accepted, .call (.message (bytes "a") false), .run .returned, .check 0, .push 0,
        .perform 0, .run (.read ⟨bytes "b", true⟩), .stream .written, .run .returned] = some s ∧
      s.run = .left .throwsOther ∧ s.ws.frames = [.message (bytes "a") false] ∧
      s.conn.calls = [.openHandler, .messageHandler (bytes "b") true] := ⟨_, rfl, rfl, rfl, rfl⟩
  have hreachable := Machine.Reachable.run (.init rfl) hrun
  obtain ⟨accepted, hsame⟩ := (websocket_session_calls hreachable).1 _ hleft
  exact ⟨entry, s, accepted, hreachable, hframes, hcalls, hsame⟩

end Httplib
