import Httplib.Lib.Outbox
import Httplib.Util.ActionQueue
import Httplib.Util.Misc

/-!
# Writing to a WebSocket stream

`websocket_stream` (`lib/stream/websocket_stream.hpp:11`) as the actions of an `action_queue` use it:
an action sets the type of the message, and starts one operation, which puts out a frame or fails. The
stream is usable between its handshake and the first of a close, a failure and the end of its socket.
`WsStream.Sends` is what holds of a queue and a stream at every moment.
-/

namespace Httplib

/-- The actions of `send_message`, `send_ping` and `close`. -/
inductive WsAction where
  | message (msg : Bytes) (binary : Bool)
  | ping (msg : Bytes)
  | close
deriving DecidableEq

/-- A frame on the wire, where a message is one frame: the pieces that `auto_fragment` cuts it into are not
told apart. The pongs and the pings of the stream itself are not recorded. -/
inductive WsFrame where
  | message (data : Bytes) (binary : Bool)
  | ping (data : Bytes)
  | close (reason : Bytes)
  /-- The answer to the peer's close frame, or the stream's own close frame to a peer that breaks the
  protocol. -/
  | closeReply
deriving DecidableEq

namespace WsAction

/-- The frame that an action is to put out. -/
def frame : WsAction → WsFrame
  | message msg binary => .message msg binary
  | ping msg => .ping msg
  | close => .close (bytes "normal")

/-- `ping_data` holds at most 125 bytes; its constructor throws for more. -/
def Fits : WsAction → Prop
  | ping msg => msg.length ≤ 125
  | _ => True

instance : DecidablePred Fits
  | ping msg => inferInstanceAs (Decidable (msg.length ≤ 125))
  | message _ _ | close => inferInstanceAs (Decidable True)

end WsAction

/-- A `websocket_stream`, with what it has put out. -/
structure WsStream where
  /-- The handshake has succeeded. -/
  opened : Bool := false
  isOpen : Bool := false
  /-- The socket has not been closed. -/
  socket : Bool := true
  /-- The type that `binary` and `text` have set. -/
  binary : Bool := false
  /-- The action that has been started, until its operation puts out its frame or fails. One that throws
  in front of its operation stays here. -/
  action : Option WsAction := none
  frames : List WsFrame := []
  /-- The actions that have put out their frames. -/
  sent : List WsAction := []

/-- What happens to a stream by itself or by its peer. -/
inductive StreamEvent where
  /-- The operation of the action puts out its frame. -/
  | written
  /-- The operation of the action fails. -/
  | failed
  /-- The timer of a close action expires first: the action closes the socket. -/
  | expired
  /-- The stream puts out a close frame by itself: the answer to the one of the peer, or where the peer
  breaks the protocol. -/
  | closed
  /-- The connection is lost. -/
  | lost
deriving DecidableEq

namespace WsStream

/-- The handshake succeeds. -/
def accept (ws : WsStream) : WsStream := { ws with opened := true, isOpen := true }

/-- The first part of an action, up to the start of its operation. -/
def start (ws : WsStream) (act : WsAction) : WsStream :=
  { ws with
    binary :=
      match act with
      | .message _ binary => binary
      | _ => ws.binary
    action := some act }

/-- The frame of an action, as the stream puts it out: its type is the one that is set. -/
def frame (ws : WsStream) : WsAction → WsFrame
  | .message msg _ => .message msg ws.binary
  | act => act.frame

/-- The stream takes frames. -/
def usable (ws : WsStream) : Bool := ws.isOpen && ws.socket

/-- The operation of an action puts out its frame. A stream that has put out a close frame is not open. -/
def put (ws : WsStream) (act : WsAction) : WsStream :=
  { ws with
    action := none
    isOpen := act ≠ .close
    frames := ws.frames ++ [ws.frame act]
    sent := ws.sent ++ [act] }

/-- The stream puts out its own close frame. -/
def reply (ws : WsStream) : WsStream :=
  { ws with isOpen := false, frames := ws.frames ++ [.closeReply] }

/-- The stream after an event, none where the event is not possible. -/
def step (ws : WsStream) : StreamEvent → Option WsStream
  | .written =>
    match ws.action with
    | some act =>
      if ws.usable ∧ act.Fits then some (ws.put act) else none
    | none => none
  | .failed =>
    match ws.action with
    | some act => if act.Fits then some { ws with action := none, isOpen := false } else none
    | none => none
  | .expired =>
    if ws.action = some .close then some { ws with action := none, socket := false } else none
  | .closed =>
    if ws.usable then some ws.reply else none
  | .lost => some { ws with isOpen := false }

/-- The stream is not open yet, usable, or not usable any more. -/
def phase (ws : WsStream) : Outbox.Phase :=
  if ws.opened = false then .before else if ws.usable then .live else .ended

end WsStream

/-! ## What a step of a queue starts -/

namespace ActionQueue

variable {Act : Type} {q q' : ActionQueue Act}

/-- The actions that a step has started. -/
def begun (q q' : ActionQueue Act) : List Act := q'.started.drop q.started.length

/-- A step that starts no action begins nothing. -/
theorem begun_of_eq (h : q'.started = q.started) : q.begun q' = [] := by
  rw [begun, h, List.drop_length]

/-- `Starts q event q'`: what a step does to the actions that are being executed. A performer takes one
only when no other is. -/
inductive Starts (q : ActionQueue Act) : QueueEvent Act → ActionQueue Act → Prop
  | began {i q'} (act : Act) : q.que = act :: q'.que → q'.started = q.started ++ [act] →
      q.executing = [] → q'.executing = [act] → Starts q (.perform i) q'
  | ended {i q'} : q'.started = q.started → Starts q (.ended i) q'
  | quiet {event q'} : q'.started = q.started → q'.executing = q.executing → Starts q event q'

/-- A performer that takes an action is the only one, and was idle. -/
theorem Inv.perform_starts (h : q.Inv) {i : Nat} {cancelled : Bool}
    (hp : q.performers[i]? = some ⟨none, cancelled⟩) :
    q.Starts (.perform i) (q.perform i ⟨none, cancelled⟩) := by
  obtain ⟨rfl, -, hone⟩ := h.only hp
  have hidle : q.executing = [] := by simp [executing, hone]
  have hexit : ({ q with running := false, performers := q.performers.eraseIdx 0 } :
      ActionQueue Act).executing = q.executing := by simp [executing, hone]
  unfold ActionQueue.perform
  split
  · next act que hque _ => exact .began act hque rfl hidle (by simp [executing, hone])
  · dsimp only
    split
    · exact .quiet rfl hexit
    · exact .quiet rfl hexit

/-- Pushing an action leaves the one being executed. -/
@[simp] theorem executing_push (act : Act) : (q.push act).executing = q.executing := by
  unfold ActionQueue.push executing
  split
  · rfl
  · simp

/-- So does a shutdown. -/
@[simp] theorem executing_shutdown (cancelSignal : Bool) :
    (q.shutdown cancelSignal).executing = q.executing := by
  unfold ActionQueue.shutdown executing
  split
  · rfl
  · cases cancelSignal with
    | true => simp [List.filterMap_map]
    | false => rfl

/-- A performer accepts and removes nothing. -/
theorem perform_kept (i : Nat) (performer : Performer Act) :
    (q.perform i performer).accepted = q.accepted ∧ (q.perform i performer).removed = q.removed ∧
      (q.perform i performer).checked = q.checked := by
  unfold ActionQueue.perform
  split
  · exact ⟨rfl, rfl, rfl⟩
  · dsimp only
    split <;> exact ⟨rfl, rfl, rfl⟩

/-- A shutdown touches none of the records of what was started, accepted, removed or checked. -/
theorem shutdown_kept (cancelSignal : Bool) :
    (q.shutdown cancelSignal).started = q.started ∧
      (q.shutdown cancelSignal).accepted = q.accepted ∧
      (q.shutdown cancelSignal).removed = q.removed ∧
      (q.shutdown cancelSignal).checked = q.checked := by
  unfold ActionQueue.shutdown
  split <;> exact ⟨rfl, rfl, rfl, rfl⟩

/-- Nor does the performer that goes to wait. -/
theorem wait_kept : q.wait.started = q.started ∧ q.wait.accepted = q.accepted ∧
    q.wait.removed = q.removed ∧ q.wait.checked = q.checked ∧ q.wait.executing = q.executing := by
  unfold ActionQueue.wait
  split <;> exact ⟨rfl, rfl, rfl, rfl, rfl⟩

/-- What a step starts. -/
theorem Inv.starts (h : q.Inv) {event : QueueEvent Act}
    (hstep : (actionQueue Act).step q event = some q') : q.Starts event q' := by
  cases step_inv hstep with
  | refused | checked | clear | waited => exact .quiet rfl rfl
  | push => exact .quiet rfl (executing_push _)
  | perform hp => exact h.perform_starts hp
  | ended => exact .ended rfl
  | shutdown => exact .quiet (shutdown_kept _).1 (executing_shutdown _)
  | wait => exact .quiet wait_kept.1 wait_kept.2.2.2.2

/-- What is accepted stays so. -/
theorem accepted_prefix {event : QueueEvent Act}
    (hstep : (actionQueue Act).step q event = some q') : q.accepted <+: q'.accepted := by
  cases step_inv hstep with
  | push => exact List.prefix_append _ _
  | perform => rw [(perform_kept _ _).1]
  | shutdown => rw [(shutdown_kept _).2.1]
  | wait => rw [wait_kept.2.1]
  | refused | checked | clear | ended | waited => exact List.prefix_rfl

/-- Only `clear` removes what waits. -/
theorem removed_of_step {event : QueueEvent Act} (hclear : event ≠ .clear)
    (hstep : (actionQueue Act).step q event = some q') : q'.removed = q.removed := by
  cases step_inv hstep with
  | clear => exact absurd rfl hclear
  | perform => exact (perform_kept _ _).2.1
  | shutdown => exact (shutdown_kept _).2.2.1
  | wait => exact wait_kept.2.2.1
  | refused | checked | push | ended | waited => rfl

/-- Nothing is accepted that no call has brought. -/
theorem accepted_of_step {event : QueueEvent Act} (hcheck : ∀ act, event ≠ .check act)
    (hnone : q.checked = []) (hstep : (actionQueue Act).step q event = some q') :
    q'.checked = [] ∧ q'.accepted = q.accepted := by
  cases step_inv hstep with
  | refused | checked => exact absurd rfl (hcheck _)
  | push hact =>
    rw [hnone] at hact
    cases hact
  | perform => exact ⟨(perform_kept _ _).2.2.trans hnone, (perform_kept _ _).1⟩
  | shutdown => exact ⟨(shutdown_kept _).2.2.2.trans hnone, (shutdown_kept _).2.1⟩
  | wait => exact ⟨wait_kept.2.2.2.1.trans hnone, wait_kept.2.1⟩
  | clear | ended | waited => exact ⟨hnone, rfl⟩

/-- What holds of the calls that are made holds of what waits. -/
theorem all_of_step {p : Act → Prop} {event : QueueEvent Act} (hcheck : ∀ act, event = .check act → p act)
    (hall : ∀ act, act ∈ q.checked ∨ act ∈ q.que → p act)
    (hstep : (actionQueue Act).step q event = some q') :
    ∀ act, act ∈ q'.checked ∨ act ∈ q'.que → p act := by
  cases step_inv hstep with
  | refused | ended | waited => exact hall
  | @checked act =>
    rintro act' (hact | hact)
    · rcases List.mem_append.1 hact with hact | hact
      · exact hall act' (.inl hact)
      · cases List.mem_singleton.1 hact
        exact hcheck act rfl
    · exact hall act' (.inr hact)
  | @push i act hact =>
    rintro act' (hact' | hact')
    · exact hall act' (.inl (List.mem_of_mem_eraseIdx hact'))
    · rcases List.mem_append.1 hact' with hact' | hact'
      · exact hall act' (.inr hact')
      · cases List.mem_singleton.1 hact'
        exact hall act (.inl (List.mem_of_getElem? hact))
  | clear => exact fun act hact => hall act (hact.imp_right nofun)
  | @perform i cancelled hp =>
    unfold ActionQueue.perform
    split
    · next act que hque _ =>
      exact fun act' hact => hall act' (hact.imp_right fun hact => hque ▸ List.mem_cons_of_mem _ hact)
    · dsimp only
      split <;> exact hall
  | shutdown =>
    unfold ActionQueue.shutdown
    split <;> exact hall
  | wait =>
    unfold ActionQueue.wait
    split <;> exact hall

end ActionQueue

/-! ## The queue and the stream -/

namespace WsStream

variable {queue queue' : ActionQueue WsAction} {ws ws' : WsStream} {skipped : List WsAction}

/-- The stream after a step of the queue: the actions that it has started are. -/
def begin (ws : WsStream) (queue queue' : ActionQueue WsAction) : WsStream :=
  (queue.begun queue').foldl start ws

/-- What holds of a queue and of the stream that its actions write to. The actions that the queue has
started before the stream was open are skipped. -/
structure Sends (queue : ActionQueue WsAction) (ws : WsStream) (skipped : List WsAction) : Prop where
  inv : queue.Inv
  action : ∀ act ∈ ws.action, queue.executing = [act]
  outbox : Outbox (· = .close) ws.phase queue.started ws.action skipped ws.sent
  unopened : ws.opened = false → ws.isOpen = false ∧ ws.socket = true
  binary : ∀ msg binary, ws.action = some (.message msg binary) → ws.binary = binary
  fits : ∀ act ∈ ws.sent, act.Fits
  stuck : ∀ act ∈ queue.started, ¬ act.Fits → ws.action = some act
  frames : ws.frames = ws.sent.map WsAction.frame ∨
    (ws.frames = ws.sent.map WsAction.frame ++ [.closeReply] ∧ .close ∉ ws.sent ∧ ws.phase = .ended)

/-- Before the first call nothing has been sent and nothing is due. -/
theorem sends_empty : Sends {} {} [] where
  inv := ActionQueue.inv_empty
  action := nofun
  outbox := .nil
  unopened _ := ⟨rfl, rfl⟩
  binary := nofun
  fits := nofun
  stuck := nofun
  frames := .inl rfl

/-- The stream is usable exactly in its live phase. -/
theorem Sends.usable_iff (h : Sends queue ws skipped) : ws.usable = true ↔ ws.phase = .live := by
  unfold phase
  split
  · next hunopened => simp [usable, h.unopened hunopened]
  · split
    · next husable => simp [husable]
    · next hover => simp [hover]

/-- Once opened, a stream is live or has ended. -/
theorem phase_of_opened (hopened : ws.opened = true) :
    ws.phase = if ws.usable then .live else .ended := by
  rw [phase, if_neg (by simp [hopened])]

/-- The frame that the stream puts out is the one that the action is to. -/
theorem Sends.frame_eq (h : Sends queue ws skipped) {act : WsAction} (hact : ws.action = some act) :
    ws.frame act = act.frame := by
  cases act with
  | message msg binary => rw [frame, h.binary msg binary hact, WsAction.frame]
  | ping | close => rfl

/-- No operation is outstanding when the queue starts an action. -/
theorem Sends.idle (h : Sends queue ws skipped) (hidle : queue.executing = []) : ws.action = none := by
  cases hact : ws.action with
  | none => rfl
  | some act =>
    have hexecuting := h.action act hact
    rw [hidle] at hexecuting
    cases hexecuting

/-- Starting an action does not change the phase. -/
@[simp] theorem phase_start (act : WsAction) : (ws.start act).phase = ws.phase := rfl

/-- An action that fits does not stand in the way. -/
theorem Sends.stuck_append (h : Sends queue ws skipped) {act : WsAction}
    (hstarted : queue'.started = queue.started ++ [act]) (hfits : act.Fits) :
    ∀ act' ∈ queue'.started, ¬ act'.Fits → ws.action = some act' := by
  intro act' hact hnot
  rw [hstarted] at hact
  rcases List.mem_append.1 hact with hact | hact
  · exact h.stuck act' hact hnot
  · cases List.mem_singleton.1 hact
    exact absurd hfits hnot

/-- The queue starts an action, and the action its operation. -/
theorem Sends.start (h : Sends queue ws skipped) {act : WsAction} (hinv : queue'.Inv)
    (hstarted : queue'.started = queue.started ++ [act]) (hidle : queue.executing = [])
    (hexecuting : queue'.executing = [act]) (hopened : ws.opened = true) :
    Sends queue' (ws.start act) skipped := by
  have houtbox := h.outbox
  rw [h.idle hidle] at houtbox
  refine ⟨hinv, ?_, ?_, ?_, ?_, h.fits, ?_, h.frames⟩
  · intro act' hact
    cases hact
    exact hexecuting
  · rw [phase_start, hstarted]
    show Outbox _ _ _ (some act) _ ws.sent
    rw [phase_of_opened hopened] at houtbox ⊢
    split at houtbox
    · next husable => rw [if_pos husable]; exact houtbox.start act
    · next husable => rw [if_neg husable]; exact houtbox.late act
  · intro hunopened
    exact absurd (hopened.symm.trans hunopened) nofun
  · intro msg binary hact
    cases hact
    rfl
  · intro act' hact hfits
    rw [hstarted] at hact
    rcases List.mem_append.1 hact with hact | hact
    · have hstuck := h.stuck act' hact hfits
      rw [h.idle hidle] at hstuck
      cases hstuck
    · cases List.mem_singleton.1 hact
      rfl

/-- A step of the queue that starts no action. -/
theorem Sends.quiet (h : Sends queue ws skipped) (hinv : queue'.Inv)
    (hstarted : queue'.started = queue.started)
    (haction : ∀ act ∈ ws.action, queue'.executing = [act]) : Sends queue' ws skipped :=
  ⟨hinv, haction, hstarted ▸ h.outbox, h.unopened, h.binary, h.fits, hstarted ▸ h.stuck, h.frames⟩

/-- The queue starts an action that finds the stream not opened yet, and does nothing. -/
theorem Sends.skip (h : Sends queue ws skipped) {act : WsAction} (hinv : queue'.Inv)
    (hstarted : queue'.started = queue.started ++ [act]) (hidle : queue.executing = [])
    (hunopened : ws.opened = false) (hfits : act.Fits) :
    Sends queue' ws (skipped ++ [act]) := by
  have hnone := h.idle hidle
  have hbefore : ws.phase = .before := if_pos hunopened
  have houtbox := h.outbox
  rw [hbefore, hnone] at houtbox
  obtain ⟨-, hsent⟩ := houtbox.of_before
  rw [hsent] at houtbox
  refine ⟨hinv, ?_, ?_, h.unopened, h.binary, h.fits, ?_, h.frames⟩
  · rw [hnone]
    exact nofun
  · rw [hbefore, hnone, hsent, hstarted]
    exact houtbox.skip act
  · exact h.stuck_append hstarted hfits

/-- The queue starts an action that finds the stream closed, and does nothing. -/
theorem Sends.drop (h : Sends queue ws skipped) {act : WsAction} (hinv : queue'.Inv)
    (hstarted : queue'.started = queue.started ++ [act]) (hidle : queue.executing = [])
    (hopened : ws.opened = true) (hclosed : ws.isOpen = false) (hfits : act.Fits) :
    Sends queue' ws skipped := by
  have hnone := h.idle hidle
  have hover : ws.phase = .ended := by
    rw [phase_of_opened hopened, usable, hclosed]
    rfl
  have houtbox := h.outbox
  rw [hover, hnone] at houtbox
  refine ⟨hinv, ?_, ?_, h.unopened, h.binary, h.fits, ?_, h.frames⟩
  · rw [hnone]
    exact nofun
  · rw [hover, hnone, hstarted]
    exact (houtbox.late act).fail
  · exact h.stuck_append hstarted hfits

/-- The queue takes a step, and the action that it starts does; the step ends an action only behind its
operation. -/
theorem Sends.queue_step (h : Sends queue ws skipped) {event : QueueEvent WsAction}
    (hstep : (actionQueue WsAction).step queue event = some queue')
    (hended : ∀ i, event = .ended i → ws.action = none)
    (hopened : ws.opened = false → queue.que = []) :
    Sends queue' (ws.begin queue queue') skipped := by
  have hinv := h.inv.step hstep
  cases h.inv.starts hstep with
  | began act hque hstarted hidle hexecuting =>
    have hbegun : queue.begun queue' = [act] := by simp [ActionQueue.begun, hstarted]
    rw [begin, hbegun]
    refine h.start hinv hstarted hidle hexecuting (Bool.not_eq_false _ ▸ fun hunopened => ?_)
    rw [hopened hunopened] at hque
    cases hque
  | ended hstarted =>
    rw [begin, ActionQueue.begun_of_eq hstarted]
    refine h.quiet hinv hstarted fun act hact => ?_
    rw [hended _ rfl] at hact
    cases hact
  | quiet hstarted hexecuting =>
    rw [begin, ActionQueue.begun_of_eq hstarted]
    exact h.quiet hinv hstarted fun act hact => hexecuting.trans (h.action act hact)

/-- The handshake succeeds. -/
theorem Sends.accept (h : Sends queue ws skipped) (hunopened : ws.opened = false) :
    Sends queue ws.accept skipped := by
  obtain ⟨-, hsocket⟩ := h.unopened hunopened
  have hbefore : ws.phase = .before := by simp [phase, hunopened]
  have hlive : ws.accept.phase = .live := by simp [phase, WsStream.accept, usable, hsocket]
  have houtbox := h.outbox
  rw [hbefore] at houtbox
  obtain ⟨hnone, hsent⟩ := houtbox.of_before
  refine ⟨h.inv, h.action, ?_, nofun, h.binary, h.fits, h.stuck, ?_⟩
  · rw [hlive]
    show Outbox _ _ _ ws.action _ ws.sent
    rw [hnone, hsent] at houtbox ⊢
    exact houtbox.opened
  · refine h.frames.imp_right fun hreplied => ?_
    rw [hbefore] at hreplied
    cases hreplied.2.2

/-- The stream is over, and its operation goes on or fails. -/
theorem Sends.ended (h : Sends queue ws skipped) (hopened : ws.opened = true)
    (hsame : ws'.opened = ws.opened ∧ ws'.sent = ws.sent ∧ ws'.frames = ws.frames)
    (haction : ws'.action = ws.action ∧ ws'.binary = ws.binary ∨
      ws'.action = none ∧ ∀ act ∈ ws.action, act.Fits)
    (hover : ws'.usable = false) : Sends queue ws' skipped := by
  obtain ⟨hopened', hsent, hframes⟩ := hsame
  have hphase : ws'.phase = .ended := by
    rw [phase_of_opened (hopened'.trans hopened), hover]
    rfl
  refine ⟨h.inv, ?_, ?_, ?_, ?_, ?_, ?_, ?_⟩
  · rcases haction with ⟨haction, -⟩ | ⟨haction, -⟩
    · rw [haction]
      exact h.action
    · rw [haction]
      exact nofun
  · rw [hphase, hsent]
    rcases haction with ⟨haction, -⟩ | ⟨haction, -⟩
    · rw [haction]
      exact h.outbox.ended
    · rw [haction]
      exact h.outbox.ended.fail
  · intro hunopened
    rw [hopened', hopened] at hunopened
    cases hunopened
  · rcases haction with ⟨haction, hbinary⟩ | ⟨haction, -⟩
    · rw [haction, hbinary]
      exact h.binary
    · rw [haction]
      exact nofun
  · rw [hsent]
    exact h.fits
  · intro act hact hfits
    have hstuck := h.stuck act hact hfits
    rcases haction with ⟨haction, -⟩ | ⟨-, hall⟩
    · rw [haction]
      exact hstuck
    · exact absurd (hall act hstuck) hfits
  · rw [hframes, hsent, hphase]
    exact h.frames.imp_right fun hreplied => ⟨hreplied.1, hreplied.2.1, rfl⟩

/-- A usable stream has been opened. -/
theorem Sends.opened_of_usable (h : Sends queue ws skipped) (husable : ws.usable = true) :
    ws.opened = true := by
  by_contra hopened
  have hclosed := (h.unopened (Bool.eq_false_iff.2 hopened)).1
  simp [usable, hclosed] at husable

/-- While the stream is usable it has put out the frames of its actions, and no others. -/
theorem Sends.frames_of_usable (h : Sends queue ws skipped) (husable : ws.usable = true) :
    ws.frames = ws.sent.map WsAction.frame := by
  refine h.frames.resolve_right fun hreplied => ?_
  rw [h.usable_iff.1 husable] at hreplied
  cases hreplied.2.2

/-- The operation puts out its frame. -/
theorem Sends.written (h : Sends queue ws skipped) {act : WsAction} (hact : ws.action = some act)
    (husable : ws.usable = true) (hfits : act.Fits) : Sends queue (ws.put act) skipped := by
  have hopened := h.opened_of_usable husable
  have houtbox := h.outbox
  rw [h.usable_iff.1 husable, hact] at houtbox
  refine ⟨h.inv, nofun, ?_, ?_, nofun, ?_, ?_, .inl ?_⟩
  · rw [phase_of_opened (show (ws.put act).opened = true from hopened)]
    by_cases hclose : act = .close
    · rw [if_neg (by simp [usable, put, hclose])]
      exact houtbox.putLast hclose
    · have hsocket := (Bool.and_eq_true_iff.1 husable).2
      rw [if_pos (by simp [usable, put, hclose, hsocket])]
      exact houtbox.put hclose
  · intro hunopened
    exact absurd (hopened.symm.trans hunopened) nofun
  · intro act' hsent
    rcases List.mem_append.1 hsent with hsent | hsent
    · exact h.fits act' hsent
    · cases List.mem_singleton.1 hsent
      exact hfits
  · intro act' hstarted hfits'
    have hstuck := h.stuck act' hstarted hfits'
    rw [hact] at hstuck
    cases hstuck
    exact absurd hfits hfits'
  · rw [put, h.frames_of_usable husable, h.frame_eq hact, List.map_append]
    rfl

/-- The close frame of the peer is answered. -/
theorem Sends.reply (h : Sends queue ws skipped) (husable : ws.usable = true) :
    Sends queue ws.reply skipped := by
  have hopened := h.opened_of_usable husable
  have hover : ws.reply.phase = .ended :=
    phase_of_opened (show ws.reply.opened = true from hopened)
  refine ⟨h.inv, h.action, ?_, ?_, h.binary, h.fits, h.stuck, .inr ⟨?_, ?_, hover⟩⟩
  · rw [hover]
    exact h.outbox.ended
  · intro hunopened
    exact absurd (hopened.symm.trans hunopened) nofun
  · rw [WsStream.reply, h.frames_of_usable husable]
  · intro hclose
    exact h.outbox.not_last (by rw [h.usable_iff.1 husable]; nofun) _ hclose rfl

/-- The connection is lost. -/
theorem Sends.lost (h : Sends queue ws skipped) : Sends queue { ws with isOpen := false } skipped := by
  rcases Bool.eq_false_or_eq_true ws.opened with hopened | hunopened
  · exact h.ended hopened ⟨rfl, rfl, rfl⟩ (.inl ⟨rfl, rfl⟩) rfl
  · have heq : { ws with isOpen := false } = ws := by rw [← (h.unopened hunopened).1]
    rw [heq]
    exact h

/-- A stream that is being written to has been opened. -/
theorem Sends.opened_of_action (h : Sends queue ws skipped) {act : WsAction}
    (hact : ws.action = some act) : ws.opened = true := by
  by_contra hopened
  have houtbox := h.outbox
  rw [phase, if_pos (Bool.eq_false_iff.2 hopened), hact] at houtbox
  cases houtbox.of_before.1

/-- Every event of the stream keeps what holds of it and the queue. -/
theorem Sends.stream_step (h : Sends queue ws skipped) {event : StreamEvent}
    (hstep : ws.step event = some ws') : Sends queue ws' skipped := by
  cases event with
  | written =>
    simp only [step] at hstep
    split at hstep
    · next act hact =>
      obtain ⟨⟨husable, hfits⟩, heq⟩ := Option.ite_none_right_eq_some.1 hstep
      cases heq
      exact h.written hact husable hfits
    · cases hstep
  | failed =>
    simp only [step] at hstep
    split at hstep
    · next act hact =>
      obtain ⟨hfits, heq⟩ := Option.ite_none_right_eq_some.1 hstep
      cases heq
      refine h.ended (h.opened_of_action hact) ⟨rfl, rfl, rfl⟩ (.inr ⟨rfl, ?_⟩) rfl
      rw [hact]
      rintro _ ⟨⟩
      exact hfits
    · cases hstep
  | expired =>
    obtain ⟨hact, heq⟩ := Option.ite_none_right_eq_some.1 hstep
    cases heq
    refine h.ended (h.opened_of_action hact) ⟨rfl, rfl, rfl⟩ (.inr ⟨rfl, ?_⟩) (Bool.and_false _)
    rw [hact]
    rintro _ ⟨⟩
    exact trivial
  | closed =>
    obtain ⟨husable, heq⟩ := Option.ite_none_right_eq_some.1 hstep
    cases heq
    exact h.reply husable
  | lost =>
    cases hstep
    exact h.lost

/-- Actions that are started change only the type and the operation. -/
theorem begin_eq : ∃ binary action, ws.begin queue queue' = { ws with binary, action } := by
  unfold begin
  induction queue.begun queue' generalizing ws with
  | nil => exact ⟨ws.binary, ws.action, rfl⟩
  | cons act acts ih => exact @ih (ws.start act)

/-- What an event of the stream puts out is the frame of the action, while the stream is usable. -/
theorem sent_of_step {event : StreamEvent} (hstep : ws.step event = some ws') :
    ws'.opened = ws.opened ∧ (ws'.usable = true → ws.usable = true) ∧
      (ws'.sent = ws.sent ∨
        ∃ act, ws.action = some act ∧ act.Fits ∧ ws.usable = true ∧ ws'.sent = ws.sent ++ [act]) := by
  cases event with
  | written =>
    simp only [step] at hstep
    split at hstep
    · next act hact =>
      obtain ⟨⟨husable, hfits⟩, heq⟩ := Option.ite_none_right_eq_some.1 hstep
      cases heq
      exact ⟨rfl, fun _ => husable, .inr ⟨act, hact, hfits, husable, rfl⟩⟩
    · cases hstep
  | failed =>
    simp only [step] at hstep
    split at hstep
    · obtain ⟨-, heq⟩ := Option.ite_none_right_eq_some.1 hstep
      cases heq
      exact ⟨rfl, nofun, .inl rfl⟩
    · cases hstep
  | expired =>
    obtain ⟨-, heq⟩ := Option.ite_none_right_eq_some.1 hstep
    cases heq
    exact ⟨rfl, fun h => absurd h (by simp [usable]), .inl rfl⟩
  | closed =>
    obtain ⟨husable, heq⟩ := Option.ite_none_right_eq_some.1 hstep
    cases heq
    exact ⟨rfl, fun _ => husable, .inl rfl⟩
  | lost =>
    cases hstep
    exact ⟨rfl, nofun, .inl rfl⟩

/-- What is on the wire: the frames of what was sent, and behind them perhaps the answer to a close frame
of the peer. Nothing follows a close frame, and the stream is not usable behind one. -/
theorem Sends.wire (h : Sends queue ws skipped) :
    ∃ reply, ws.frames = ws.sent.map WsAction.frame ++ reply ∧
      (reply = [] ∨ reply = [.closeReply] ∧ ws.usable = false) ∧
      ∀ front back, ws.sent = front ++ .close :: back →
        back = [] ∧ reply = [] ∧ ws.usable = false := by
  have hover : ws.phase = .ended → ws.usable = false := by
    intro hphase
    refine Bool.eq_false_iff.2 fun husable => ?_
    rw [h.usable_iff.1 husable] at hphase
    cases hphase
  rcases h.frames with hframes | ⟨hframes, hclose, hphase⟩
  · refine ⟨[], by simpa using hframes, .inl rfl, fun front back hsent => ?_⟩
    obtain ⟨hback, hphase⟩ := h.outbox.last_ends hsent rfl
    exact ⟨hback, rfl, hover hphase⟩
  · refine ⟨[.closeReply], hframes, .inr ⟨rfl, hover hphase⟩, fun front back hsent => ?_⟩
    exact absurd (by simp [hsent]) hclose

/-- Nothing is on the wire before the handshake. -/
theorem Sends.wire_of_unopened (h : Sends queue ws skipped) (hunopened : ws.opened = false) :
    ws.sent = [] ∧ ws.frames = [] := by
  have hbefore : ws.phase = .before := if_pos hunopened
  have houtbox := h.outbox
  rw [hbefore] at houtbox
  have hsent := houtbox.of_before.2
  refine ⟨hsent, ?_⟩
  rcases h.frames with hframes | ⟨-, -, hphase⟩
  · rw [hframes, hsent, List.map_nil]
  · rw [hbefore] at hphase
    cases hphase

end WsStream
end Httplib
