import Httplib.Lib.Machine
import Httplib.Util.Misc
import Mathlib.Data.List.TakeDrop

/-!
# The CONNECT tunnel

`session::http_proxy_task` (`lib/server/session.cpp:377`) from the CONNECT header on, as a machine
with one event for each completion of a socket operation. `detail::transfer` is lossless
(`Transfer.Faithful`) from where it begins to read; `http_proxy_task_lossless` says when that is
where the header ends.
-/

namespace Httplib

/-- Where `detail::transfer` is. -/
inductive TransferPc where
  | reading
  /-- A write of what was read; `last` says whether the read behind it has failed. -/
  | writing (last : Bool)
  | ended
  deriving DecidableEq

/-- One direction of the tunnel: `detail::transfer` (`session.cpp:24`) with the socket that it reads
and what it has written to the other one. -/
structure Transfer where
  /-- What the peer has sent in this direction. -/
  sent : Bytes := []
  /-- The peer has ended its stream. -/
  closed : Bool := false
  /-- How much of it was read from the socket. -/
  taken : Nat := 0
  pc : TransferPc := .reading
  /-- What is still to be written of `buffer`. -/
  pending : Bytes := []
  written : Bytes := []
  /-- The read that failed has reported the end of the stream. -/
  eof : Bool := false
  /-- A write has failed. -/
  failed : Bool := false

/-- What happens next in one direction. -/
inductive TransferEvent where
  /-- The peer sends more. -/
  | send (data : Bytes)
  /-- The peer ends its stream. -/
  | close
  /-- `async_read_some` reads this many bytes. -/
  | read (n : Nat)
  /-- `async_read_some` fails with this many bytes read; the failure may be the end of the stream. -/
  | readFailed (n : Nat) (eof : Bool)
  /-- `async_write` has written this many more bytes. -/
  | wrote (n : Nat)
  | writeFailed

/-- A step of the peer, which needs no relay. -/
def TransferEvent.byPeer : TransferEvent → Bool
  | .send _ | .close => true
  | _ => false

namespace Transfer

/-- `buffer_size` (`session.cpp:26`). -/
def bufferSize : Nat := 512 * 1024

/-- The bytes that a read takes off the socket. -/
def take (t : Transfer) (n : Nat) (pc : TransferPc) : Transfer :=
  { t with pc, pending := (t.sent.drop t.taken).take n, taken := t.taken + n }

/-- `detail::transfer` (`session.cpp:24`). -/
def step (t : Transfer) : TransferEvent → Option Transfer
  | .send data => if t.closed then none else some { t with sent := t.sent ++ data }
  | .close => some { t with closed := true }
  | .read n =>
    if t.pc = .reading ∧ 0 < n ∧ n ≤ bufferSize ∧ t.taken + n ≤ t.sent.length then
      some (t.take n (.writing false))
    else none
  | .readFailed n eof =>
    if t.pc = .reading ∧ n ≤ bufferSize ∧ t.taken + n ≤ t.sent.length ∧
        (eof → t.closed ∧ t.taken + n = t.sent.length) then
      some { t.take n (if 0 < n then .writing true else .ended) with eof }
    else none
  | .wrote n =>
    match t.pc with
    | .writing last =>
      let rest := t.pending.drop n
      some { t with
        pending := rest
        written := t.written ++ t.pending.take n
        pc := if rest = [] then if last then .ended else .reading else .writing last }
    | _ => none
  | .writeFailed =>
    match t.pc with
    | .writing _ => some { t with pc := .ended, failed := true }
    | _ => none

/-! ## One direction -/

/-- What holds between the steps: what was written and is to be written is what was taken, nothing
is left behind but by a failed write, and the stream is at its end where that was reported. -/
structure Faithful (t : Transfer) : Prop where
  taken_le : t.taken ≤ t.sent.length
  copied : t.written ++ t.pending = t.sent.take t.taken
  flushed : (∀ last, t.pc ≠ .writing last) → t.failed = false → t.pending = []
  atEnd : t.eof = true → t.closed = true ∧ t.taken = t.sent.length
  stopped : t.failed = true → t.pc = .ended

/-- The bytes written are a prefix of those sent, and all of them when the direction has ended with a
clean end of stream and without a failed write. -/
structure Lossless (t : Transfer) : Prop where
  isPrefix : t.written <+: t.sent
  complete : t.pc = .ended → t.eof = true → t.failed = false → t.written = t.sent

theorem Faithful.lossless {t : Transfer} (h : t.Faithful) : t.Lossless := by
  constructor
  · exact (List.prefix_append _ _).trans (h.copied ▸ List.take_prefix _ _)
  · intro hended heof hok
    have hpending := h.flushed (fun last => by rw [hended]; exact nofun) hok
    have hcopied := h.copied
    rwa [hpending, List.append_nil, (h.atEnd heof).2, List.take_length] at hcopied

theorem faithful_start {sent : Bytes} {closed : Bool} : ({ sent, closed } : Transfer).Faithful :=
  ⟨Nat.zero_le _, rfl, fun _ _ => rfl, nofun, nofun⟩

/-- A read follows a complete write and takes the next bytes. -/
theorem Faithful.take {t : Transfer} (h : t.Faithful) (hpc : t.pc = .reading) {n : Nat}
    (hn : t.taken + n ≤ t.sent.length) {pc : TransferPc}
    (hflushed : (∀ last, pc ≠ .writing last) → n = 0) (eof : Bool)
    (heof : eof = true → t.closed = true ∧ t.taken + n = t.sent.length) :
    ({ t.take n pc with eof } : Transfer).Faithful := by
  have hok : t.failed = false := by
    refine Bool.eq_false_iff.2 fun hfailed => ?_
    have hended := h.stopped hfailed
    rw [hpc] at hended
    cases hended
  have hpending := h.flushed (fun last => by rw [hpc]; exact nofun) hok
  have hcopied := h.copied
  rw [hpending, List.append_nil] at hcopied
  refine ⟨hn, ?_, fun hnot _ => ?_, heof, fun hfailed => ?_⟩
  · simp only [Transfer.take]
    rw [hcopied, List.take_add]
  · simp only [Transfer.take]
    rw [hflushed hnot, List.take_zero]
  · exact absurd (hok.symm.trans hfailed) Bool.false_ne_true

/-- Every step of a direction keeps it faithful. -/
theorem Faithful.step {t t' : Transfer} (h : t.Faithful) {event : TransferEvent}
    (hstep : t.step event = some t') : t'.Faithful := by
  unfold Transfer.step at hstep
  split at hstep
  · next data =>
    split at hstep
    · cases hstep
    · next hopen =>
      cases hstep
      have hle := h.taken_le
      refine ⟨?_, ?_, h.flushed, fun heof => absurd (h.atEnd heof).1 hopen, h.stopped⟩
      · rw [List.length_append]
        exact Nat.le_trans hle (Nat.le_add_right _ _)
      · dsimp only
        rw [List.take_append_of_le_length hle, h.copied]
  · cases hstep
    exact ⟨h.taken_le, h.copied, h.flushed, fun heof => ⟨rfl, (h.atEnd heof).2⟩, h.stopped⟩
  · next n =>
    split at hstep
    · next hread =>
      obtain ⟨hpc, -, -, hn⟩ := hread
      cases hstep
      have heof : t.eof = true → t.closed = true ∧ t.taken + n = t.sent.length := by
        intro heof
        have hend := h.atEnd heof
        exact ⟨hend.1, by omega⟩
      exact h.take hpc hn (fun hnot => absurd rfl (hnot false)) t.eof heof
    · cases hstep
  · next n eof =>
    split at hstep
    · next hread =>
      obtain ⟨hpc, -, hn, heof⟩ := hread
      cases hstep
      refine h.take hpc hn (fun hnot => ?_) eof heof
      rcases Nat.eq_zero_or_pos n with hzero | hpos
      · exact hzero
      · rw [if_pos hpos] at hnot
        exact absurd rfl (hnot true)
    · cases hstep
  · next n =>
    split at hstep
    · next last hpc =>
      cases hstep
      refine ⟨h.taken_le, ?_, fun hnot _ => ?_, h.atEnd, fun hfailed => ?_⟩
      · dsimp only
        rw [List.append_assoc, List.take_append_drop, h.copied]
      · dsimp only at hnot ⊢
        by_contra hne
        rw [if_neg hne] at hnot
        exact absurd rfl (hnot last)
      · have hended := h.stopped hfailed
        rw [hpc] at hended
        cases hended
    · cases hstep
  · split at hstep
    · next last hpc =>
      cases hstep
      exact ⟨h.taken_le, h.copied, fun _ => nofun, h.atEnd, fun _ => rfl⟩
    · cases hstep

/-- The peer takes nothing off the socket. -/
theorem taken_of_byPeer {t t' : Transfer} {event : TransferEvent} (hpeer : event.byPeer = true)
    (hstep : t.step event = some t') : t'.taken = t.taken := by
  cases event with
  | send data =>
    simp only [step] at hstep
    split at hstep
    · cases hstep
    · cases hstep; rfl
  | close => cases hstep; rfl
  | read | readFailed | wrote | writeFailed => cases hpeer

end Transfer

/-- How far the session has come. -/
inductive TunnelPhase where
  /-- In the `async_read_header` of `http_task::then`. -/
  | readHeader
  /-- In `async_resolve` or `async_connect`. -/
  | connecting
  /-- In the `async_write` of the 200 reply. -/
  | replying
  | relaying
  | finished
  deriving DecidableEq

/-- A connection with a CONNECT request: the two directions begin where its header, and the 200
reply, end. -/
structure Tunnel where
  phase : TunnelPhase := .readHeader
  /-- From the client to the upstream socket. -/
  up : Transfer := {}
  /-- From the upstream socket to the client. -/
  down : Transfer := {}

/-- What happens next on the connection. -/
inductive TunnelEvent where
  /-- The CONNECT header is complete; the reads for it have brought this many bytes behind it. -/
  | header (extra : Nat)
  /-- The upstream socket is connected, or not. -/
  | connected (ok : Bool)
  /-- The 200 reply is written, or not. -/
  | replied (ok : Bool)
  | up (event : TransferEvent)
  | down (event : TransferEvent)

/-- A connection that becomes a `http_proxy_task` (`session.cpp:199`, `session.cpp:388`). The bytes
behind the header are in `http_task::buffer_`, which the new task is not given. -/
def httpProxyTask : Machine Tunnel TunnelEvent where
  init t := t = {}
  step t
    | .header extra =>
      if t.phase = .readHeader ∧ extra ≤ t.up.sent.length then
        some { t with phase := .connecting, up := { t.up with taken := extra } }
      else none
    | .connected ok =>
      if t.phase = .connecting then
        some { t with phase := if ok then .replying else .finished }
      else none
    | .replied ok =>
      if t.phase = .replying then some { t with phase := if ok then .relaying else .finished }
      else none
    | .up event =>
      if t.phase = .relaying ∨ event.byPeer then
        (t.up.step event).map fun up => { t with up }
      else none
    | .down event =>
      if t.phase = .relaying ∨ event.byPeer then
        (t.down.step event).map fun down => { t with down }
      else none

namespace Tunnel

/-- Nothing is lost in either direction. -/
def Lossless (t : Tunnel) : Prop := t.up.Lossless ∧ t.down.Lossless

/-- A step that does not turn the session into a tunnel while its read buffer holds bytes behind the
CONNECT header. -/
def HeaderAlone : Tunnel → TunnelEvent → Prop
  | _, .header extra => extra = 0
  | _, _ => True

/-- Both directions are faithful, and the upward one is untouched until the header is read. -/
structure Faithful (t : Tunnel) : Prop where
  up : t.up.Faithful
  down : t.down.Faithful
  untouched : t.phase = .readHeader → t.up.taken = 0

theorem Faithful.step {t t' : Tunnel} (h : t.Faithful) {event : TunnelEvent}
    (halone : HeaderAlone t event) (hstep : httpProxyTask.step t event = some t') :
    t'.Faithful := by
  cases event with
  | header extra =>
    simp only [httpProxyTask] at hstep
    split at hstep
    · next hread =>
      cases hstep
      cases halone
      have hup := h.up
      rw [← h.untouched hread.1]
      exact ⟨hup, h.down, nofun⟩
    · cases hstep
  | connected ok =>
    simp only [httpProxyTask] at hstep
    split at hstep
    · cases hstep
      exact ⟨h.up, h.down, by cases ok <;> exact nofun⟩
    · cases hstep
  | replied ok =>
    simp only [httpProxyTask] at hstep
    split at hstep
    · cases hstep
      exact ⟨h.up, h.down, by cases ok <;> exact nofun⟩
    · cases hstep
  | up event =>
    simp only [httpProxyTask] at hstep
    split at hstep
    · next hmay =>
      obtain ⟨up, hup, rfl⟩ := Option.map_eq_some_iff.1 hstep
      refine ⟨h.up.step hup, h.down, fun hphase => ?_⟩
      have hpeer : event.byPeer = true := hmay.resolve_left (by rw [hphase]; exact nofun)
      exact (Transfer.taken_of_byPeer hpeer hup).trans (h.untouched hphase)
    · cases hstep
  | down event =>
    simp only [httpProxyTask] at hstep
    split at hstep
    · obtain ⟨down, hdown, rfl⟩ := Option.map_eq_some_iff.1 hstep
      exact ⟨h.up, h.down.step hdown, h.untouched⟩
    · cases hstep

end Tunnel

/-- **When the tunnel loses nothing.** In every run in which the read buffer holds no byte behind the
CONNECT header when the session becomes a tunnel, in each direction the bytes written are a prefix of
those sent behind the header, and behind the reply, and all of them when the direction has ended with
a clean end of stream and without a failed write. -/
theorem http_proxy_task_lossless {t : Tunnel} (h : httpProxyTask.Reaches Tunnel.HeaderAlone t) :
    t.Lossless := by
  have hfaithful : t.Faithful := by
    refine h.invariant ?_ fun t event t' hfaithful halone hstep => hfaithful.step halone hstep
    rintro t rfl
    exact ⟨Transfer.faithful_start, Transfer.faithful_start, fun _ => rfl⟩
  exact ⟨hfaithful.up.lossless, hfaithful.down.lossless⟩

/-- A tunnel whose client sends two bytes once the relay has begun, and ends its stream. -/
theorem http_proxy_task_lossless_later :
    ∃ t : Tunnel, httpProxyTask.Reaches Tunnel.HeaderAlone t ∧ t.up.pc = .ended ∧
      t.up.written = bytes "hi" ∧ t.Lossless := by
  obtain ⟨t, hreaches, hended, hwritten⟩ : ∃ t : Tunnel,
      httpProxyTask.Reaches Tunnel.HeaderAlone t ∧ t.up.pc = .ended ∧ t.up.written = bytes "hi" := by
    refine ⟨_, .step (a := .up (.readFailed 0 true)) (.step (a := .up .close)
      (.step (a := .up (.wrote 1)) (.step (a := .up (.wrote 1)) (.step (a := .up (.read 2))
      (.step (a := .up (.send (bytes "hi"))) (.step (a := .replied true)
      (.step (a := .connected true) (.step (a := .header 0) (.init rfl) rfl rfl) trivial rfl)
      trivial rfl) trivial rfl) trivial rfl) trivial rfl) trivial rfl) trivial rfl) trivial rfl,
      rfl, rfl⟩
  exact ⟨t, hreaches, hended, hwritten, http_proxy_task_lossless hreaches⟩

/-- A client that sends its first byte together with the CONNECT header: it never arrives. -/
theorem http_proxy_task_lossless_early :
    ¬ ∀ t : Tunnel, httpProxyTask.Reachable t → t.Lossless := by
  intro h
  obtain ⟨t, hrun, hpc, heof, hfailed, hwritten, hsent⟩ : ∃ t, httpProxyTask.run {}
      [.up (.send (bytes "x")), .header 1, .connected true, .replied true, .up .close,
        .up (.readFailed 0 true)] = some t ∧ t.up.pc = .ended ∧ t.up.eof = true ∧
      t.up.failed = false ∧ t.up.written = [] ∧ t.up.sent = bytes "x" :=
    ⟨_, rfl, rfl, rfl, rfl, rfl, rfl⟩
  have hcomplete := (h t (Machine.Reachable.run (.init rfl) hrun)).1.complete hpc heof hfailed
  rw [hwritten, hsent] at hcomplete
  cases hcomplete

end Httplib
