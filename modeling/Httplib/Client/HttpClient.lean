import Httplib.Lib.Machine
import Httplib.Util.Misc

/-!
# The client

`http_client::impl` (`lib/client/client_impl.cpp`) as a machine: one event for each completion of an
operation of `async_send_request`, and for the calls of `close`. Each byte of the read buffer is kept
with the connection it was received on. `http_client_buffer` says in which runs no response is parsed
from the bytes of an earlier connection, `http_client_deadline` in which runs no operation waits
without a deadline.
-/

namespace Httplib

/-- `http_client::timeout_policy` (`client.hpp:14`). -/
inductive TimeoutPolicy where
  | overall
  | step
  | never
  deriving DecidableEq

/-- A byte in `buffer_`, with the number of the connection it came from. -/
structure Received where
  conn : Nat
  byte : UInt8
  deriving DecidableEq

/-- `stream_`: its number, whether its socket is open, and whether its deadline is armed. -/
structure ClientStream where
  conn : Nat
  isOpen : Bool := false
  armed : Bool := false

/-- Where `async_send_request` is. -/
inductive ClientPc where
  /-- No request is being sent. -/
  | idle
  | resolving
  | connecting
  | writing
  | readingHeader
  | readingBody
  /-- `close` has cancelled the operation, which has yet to complete. -/
  | cancelled
  deriving DecidableEq

/-- `http_client::impl` (`client_impl.h:8`), and what the request in progress knows. -/
structure HttpClient where
  pc : ClientPc := .idle
  stream : Option ClientStream := none
  buffer : List Received := []
  /-- The method of the request is HEAD. -/
  head : Bool := false
  /-- The argument of `async_send_request`. -/
  retry : Bool := false
  /-- The number of streams made so far. -/
  made : Nat := 0

/-- What happens next to a client. -/
inductive ClientEvent where
  /-- `async_send_request` is called; `resolve` says whether the host has to be resolved, if the
  stream has to be connected. -/
  | send (head resolve : Bool)
  | resolved
  | connected
  /-- `async_write_some` completes, perhaps with the end of the request. -/
  | wrote (done : Bool)
  /-- `async_read_some` completes: it has received bytes, and the parser has taken a number of those
  in the buffer; perhaps the header, or the whole message, is complete. -/
  | read (received : Bytes) (consumed : Nat) (headerDone bodyDone keepAlive : Bool)
  /-- The operation fails, perhaps with one of the errors that are retried; `resolve` is as above. It
  brings no bytes: those that come together with an error are a `read` in front of it. -/
  | failed (retried resolve : Bool)
  /-- `close` is called. -/
  | close

/-- What `expires_after` does to the stream (`client_impl.cpp:104`). -/
def ClientStream.expiresAfter (policy : TimeoutPolicy) (first : Bool) (stream : ClientStream) :
    ClientStream :=
  match policy with
  | .step => { stream with armed := true }
  | .never => { stream with armed := false }
  | .overall => if first then { stream with armed := true } else stream

namespace HttpClient

/-- `expires_after` (`client_impl.cpp:104`). -/
def expiresAfter (policy : TimeoutPolicy) (first : Bool) (s : HttpClient) : HttpClient :=
  { s with stream := s.stream.map (·.expiresAfter policy first) }

/-- `close` on the stream (`client_impl.cpp:66`). -/
def closeStream (s : HttpClient) : HttpClient :=
  { s with stream := s.stream.map fun stream => { stream with isOpen := false, armed := false } }

/-- `is_open` (`client_impl.cpp:73`). -/
def isOpen (s : HttpClient) : Bool := s.stream.any (·.isOpen)

/-- `async_connect` opens the socket (`client_impl.cpp:134`). -/
def connect (policy : TimeoutPolicy) (s : HttpClient) : HttpClient :=
  let s := s.expiresAfter policy true
  { s with
    pc := .connecting
    stream := s.stream.map fun stream => { stream with isOpen := true } }

/-- One more operation of the exchange (`client_impl.cpp:147`, `:156`, `:166`). -/
def goOn (policy : TimeoutPolicy) (pc : ClientPc) (s : HttpClient) : HttpClient :=
  { s.expiresAfter policy false with pc }

/-- The start of `async_send_request_impl` (`client_impl.cpp:125`). -/
def start (policy : TimeoutPolicy) (resolve : Bool) (s : HttpClient) : HttpClient :=
  if s.isOpen then s.goOn policy .writing
  else
    let s := { s with stream := some { conn := s.made }, made := s.made + 1 }
    if resolve then { s with pc := .resolving } else s.connect policy

/-- The end of a response (`client_impl.cpp:170`). -/
def finish (keepAlive : Bool) (s : HttpClient) : HttpClient :=
  let s :=
    { s with
      pc := .idle
      stream := s.stream.map fun stream => { stream with armed := false } }
  if keepAlive then s else s.closeStream

/-- The loops over the parsers have come to their end: a HEAD has no body to read. -/
def messageDone (headerDone bodyDone : Bool) (s : HttpClient) : Bool :=
  if s.pc = .readingHeader then headerDone && (s.head || bodyDone) else bodyDone

/-- A read of the header or the body (`client_impl.cpp:155`, `:165`). -/
def read (policy : TimeoutPolicy) (received : Bytes) (consumed : Nat)
    (headerDone bodyDone keepAlive : Bool) (stream : ClientStream) (s : HttpClient) : HttpClient :=
  let arrived : List Received := received.map fun byte => { conn := stream.conn, byte }
  let s := { s with buffer := (s.buffer ++ arrived).drop consumed }
  if s.messageDone headerDone bodyDone then s.finish keepAlive
  else s.goOn policy (if s.pc = .readingHeader ∧ ¬ headerDone then .readingHeader else .readingBody)

/-- The `catch` blocks of `async_send_request` and what follows them (`client_impl.cpp:87`). -/
def fail (policy : TimeoutPolicy) (retried resolve : Bool) (s : HttpClient) : HttpClient :=
  let s := s.closeStream
  if retried ∧ s.retry then { s with retry := false }.start policy resolve
  else { s with pc := .idle }

/-- `close` while an operation of the stream is pending cancels it; resolving goes on until it has
seen the cancellation, or not. -/
def close (s : HttpClient) : HttpClient :=
  match s.pc with
  | .idle | .resolving => s.closeStream
  | _ => { s.closeStream with pc := .cancelled }

end HttpClient

/-- `http_client::impl` under a timeout policy. -/
def httpClient (policy : TimeoutPolicy) : Machine HttpClient ClientEvent where
  init s := s = {}
  step s
    | .send head resolve =>
      if s.pc = .idle then some ({ s with head, retry := true }.start policy resolve) else none
    | .resolved =>
      if s.pc = .resolving then s.stream.map fun _ => s.connect policy else none
    | .connected => if s.pc = .connecting then some (s.goOn policy .writing) else none
    | .wrote done =>
      if s.pc = .writing then some (s.goOn policy (if done then .readingHeader else .writing))
      else none
    | .read received consumed headerDone bodyDone keepAlive =>
      if s.pc = .readingHeader ∨ s.pc = .readingBody then
        s.stream.map fun stream =>
          s.read policy received consumed headerDone bodyDone keepAlive stream
      else none
    | .failed retried resolve =>
      if s.pc = .idle then none else some (s.fail policy retried resolve)
    | .close => some s.close

namespace HttpClient

variable {policy : TimeoutPolicy} {s s' : HttpClient}

/-- Setting the deadline neither opens nor closes a stream. -/
@[simp] theorem isOpen_expiresAfter (policy : TimeoutPolicy) (first : Bool) (stream : ClientStream) :
    (stream.expiresAfter policy first).isOpen = stream.isOpen := by
  unfold ClientStream.expiresAfter
  cases policy with
  | overall => cases first <;> rfl
  | step | never => rfl

/-- Nor does it touch the connection. -/
@[simp] theorem conn_expiresAfter (policy : TimeoutPolicy) (first : Bool) (stream : ClientStream) :
    (stream.expiresAfter policy first).conn = stream.conn := by
  unfold ClientStream.expiresAfter
  cases policy with
  | overall => cases first <;> rfl
  | step | never => rfl

/-- `Move policy s event s'`: what a client in the state `s` does at an event. -/
inductive Move (policy : TimeoutPolicy) (s : HttpClient) : ClientEvent → HttpClient → Prop
  | send {head resolve} : s.pc = .idle →
      Move policy s (.send head resolve) ({ s with head, retry := true }.start policy resolve)
  | resolved {stream} : s.pc = .resolving → s.stream = some stream →
      Move policy s .resolved (s.connect policy)
  | connected : s.pc = .connecting → Move policy s .connected (s.goOn policy .writing)
  | wrote {done} : s.pc = .writing →
      Move policy s (.wrote done) (s.goOn policy (if done then .readingHeader else .writing))
  | read {received consumed headerDone bodyDone keepAlive stream} :
      s.pc = .readingHeader ∨ s.pc = .readingBody → s.stream = some stream →
      Move policy s (.read received consumed headerDone bodyDone keepAlive)
        (s.read policy received consumed headerDone bodyDone keepAlive stream)
  | failed {retried resolve} : s.pc ≠ .idle →
      Move policy s (.failed retried resolve) (s.fail policy retried resolve)
  | close : Move policy s .close s.close

/-- A step is a move. -/
theorem step_inv {event : ClientEvent} (hstep : (httpClient policy).step s event = some s') :
    Move policy s event s' := by
  cases event with
  | send head resolve =>
    obtain ⟨hpc, heq⟩ := Option.ite_none_right_eq_some.1 hstep
    cases heq
    exact .send hpc
  | resolved =>
    obtain ⟨hpc, heq⟩ := Option.ite_none_right_eq_some.1 hstep
    obtain ⟨stream, hstream, rfl⟩ := Option.map_eq_some_iff.1 heq
    exact .resolved hpc hstream
  | connected =>
    obtain ⟨hpc, heq⟩ := Option.ite_none_right_eq_some.1 hstep
    cases heq
    exact .connected hpc
  | wrote done =>
    obtain ⟨hpc, heq⟩ := Option.ite_none_right_eq_some.1 hstep
    cases heq
    exact .wrote hpc
  | read received consumed headerDone bodyDone keepAlive =>
    obtain ⟨hpc, heq⟩ := Option.ite_none_right_eq_some.1 hstep
    obtain ⟨stream, hstream, rfl⟩ := Option.map_eq_some_iff.1 heq
    exact .read hpc hstream
  | failed retried resolve =>
    obtain ⟨hpc, heq⟩ := Option.ite_none_left_eq_some.1 hstep
    cases heq
    exact .failed hpc
  | close =>
    cases hstep
    exact .close

/-! ## The read buffer -/

/-- A connect, a write or a read is pending on the stream. -/
def Waits (s : HttpClient) : Prop :=
  s.pc = .connecting ∨ s.pc = .writing ∨ s.pc = .readingHeader ∨ s.pc = .readingBody

/-- The bytes in the buffer came over the connection that is open. -/
def CleanBuffer (s : HttpClient) : Prop :=
  ∀ b ∈ s.buffer, ∃ stream ∈ s.stream, stream.isOpen = true ∧ stream.conn = b.conn

/-- What holds between the steps: the buffer is clean, operations wait on an open connection only,
and the host is resolved for a stream that is not connected. -/
structure Clean (s : HttpClient) : Prop where
  buffer : s.CleanBuffer
  waits : s.Waits → s.isOpen = true
  resolving : s.pc = .resolving → s.isOpen = false

/-- A step that closes the connection only behind an empty read buffer. -/
def ClosesDrained (s : HttpClient) : ClientEvent → Prop
  | .read received consumed headerDone bodyDone keepAlive =>
    s.messageDone headerDone bodyDone = true → keepAlive = false →
      s.buffer.length + received.length ≤ consumed
  | .failed _ _ | .close => s.buffer = []
  | _ => True

/-- The client is open exactly when it has a stream that is. -/
theorem isOpen_iff : s.isOpen = true ↔ ∃ stream ∈ s.stream, stream.isOpen = true := by
  rw [isOpen, Option.any_eq_true]
  rfl

/-- An empty buffer holds nothing of an earlier connection. -/
theorem cleanBuffer_of_nil (h : s.buffer = []) : s.CleanBuffer := by
  intro b hb
  rw [h] at hb
  cases hb

/-- A clean buffer of a connection that is not open is empty. -/
theorem CleanBuffer.eq_nil (h : s.CleanBuffer) (hclosed : s.isOpen ≠ true) : s.buffer = [] := by
  refine List.eq_nil_iff_forall_not_mem.2 fun b hb => hclosed ?_
  obtain ⟨stream, hstream, hon, -⟩ := h b hb
  exact isOpen_iff.2 ⟨stream, hstream, hon⟩

/-- Going on with a request leaves the stream open or closed as it was. -/
@[simp] theorem isOpen_goOn (pc : ClientPc) : (s.goOn policy pc).isOpen = s.isOpen := by
  simp only [goOn, expiresAfter, isOpen]
  cases s.stream with
  | none => rfl
  | some stream => exact isOpen_expiresAfter policy false stream

/-- A closed client is not open. -/
@[simp] theorem isOpen_closeStream : s.closeStream.isOpen = false := by
  simp only [closeStream, isOpen]
  cases s.stream <;> rfl

/-- Going on leaves the connection as it is. -/
theorem clean_goOn (hbuffer : s.CleanBuffer) (hopen : s.isOpen = true) {pc : ClientPc}
    (hpc : pc ≠ .resolving) : (s.goOn policy pc).Clean := by
  refine ⟨?_, fun _ => by rw [isOpen_goOn, hopen], fun h => absurd h hpc⟩
  intro b hb
  obtain ⟨stream, hstream, hon, hconn⟩ := hbuffer b hb
  exact ⟨stream.expiresAfter policy false, Option.mem_map_of_mem _ hstream,
    by rw [isOpen_expiresAfter, hon], by rw [conn_expiresAfter, hconn]⟩

/-- A connection is made behind an empty buffer. -/
theorem clean_connect (hbuffer : s.buffer = []) (hstream : s.stream.isSome = true) :
    (s.connect policy).Clean := by
  refine ⟨cleanBuffer_of_nil hbuffer, fun _ => ?_, nofun⟩
  obtain ⟨stream, hstream⟩ := Option.isSome_iff_exists.1 hstream
  simp [connect, expiresAfter, isOpen, hstream]

/-- A request that begins with a clean buffer begins clean. -/
theorem clean_start (hbuffer : s.CleanBuffer) (resolve : Bool) :
    (s.start policy resolve).Clean := by
  unfold start
  split
  · next hopen => exact clean_goOn hbuffer hopen nofun
  · next hclosed =>
    have hnil := hbuffer.eq_nil hclosed
    dsimp only
    split
    · exact ⟨cleanBuffer_of_nil hnil, by simp [Waits], fun _ => rfl⟩
    · exact clean_connect hnil rfl

/-- A request that ends leaves the client clean if a connection that is closed has left no byte behind. -/
theorem clean_finish (hbuffer : s.CleanBuffer) {keepAlive : Bool}
    (hclose : keepAlive = false → s.buffer = []) : (s.finish keepAlive).Clean := by
  unfold finish
  dsimp only
  split
  · refine ⟨?_, by simp [Waits], nofun⟩
    intro b hb
    obtain ⟨stream, hstream, hon, hconn⟩ := hbuffer b hb
    exact ⟨_, Option.mem_map_of_mem _ hstream, hon, hconn⟩
  · next hkeep =>
    exact ⟨cleanBuffer_of_nil (hclose (Bool.eq_false_iff.2 hkeep)), by simp [Waits, closeStream],
      nofun⟩

/-- A read adds bytes of the connection that is open. -/
theorem Clean.read (h : s.Clean) (hwaits : s.Waits) {received : Bytes} {consumed : Nat}
    {headerDone bodyDone keepAlive : Bool} {stream : ClientStream} (hstream : s.stream = some stream)
    (hdrained : s.ClosesDrained (.read received consumed headerDone bodyDone keepAlive)) :
    (s.read policy received consumed headerDone bodyDone keepAlive stream).Clean := by
  have hopen := h.waits hwaits
  have hon : stream.isOpen = true := by
    rwa [isOpen, hstream] at hopen
  have hbuffer : ∀ {buffer : List Received},
      buffer = (s.buffer ++ received.map fun byte => (⟨stream.conn, byte⟩ : Received)).drop
        consumed → ({ s with buffer } : HttpClient).CleanBuffer := by
    rintro _ rfl b hb
    rcases List.mem_append.1 (List.mem_of_mem_drop hb) with hb | hb
    · exact h.buffer b hb
    · obtain ⟨byte, -, rfl⟩ := List.mem_map.1 hb
      exact ⟨stream, hstream, hon, rfl⟩
  unfold HttpClient.read
  dsimp only
  split
  · next hdone =>
    refine clean_finish (hbuffer rfl) fun hkeep => List.drop_of_length_le ?_
    rw [List.length_append, List.length_map]
    exact hdrained hdone hkeep
  · refine clean_goOn (hbuffer rfl) hopen ?_
    split <;> exact nofun

/-- Every step keeps the client clean when a close finds the buffer drained. -/
theorem Clean.step (h : s.Clean) {event : ClientEvent} (hdrained : s.ClosesDrained event)
    (hstep : (httpClient policy).step s event = some s') : s'.Clean := by
  cases step_inv hstep with
  | @send head resolve hpc => exact clean_start (s := { s with head, retry := true }) h.buffer resolve
  | resolved hpc hstream =>
    have hnil := h.buffer.eq_nil (Bool.eq_false_iff.1 (h.resolving hpc))
    exact clean_connect hnil (Option.isSome_iff_exists.2 ⟨_, hstream⟩)
  | connected hpc => exact clean_goOn h.buffer (h.waits (.inl hpc)) nofun
  | wrote hpc =>
    refine clean_goOn h.buffer (h.waits (.inr (.inl hpc))) ?_
    split <;> exact nofun
  | read hpc hstream => exact h.read (.inr (.inr hpc)) hstream hdrained
  | @failed retried resolve hpc =>
    have hbuffer : ({ s.closeStream with retry := false } : HttpClient).CleanBuffer :=
      cleanBuffer_of_nil hdrained
    unfold fail
    dsimp only
    split
    · exact clean_start hbuffer resolve
    · exact ⟨cleanBuffer_of_nil hdrained, by simp [Waits], nofun⟩
  | close =>
    unfold close
    split
    · next hpc => exact ⟨cleanBuffer_of_nil hdrained, by simp [Waits, closeStream, hpc], by
        simp [closeStream, hpc]⟩
    · next hpc =>
      exact ⟨cleanBuffer_of_nil hdrained, by simp [Waits, closeStream, hpc],
        fun _ => isOpen_closeStream⟩
    · exact ⟨cleanBuffer_of_nil hdrained, by simp [Waits], nofun⟩

/-- A response is parsed from bytes of the connection that its request was sent on. -/
def ParsesOwnBytes (s : HttpClient) : Prop :=
  s.pc = .readingHeader → ∀ b ∈ s.buffer, ∃ stream ∈ s.stream, stream.conn = b.conn

end HttpClient

/-- **When no bytes of a dead connection are parsed.** In every run in which the connection is closed
(by `close`, behind an error, or behind a response without keep-alive) only when the read buffer is
empty, a response is parsed from bytes of its own connection. -/
theorem http_client_buffer {policy : TimeoutPolicy} {s : HttpClient}
    (h : (httpClient policy).Reaches HttpClient.ClosesDrained s) : s.ParsesOwnBytes := by
  have hclean : s.Clean := by
    refine h.invariant ?_ fun s event s' hclean hdrained hstep => hclean.step hdrained hstep
    rintro s rfl
    exact ⟨HttpClient.cleanBuffer_of_nil rfl, by simp [HttpClient.Waits], nofun⟩
  intro _ b hb
  obtain ⟨stream, hstream, -, hconn⟩ := hclean.buffer b hb
  exact ⟨stream, hstream, hconn⟩

/-- A request whose response is read to its end, and the next one on a new connection. -/
theorem http_client_buffer_two :
    ∃ s : HttpClient, (httpClient .overall).Reaches HttpClient.ClosesDrained s ∧
      s.pc = .readingHeader ∧ s.made = 2 ∧ s.ParsesOwnBytes := by
  obtain ⟨s, hreaches, hpc, hmade⟩ : ∃ s : HttpClient,
      (httpClient .overall).Reaches HttpClient.ClosesDrained s ∧ s.pc = .readingHeader ∧
        s.made = 2 := by
    refine ⟨_, .step (a := .wrote true) (.step (a := .connected) (.step (a := .send false false)
      (.step (a := .read (bytes "HTTP/1.1 200 OK") 15 true true false)
      (.step (a := .wrote true) (.step (a := .connected) (.step (a := .send false false)
      (.init rfl) trivial rfl) trivial rfl) trivial rfl) ?_ rfl) trivial rfl) trivial rfl) trivial rfl,
      rfl, rfl⟩
    exact fun _ _ => Nat.le_refl 15
  exact ⟨s, hreaches, hpc, hmade, http_client_buffer hreaches⟩

/-- A response that stops within its header: the next one, on a new connection, is parsed from the
bytes that are left of it. -/
theorem http_client_buffer_partial :
    ¬ ∀ (policy : TimeoutPolicy) (s : HttpClient), (httpClient policy).Reachable s →
      s.ParsesOwnBytes := by
  intro h
  obtain ⟨s, hrun, hpc, hbuffer, hstream⟩ : ∃ s, (httpClient .overall).run {}
      [.send false false, .connected, .wrote true, .read (bytes "H") 0 false false true,
        .failed false false, .send false false, .connected, .wrote true] = some s ∧
      s.pc = .readingHeader ∧ s.buffer = [⟨0, 72⟩] ∧ s.stream = some ⟨1, true, true⟩ :=
    ⟨_, rfl, rfl, rfl, rfl⟩
  have hown := h .overall s (Machine.Reachable.run (.init rfl) hrun) hpc
  obtain ⟨stream, hmem, hconn⟩ := hown _ (by rw [hbuffer]; exact List.mem_cons_self)
  rw [hstream] at hmem
  cases hmem
  cases hconn

namespace HttpClient

variable {policy : TimeoutPolicy} {s s' : HttpClient}

/-! ## Deadlines -/

/-- The deadline of the stream is armed. -/
def Armed (s : HttpClient) : Prop := ∃ stream ∈ s.stream, stream.armed = true

/-- A step that sends no request over a connection that is open already, unless every operation is
timed on its own. -/
def TimesRequests (policy : TimeoutPolicy) (s : HttpClient) : ClientEvent → Prop
  | .send _ _ => policy = .step ∨ s.isOpen = false
  | _ => True

/-- Under `step` every operation arms the deadline. -/
theorem armed_goOn_step (hstream : s.stream.isSome = true) (pc : ClientPc) :
    (s.goOn .step pc).Armed := by
  obtain ⟨stream, hstream⟩ := Option.isSome_iff_exists.1 hstream
  exact ⟨_, Option.mem_map_of_mem _ hstream, rfl⟩

/-- Going on leaves an armed deadline. -/
theorem Armed.goOn (h : s.Armed) (hpolicy : policy ≠ .never) (pc : ClientPc) :
    (s.goOn policy pc).Armed := by
  obtain ⟨stream, hstream, harmed⟩ := h
  refine ⟨_, Option.mem_map_of_mem _ hstream, ?_⟩
  unfold ClientStream.expiresAfter
  cases policy with
  | overall => exact harmed
  | step => rfl
  | never => exact absurd rfl hpolicy

/-- Connecting arms the deadline. -/
theorem armed_connect (hpolicy : policy ≠ .never) (hstream : s.stream.isSome = true) :
    (s.connect policy).Armed := by
  obtain ⟨stream, hstream⟩ := Option.isSome_iff_exists.1 hstream
  refine ⟨_, Option.mem_map_of_mem _ (Option.mem_map_of_mem _ hstream), ?_⟩
  unfold ClientStream.expiresAfter
  cases policy with
  | overall | step => rfl
  | never => exact absurd rfl hpolicy

/-- A request that connects, or times every operation, starts with an armed deadline. -/
theorem armed_start (hpolicy : policy ≠ .never) (hnew : policy = .step ∨ s.isOpen = false)
    (resolve : Bool) : (s.start policy resolve).Waits → (s.start policy resolve).Armed := by
  unfold start
  split
  · next hopen =>
    intro _
    rcases hnew with rfl | hclosed
    · obtain ⟨stream, hstream, -⟩ := isOpen_iff.1 hopen
      exact armed_goOn_step (Option.isSome_iff_exists.2 ⟨stream, hstream⟩) .writing
    · rw [hopen] at hclosed
      cases hclosed
  · dsimp only
    split
    · intro hwaits
      simp [Waits] at hwaits
    · exact fun _ => armed_connect hpolicy rfl

/-- A finished request waits for nothing. -/
theorem not_waits_finish (keepAlive : Bool) : ¬ (s.finish keepAlive).Waits := by
  unfold finish
  cases keepAlive <;> simp [Waits, closeStream]

/-- Every such step leaves the operation that it waits for with a deadline. -/
theorem armed_of_step (hpolicy : policy ≠ .never) (h : s.Waits → s.Armed) {event : ClientEvent}
    (htimes : s.TimesRequests policy event)
    (hstep : (httpClient policy).step s event = some s') : s'.Waits → s'.Armed := by
  intro hwaits
  cases step_inv hstep with
  | @send head resolve hpc =>
    exact armed_start (s := { s with head, retry := true }) hpolicy htimes resolve hwaits
  | resolved hpc hstream =>
    exact armed_connect hpolicy (Option.isSome_iff_exists.2 ⟨_, hstream⟩)
  | connected hpc => exact (h (.inl hpc)).goOn hpolicy .writing
  | wrote hpc => exact (h (.inr (.inl hpc))).goOn hpolicy _
  | read hpc hstream =>
    unfold HttpClient.read at hwaits ⊢
    dsimp only at hwaits ⊢
    split at hwaits
    · exact absurd hwaits (not_waits_finish _)
    · next hdone =>
      rw [if_neg hdone]
      exact (h (.inr (.inr hpc))).goOn hpolicy .readingBody
  | @failed retried resolve hpc =>
    unfold fail at hwaits ⊢
    dsimp only at hwaits ⊢
    split at hwaits
    · next hretry =>
      rw [if_pos hretry]
      exact armed_start (s := { s.closeStream with retry := false }) hpolicy
        (.inr isOpen_closeStream) resolve hwaits
    · simp [Waits] at hwaits
  | close =>
    unfold close at hwaits
    split at hwaits
    · next hpc => simp [Waits, closeStream, hpc] at hwaits
    · next hpc => simp [Waits, closeStream, hpc] at hwaits
    · simp [Waits] at hwaits

end HttpClient

/-- **When no operation waits without a deadline.** Under the policies `overall` and `step`, in every
run in which each request is sent over a new connection or the policy is `step`, a connect, a write
or a read that is pending has an armed deadline. -/
theorem http_client_deadline {policy : TimeoutPolicy} (hpolicy : policy ≠ .never) {s : HttpClient}
    (h : (httpClient policy).Reaches (HttpClient.TimesRequests policy) s) (hwaits : s.Waits) :
    s.Armed := by
  refine h.invariant (I := fun s => s.Waits → s.Armed) ?_ ?_ hwaits
  · rintro s rfl hwaits
    simp [HttpClient.Waits] at hwaits
  · exact fun s event s' harmed htimes hstep =>
      HttpClient.armed_of_step hpolicy harmed htimes hstep

/-- Two requests over one connection under `step`. -/
theorem http_client_deadline_step :
    ∃ s : HttpClient, (httpClient .step).Reaches (HttpClient.TimesRequests .step) s ∧
      s.pc = .writing ∧ s.made = 1 ∧ s.Armed := by
  obtain ⟨s, hreaches, hpc, hmade⟩ : ∃ s : HttpClient,
      (httpClient .step).Reaches (HttpClient.TimesRequests .step) s ∧ s.pc = .writing ∧
        s.made = 1 := by
    refine ⟨_, .step (a := .send false false)
      (.step (a := .read (bytes "HTTP/1.1 200 OK") 15 true true true)
      (.step (a := .wrote true) (.step (a := .connected) (.step (a := .send false false)
      (.init rfl) ?_ rfl) trivial rfl) trivial rfl) trivial rfl) ?_ rfl, rfl, rfl⟩
    · exact .inl rfl
    · exact .inl rfl
  have hpolicy : TimeoutPolicy.step ≠ .never := nofun
  exact ⟨s, hreaches, hpc, hmade, http_client_deadline hpolicy hreaches (.inr (.inl hpc))⟩

/-- Two requests over one connection under `overall`: the second one is written without a
deadline. -/
theorem http_client_deadline_overall :
    ¬ ∀ (policy : TimeoutPolicy) (s : HttpClient), policy ≠ .never →
      (httpClient policy).Reachable s → s.Waits → s.Armed := by
  intro h
  obtain ⟨s, hrun, hpc, hstream⟩ : ∃ s, (httpClient .overall).run {}
      [.send false false, .connected, .wrote true,
        .read (bytes "HTTP/1.1 200 OK") 15 true true true, .send false false] = some s ∧
      s.pc = .writing ∧ s.stream = some ⟨0, true, false⟩ := ⟨_, rfl, rfl, rfl⟩
  obtain ⟨stream, hmem, harmed⟩ :=
    h .overall s nofun (Machine.Reachable.run (.init rfl) hrun) (.inr (.inl hpc))
  rw [hstream] at hmem
  cases hmem
  cases harmed

end Httplib
