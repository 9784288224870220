import Httplib.Lib.Machine
import Mathlib.Data.List.Basic

/-!
# Stopping the server

`http_server::impl` (`lib/server/server_impl.cpp`) with its sessions as a machine: the accept loops,
the coroutines of `handle_accept`, the switches from task to task in `session::run`, and the two
sweeps over `session_map_`, by `stop` and at the end of `co_run`. `http_server_stop` says in which
runs the sweeps reach every connection.
-/

namespace Httplib

/-- What a session is doing: the type of its task (`session.hpp:30`), and whether the WebSocket
stream is open. -/
inductive SessionTask where
  | detectSsl
  | sslHandshake
  | http
  | httpProxy
  | websocket (isOpen : Bool)
  deriving DecidableEq

/-- The tasks that `then` may return (`session.cpp:80`, `:146`, `:151`, `:201`, `:206`). -/
def SessionTask.mayReturn : SessionTask → SessionTask → Bool
  | .detectSsl, .sslHandshake | .detectSsl, .http | .sslHandshake, .http | .http, .httpProxy
  | .http, .websocket false => true
  | _, _ => false

/-- `session` (`session.hpp:18`). -/
structure Session where
  task : SessionTask := .detectSsl
  /-- `abort_`. -/
  aborted : Bool := false
  /-- The transport is closed, or has failed. -/
  closed : Bool := false
  /-- A close action was pushed to the queue of the WebSocket connection. -/
  closeQueued : Bool := false

namespace Session

/-- `session::abort` (`session.cpp:103`) with the `abort` of its task (`:85`, `:154`, `:283`, `:372`,
`:423`): the TLS shutdown leaves the transport open, and a WebSocket stream that is not open is left
alone. -/
def abort (s : Session) : Session :=
  if s.aborted then s
  else match s.task with
    | .detectSsl | .http | .httpProxy => { s with aborted := true, closed := true }
    | .sslHandshake | .websocket false => { s with aborted := true }
    | .websocket true => { s with aborted := true, closeQueued := true }

/-- The session does not serve its peer any more, or will stop to. -/
def Stopped (s : Session) : Prop := s.closed = true ∨ s.closeQueued = true

/-- A session in the handshake of TLS or of a WebSocket. -/
def Handshaking (s : Session) : Prop :=
  s.closed = false ∧ (s.task = .sslHandshake ∨ s.task = .websocket false)

end Session

/-- `http_server::impl` (`server_impl.h:19`) while `co_run` runs. -/
structure HttpServer where
  /-- The calls of `co_accept` in `async_accept`. -/
  accepting : Nat := 32
  /-- The calls of `co_accept` whose `async_accept` has completed with a socket. -/
  accepted : Nat := 0
  /-- The coroutines of `handle_accept` that have not started yet. -/
  spawned : Nat := 0
  /-- `session_map_`. -/
  sessions : List Session := []
  acceptorOpen : Bool := true
  /-- `stop` has returned. -/
  stopped : Bool := false
  /-- `co_run` has finished. -/
  finished : Bool := false

/-- A step of the server or of one of its sessions. -/
inductive ServerEvent where
  | acceptCompleted
  /-- `co_accept` spawns `handle_accept` and goes on to `async_accept`. -/
  | spawn
  /-- `async_accept` fails, and `co_accept` ends. -/
  | acceptFailed
  /-- `handle_accept` enters its session into the map. -/
  | start
  | stop
  /-- All calls of `co_accept` have ended, and `co_run` ends. -/
  | finish
  /-- `then` returns the next task, which the session takes over. -/
  | switch (i : Nat) (next : SessionTask)
  /-- The WebSocket handshake is complete. -/
  | handshake (i : Nat)
  /-- A read of the WebSocket stream fails. -/
  | readFailed (i : Nat)
  /-- `run` ends, and `handle_accept` removes the session. -/
  | ended (i : Nat)
  deriving DecidableEq

namespace HttpServer

/-- The sweep over `session_map_` (`server_impl.cpp:71`, `:90`). -/
def sweep (server : HttpServer) : HttpServer :=
  { server with sessions := server.sessions.map Session.abort }

/-- The end of a task in `session::run` (`session.cpp:116`): an aborted session leaves the loop. -/
def switch (server : HttpServer) (i : Nat) (next : SessionTask) (s : Session) : HttpServer :=
  { server with
    sessions :=
      if s.aborted then server.sessions.eraseIdx i
      else server.sessions.set i { s with task := next } }

end HttpServer

/-- `http_server::impl` from the start of `co_run`. -/
def httpServer : Machine HttpServer ServerEvent where
  init server := server = {}
  step server
    | .acceptCompleted =>
      if server.acceptorOpen ∧ server.accepting ≠ 0 then
        some { server with accepting := server.accepting - 1, accepted := server.accepted + 1 }
      else none
    | .spawn =>
      if server.accepted = 0 then none
      else some { server with
        accepted := server.accepted - 1
        spawned := server.spawned + 1
        accepting := server.accepting + 1 }
    | .acceptFailed =>
      if server.accepting = 0 then none
      else some { server with accepting := server.accepting - 1 }
    | .start =>
      if server.spawned = 0 then none
      else some { server with
        spawned := server.spawned - 1
        sessions := server.sessions ++ [{}] }
    | .stop => some { server.sweep with acceptorOpen := false, stopped := true }
    | .finish =>
      if server.accepting = 0 ∧ server.accepted = 0 ∧ ¬ server.finished then
        some { server.sweep with finished := true }
      else none
    | .switch i next =>
      match server.sessions[i]? with
      | some s => if s.task.mayReturn next then some (server.switch i next s) else none
      | none => none
    | .handshake i =>
      match server.sessions[i]? with
      | some s =>
        if s.task = .websocket false ∧ ¬ s.closed then
          some { server with sessions := server.sessions.set i { s with task := .websocket true } }
        else none
      | none => none
    | .readFailed i =>
      match server.sessions[i]? with
      | some s =>
        if s.task = .websocket true then
          some { server with
            sessions := server.sessions.set i { s with task := .websocket false, closed := true } }
        else none
      | none => none
    | .ended i =>
      if i < server.sessions.length then
        some { server with sessions := server.sessions.eraseIdx i }
      else none

namespace HttpServer

/-- A step that no session escapes: no sweep finds a session in a handshake, and none is entered into
the map behind both sweeps. -/
def Reaching (server : HttpServer) : ServerEvent → Prop
  | .stop | .finish => ∀ s ∈ server.sessions, s.aborted = false → ¬ s.Handshaking
  | .start => ¬ (server.stopped = true ∧ server.finished = true)
  | _ => True

/-- What holds between the steps: a session that was aborted is stopped, and behind both sweeps every
session was aborted. -/
structure Inv (server : HttpServer) : Prop where
  aborted : ∀ s ∈ server.sessions, s.aborted = true → s.Stopped
  swept : server.stopped = true → server.finished = true →
    ∀ s ∈ server.sessions, s.aborted = true

/-- Sessions may leave, and change without losing what has stopped them. -/
theorem Inv.of_sessions {server server' : HttpServer} (h : server.Inv)
    (hstopped : server'.stopped = server.stopped) (hfinished : server'.finished = server.finished)
    (hsessions : ∀ s ∈ server'.sessions, ∃ s' ∈ server.sessions, s.aborted = s'.aborted ∧
      (s'.Stopped → s.Stopped)) : server'.Inv := by
  constructor
  · intro s hs haborted
    obtain ⟨s', hs', hsame, hkeep⟩ := hsessions s hs
    exact hkeep (h.aborted s' hs' (hsame ▸ haborted))
  · intro hstop hfinish s hs
    obtain ⟨s', hs', hsame, -⟩ := hsessions s hs
    rw [hsame]
    exact h.swept (hstopped ▸ hstop) (hfinished ▸ hfinish) s' hs'

/-- A sweep aborts every session, and stops those that are in no handshake. -/
theorem Inv.sweep {server : HttpServer} (h : server.Inv)
    (hreaching : ∀ s ∈ server.sessions, s.aborted = false → ¬ s.Handshaking) :
    ∀ s ∈ server.sweep.sessions, s.aborted = true ∧ s.Stopped := by
  intro s hs
  obtain ⟨s', hs', rfl⟩ := List.mem_map.1 hs
  unfold Session.abort
  split
  · next haborted => exact ⟨haborted, h.aborted s' hs' haborted⟩
  · next hnot =>
    have hclosed : s'.task = .sslHandshake ∨ s'.task = .websocket false → s'.closed = true := by
      intro htask
      by_contra hopen
      exact hreaching s' hs' (Bool.eq_false_iff.2 hnot) ⟨Bool.eq_false_iff.2 hopen, htask⟩
    split
    · exact ⟨rfl, .inl rfl⟩
    · exact ⟨rfl, .inl rfl⟩
    · exact ⟨rfl, .inl rfl⟩
    · next htask => exact ⟨rfl, .inl (hclosed (.inl htask))⟩
    · next htask => exact ⟨rfl, .inl (hclosed (.inr htask))⟩
    · exact ⟨rfl, .inr rfl⟩

/-- One session is replaced by what it has become. -/
theorem Inv.set {server : HttpServer} (h : server.Inv) {i : Nat} {s s' : Session}
    (hi : server.sessions[i]? = some s) (haborted : s'.aborted = s.aborted)
    (hstopped : s.Stopped → s'.Stopped) :
    ({ server with sessions := server.sessions.set i s' } : HttpServer).Inv := by
  refine h.of_sessions rfl rfl fun other hother => ?_
  rcases List.mem_or_eq_of_mem_set hother with hold | rfl
  · exact ⟨other, hold, rfl, id⟩
  · exact ⟨s, List.mem_of_getElem? hi, haborted, hstopped⟩

theorem Inv.eraseIdx {server : HttpServer} (h : server.Inv) (i : Nat) :
    ({ server with sessions := server.sessions.eraseIdx i } : HttpServer).Inv :=
  h.of_sessions rfl rfl fun s hs => ⟨s, List.mem_of_mem_eraseIdx hs, rfl, id⟩

/-- Every step that no session escapes keeps the invariant. -/
theorem Inv.step {server server' : HttpServer} (h : server.Inv) {event : ServerEvent}
    (hreaching : server.Reaching event) (hstep : httpServer.step server event = some server') :
    server'.Inv := by
  have hsame : ∀ {server' : HttpServer}, server'.stopped = server.stopped →
      server'.finished = server.finished → server'.sessions = server.sessions → server'.Inv :=
    fun hstopped hfinished hsessions => h.of_sessions hstopped hfinished
      fun s hs => ⟨s, hsessions ▸ hs, rfl, id⟩
  cases event with
  | acceptCompleted =>
    simp only [httpServer] at hstep
    split at hstep
    · cases hstep; exact hsame rfl rfl rfl
    · cases hstep
  | spawn | acceptFailed =>
    simp only [httpServer] at hstep
    split at hstep
    · cases hstep
    · cases hstep; exact hsame rfl rfl rfl
  | start =>
    simp only [httpServer] at hstep
    split at hstep
    · cases hstep
    · cases hstep
      refine ⟨fun s hs haborted => ?_, fun hstop hfinish => absurd ⟨hstop, hfinish⟩ hreaching⟩
      rcases List.mem_append.1 hs with hs | hs
      · exact h.aborted s hs haborted
      · cases List.mem_singleton.1 hs
        cases haborted
  | stop =>
    cases hstep
    have hswept := h.sweep hreaching
    exact ⟨fun s hs _ => (hswept s hs).2, fun _ _ s hs => (hswept s hs).1⟩
  | finish =>
    simp only [httpServer] at hstep
    split at hstep
    · cases hstep
      have hswept := h.sweep hreaching
      exact ⟨fun s hs _ => (hswept s hs).2, fun _ _ s hs => (hswept s hs).1⟩
    · cases hstep
  | switch i next =>
    simp only [httpServer] at hstep
    split at hstep
    · next s hi =>
      split at hstep
      · cases hstep
        unfold switch
        split
        · exact h.eraseIdx i
        · exact h.set hi rfl id
      · cases hstep
    · cases hstep
  | handshake i =>
    simp only [httpServer] at hstep
    split at hstep
    · next s hi =>
      split at hstep
      · cases hstep
        exact h.set hi rfl id
      · cases hstep
    · cases hstep
  | readFailed i =>
    simp only [httpServer] at hstep
    split at hstep
    · next s hi =>
      split at hstep
      · cases hstep
        exact h.set hi rfl fun _ => .inl rfl
      · cases hstep
    · cases hstep
  | ended i =>
    simp only [httpServer] at hstep
    split at hstep
    · cases hstep; exact h.eraseIdx i
    · cases hstep

end HttpServer

/-- **When stopping reaches every connection.** In every run in which no sweep finds a session in a
handshake of TLS or of a WebSocket, and no session is entered into the map behind both sweeps: once
`stop` has returned and `co_run` has finished, every session in the map is closed or has a close
action queued. -/
theorem http_server_stop {server : HttpServer}
    (h : httpServer.Reaches HttpServer.Reaching server) (hstopped : server.stopped = true)
    (hfinished : server.finished = true) : ∀ s ∈ server.sessions, s.Stopped := by
  have hinv : server.Inv := by
    refine h.invariant ?_ fun server event server' hinv hreaching hstep =>
      hinv.step hreaching hstep
    rintro server rfl
    exact ⟨fun _ => nofun, fun _ _ _ => nofun⟩
  exact fun s hs => hinv.aborted s hs (hinv.swept hstopped hfinished s hs)

/-- A session that is closed by `stop`, while the calls of `co_accept` are still to end. -/
theorem http_server_stop_one :
    ∃ server : HttpServer, httpServer.Reaches HttpServer.Reaching server ∧
      server.stopped = true ∧ server.finished = true ∧ server.sessions.length = 1 ∧
      ∀ s ∈ server.sessions, s.Stopped := by
  have hstop : httpServer.Reaches HttpServer.Reaching
      { sessions := [{ aborted := true, closed := true }], acceptorOpen := false,
        stopped := true } := by
    refine .step (a := .stop) (.step (a := .start) (.step (a := .spawn)
      (.step (a := .acceptCompleted) (.init rfl) trivial rfl) trivial rfl) ?_ rfl) ?_ rfl
    · exact fun hboth => Bool.false_ne_true hboth.1
    · intro s hs _ hhandshaking
      cases List.mem_singleton.1 hs
      rcases hhandshaking.2 with htask | htask <;> cases htask
  obtain ⟨server, hserver, hstopped, hfinished, hlength⟩ : ∃ server : HttpServer,
      httpServer.Reaches HttpServer.Reaching server ∧ server.stopped = true ∧
        server.finished = true ∧ server.sessions.length = 1 := by
    refine ⟨_, .step (a := .finish) (hstop.run (l := List.replicate 32 .acceptFailed) ?_ rfl) ?_ rfl,
      rfl, rfl, rfl⟩
    · intro event hevent server
      rw [List.eq_of_mem_replicate hevent]
      trivial
    · intro s hs haborted
      cases List.mem_singleton.1 hs
      cases haborted
  exact ⟨server, hserver, hstopped, hfinished, hlength,
    http_server_stop hserver hstopped hfinished⟩

/-- A connection whose `handle_accept` starts behind both sweeps: it is served as if nothing had been
stopped. -/
theorem http_server_stop_late :
    ¬ ∀ server : HttpServer, httpServer.Reachable server → server.stopped = true →
      server.finished = true → ∀ s ∈ server.sessions, s.Stopped := by
  intro h
  obtain ⟨server, hrun, hstopped, hfinished, hsessions⟩ : ∃ server, httpServer.run {}
      ([.acceptCompleted, .spawn, .stop] ++ List.replicate 32 .acceptFailed ++ [.finish, .start]) =
        some server ∧ server.stopped = true ∧ server.finished = true ∧ server.sessions = [{}] :=
    ⟨_, rfl, rfl, rfl, rfl⟩
  have hstop := h server (Machine.Reachable.run (.init rfl) hrun) hstopped hfinished {}
    (by rw [hsessions]; exact List.mem_cons_self)
  rcases hstop with hclosed | hqueued
  · cases hclosed
  · cases hqueued

end Httplib
