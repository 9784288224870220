import Httplib.Lib.Leases
import Httplib.Lib.Machine

/-!
# The pool of clients for one host

`http_client_pool` (`include/httplib/client/client_pool.hpp`) and its handles as a machine: handles are
made by `acquire`, moved, assigned to and destroyed in any order, and the pool may be destroyed before
them. All its clients are for the same host, port and TLS, so that a client is its name, the number of
those made before it. `http_client_pool_leases` says that the pool lends its clients out as `Leases`
does.
-/

namespace Httplib

/-- `http_client_pool` (`client_pool.hpp:6`) and the `ClientHandle`s (`client_pool.hpp:18`) that were
made from it; a handle that was moved from has no client. -/
structure HttpClientPool where
  /-- `pool_.lock()` of a handle succeeds. -/
  alive : Bool := true
  queue : List Nat := []
  handles : List (Option Nat) := []
  /-- The number of clients made so far. -/
  made : Nat := 0

/-- What is done with a pool and its handles. -/
inductive HttpPoolEvent where
  | acquire
  /-- A handle is constructed from another one. -/
  | move (i : Nat)
  /-- A handle is assigned to another one. -/
  | assign (i j : Nat)
  /-- A handle of another pool is assigned to a handle. -/
  | overwrite (i : Nat)
  /-- A handle is destroyed. -/
  | destroy (i : Nat)
  /-- The pool is destroyed. -/
  | destroyPool

namespace HttpClientPool

/-- `acquire` (`client_pool.hpp:79`). -/
def acquire (pool : HttpClientPool) : HttpClientPool :=
  match pool.queue with
  | conn :: rest => { pool with queue := rest, handles := pool.handles ++ [some conn] }
  | [] => { pool with handles := pool.handles ++ [some pool.made], made := pool.made + 1 }

/-- `release` (`client_pool.hpp:93`): a client for which there is no room is destroyed. -/
def release (maxSize : Nat) (pool : HttpClientPool) (conn : Nat) : HttpClientPool :=
  if pool.queue.length < maxSize then { pool with queue := pool.queue ++ [conn] } else pool

/-- `~ClientHandle` (`client_pool.hpp:35`), of a handle with this client. -/
def destroyed (maxSize : Nat) (pool : HttpClientPool) : Option Nat → HttpClientPool
  | some conn => if pool.alive then pool.release maxSize conn else pool
  | none => pool

end HttpClientPool

/-- `http_client_pool`, whose handles keep only a `weak_ptr` to it. The assignment of a handle to
itself does nothing. -/
def httpClientPool (maxSize : Nat) : Machine HttpClientPool HttpPoolEvent where
  init pool := pool = {}
  step pool
    | .acquire => if pool.alive then some pool.acquire else none
    | .move i => pool.handles[i]?.map fun conn =>
      { pool with handles := pool.handles.set i none ++ [conn] }
    | .assign i j => pool.handles[i]?.bind fun _ => pool.handles[j]?.map fun conn =>
      if i = j then pool else { pool with handles := (pool.handles.set i conn).set j none }
    | .overwrite i => pool.handles[i]?.map fun _ =>
      { pool with handles := pool.handles.eraseIdx i }
    | .destroy i => pool.handles[i]?.map fun conn =>
      { pool with handles := pool.handles.eraseIdx i }.destroyed maxSize conn
    | .destroyPool => if pool.alive then some { pool with alive := false, queue := [] } else none

namespace HttpClientPool

/-- The clients of the handles. -/
def held (pool : HttpClientPool) : List Nat := pool.handles.filterMap id

/-- What happens to the clients in a step. -/
def seen (maxSize : Nat) (pool : HttpClientPool) : HttpPoolEvent → List (Lease Nat)
  | .acquire =>
    match pool.queue with
    | conn :: _ => [.reused conn]
    | [] => [.made pool.made]
  | .move _ => []
  -- the client that the handle had is destroyed with the `unique_ptr` that held it
  | .assign i j => if i = j then [] else (pool.handles[i]?.getD none).toList.map .closed
  | .overwrite i => (pool.handles[i]?.getD none).toList.map .closed
  | .destroy i => (pool.handles[i]?.getD none).toList.map
    (if pool.alive = true ∧ pool.queue.length < maxSize then .stored else .closed)
  | .destroyPool => pool.queue.map .dropped

variable {maxSize : Nat} {pool pool' : HttpClientPool} {log : List (Lease Nat)}

/-- A handle that is set to another client. -/
theorem filterMap_set_perm {handles : List (Option Nat)} {i : Nat} {conn : Option Nat}
    (h : handles[i]? = some conn) (conn' : Option Nat) :
    (conn.toList ++ (handles.set i conn').filterMap id).Perm (conn'.toList ++ handles.filterMap id) := by
  obtain ⟨hi, rfl⟩ := List.getElem?_eq_some_iff.1 h
  have hset := (List.set_perm_cons_eraseIdx hi conn').filterMap id
  have hself := (List.getElem_cons_eraseIdx_perm hi).filterMap id
  rw [List.perm_iff_count] at hset hself ⊢
  intro id
  have hset' := hset id
  have hself' := hself id
  cases hconn : handles[i] <;> cases conn' <;>
    simp [hconn, List.count_cons] at hset' hself' ⊢ <;> omega

/-- A handle and the others. -/
theorem held_perm {i : Nat} {conn : Option Nat} (h : pool.handles[i]? = some conn) :
    pool.held.Perm (conn.toList ++ (pool.handles.eraseIdx i).filterMap id) := by
  obtain ⟨hi, rfl⟩ := List.getElem?_eq_some_iff.1 h
  have hperm := (List.getElem_cons_eraseIdx_perm hi).symm.filterMap id
  cases hconn : pool.handles[i] with
  | none => simpa [held, hconn, List.filterMap_cons] using hperm
  | some _ => simpa [held, hconn, List.filterMap_cons] using hperm

/-- A client leaves its handle for good. -/
theorem closed_leases {idle lent rest : List Nat} {conn : Option Nat} (h : Leases maxSize idle lent log)
    (hperm : lent.Perm (conn.toList ++ rest)) :
    Leases maxSize idle rest (log ++ conn.toList.map .closed) := by
  cases conn with
  | none => exact (List.append_nil log).symm ▸ h.perm hperm
  | some conn => exact (h.perm hperm).closed

/-- What the pool has done so far. -/
structure Accounted (maxSize : Nat) (pool : HttpClientPool) (log : List (Lease Nat)) : Prop where
  leases : Leases maxSize pool.queue pool.held log
  made : log.filterMap Lease.asMade = List.range pool.made
  /-- Nothing is idle in a pool that was destroyed. -/
  ended : pool.alive = false → pool.queue = []

/-- A step in which no client is made. -/
theorem Accounted.next (h : Accounted maxSize pool log) {more : List (Lease Nat)}
    (hleases : Leases maxSize pool'.queue pool'.held (log ++ more))
    (hnone : more.filterMap Lease.asMade = []) (hmade : pool'.made = pool.made)
    (hover : pool'.alive = false → pool'.queue = []) : Accounted maxSize pool' (log ++ more) := by
  refine ⟨hleases, ?_, hover⟩
  rw [List.filterMap_append, hnone, List.append_nil, hmade]
  exact h.made

/-- `acquire` lends the client that waits longest, or a new one. -/
theorem Accounted.acquire (h : Accounted maxSize pool log) (halive : pool.alive = true) :
    Accounted maxSize pool.acquire (log ++ pool.seen maxSize .acquire) := by
  have hlent : ∀ conn : Nat, (conn :: pool.held).Perm ((pool.handles ++ [some conn]).filterMap id) := by
    intro conn
    rw [List.filterMap_append]
    exact List.perm_append_singleton conn _ |>.symm
  rw [HttpClientPool.acquire, seen]
  have hleases := h.leases
  cases hqueue : pool.queue with
  | nil =>
    rw [hqueue] at hleases
    have hnew : pool.made ∉ log.filterMap Lease.asMade := by
      rw [h.made]
      exact List.not_mem_range_self
    refine ⟨(hleases.made hnew).perm (hlent _), ?_, fun hover => absurd (halive.symm.trans hover) nofun⟩
    rw [List.filterMap_append, h.made]
    exact List.range_succ.symm
  | cons conn rest =>
    rw [hqueue] at hleases
    exact h.next (hleases.reused.perm (hlent conn)) rfl rfl fun hover =>
      absurd (halive.symm.trans hover) nofun

/-- The end of a handle. -/
theorem Accounted.destroy (h : Accounted maxSize pool log) {i : Nat} {conn : Option Nat}
    (hi : pool.handles[i]? = some conn) :
    Accounted maxSize ({ pool with handles := pool.handles.eraseIdx i }.destroyed maxSize conn)
      (log ++ pool.seen maxSize (.destroy i)) := by
  have hperm := held_perm hi
  rw [seen, hi, Option.getD_some]
  cases conn with
  | none => exact h.next ((List.append_nil log).symm ▸ h.leases.perm hperm) rfl rfl h.ended
  | some conn =>
    have hleases := h.leases.perm hperm
    rw [destroyed]
    cases halive : pool.alive with
    | false => exact h.next hleases.closed rfl rfl fun _ => h.ended halive
    | true =>
      have hnot : ∀ queue : List Nat, true = false → queue = [] := fun _ => nofun
      rw [if_pos rfl, release]
      split
      · next hroom =>
        rw [if_pos ⟨rfl, hroom⟩]
        exact h.next (hleases.stored hroom) rfl rfl (hnot _)
      · next hfull =>
        rw [if_neg fun hroom => hfull hroom.2]
        exact h.next hleases.closed rfl rfl (hnot _)

/-- A step of the pool. -/
theorem Accounted.step (h : Accounted maxSize pool log) {event : HttpPoolEvent}
    (hstep : (httpClientPool maxSize).step pool event = some pool') :
    Accounted maxSize pool' (log ++ pool.seen maxSize event) := by
  cases event with
  | acquire =>
    obtain ⟨halive, hstep⟩ := Option.ite_none_right_eq_some.1 hstep
    cases hstep
    exact h.acquire halive
  | move i =>
    obtain ⟨conn, hi, rfl⟩ := Option.map_eq_some_iff.1 hstep
    have hperm : pool.held.Perm ((pool.handles.set i none ++ [conn]).filterMap id) := by
      have hset := filterMap_set_perm hi none
      rw [List.filterMap_append]
      refine hset.symm.trans (List.perm_append_comm.trans ?_)
      cases conn <;> exact .refl _
    exact h.next ((List.append_nil log).symm ▸ h.leases.perm hperm) rfl rfl h.ended
  | assign i j =>
    obtain ⟨conn, hi, hstep⟩ := Option.bind_eq_some_iff.1 hstep
    obtain ⟨conn', hj, rfl⟩ := Option.map_eq_some_iff.1 hstep
    rw [seen, hi, Option.getD_some]
    split
    · exact h.next ((List.append_nil log).symm ▸ h.leases) rfl rfl h.ended
    · next hne =>
      have hj' : (pool.handles.set i conn')[j]? = some conn' := by rw [List.getElem?_set_ne hne, hj]
      have hperm : pool.held.Perm
          (conn.toList ++ ((pool.handles.set i conn').set j none).filterMap id) := by
        have hset := filterMap_set_perm hi conn'
        have hset' := filterMap_set_perm hj' none
        refine (List.perm_append_left_iff conn'.toList).1 (hset.symm.trans ?_)
        refine .trans (.append_left _ hset'.symm) ?_
        rw [← List.append_assoc, ← List.append_assoc]
        exact .append_right _ List.perm_append_comm
      refine h.next (closed_leases h.leases hperm) ?_ rfl h.ended
      cases conn <;> rfl
  | overwrite i =>
    obtain ⟨conn, hi, rfl⟩ := Option.map_eq_some_iff.1 hstep
    rw [seen, hi, Option.getD_some]
    refine h.next (closed_leases h.leases (held_perm hi)) ?_ rfl h.ended
    cases conn <;> rfl
  | destroy i =>
    obtain ⟨conn, hi, rfl⟩ := Option.map_eq_some_iff.1 hstep
    exact h.destroy hi
  | destroyPool =>
    obtain ⟨halive, hstep⟩ := Option.ite_none_right_eq_some.1 hstep
    cases hstep
    exact h.next h.leases.dropped (Leases.filterMap_dropped_none (fun _ => rfl) _) rfl fun _ => rfl

end HttpClientPool

open HttpClientPool in
/-- **The pool lends its clients.** Whatever is done with the pool and its handles, each client that was
made is idle in the queue, in one handle, or destroyed, and none of them twice; the queue never holds more
than `max_size` clients; the clients leave it in the order in which they came back; a client is made only
when none is idle, all that were stored having left the queue, so that there are never more open than
handles had at one time; and a pool that is destroyed has closed what was idle. -/
theorem http_client_pool_leases (maxSize : Nat) {pool : HttpClientPool} {log : List (Lease Nat)}
    (h : ((httpClientPool maxSize).logged (seen maxSize)).Reachable (pool, log)) :
    (pool.queue ++ pool.held ++ log.filterMap Lease.asGone).Perm (List.range pool.made) ∧
    pool.queue.length ≤ maxSize ∧
    log.filterMap Lease.asStored = log.filterMap Lease.asLeft ++ pool.queue ∧
    (∀ before conn after, log = before ++ .made conn :: after →
      before.filterMap Lease.asStored = before.filterMap Lease.asLeft) ∧
    (∃ before, before <+: log ∧
      pool.queue.length + pool.held.length + (before.filterMap Lease.asBack).length ≤
        (before.filterMap Lease.asLent).length) ∧
    (pool.alive = false → pool.queue = []) := by
  have haccounted : Accounted maxSize pool log := by
    refine h.log_invariant (I := Accounted maxSize) ?_ fun _ _ _ _ hs hstep => hs.step hstep
    rintro _ rfl
    exact ⟨.nil, rfl, fun _ => rfl⟩
  have hplaces := haccounted.leases.places
  rw [haccounted.made] at hplaces
  exact ⟨hplaces, haccounted.leases.length_idle, haccounted.leases.order,
    fun _ _ _ hlog => haccounted.leases.made_idle hlog, haccounted.leases.peak, haccounted.ended⟩

/-- Two clients are lent, one is overwritten by the other, and that one is lent again. -/
theorem http_client_pool_leases_two :
    ∃ log : List (Lease Nat), log.length = 5 ∧
      ([] ++ [1] ++ log.filterMap Lease.asGone).Perm (List.range 2) := by
  have hrun : ∃ pool log, ((httpClientPool 10).logged (HttpClientPool.seen 10)).run ({}, [])
      [.acquire, .acquire, .assign 0 1, .destroy 1, .destroy 0, .acquire] = some (pool, log) ∧
      pool.queue = [] ∧ pool.held = [1] ∧ pool.made = 2 ∧ log.length = 5 :=
    ⟨_, _, rfl, rfl, rfl, rfl, rfl⟩
  obtain ⟨pool, log, hrun, hqueue, hheld, hmade, hlength⟩ := hrun
  have hbegin : ((httpClientPool 10).logged (HttpClientPool.seen 10)).Reachable ({}, []) :=
    .init ⟨rfl, rfl⟩
  have hplaces := (http_client_pool_leases 10 (hbegin.run hrun)).1
  rw [hqueue, hheld, hmade] at hplaces
  exact ⟨log, hlength, hplaces⟩

end Httplib
