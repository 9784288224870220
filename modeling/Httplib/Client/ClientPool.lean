import Httplib.Lib.Machine
import Httplib.Util.Misc
import Mathlib.Data.List.Nodup
import Mathlib.Data.List.Perm.Basic
import Mathlib.Logic.Function.Basic

/-!
# The pool of clients for several hosts

`multi_http_client_pool` (`include/httplib/client/multi_client_pool.hpp`) as a machine: `acquire`,
and the end or the overwriting of a handle. A client is never in two places (`ClientPool.Places`),
whatever the callers do; that a queue holds only clients of its key is another matter, because
`acquire` makes the key of what it is asked for and `release` of what the client tells, which leaves
out TLS: `client_pool_separate`.
-/

namespace Httplib

/-- `multi_http_client_pool::ConnectionInfo` (`multi_client_pool.hpp:14`). -/
structure ConnectionInfo where
  host : Bytes
  port : UInt16
  ssl : Bool
  deriving DecidableEq

/-- What the pool knows of an `http_client`, under a name of its own. -/
structure PooledClient where
  id : Nat
  host : Bytes
  port : UInt16
  useSsl : Bool

namespace PooledClient

/-- What the client was made for. -/
def info (conn : PooledClient) : ConnectionInfo :=
  { host := conn.host, port := conn.port, ssl := conn.useSsl }

/-- The key that `release` computes (`multi_client_pool.hpp:108`): the aggregate has no initializer
for `ssl`. -/
def releaseKey (conn : PooledClient) : ConnectionInfo :=
  { host := conn.host, port := conn.port, ssl := false }

end PooledClient

/-- `multi_http_client_pool::ClientHandle` (`multi_client_pool.hpp:49`), with what was asked for. -/
structure ClientHandle where
  asked : ConnectionInfo
  conn : PooledClient

/-- `multi_http_client_pool` (`multi_client_pool.hpp:11`) and the handles that own a client. A key
without an entry in `pools_` has the empty queue. -/
structure ClientPool where
  pools : ConnectionInfo → List PooledClient := fun _ => []
  handles : List ClientHandle := []
  /-- The number of clients made so far. -/
  made : Nat := 0

/-- What a caller does with the pool. -/
inductive PoolEvent where
  | acquire (info : ConnectionInfo)
  /-- A handle is destroyed. -/
  | release (i : Nat)
  /-- A handle is assigned to, which destroys the client it owns. -/
  | overwrite (i : Nat)

namespace ClientPool

/-- `acquire` (`multi_client_pool.hpp:89`). -/
def acquire (pool : ClientPool) (info : ConnectionInfo) : ClientPool :=
  match pool.pools info with
  | conn :: rest =>
    { pool with
      pools := Function.update pool.pools info rest
      handles := pool.handles ++ [{ asked := info, conn }] }
  | [] =>
    let conn := { id := pool.made, host := info.host, port := info.port, useSsl := info.ssl }
    { pool with handles := pool.handles ++ [{ asked := info, conn }], made := pool.made + 1 }

/-- `release` (`multi_client_pool.hpp:105`): a client for which there is no room is destroyed. -/
def release (maxSize : Nat) (pool : ClientPool) (conn : PooledClient) : ClientPool :=
  let key := conn.releaseKey
  if (pool.pools key).length < maxSize then
    { pool with pools := Function.update pool.pools key (pool.pools key ++ [conn]) }
  else pool

end ClientPool

/-- `multi_http_client_pool` and its callers. -/
def clientPool (maxSize : Nat) : Machine ClientPool PoolEvent where
  init pool := pool = {}
  step pool
    | .acquire info => some (pool.acquire info)
    | .release i => pool.handles[i]?.map fun handle =>
      { pool with handles := pool.handles.eraseIdx i }.release maxSize handle.conn
    | .overwrite i => pool.handles[i]?.map fun _ =>
      { pool with handles := pool.handles.eraseIdx i }

namespace ClientPool

variable {maxSize : Nat} {pool pool' : ClientPool}

/-- `Move maxSize pool event pool'`: what a pool does at an event. -/
inductive Move (maxSize : Nat) (pool : ClientPool) : PoolEvent → ClientPool → Prop
  | reused {info conn rest} : pool.pools info = conn :: rest →
      Move maxSize pool (.acquire info)
        { pool with
          pools := Function.update pool.pools info rest
          handles := pool.handles ++ [{ asked := info, conn }] }
  | made {info} : pool.pools info = [] →
      Move maxSize pool (.acquire info)
        { pool with
          handles := pool.handles ++ [⟨info, ⟨pool.made, info.host, info.port, info.ssl⟩⟩]
          made := pool.made + 1 }
  | stored {i handle} : pool.handles[i]? = some handle →
      (pool.pools handle.conn.releaseKey).length < maxSize →
      Move maxSize pool (.release i)
        { pool with
          pools := Function.update pool.pools handle.conn.releaseKey
            (pool.pools handle.conn.releaseKey ++ [handle.conn])
          handles := pool.handles.eraseIdx i }
  | dropped {i handle} : pool.handles[i]? = some handle →
      maxSize ≤ (pool.pools handle.conn.releaseKey).length →
      Move maxSize pool (.release i) { pool with handles := pool.handles.eraseIdx i }
  | overwritten {i handle} : pool.handles[i]? = some handle →
      Move maxSize pool (.overwrite i) { pool with handles := pool.handles.eraseIdx i }

/-- A step is a move. -/
theorem step_inv {event : PoolEvent} (hstep : (clientPool maxSize).step pool event = some pool') :
    Move maxSize pool event pool' := by
  cases event with
  | acquire info =>
    cases hstep
    unfold acquire
    split
    · next hqueue => exact .reused hqueue
    · next hqueue => exact .made hqueue
  | release i =>
    obtain ⟨handle, hi, rfl⟩ := Option.map_eq_some_iff.1 hstep
    unfold release
    dsimp only
    split
    · next hroom => exact .stored hi hroom
    · next hfull => exact .dropped hi (Nat.not_lt.1 hfull)
  | overwrite i =>
    obtain ⟨handle, hi, rfl⟩ := Option.map_eq_some_iff.1 hstep
    exact .overwritten hi

/-! ## A client is in one place -/

/-- Where a client is. -/
inductive Place where
  /-- Destroyed, or not made yet. -/
  | nowhere
  | queued (info : ConnectionInfo)
  | held

/-- Each client that was made is in the place that `place` gives for its name, once. -/
structure Places (pool : ClientPool) (place : Nat → Place) : Prop where
  fresh : ∀ id, pool.made ≤ id → place id = .nowhere
  queuedNodup : ∀ info, ((pool.pools info).map PooledClient.id).Nodup
  queued : ∀ info, ∀ conn ∈ pool.pools info, place conn.id = .queued info
  heldNodup : (pool.handles.map fun handle => handle.conn.id).Nodup
  held : ∀ handle ∈ pool.handles, place handle.conn.id = .held

theorem places_empty : ({} : ClientPool).Places fun _ => .nowhere :=
  ⟨fun _ _ => rfl, fun _ => List.nodup_nil, fun _ _ => nofun, List.nodup_nil, fun _ => nofun⟩

/-- A client that is not where it was may be put into a handle. -/
theorem Places.hold {place : Nat → Place} (h : pool.Places place) (handle : ClientHandle)
    (hqueued : ∀ info, ∀ conn ∈ pool.pools info, conn.id ≠ handle.conn.id)
    (hheld : ∀ other ∈ pool.handles, other.conn.id ≠ handle.conn.id)
    {made : Nat} (hmade : pool.made ≤ made) (hid : handle.conn.id < made) :
    ({ pool with handles := pool.handles ++ [handle], made } : ClientPool).Places
      (Function.update place handle.conn.id .held) where
  fresh id hle := by
    rw [Function.update_of_ne (Nat.lt_of_lt_of_le hid hle).ne']
    exact h.fresh id (Nat.le_trans hmade hle)
  queuedNodup := h.queuedNodup
  queued info conn hconn := by
    rw [Function.update_of_ne (hqueued info conn hconn)]
    exact h.queued info conn hconn
  heldNodup := by
    rw [List.map_append, List.nodup_append]
    refine ⟨h.heldNodup, List.nodup_singleton _, ?_⟩
    intro id hid id' hid'
    obtain ⟨other, hother, rfl⟩ := List.mem_map.1 hid
    cases List.mem_singleton.1 hid'
    exact hheld other hother
  held other hother := by
    rcases List.mem_append.1 hother with hother | hother
    · rw [Function.update_of_ne (hheld other hother)]
      exact h.held other hother
    · cases List.mem_singleton.1 hother
      exact Function.update_self ..

/-- The first client of a queue leaves it. -/
theorem Places.pop {place : Nat → Place} (h : pool.Places place) {info : ConnectionInfo}
    {conn : PooledClient} {rest : List PooledClient} (hqueue : pool.pools info = conn :: rest) :
    ({ pool with pools := Function.update pool.pools info rest } : ClientPool).Places
      (Function.update place conn.id .nowhere) ∧
    (∀ info', ∀ other ∈ Function.update pool.pools info rest info', other.id ≠ conn.id) ∧
    (∀ handle ∈ pool.handles, handle.conn.id ≠ conn.id) ∧ conn.id < pool.made := by
  have hconn : place conn.id = .queued info :=
    h.queued info conn (by rw [hqueue]; exact List.mem_cons_self)
  have hnodup := h.queuedNodup info
  rw [hqueue, List.map_cons, List.nodup_cons] at hnodup
  have hother : ∀ info', ∀ other ∈ Function.update pool.pools info rest info',
      other ∈ pool.pools info' ∧ other.id ≠ conn.id := by
    intro info' other hother
    rcases eq_or_ne info' info with rfl | hne
    · rw [Function.update_self] at hother
      exact ⟨by rw [hqueue]; exact List.mem_cons_of_mem _ hother,
        fun heq => hnodup.1 (heq ▸ List.mem_map_of_mem hother)⟩
    · rw [Function.update_of_ne hne] at hother
      refine ⟨hother, fun heq => hne ?_⟩
      have hplace := h.queued info' other hother
      rw [heq, hconn] at hplace
      cases hplace
      rfl
  have hheld : ∀ handle ∈ pool.handles, handle.conn.id ≠ conn.id := by
    intro handle hhandle heq
    have hplace := h.held handle hhandle
    rw [heq, hconn] at hplace
    cases hplace
  refine ⟨⟨?_, ?_, ?_, h.heldNodup, ?_⟩, fun info' other h => (hother info' other h).2, hheld, ?_⟩
  · intro id hle
    rcases eq_or_ne id conn.id with rfl | hne
    · exact Function.update_self ..
    · rw [Function.update_of_ne hne]
      exact h.fresh id hle
  · intro info'
    dsimp only
    rcases eq_or_ne info' info with rfl | hne
    · rw [Function.update_self]
      exact hnodup.2
    · rw [Function.update_of_ne hne]
      exact h.queuedNodup info'
  · intro info' other hmem
    obtain ⟨hmem', hne⟩ := hother info' other hmem
    rw [Function.update_of_ne hne]
    exact h.queued info' other hmem'
  · intro handle hhandle
    rw [Function.update_of_ne (hheld handle hhandle)]
    exact h.held handle hhandle
  · by_contra hlt
    have hplace := h.fresh conn.id (Nat.not_lt.1 hlt)
    rw [hconn] at hplace
    cases hplace

/-- A handle gives its client up. -/
theorem Places.letGo {place : Nat → Place} (h : pool.Places place) {i : Nat} {handle : ClientHandle}
    (hi : pool.handles[i]? = some handle) :
    ({ pool with handles := pool.handles.eraseIdx i } : ClientPool).Places
      (Function.update place handle.conn.id .nowhere) ∧
    (∀ info, ∀ conn ∈ pool.pools info, conn.id ≠ handle.conn.id) ∧
    (∀ other ∈ pool.handles.eraseIdx i, other.conn.id ≠ handle.conn.id) ∧
    handle.conn.id < pool.made := by
  obtain ⟨hlt, heq⟩ := List.getElem?_eq_some_iff.1 hi
  have hmem : handle ∈ pool.handles := List.mem_of_getElem? hi
  have hplace := h.held handle hmem
  have hperm : (handle :: pool.handles.eraseIdx i).Perm pool.handles := by
    rw [← heq]
    exact List.getElem_cons_eraseIdx_perm hlt
  have hnodup := ((hperm.map fun handle => handle.conn.id).nodup_iff).2 h.heldNodup
  rw [List.map_cons, List.nodup_cons] at hnodup
  have hqueued : ∀ info, ∀ conn ∈ pool.pools info, conn.id ≠ handle.conn.id := by
    intro info conn hconn heq
    have hconn' := h.queued info conn hconn
    rw [heq, hplace] at hconn'
    cases hconn'
  have hheld : ∀ other ∈ pool.handles.eraseIdx i, other.conn.id ≠ handle.conn.id :=
    fun other hother heq => hnodup.1
      (heq ▸ List.mem_map_of_mem (f := fun handle => handle.conn.id) hother)
  refine ⟨⟨?_, h.queuedNodup, ?_, hnodup.2, ?_⟩, hqueued, hheld, ?_⟩
  · intro id hle
    rcases eq_or_ne id handle.conn.id with rfl | hne
    · exact Function.update_self ..
    · rw [Function.update_of_ne hne]
      exact h.fresh id hle
  · intro info conn hconn
    rw [Function.update_of_ne (hqueued info conn hconn)]
    exact h.queued info conn hconn
  · intro other hother
    rw [Function.update_of_ne (hheld other hother)]
    exact h.held other (List.mem_of_mem_eraseIdx hother)
  · by_contra hlt'
    have hfresh := h.fresh handle.conn.id (Nat.not_lt.1 hlt')
    rw [hplace] at hfresh
    cases hfresh

/-- A client that is nowhere may be put into a queue. -/
theorem Places.store {place : Nat → Place} (h : pool.Places place) (conn : PooledClient)
    (info : ConnectionInfo) (hqueued : ∀ info, ∀ other ∈ pool.pools info, other.id ≠ conn.id)
    (hheld : ∀ handle ∈ pool.handles, handle.conn.id ≠ conn.id) (hid : conn.id < pool.made) :
    ({ pool with pools := Function.update pool.pools info (pool.pools info ++ [conn]) } :
      ClientPool).Places (Function.update place conn.id (.queued info)) where
  fresh id hle := by
    rw [Function.update_of_ne (Nat.lt_of_lt_of_le hid hle).ne']
    exact h.fresh id hle
  queuedNodup info' := by
    dsimp only
    rcases eq_or_ne info' info with rfl | hne
    · rw [Function.update_self, List.map_append, List.nodup_append]
      refine ⟨h.queuedNodup info', List.nodup_singleton _, ?_⟩
      intro id hid id' hid'
      obtain ⟨other, hother, rfl⟩ := List.mem_map.1 hid
      cases List.mem_singleton.1 hid'
      exact hqueued info' other hother
    · rw [Function.update_of_ne hne]
      exact h.queuedNodup info'
  queued info' other hother := by
    dsimp only at hother
    rcases eq_or_ne info' info with rfl | hne
    · rw [Function.update_self] at hother
      rcases List.mem_append.1 hother with hother | hother
      · rw [Function.update_of_ne (hqueued info' other hother)]
        exact h.queued info' other hother
      · cases List.mem_singleton.1 hother
        exact Function.update_self ..
    · rw [Function.update_of_ne hne] at hother
      rw [Function.update_of_ne (hqueued info' other hother)]
      exact h.queued info' other hother
  heldNodup := h.heldNodup
  held handle hhandle := by
    rw [Function.update_of_ne (hheld handle hhandle)]
    exact h.held handle hhandle

/-- Every step leaves each client in one place. -/
theorem Places.step {place : Nat → Place} (h : pool.Places place) {event : PoolEvent}
    (hstep : (clientPool maxSize).step pool event = some pool') : ∃ place', pool'.Places place' := by
  cases step_inv hstep with
  | @reused info conn rest hqueue =>
    obtain ⟨hpop, hqueued, hheld, hid⟩ := h.pop hqueue
    exact ⟨_, hpop.hold { asked := info, conn } hqueued hheld (Nat.le_refl _) hid⟩
  | @made info hqueue =>
    have hnew : ∀ {id : Nat}, place id ≠ .nowhere → id ≠ pool.made :=
      fun hplace heq => hplace (h.fresh _ (Nat.le_of_eq heq.symm))
    refine ⟨_, h.hold ⟨info, ⟨pool.made, info.host, info.port, info.ssl⟩⟩ ?_ ?_
      (Nat.le_succ _) (Nat.lt_succ_self _)⟩
    · exact fun info conn hconn => hnew (by rw [h.queued info conn hconn]; exact nofun)
    · exact fun other hother => hnew (by rw [h.held other hother]; exact nofun)
  | @stored i handle hi hroom =>
    obtain ⟨hdrop, hqueued, hheld, hid⟩ := h.letGo hi
    exact ⟨_, hdrop.store handle.conn _ hqueued hheld hid⟩
  | dropped hi | overwritten hi => exact ⟨_, (h.letGo hi).1⟩

/-! ## Queues and keys -/

/-- No queue grows beyond `max_size_`. -/
theorem length_le_of_step (h : ∀ info, (pool.pools info).length ≤ maxSize) {event : PoolEvent}
    (hstep : (clientPool maxSize).step pool event = some pool') (info : ConnectionInfo) :
    (pool'.pools info).length ≤ maxSize := by
  cases step_inv hstep with
  | @reused key conn rest hqueue =>
    dsimp only
    rcases eq_or_ne info key with rfl | hne
    · have hlength := h info
      rw [hqueue, List.length_cons] at hlength
      rw [Function.update_self]
      omega
    · rw [Function.update_of_ne hne]
      exact h info
  | @stored i handle hi hroom =>
    dsimp only
    rcases eq_or_ne info handle.conn.releaseKey with rfl | hne
    · rw [Function.update_self, List.length_append, List.length_singleton]
      exact hroom
    · rw [Function.update_of_ne hne]
      exact h info
  | made | dropped | overwritten => exact h info

/-- Every client stands under the key it was made for, and every handle has what it asked for. -/
structure Keyed (pool : ClientPool) : Prop where
  queued : ∀ info, ∀ conn ∈ pool.pools info, conn.info = info
  asked : ∀ handle ∈ pool.handles, handle.conn.info = handle.asked

/-- A step that does not put a TLS client into a queue: where one is released, its queue is full. -/
def ReleasesPlain (maxSize : Nat) (pool : ClientPool) : PoolEvent → Prop
  | .release i => ∀ handle ∈ pool.handles[i]?, handle.conn.useSsl = true →
      maxSize ≤ (pool.pools handle.conn.releaseKey).length
  | _ => True

theorem Keyed.step (h : pool.Keyed) {event : PoolEvent} (hplain : ReleasesPlain maxSize pool event)
    (hstep : (clientPool maxSize).step pool event = some pool') : pool'.Keyed := by
  have hhold : ∀ {info : ConnectionInfo} {conn : PooledClient}, conn.info = info →
      ∀ handle ∈ pool.handles ++ [{ asked := info, conn }], handle.conn.info = handle.asked := by
    intro info conn hconn handle hhandle
    rcases List.mem_append.1 hhandle with hhandle | hhandle
    · exact h.asked handle hhandle
    · cases List.mem_singleton.1 hhandle
      exact hconn
  have hleft : ∀ {i : Nat}, ∀ other ∈ pool.handles.eraseIdx i, other.conn.info = other.asked :=
    fun other hother => h.asked other (List.mem_of_mem_eraseIdx hother)
  cases step_inv hstep with
  | @reused info conn rest hqueue =>
    refine ⟨fun info' other hother => ?_, hhold (h.queued info conn (by simp [hqueue]))⟩
    dsimp only at hother
    rcases eq_or_ne info' info with rfl | hne
    · rw [Function.update_self] at hother
      exact h.queued info' other (by rw [hqueue]; exact List.mem_cons_of_mem _ hother)
    · rw [Function.update_of_ne hne] at hother
      exact h.queued info' other hother
  | made => exact ⟨h.queued, hhold rfl⟩
  | @stored i handle hi hroom =>
    refine ⟨fun info other hother => ?_, hleft⟩
    dsimp only at hother
    rcases eq_or_ne info handle.conn.releaseKey with rfl | hne
    · rw [Function.update_self] at hother
      rcases List.mem_append.1 hother with hother | hother
      · exact h.queued _ other hother
      · cases List.mem_singleton.1 hother
        -- there is room in the queue, so the client is not a TLS one
        have hssl : handle.conn.useSsl = false :=
          Bool.eq_false_iff.2 fun hssl => Nat.not_le.2 hroom (hplain handle hi hssl)
        rw [PooledClient.info, PooledClient.releaseKey, hssl]
    · rw [Function.update_of_ne hne] at hother
      exact h.queued info other hother
  | dropped | overwritten => exact ⟨h.queued, hleft⟩

/-- The pool keeps the connections to different places apart: a handle has the client it asked for,
a queue holds clients of its key, none of which a handle owns, and not too many. -/
structure Separate (maxSize : Nat) (pool : ClientPool) : Prop where
  asked : ∀ handle ∈ pool.handles, handle.conn.info = handle.asked
  keyed : ∀ info, ∀ conn ∈ pool.pools info, conn.info = info
  unowned : ∀ info, ∀ conn ∈ pool.pools info, ∀ handle ∈ pool.handles, conn.id ≠ handle.conn.id
  bounded : ∀ info, (pool.pools info).length ≤ maxSize

end ClientPool

/-- **When the pool keeps connections apart.** In every run of `acquire`, releases and overwritings
of handles in which no TLS client is released into a queue with room, the pool is separate. -/
theorem client_pool_separate (maxSize : Nat) {pool : ClientPool}
    (h : (clientPool maxSize).Reaches (ClientPool.ReleasesPlain maxSize) pool) :
    pool.Separate maxSize := by
  have hkeyed : pool.Keyed := by
    refine h.invariant ?_ fun pool event pool' hkeyed hplain hstep => hkeyed.step hplain hstep
    rintro pool rfl
    exact ⟨fun _ _ => nofun, fun _ => nofun⟩
  obtain ⟨place, hplaces⟩ : ∃ place, pool.Places place := by
    refine h.invariant (I := fun pool => ∃ place, pool.Places place) ?_ ?_
    · rintro pool rfl
      exact ⟨_, ClientPool.places_empty⟩
    · rintro pool event pool' ⟨place, hplaces⟩ - hstep
      exact hplaces.step hstep
  have hbounded : ∀ info, (pool.pools info).length ≤ maxSize := by
    refine h.invariant (I := fun pool => ∀ info, (pool.pools info).length ≤ maxSize) ?_ ?_
    · rintro pool rfl info
      exact Nat.zero_le maxSize
    · exact fun pool event pool' hlength _ hstep => ClientPool.length_le_of_step hlength hstep
  refine ⟨hkeyed.asked, hkeyed.queued, fun info conn hconn handle hhandle heq => ?_, hbounded⟩
  have hplace := hplaces.queued info conn hconn
  rw [heq, hplaces.held handle hhandle] at hplace
  cases hplace

/-- The host of the runs below, asked with and without TLS. -/
def sampleInfo (ssl : Bool) : ConnectionInfo := { host := bytes "a.example", port := 443, ssl }

/-- A client without TLS that is taken again, beside one with TLS. -/
theorem client_pool_separate_plain :
    ∃ pool : ClientPool,
      (clientPool 10).Reaches (ClientPool.ReleasesPlain 10) pool ∧ pool.handles.length = 2 ∧
        pool.Separate 10 := by
  obtain ⟨pool, hreaches, hlength⟩ : ∃ pool : ClientPool,
      (clientPool 10).Reaches (ClientPool.ReleasesPlain 10) pool ∧ pool.handles.length = 2 := by
    refine ⟨_, .step (a := .acquire (sampleInfo true)) (.step (a := .acquire (sampleInfo false))
      (.step (a := .release 0) (.step (a := .acquire (sampleInfo false)) (.init rfl) trivial rfl)
      ?_ rfl) trivial rfl) trivial rfl, rfl⟩
    rintro handle hhandle hssl
    cases hhandle
    cases hssl
  exact ⟨pool, hreaches, hlength, client_pool_separate 10 hreaches⟩

/-- A TLS client that is released: it is handed out for the port without TLS. -/
theorem client_pool_separate_tls :
    ¬ ∀ (maxSize : Nat) (pool : ClientPool), (clientPool maxSize).Reachable pool →
      pool.Separate maxSize := by
  intro h
  obtain ⟨pool, hrun, hhandles⟩ : ∃ pool, (clientPool 10).run {}
      [.acquire (sampleInfo true), .release 0, .acquire (sampleInfo false)] = some pool ∧
      pool.handles = [⟨sampleInfo false, ⟨0, bytes "a.example", 443, true⟩⟩] := ⟨_, rfl, rfl⟩
  have hseparate := h 10 pool (Machine.Reachable.run (.init rfl) hrun)
  have hasked := hseparate.asked _ (by rw [hhandles]; exact List.mem_cons_self)
  exact absurd (congrArg ConnectionInfo.ssl hasked) nofun

end Httplib
