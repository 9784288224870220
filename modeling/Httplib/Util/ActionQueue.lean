import Httplib.Lib.Machine
import Httplib.Lib.Mailbox

/-!
# The action queue

`util::action_queue` (`lib/util/action_queue_impl.hpp`) as a machine: each locked region, each step
of an `async_shutdown` call and each end of an action is one event, so that its runs are the
interleavings of any number of callers with the performers. `action_queue_serial` says that the
queue is a mailbox with one performer, and `action_queue_barrier` in which runs a shutdown is a
barrier.
-/

namespace Httplib

/-- A coroutine of `action_queue::impl::perform`. -/
structure Performer (Act : Type) where
  /-- The action it is executing. -/
  action : Option Act := none
  /-- `cs.cancelled()`. -/
  cancelled : Bool := false

/-- `action_queue::impl` (`action_queue_impl.hpp:18`), with the calls that are in progress and the
history of its actions. -/
structure ActionQueue (Act : Type) where
  que : List Act := []
  running : Bool := false
  shutdowning : Bool := false
  /-- The coroutines that are spawned and not finished. -/
  performers : List (Performer Act) := []
  /-- `shutdown_timer_` has an expiry, which never comes. -/
  armed : Bool := false
  /-- The calls of `push` that have found `shutdowning_` unset and stand before the lock. -/
  checked : List Act := []
  /-- The calls of `async_shutdown` before `async_wait`. -/
  requested : Nat := 0
  /-- The calls of `async_shutdown` whose wait is pending. -/
  waiting : Nat := 0
  /-- The calls of `async_shutdown` whose wait is over. -/
  due : Nat := 0
  /-- The calls of `async_shutdown` that have completed. -/
  completed : Nat := 0
  accepted : List Act := []
  started : List Act := []
  removed : List Act := []

/-- A step of a caller or of a performer. -/
inductive QueueEvent (Act : Type) where
  /-- `push` reads `shutdowning_`. -/
  | check (act : Act)
  /-- The locked region of one of the calls of `push` that wait for it. -/
  | push (i : Nat)
  | clear
  /-- The locked region of a performer, and the start of the action that it takes: the coroutine does
  not give way in between. -/
  | perform (i : Nat)
  /-- The action of a performer returns. -/
  | ended (i : Nat)
  /-- `async_shutdown` up to its wait. -/
  | shutdown (cancelSignal : Bool)
  /-- `async_wait` begins. -/
  | wait
  /-- `async_shutdown` completes after its wait. -/
  | waited
  deriving DecidableEq

namespace ActionQueue

variable {Act : Type}

/-- The locked region of `push`, and the spawn behind it (`action_queue_impl.hpp:33`). -/
def push (q : ActionQueue Act) (act : Act) : ActionQueue Act :=
  { q with
    que := q.que ++ [act]
    accepted := q.accepted ++ [act]
    running := true
    performers := if q.running then q.performers else q.performers ++ [{}] }

/-- `clear` (`action_queue_impl.hpp:49`). -/
def clear (q : ActionQueue Act) : ActionQueue Act :=
  { q with que := [], removed := q.removed ++ q.que }

/-- `emit_shutdown_timer` (`action_queue_impl.hpp:93`): both calls cancel the waits. -/
def emitShutdownTimer (q : ActionQueue Act) : ActionQueue Act :=
  { q with armed := true, due := q.due + q.waiting, waiting := 0 }

/-- The locked region of a performer that is between two actions (`action_queue_impl.hpp:78`). -/
def perform (q : ActionQueue Act) (i : Nat) (performer : Performer Act) : ActionQueue Act :=
  match q.que, performer.cancelled with
  | act :: que, false =>
    { q with
      que
      started := q.started ++ [act]
      performers := q.performers.set i { performer with action := some act } }
  | _, _ =>
    let q := { q with running := false, performers := q.performers.eraseIdx i }
    if q.shutdowning then q.emitShutdownTimer else q

/-- `async_shutdown` up to its wait (`action_queue_impl.hpp:59`). -/
def shutdown (q : ActionQueue Act) (cancelSignal : Bool) : ActionQueue Act :=
  if ¬ q.running ∧ q.shutdowning then { q with completed := q.completed + 1 }
  else
    { q with
      shutdowning := true
      performers :=
        if cancelSignal then q.performers.map fun p => { p with cancelled := true }
        else q.performers
      requested := q.requested + 1 }

/-- `async_wait` on a timer whose expiry was never set is over at once. -/
def wait (q : ActionQueue Act) : ActionQueue Act :=
  if q.armed then { q with waiting := q.waiting + 1 } else { q with due := q.due + 1 }

/-- The actions that are being executed. -/
def executing (q : ActionQueue Act) : List Act := q.performers.filterMap (·.action)

end ActionQueue

/-- `action_queue::impl` with any number of callers. -/
def actionQueue (Act : Type) : Machine (ActionQueue Act) (QueueEvent Act) where
  init q := q = {}
  step q
    | .check act => some (if q.shutdowning then q else { q with checked := q.checked ++ [act] })
    | .push i => q.checked[i]?.map fun act => { q with checked := q.checked.eraseIdx i }.push act
    | .clear => some q.clear
    | .perform i =>
      match q.performers[i]? with
      | some ⟨none, cancelled⟩ => some (q.perform i ⟨none, cancelled⟩)
      | _ => none
    | .ended i =>
      match q.performers[i]? with
      | some ⟨some _, cancelled⟩ =>
        some { q with performers := q.performers.set i ⟨none, cancelled⟩ }
      | _ => none
    | .shutdown cancelSignal => some (q.shutdown cancelSignal)
    | .wait => if q.requested = 0 then none else some { q with requested := q.requested - 1 }.wait
    | .waited =>
      if q.due = 0 then none else some { q with due := q.due - 1, completed := q.completed + 1 }

namespace ActionQueue

variable {Act : Type} {q : ActionQueue Act}

/-- `Move q event q'`: what a queue in the state `q` does at an event. -/
inductive Move (q : ActionQueue Act) : QueueEvent Act → ActionQueue Act → Prop
  | refused {act} : q.shutdowning = true → Move q (.check act) q
  | checked {act} : q.shutdowning = false →
      Move q (.check act) { q with checked := q.checked ++ [act] }
  | push {i act} : q.checked[i]? = some act →
      Move q (.push i) ({ q with checked := q.checked.eraseIdx i }.push act)
  | clear : Move q .clear q.clear
  | perform {i cancelled} : q.performers[i]? = some ⟨none, cancelled⟩ →
      Move q (.perform i) (q.perform i ⟨none, cancelled⟩)
  | ended {i act cancelled} : q.performers[i]? = some ⟨some act, cancelled⟩ →
      Move q (.ended i) { q with performers := q.performers.set i ⟨none, cancelled⟩ }
  | shutdown {cancelSignal} : Move q (.shutdown cancelSignal) (q.shutdown cancelSignal)
  | wait : q.requested ≠ 0 → Move q .wait { q with requested := q.requested - 1 }.wait
  | waited : q.due ≠ 0 → Move q .waited { q with due := q.due - 1, completed := q.completed + 1 }

/-- A step is a move. -/
theorem step_inv {event : QueueEvent Act} {q' : ActionQueue Act}
    (hstep : (actionQueue Act).step q event = some q') : Move q event q' := by
  cases event with
  | check act =>
    cases hstep
    split
    · next hshut => exact .refused hshut
    · next hopen => exact .checked (Bool.eq_false_iff.2 hopen)
  | push i =>
    obtain ⟨act, hact, rfl⟩ := Option.map_eq_some_iff.1 hstep
    exact .push hact
  | clear => cases hstep; exact .clear
  | perform i =>
    simp only [actionQueue] at hstep
    split at hstep
    · next hp => cases hstep; exact .perform hp
    · cases hstep
  | ended i =>
    simp only [actionQueue] at hstep
    split at hstep
    · next hp => cases hstep; exact .ended hp
    · cases hstep
  | shutdown cancelSignal => cases hstep; exact .shutdown
  | wait =>
    obtain ⟨hrequested, heq⟩ := Option.ite_none_left_eq_some.1 hstep
    cases heq
    exact .wait hrequested
  | waited =>
    obtain ⟨hdue, heq⟩ := Option.ite_none_left_eq_some.1 hstep
    cases heq
    exact .waited hdue

/-! ## One performer -/

/-- What holds between the steps: there is a performer exactly while `running_` is set, and at most
one; it is told to stop only by a shutdown, and until then it is there for what waits. -/
structure Inv (q : ActionQueue Act) : Prop where
  performer : (q.running = false ∧ q.performers = []) ∨
    ∃ p, q.running = true ∧ q.performers = [p]
  signal : q.shutdowning = false → ∀ p ∈ q.performers, p.cancelled = false
  served : q.shutdowning = false → q.que ≠ [] → q.running = true
  history : Mailbox.History q.accepted q.started q.removed q.que

/-- A performer that is found is the only one. -/
theorem Inv.only (h : q.Inv) {i : Nat} {p : Performer Act} (hp : q.performers[i]? = some p) :
    i = 0 ∧ q.running = true ∧ q.performers = [p] := by
  rcases h.performer with ⟨-, hnone⟩ | ⟨p', hrunning, hone⟩
  · rw [hnone] at hp
    cases hp
  · rw [hone, List.getElem?_singleton] at hp
    split at hp
    · next hi =>
      cases hp
      exact ⟨hi, hrunning, hone⟩
    · cases hp

/-- The invariant holds of a queue that nothing has been pushed to. -/
theorem inv_empty : ({} : ActionQueue Act).Inv :=
  ⟨.inl ⟨rfl, rfl⟩, fun _ => nofun, fun _ => absurd rfl, .nil⟩

/-- A push keeps it. -/
theorem Inv.push (h : q.Inv) (act : Act) : (q.push act).Inv where
  performer := by
    rcases h.performer with ⟨hoff, hnone⟩ | ⟨p, hon, hone⟩
    · exact .inr ⟨{}, rfl, by simp [ActionQueue.push, hoff, hnone]⟩
    · exact .inr ⟨p, rfl, by simp [ActionQueue.push, hon, hone]⟩
  signal hopen p hp := by
    simp only [ActionQueue.push] at hp
    split at hp
    · exact h.signal hopen p hp
    · rcases List.mem_append.1 hp with hp | hp
      · exact h.signal hopen p hp
      · cases List.mem_singleton.1 hp
        rfl
  served _ _ := rfl
  history := h.history.push act

/-- Clearing keeps it. -/
theorem Inv.clear (h : q.Inv) : q.clear.Inv where
  performer := h.performer
  signal := h.signal
  served _ hne := absurd rfl hne
  history := h.history.clear

/-- The performer takes the first action, or leaves nothing behind but what a shutdown has given
up. -/
theorem Inv.perform (h : q.Inv) {i : Nat} {cancelled : Bool}
    (hp : q.performers[i]? = some ⟨none, cancelled⟩) : (q.perform i ⟨none, cancelled⟩).Inv := by
  obtain ⟨rfl, hrunning, hone⟩ := h.only hp
  have hexit : (q.que = [] ∨ q.shutdowning = true) →
      ({ q with running := false, performers := q.performers.eraseIdx 0 } : ActionQueue Act).Inv := by
    intro hque
    refine ⟨.inl ⟨rfl, by rw [hone]; rfl⟩, ?_, ?_, h.history⟩
    · intro _ p hp
      rw [hone] at hp
      cases hp
    · intro hopen hne
      rcases hque with hque | hshut
      · exact absurd hque hne
      · exact absurd (hopen.symm.trans hshut) Bool.false_ne_true
  have hleave : ∀ {q : ActionQueue Act}, q.Inv →
      (if q.shutdowning then q.emitShutdownTimer else q).Inv := by
    intro q hq
    split
    · exact ⟨hq.performer, hq.signal, hq.served, hq.history⟩
    · exact hq
  unfold ActionQueue.perform
  split
  · next act que hque hoff =>
    refine ⟨.inr ⟨⟨some act, cancelled⟩, hrunning, by rw [hone]; rfl⟩, ?_, fun _ _ => hrunning, ?_⟩
    · intro _ p hp
      rw [hone] at hp
      cases List.mem_singleton.1 hp
      exact hoff
    · have hhistory := h.history
      rw [hque] at hhistory
      exact hhistory.take
  · next hstop =>
    refine hleave (hexit ?_)
    rcases hque : q.que with _ | ⟨act, que⟩
    · exact .inl rfl
    · cases cancelled with
      | false => exact (hstop act que hque rfl).elim
      | true =>
        refine .inr ((Bool.eq_false_or_eq_true _).resolve_right fun hopen => ?_)
        exact absurd (h.signal hopen _ (List.mem_of_getElem? hp)) nofun

/-- The end of an action keeps it. -/
theorem Inv.ended (h : q.Inv) {i : Nat} {act : Act} {cancelled : Bool}
    (hp : q.performers[i]? = some ⟨some act, cancelled⟩) :
    ({ q with performers := q.performers.set i ⟨none, cancelled⟩ } : ActionQueue Act).Inv := by
  obtain ⟨rfl, hrunning, hone⟩ := h.only hp
  refine ⟨.inr ⟨⟨none, cancelled⟩, hrunning, by rw [hone]; rfl⟩, ?_, h.served, h.history⟩
  intro hopen p hp'
  have hsame := h.signal hopen _ (List.mem_of_getElem? hp)
  rw [hone] at hp'
  cases List.mem_singleton.1 hp'
  exact hsame

/-- A shutdown keeps it. -/
theorem Inv.shutdown (h : q.Inv) (cancelSignal : Bool) : (q.shutdown cancelSignal).Inv := by
  unfold ActionQueue.shutdown
  split
  · exact ⟨h.performer, h.signal, h.served, h.history⟩
  · refine ⟨?_, nofun, nofun, h.history⟩
    rcases h.performer with ⟨hoff, hnone⟩ | ⟨p, hon, hone⟩
    · exact .inl ⟨hoff, by simp [hnone]⟩
    · cases cancelSignal with
      | true => exact .inr ⟨{ p with cancelled := true }, hon, by simp [hone]⟩
      | false => exact .inr ⟨p, hon, by simp [hone]⟩

/-- A performer that goes to wait keeps it. -/
theorem Inv.wait (h : q.Inv) : q.wait.Inv := by
  unfold ActionQueue.wait
  split <;> exact ⟨h.performer, h.signal, h.served, h.history⟩

/-- Every step keeps the invariant. -/
theorem Inv.step (h : q.Inv) {event : QueueEvent Act} {q' : ActionQueue Act}
    (hstep : (actionQueue Act).step q event = some q') : q'.Inv := by
  cases step_inv hstep with
  | refused => exact h
  | checked => exact ⟨h.performer, h.signal, h.served, h.history⟩
  | @push i act =>
    have h' : ({ q with checked := q.checked.eraseIdx i } : ActionQueue Act).Inv :=
      ⟨h.performer, h.signal, h.served, h.history⟩
    exact h'.push act
  | clear => exact h.clear
  | perform hp => exact h.perform hp
  | ended hp => exact h.ended hp
  | shutdown => exact h.shutdown _
  | wait =>
    have h' : ({ q with requested := q.requested - 1 } : ActionQueue Act).Inv :=
      ⟨h.performer, h.signal, h.served, h.history⟩
    exact h'.wait
  | waited => exact ⟨h.performer, h.signal, h.served, h.history⟩

/-- So it holds of every queue that is reached. -/
theorem inv_of_reachable (h : (actionQueue Act).Reachable q) : q.Inv := by
  refine h.invariant ?_ fun q event q' hinv _ hstep => hinv.step hstep
  rintro q rfl
  exact inv_empty

end ActionQueue

/-- **One at a time, in order, without loss.** In every state that any interleaving reaches there is
at most one performer, `running_` is set exactly while there is one, and at most one action is
executing. The accepted actions are, in the order of their pushes, those that were started or
removed by `clear`, and behind them those in the queue; and while no shutdown has been requested, a
performer is there for these. -/
theorem action_queue_serial {Act : Type} {q : ActionQueue Act}
    (h : (actionQueue Act).Reachable q) :
    q.performers.length ≤ 1 ∧ (q.running = true ↔ q.performers ≠ []) ∧ q.executing.length ≤ 1 ∧
      (∃ fates : List (Act × Bool), q.accepted = fates.map Prod.fst ++ q.que ∧
        q.started = (fates.filter (·.2)).map Prod.fst ∧
        q.removed = (fates.filter (!·.2)).map Prod.fst) ∧
      (q.shutdowning = false → q.que ≠ [] → q.performers ≠ []) := by
  have hinv := ActionQueue.inv_of_reachable h
  have hone : q.performers.length ≤ 1 := by
    rcases hinv.performer with ⟨-, hnone⟩ | ⟨p, -, hone⟩
    · rw [hnone]
      exact Nat.zero_le 1
    · rw [hone]
      exact Nat.le_refl 1
  have hrunning : q.running = true ↔ q.performers ≠ [] := by
    rcases hinv.performer with ⟨hoff, hnone⟩ | ⟨p, hon, hone⟩
    · rw [hoff, hnone]
      exact iff_of_false Bool.false_ne_true (not_not.2 rfl)
    · rw [hon, hone]
      exact iff_of_true rfl (List.cons_ne_nil p [])
  exact ⟨hone, hrunning, Nat.le_trans (List.length_filterMap_le _ _) hone, hinv.history.fates,
    fun hopen hne => hrunning.1 (hinv.served hopen hne)⟩

/-- Two pushes, the first of which is being executed. -/
theorem action_queue_serial_two :
    ∃ q : ActionQueue Nat, (actionQueue Nat).Reachable q ∧
      q.executing = [1] ∧ q.que = [2] ∧
      q.performers.length ≤ 1 ∧ (q.running = true ↔ q.performers ≠ []) ∧ q.executing.length ≤ 1 ∧
      (∃ fates : List (Nat × Bool), q.accepted = fates.map Prod.fst ++ q.que ∧
        q.started = (fates.filter (·.2)).map Prod.fst ∧
        q.removed = (fates.filter (!·.2)).map Prod.fst) ∧
      (q.shutdowning = false → q.que ≠ [] → q.performers ≠ []) := by
  obtain ⟨q, hrun, hexecuting, hque⟩ : ∃ q, (actionQueue Nat).run {}
      [.check 1, .check 2, .push 0, .perform 0, .push 0] = some q ∧
      q.executing = [1] ∧ q.que = [2] := ⟨_, rfl, rfl, rfl⟩
  have hreachable := Machine.Reachable.run (.init rfl) hrun
  exact ⟨q, hreachable, hexecuting, hque, action_queue_serial hreachable⟩

namespace ActionQueue

variable {Act : Type} {q : ActionQueue Act}

/-! ## Shutdown -/

/-- The performer finds nothing to do, or is told to stop. -/
def Leaves (q : ActionQueue Act) (i : Nat) : Prop :=
  q.que = [] ∨ ∃ p ∈ q.performers[i]?, p.cancelled = true

/-- A step that ends no wait of `async_shutdown` too early: a wait on the timer that was never set
begins only while there is no performer, and neither that wait, nor an early return, nor the
performer that ends the waits as it leaves, comes before a push that has passed its check. -/
def Quiet (q : ActionQueue Act) : QueueEvent Act → Prop
  | .shutdown _ => q.running = false → q.shutdowning = true → q.checked = []
  | .wait => q.armed = false → q.running = false ∧ q.checked = []
  | .perform i => q.Leaves i → q.waiting ≠ 0 → q.checked = []
  | _ => True

/-- A call of `async_shutdown` is over, or about to be, only when nothing runs and nothing comes. -/
structure Barrier (q : ActionQueue Act) : Prop where
  called : q.requested ≠ 0 ∨ q.waiting ≠ 0 ∨ q.due ≠ 0 ∨ q.completed ≠ 0 → q.shutdowning = true
  ended : q.due ≠ 0 ∨ q.completed ≠ 0 → q.running = false ∧ q.checked = []

/-- The performer that leaves ends the waits. -/
theorem Barrier.perform (h : q.Barrier) (hinv : q.Inv) {i : Nat} {cancelled : Bool}
    (hp : q.performers[i]? = some ⟨none, cancelled⟩) (hquiet : q.Quiet (.perform i)) :
    (q.perform i ⟨none, cancelled⟩).Barrier := by
  obtain ⟨-, hrunning, -⟩ := hinv.only hp
  have hnone : ¬ (q.due ≠ 0 ∨ q.completed ≠ 0) := by
    intro hover
    rw [(h.ended hover).1] at hrunning
    cases hrunning
  unfold ActionQueue.perform
  split
  · exact ⟨h.called, fun hover => absurd hover hnone⟩
  · next hstop =>
    have hleaves : q.Leaves i := by
      rcases hque : q.que with _ | ⟨act, que⟩
      · exact .inl hque
      · cases cancelled with
        | false => exact (hstop act que hque rfl).elim
        | true => exact .inr ⟨_, hp, rfl⟩
    dsimp only
    split
    · next hshut =>
      refine ⟨fun _ => hshut, fun hover => ⟨rfl, hquiet hleaves ?_⟩⟩
      simp only [emitShutdownTimer] at hover
      omega
    · exact ⟨h.called, fun hover => absurd hover hnone⟩

/-- A shutdown while nothing runs keeps the barrier. -/
theorem Barrier.shutdown (h : q.Barrier) {cancelSignal : Bool}
    (hquiet : q.Quiet (.shutdown cancelSignal)) : (q.shutdown cancelSignal).Barrier := by
  unfold ActionQueue.shutdown
  split
  · next hearly =>
    have hoff := Bool.eq_false_iff.2 hearly.1
    exact ⟨fun _ => hearly.2, fun _ => ⟨hoff, hquiet hoff hearly.2⟩⟩
  · exact ⟨fun _ => rfl, h.ended⟩

/-- Every step that ends no wait too early keeps the barrier. -/
theorem Barrier.step (h : q.Barrier) (hinv : q.Inv) {event : QueueEvent Act}
    (hquiet : q.Quiet event) {q' : ActionQueue Act}
    (hstep : (actionQueue Act).step q event = some q') : q'.Barrier := by
  cases step_inv hstep with
  | refused => exact h
  | checked hopen =>
    refine ⟨h.called, fun hover => ?_⟩
    have hshut := h.called (.inr (.inr hover))
    exact absurd (hopen.symm.trans hshut) Bool.false_ne_true
  | push hact =>
    refine ⟨h.called, fun hover => ?_⟩
    rw [(h.ended hover).2] at hact
    cases hact
  | clear => exact ⟨h.called, h.ended⟩
  | perform hp => exact h.perform hinv hp hquiet
  | ended => exact ⟨h.called, h.ended⟩
  | shutdown => exact h.shutdown hquiet
  | wait hrequested =>
    have hshut := h.called (.inl hrequested)
    unfold ActionQueue.wait
    split
    · exact ⟨fun _ => hshut, h.ended⟩
    · next harmed => exact ⟨fun _ => hshut, fun _ => hquiet (Bool.eq_false_iff.2 harmed)⟩
  | waited hdue =>
    exact ⟨fun _ => h.called (.inr (.inr (.inl hdue))), fun _ => h.ended (.inl hdue)⟩

end ActionQueue

/-- **When a shutdown is a barrier.** In every run whose steps end no wait of `async_shutdown` too
early, once a call of it has completed, `running_` is unset and no action is executing. -/
theorem action_queue_barrier {Act : Type} {q : ActionQueue Act}
    (h : (actionQueue Act).Reaches ActionQueue.Quiet q) (hcompleted : q.completed ≠ 0) :
    q.running = false ∧ q.executing = [] := by
  have hboth : q.Inv ∧ q.Barrier := by
    refine h.invariant (I := fun q => q.Inv ∧ q.Barrier) ?_ ?_
    · rintro q rfl
      exact ⟨ActionQueue.inv_empty, ⟨by simp, by simp⟩⟩
    · exact fun q event q' hboth hquiet hstep =>
        ⟨hboth.1.step hstep, hboth.2.step hboth.1 hquiet hstep⟩
  have hoff := (hboth.2.ended (.inr hcompleted)).1
  refine ⟨hoff, ?_⟩
  rcases hboth.1.performer with ⟨-, hnone⟩ | ⟨p, hon, -⟩
  · rw [ActionQueue.executing, hnone, List.filterMap_nil]
  · rw [hoff] at hon
    cases hon

/-- A queue that is shut down twice, after its action has come to its end and before a second push
is checked. -/
theorem action_queue_barrier_idle :
    ∃ q : ActionQueue Nat, (actionQueue Nat).Reaches ActionQueue.Quiet q ∧ q.completed = 2 ∧
      q.running = false ∧ q.executing = [] := by
  have hreaches : (actionQueue Nat).Reaches ActionQueue.Quiet
      { shutdowning := true, completed := 2, accepted := [1], started := [1] } := by
    refine .step (a := .shutdown false) (.step (a := .waited) (.step (a := .wait)
      (.step (a := .shutdown true) (.step (a := .perform 0) (.step (a := .ended 0)
      (.step (a := .perform 0) (.step (a := .push 0) (.step (a := .check 1) (.init rfl)
      trivial rfl) trivial rfl) ?_ rfl) trivial rfl) ?_ rfl) ?_ rfl) ?_ rfl) trivial rfl) ?_ rfl
    · exact fun _ => absurd rfl
    · exact fun _ => absurd rfl
    · exact nofun
    · exact fun _ => ⟨rfl, rfl⟩
    · exact fun _ _ => rfl
  exact ⟨_, hreaches, rfl, action_queue_barrier hreaches nofun⟩

/-- A shutdown while an action runs: its wait on the timer that was never set is over at once. -/
theorem action_queue_barrier_running :
    ¬ ∀ q : ActionQueue Nat, (actionQueue Nat).Reachable q → q.completed ≠ 0 →
      q.running = false ∧ q.executing = [] := by
  intro h
  obtain ⟨q, hrun, hcompleted, hexecuting⟩ : ∃ q, (actionQueue Nat).run {}
      [.check 1, .push 0, .perform 0, .shutdown true, .wait, .waited] = some q ∧
      q.completed = 1 ∧ q.executing = [1] := ⟨_, rfl, rfl, rfl⟩
  have hidle := (h q (Machine.Reachable.run (.init rfl) hrun) (by rw [hcompleted]; decide)).2
  rw [hexecuting] at hidle
  cases hidle

end Httplib
