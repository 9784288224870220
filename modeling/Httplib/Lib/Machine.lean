import Mathlib.Logic.Basic

/-!
# Machines

A machine has initial states and a partial step for each event; the events carry every choice that
is not the machine's own. Its runs are the sequences of events that are possible one after the
other. `Reaches ok` are the runs whose steps all meet a condition, and `Reaches.invariant` says
once what an invariant is good for: it holds in every state of them when it holds at the start and
is kept by each step that meets the condition.
-/

/-- A transition system whose steps are functions of the event. -/
structure Machine (σ α : Type*) where
  /-- The initial states. -/
  init : σ → Prop
  /-- The state after an event, none where the event is not possible. -/
  step : σ → α → Option σ

namespace Machine

variable {σ α : Type*} {m : Machine σ α} {ok : σ → α → Prop} {s s' : σ}

/-- The state after a sequence of events. -/
def run (m : Machine σ α) (s : σ) : List α → Option σ
  | [] => some s
  | a :: as => (m.step s a).bind fun s' => m.run s' as

/-- The states of the runs whose steps all meet the condition `ok`. -/
inductive Reaches (m : Machine σ α) (ok : σ → α → Prop) : σ → Prop
  | init {s : σ} : m.init s → Reaches m ok s
  | step {s s' : σ} {a : α} : Reaches m ok s → ok s a → m.step s a = some s' → Reaches m ok s'

/-- The states of all runs. -/
abbrev Reachable (m : Machine σ α) : σ → Prop := m.Reaches fun _ _ => True

/-- What holds at the start, and is kept by each step that meets the condition, holds in every state
of the runs whose steps do. -/
theorem Reaches.invariant {I : σ → Prop} (h : m.Reaches ok s) (hinit : ∀ s, m.init s → I s)
    (hstep : ∀ s a s', I s → ok s a → m.step s a = some s' → I s') : I s := by
  induction h with
  | init h => exact hinit _ h
  | step _ hok hs ih => exact hstep _ _ _ ih hok hs

/-- A run goes on by events that meet the condition everywhere. -/
theorem Reaches.run (h : m.Reaches ok s) {l : List α} (hok : ∀ a ∈ l, ∀ s, ok s a)
    (hrun : m.run s l = some s') : m.Reaches ok s' := by
  induction l generalizing s with
  | nil => cases hrun; exact h
  | cons a l ih =>
    obtain ⟨s₁, hs, hrest⟩ := Option.bind_eq_some_iff.1 hrun
    exact ih (.step h (hok a List.mem_cons_self s) hs)
      (fun a ha => hok a (List.mem_cons_of_mem _ ha)) hrest

/-- A run goes on from a reachable state. -/
theorem Reachable.run (h : m.Reachable s) {l : List α} (hrun : m.run s l = some s') :
    m.Reachable s' := Reaches.run h (fun _ _ _ => trivial) hrun

/-- The machine that goes on only where a test is passed. -/
def checked (m : Machine σ α) (test : σ → α → Bool) : Machine σ α where
  init := m.init
  step s a := if test s a then m.step s a else none

/-- Where the test is passed only by steps that meet the condition, so do the runs that pass it. -/
theorem Reaches.of_checked {test : σ → α → Bool} {l : List α} (hrun : (m.checked test).run s l = some s')
    (htest : ∀ s a, test s a = true → ok s a) (h : m.Reaches ok s) : m.Reaches ok s' := by
  induction l generalizing s with
  | nil =>
    cases hrun
    exact h
  | cons a l ih =>
    obtain ⟨s₁, hs, hrest⟩ := Option.bind_eq_some_iff.1 hrun
    obtain ⟨hpassed, hs⟩ := Option.ite_none_right_eq_some.1 hs
    exact ih hrest (.step h (htest s a hpassed) hs)

/-- The machine with a log of what an observer sees of its steps. -/
def logged {β : Type*} (m : Machine σ α) (out : σ → α → List β) : Machine (σ × List β) α where
  init x := m.init x.1 ∧ x.2 = []
  step x a := (m.step x.1 a).map fun s' => (s', x.2 ++ out x.1 a)

/-- What holds of the empty log, and of the log behind each step, holds of every log. -/
theorem Reachable.log_invariant {β : Type*} {out : σ → α → List β} {I : σ → List β → Prop}
    {log : List β} (h : (m.logged out).Reachable (s, log)) (hinit : ∀ s, m.init s → I s [])
    (hstep : ∀ s log a s', I s log → m.step s a = some s' → I s' (log ++ out s a)) : I s log := by
  refine h.invariant (I := fun x => I x.1 x.2) ?_ ?_
  · rintro ⟨s, log⟩ ⟨hs, hlog⟩
    dsimp only at hs hlog
    subst hlog
    exact hinit s hs
  · rintro ⟨s, log⟩ a _ hI - hlogged
    obtain ⟨s', hs', rfl⟩ := Option.map_eq_some_iff.1 hlogged
    exact hstep s log a s' hI hs'

end Machine
