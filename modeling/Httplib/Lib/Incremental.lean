import Mathlib.Logic.Relation
import Mathlib.Data.List.Basic

/-!
# Consumers fed in pieces

A consumer holds a state and is offered data; each call takes some letters from the front, asks for
more data, or refuses. A stream can reach it in many ways: the pieces may be cut anywhere, and a
call may come after every piece or only later. `Delivery` is one move of such a run, and
`run_unique` says that all complete runs over one stream agree, for every consumer whose calls are
made of `Stable` moves: moves that stay the same when more data follows.

`drive` is the run that repeats the call on one block of data until nothing more happens, and
`driveChunks` the run over a transport that offers one chunk at a time and never merges two.
-/

namespace Incremental

variable {σ ε α : Type*}

/-- What one call of a consumer makes of the data it is offered. -/
inductive Verdict (σ ε : Type*) where
  /-- The first `n` letters are taken, and the state becomes `s`. -/
  | took (n : Nat) (s : σ)
  /-- Nothing is taken: the data is too short to decide. -/
  | more
  /-- The data is refused. -/
  | fail (e : ε)
  deriving DecidableEq

/-- Moves that take a non-empty part of the data, and stay the same when more data follows. -/
structure Stable (step : σ → List α → Verdict σ ε) : Prop where
  nil : ∀ s, step s [] = .more
  pos : ∀ {s l n s'}, step s l = .took n s' → 0 < n ∧ n ≤ l.length
  took : ∀ {s l n s'}, step s l = .took n s' → ∀ r, step s (l ++ r) = .took n s'
  fail : ∀ {s l e}, step s l = .fail e → ∀ r, step s (l ++ r) = .fail e

/-- A run of moves over a block of data: the state it ends in, and the data it leaves. -/
inductive Steps (step : σ → List α → Verdict σ ε) : σ → List α → σ → List α → Prop
  | refl {s l} : Steps step s l s l
  | head {s l n s₁ s' r} : step s l = .took n s₁ → Steps step s₁ (l.drop n) s' r →
      Steps step s l s' r

/-- A state and the data before it allow no further move. -/
def Settled (step : σ → List α → Verdict σ ε) (s : σ) (l : List α) : Prop :=
  ∀ n s', step s l ≠ .took n s'

section Steps

variable {step : σ → List α → Verdict σ ε} {s s₁ s₂ s' : σ} {l r r₁ r₂ : List α}

theorem Steps.single {n : Nat} (h : step s l = .took n s') : Steps step s l s' (l.drop n) :=
  .head h .refl

theorem Steps.trans (h₁ : Steps step s l s₁ r₁) (h₂ : Steps step s₁ r₁ s₂ r₂) :
    Steps step s l s₂ r₂ := by
  induction h₁ with
  | refl => exact h₂
  | head hs _ ih => exact .head hs (ih h₂)

/-- A move on data that begins with the letters it takes. -/
theorem Steps.front {p : List α} (h : step s (p ++ l) = .took p.length s') :
    Steps step s (p ++ l) s' l := by
  simpa using Steps.single h

/-- A run over a block of data is a run over every longer one. -/
theorem Steps.append (hstep : Stable step) (h : Steps step s l s' r) (q : List α) :
    Steps step s (l ++ q) s' (r ++ q) := by
  induction h with
  | refl => exact .refl
  | head hs _ ih =>
    refine .head (hstep.took hs q) ?_
    rwa [List.drop_append_of_le_length (hstep.pos hs).2]

/-- Two runs from one start, both to a settled end, end alike. -/
theorem Steps.unique (h₁ : Steps step s l s₁ r₁) (hs₁ : Settled step s₁ r₁)
    (h₂ : Steps step s l s₂ r₂) (hs₂ : Settled step s₂ r₂) : s₁ = s₂ ∧ r₁ = r₂ := by
  induction h₁ with
  | refl =>
    cases h₂ with
    | refl => exact ⟨rfl, rfl⟩
    | head hs _ => exact absurd hs (hs₁ _ _)
  | head hs _ ih =>
    cases h₂ with
    | refl => exact absurd hs (hs₂ _ _)
    | head hs' h₂ =>
      rw [hs] at hs'
      cases hs'
      exact ih hs₁ h₂

theorem Settled.nil (hstep : Stable step) : Settled step s [] := by
  intro n s' h
  rw [hstep.nil] at h
  cases h

end Steps

/-- A consumer whose calls are runs of moves: a call that takes letters made at least one move,
and a call that takes none stopped where no move was possible. A call is only made on data. -/
structure Refines (put step : σ → List α → Verdict σ ε) : Prop where
  took : ∀ {s l n s'}, l ≠ [] → put s l = .took n s' →
    0 < n ∧ n ≤ l.length ∧ Steps step s l s' (l.drop n)
  more : ∀ {s l}, l ≠ [] → put s l = .more → step s l = .more
  fail : ∀ {s l e}, l ≠ [] → put s l = .fail e → step s l = .fail e

/-- A consumer, the data it was offered and did not take, and the data still to arrive. -/
structure Config (σ α : Type*) where
  state : σ
  buffer : List α
  pending : List α

/-- The data of the stream a consumer has not taken. -/
def Config.rest (c : Config σ α) : List α := c.buffer ++ c.pending

/-- One move of a delivery: a piece arrives behind the data not yet taken, or the consumer is
called on all the data that has arrived and is not taken. -/
inductive Delivery (put : σ → List α → Verdict σ ε) : Config σ α → Config σ α → Prop
  | arrive {s buf p q} : Delivery put ⟨s, buf, p ++ q⟩ ⟨s, buf ++ p, q⟩
  | call {s buf q n t} : buf ≠ [] → put s buf = .took n t →
      Delivery put ⟨s, buf, q⟩ ⟨t, buf.drop n, q⟩
  | wait {s buf q} : buf ≠ [] → put s buf = .more → Delivery put ⟨s, buf, q⟩ ⟨s, buf, q⟩

/-- A delivery is over: the consumer refused what it was offered, or everything has arrived and
was taken, or everything has arrived and the consumer asks for more. -/
inductive Final (put : σ → List α → Verdict σ ε) : Config σ α → Option ε → Prop
  | failed {s buf q e} : buf ≠ [] → put s buf = .fail e → Final put ⟨s, buf, q⟩ (some e)
  | taken {s} : Final put ⟨s, [], []⟩ none
  | waiting {s buf} : buf ≠ [] → put s buf = .more → Final put ⟨s, buf, []⟩ none

section Delivery

variable {put step : σ → List α → Verdict σ ε} {c c' c₁ c₂ : Config σ α}

/-- One move of a delivery is a run of moves over the data not yet taken. -/
theorem Delivery.steps (hstep : Stable step) (href : Refines put step) (h : Delivery put c c') :
    Steps step c.state c.rest c'.state c'.rest := by
  cases h with
  | arrive => simpa [Config.rest] using Steps.refl
  | call hne hput =>
    obtain ⟨_, hle, hsteps⟩ := href.took hne hput
    exact hsteps.append hstep _
  | wait => exact .refl

/-- A whole delivery is a run of moves over the data not yet taken. -/
theorem run_steps (hstep : Stable step) (href : Refines put step)
    (h : Relation.ReflTransGen (Delivery put) c c') :
    Steps step c.state c.rest c'.state c'.rest := by
  induction h with
  | refl => exact .refl
  | tail _ h ih => exact ih.trans (h.steps hstep href)

/-- The verdict of a delivery that is over is the verdict of the moves on the data left. -/
theorem Final.verdict {o : Option ε} (hstep : Stable step) (href : Refines put step)
    (h : Final put c o) :
    step c.state c.rest = match o with | some e => .fail e | none => .more := by
  cases h with
  | failed hne hput => exact hstep.fail (href.fail hne hput) _
  | taken => exact hstep.nil _
  | waiting hne hput => simpa [Config.rest] using href.more hne hput

theorem Final.settled {o : Option ε} (hstep : Stable step) (href : Refines put step)
    (h : Final put c o) : Settled step c.state c.rest := by
  intro n s' hs
  rw [h.verdict hstep href] at hs
  cases o <;> cases hs

/-- **All complete deliveries of one stream agree** on the state, on the data left over and on the
outcome, however the stream was cut and whenever the calls were made. -/
theorem run_unique (hstep : Stable step) (href : Refines put step) {o₁ o₂ : Option ε}
    (h₁ : Relation.ReflTransGen (Delivery put) c c₁) (hf₁ : Final put c₁ o₁)
    (h₂ : Relation.ReflTransGen (Delivery put) c c₂) (hf₂ : Final put c₂ o₂) :
    c₁.state = c₂.state ∧ c₁.rest = c₂.rest ∧ o₁ = o₂ := by
  obtain ⟨hs, hr⟩ := (run_steps hstep href h₁).unique (hf₁.settled hstep href)
    (run_steps hstep href h₂) (hf₂.settled hstep href)
  refine ⟨hs, hr, ?_⟩
  have hv := hf₁.verdict hstep href
  rw [hs, hr, hf₂.verdict hstep href] at hv
  cases o₁ <;> cases o₂ <;> simp_all

end Delivery

/-! ## One block of data, and one chunk at a time -/

/-- The call repeated on one block of data, at most `turns` times, until nothing is left or the
consumer takes nothing: the state, the data left and the refusal, if any. -/
def drive (put : σ → List α → Verdict σ ε) : Nat → σ → List α → σ × List α × Option ε
  | 0, s, l => (s, l, none)
  | turns + 1, s, l =>
    if l.isEmpty then (s, l, none)
    else match put s l with
      | .took n s' => drive put turns s' (l.drop n)
      | .more => (s, l, none)
      | .fail e => (s, l, some e)

/-- The call repeated on one chunk after the other. A chunk the consumer does not take whole is
where a transport that never merges chunks makes no more progress: there is no final state. -/
def driveChunks (put : σ → List α → Verdict σ ε) : σ → List (List α) → Option σ
  | s, [] => some s
  | s, c :: cs =>
    match drive put c.length s c with
    | (s', [], none) => driveChunks put s' cs
    | _ => none

section Drive

variable {put step : σ → List α → Verdict σ ε} {s s' : σ} {l r : List α}

/-- With a turn for every letter, `drive` is a complete delivery of its block. -/
theorem drive_run (href : Refines put step) :
    ∀ (turns : Nat) (s : σ) (l : List α), l.length ≤ turns →
      Relation.ReflTransGen (Delivery put) ⟨s, l, []⟩
        ⟨(drive put turns s l).1, (drive put turns s l).2.1, []⟩ ∧
      Final put ⟨(drive put turns s l).1, (drive put turns s l).2.1, []⟩ (drive put turns s l).2.2
  | 0, s, l, h => by
    cases List.length_eq_zero_iff.1 (Nat.le_zero.1 h)
    exact ⟨.refl, .taken⟩
  | turns + 1, s, [], _ => ⟨.refl, .taken⟩
  | turns + 1, s, a :: l, h => by
    have hne : a :: l ≠ [] := List.cons_ne_nil a l
    simp only [drive, List.isEmpty_cons, Bool.false_eq_true, if_false]
    cases hput : put s (a :: l) with
    | more => exact ⟨.refl, .waiting hne hput⟩
    | fail e => exact ⟨.refl, .failed hne hput⟩
    | took n s' =>
      obtain ⟨hpos, _, _⟩ := href.took hne hput
      obtain ⟨hrun, hfinal⟩ := drive_run href turns s' ((a :: l).drop n) (by
        simp only [List.length_drop]
        simp only [List.length_cons] at h ⊢
        omega)
      exact ⟨.head (.call hne hput) hrun, hfinal⟩

/-- What each call that takes letters keeps, `drive` keeps. -/
theorem drive_invariant {I : σ → Prop}
    (hput : ∀ {s l n s'}, I s → put s l = .took n s' → I s') (turns : Nat) (hs : I s) (l : List α) :
    I (drive put turns s l).1 := by
  induction turns generalizing s l with
  | zero => exact hs
  | succ turns ih =>
    rw [drive]
    split
    · exact hs
    · cases h : put s l with
      | took n s' => exact ih (hput hs h) _
      | more | fail => exact hs

/-- A run of moves to a settled end is where `drive` ends. -/
theorem drive_eq_of_steps (hstep : Stable step) (href : Refines put step)
    (h : Steps step s l s' r) (hs : Settled step s' r) :
    (drive put l.length s l).1 = s' ∧ (drive put l.length s l).2.1 = r := by
  obtain ⟨hrun, hfinal⟩ := drive_run href l.length s l (Nat.le_refl _)
  have hsteps := run_steps hstep href hrun
  have hsettled := hfinal.settled hstep href
  simp only [Config.rest, List.append_nil] at hsteps hsettled
  exact hsteps.unique hsettled h hs

/-- `drive` takes the whole block exactly when the moves do. -/
theorem drive_eq_nil_iff (hstep : Stable step) (href : Refines put step) :
    drive put l.length s l = (s', [], none) ↔ Steps step s l s' [] := by
  obtain ⟨hrun, hfinal⟩ := drive_run href l.length s l (Nat.le_refl _)
  constructor
  · intro h
    have hsteps := run_steps hstep href hrun
    simp only [h, Config.rest, List.append_nil] at hsteps
    exact hsteps
  · intro h
    obtain ⟨h1, h2⟩ := drive_eq_of_steps hstep href h (.nil hstep)
    rw [h1, h2] at hfinal
    have h3 : (drive put l.length s l).2.2 = none := by
      generalize (drive put l.length s l).2.2 = o at hfinal
      cases hfinal with
      | failed hne _ => exact absurd rfl hne
      | taken => rfl
      | waiting hne _ => rfl
    exact Prod.ext h1 (Prod.ext h2 h3)

/-- A chunk that is taken whole hands its state to the next chunk. -/
theorem driveChunks_cons_eq_some_iff (hstep : Stable step) (href : Refines put step)
    {c : List α} {cs : List (List α)} :
    driveChunks put s (c :: cs) = some s' ↔
      ∃ s₁, Steps step s c s₁ [] ∧ driveChunks put s₁ cs = some s' := by
  rw [driveChunks]
  constructor
  · intro h
    split at h
    · next s₁ heq => exact ⟨s₁, (drive_eq_nil_iff hstep href).1 heq, h⟩
    · cases h
  · rintro ⟨s₁, hs, h⟩
    rw [(drive_eq_nil_iff hstep href).2 hs]
    exact h

/-- Chunks that are all taken whole are a run of moves over their concatenation. -/
theorem driveChunks_steps (hstep : Stable step) (href : Refines put step) :
    ∀ {cs : List (List α)} {s : σ}, driveChunks put s cs = some s' →
      Steps step s cs.flatten s' []
  | [], s, h => by
    cases h
    exact .refl
  | c :: cs, s, h => by
    obtain ⟨s₁, hs, h⟩ := (driveChunks_cons_eq_some_iff hstep href).1 h
    exact (hs.append hstep cs.flatten).trans (driveChunks_steps hstep href h)

end Drive

end Incremental
