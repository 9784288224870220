import Mathlib.Logic.Relation
import Mathlib.Data.List.Basic

/-!
# Producers that are pulled

A producer holds a state; each call returns a buffer and says whether more will follow, or returns
none, or fails. `Emits get s bs e` is the run of the caller that pulls until it is told to stop: the
buffers `bs` it saw, and which of the three endings it met.
-/

namespace Producer

variable {σ ε α : Type*}

/-- What one call of a producer returns. -/
inductive Pull (σ ε α : Type*) where
  /-- No buffer, and none will follow. -/
  | done
  | fail (e : ε)
  /-- A buffer, whether more will follow, and the state for the next call. -/
  | buffer (b : List α) (more : Bool) (s : σ)
  /-- The call did not return within the turns its loop was given. -/
  | spins

/-- The state inside what a call returns, seen through `f`. -/
def Pull.map {τ : Type*} (f : σ → τ) : Pull σ ε α → Pull τ ε α
  | .done => .done
  | .fail e => .fail e
  | .buffer b more s => .buffer b more (f s)
  | .spins => .spins

/-- How a producer signalled its end: with its last buffer, with none, or by failing. -/
inductive Ending (ε : Type*) where
  | last
  | done
  | failed (e : ε)
  deriving DecidableEq

/-- The buffers a caller sees that pulls until the end, and the end it meets. -/
inductive Emits (get : σ → Pull σ ε α) : σ → List (List α) → Ending ε → Prop
  | done {s} : get s = .done → Emits get s [] .done
  | fail {s e} : get s = .fail e → Emits get s [] (.failed e)
  | last {s b t} : get s = .buffer b false t → Emits get s [b] .last
  | more {s b t bs e} : get s = .buffer b true t → Emits get t bs e → Emits get s (b :: bs) e

variable {get : σ → Pull σ ε α} {s : σ} {bs bs' : List (List α)} {e e' : Ending ε}

/-- The first call decides the shape of a run. -/
theorem Emits.inv (h : Emits get s bs e) :
    match get s with
    | .done => bs = [] ∧ e = .done
    | .fail x => bs = [] ∧ e = .failed x
    | .buffer b false _ => bs = [b] ∧ e = .last
    | .buffer b true s' => ∃ bs', bs = b :: bs' ∧ Emits get s' bs' e
    | .spins => False := by
  cases h with
  | done hg | fail hg | last hg => rw [hg]; exact ⟨rfl, rfl⟩
  | more hg h => rw [hg]; exact ⟨_, rfl, h⟩

/-- Only what the first call returns matters. -/
theorem Emits.congr {s' : σ} (h : Emits get s' bs e) (hget : get s = get s') :
    Emits get s bs e := by
  cases h with
  | done hg => exact .done (hget.trans hg)
  | fail hg => exact .fail (hget.trans hg)
  | last hg => exact .last (hget.trans hg)
  | more hg h => exact .more (hget.trans hg) h

/-- A producer that works as another one does on states seen through `f` has its runs. -/
theorem Emits.map {τ : Type*} {get' : τ → Pull τ ε α} {f : σ → τ}
    (hget : ∀ s, get' (f s) = (get s).map f) (h : Emits get s bs e) : Emits get' (f s) bs e := by
  induction h with
  | done hg => exact .done (by rw [hget, hg, Pull.map])
  | fail hg => exact .fail (by rw [hget, hg, Pull.map])
  | last hg => exact .last (by rw [hget, hg, Pull.map])
  | more hg _ ih => exact .more (by rw [hget, hg, Pull.map]) ih

/-- A producer has at most one run. -/
theorem Emits.unique (h : Emits get s bs e) (h' : Emits get s bs' e') : bs = bs' ∧ e = e' := by
  induction h generalizing bs' e' with
  | done hg | fail hg | last hg =>
    have hinv := h'.inv
    rw [hg] at hinv
    exact ⟨hinv.1.symm, hinv.2.symm⟩
  | more hg _ ih =>
    have hinv := h'.inv
    rw [hg] at hinv
    obtain ⟨bs₁, rfl, h₁⟩ := hinv
    obtain ⟨rfl, rfl⟩ := ih h₁
    exact ⟨rfl, rfl⟩

end Producer
