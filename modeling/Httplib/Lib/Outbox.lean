import Mathlib.Data.List.Infix

/-!
# Outboxes

An outbox is opened once, is live for a while, and is then over for good. The items that are started
before it is opened are skipped. While it is live each item is put out before the next one is started;
the first that is the last of its kind, or anything from outside, ends that. `Outbox` is what such an
outbox has done so far. `Outbox.split` says that it has put out the first of the items that were started
since it is open, and `Outbox.last_ends` that nothing is put out behind a last one.
-/

variable {α : Type*}

/-- An outbox is closed, open, or over. -/
inductive Outbox.Phase where
  | before
  | live
  | ended
deriving DecidableEq

/-- The items that were started, the one that is being put out, those that were skipped and those that
are out. An item that is `last` ends the outbox. -/
inductive Outbox (last : α → Prop) :
    Outbox.Phase → List α → Option α → List α → List α → Prop
  | nil : Outbox last .before [] none [] []
  | skip {started skipped : List α} (a : α) :
      Outbox last .before started none skipped [] →
      Outbox last .before (started ++ [a]) none (skipped ++ [a]) []
  | opened {started skipped : List α} :
      Outbox last .before started none skipped [] → Outbox last .live started none skipped []
  | start {started skipped out : List α} (a : α) :
      Outbox last .live started none skipped out →
      Outbox last .live (started ++ [a]) (some a) skipped out
  | put {started skipped out : List α} {a : α} :
      Outbox last .live started (some a) skipped out → ¬ last a →
      Outbox last .live started none skipped (out ++ [a])
  | putLast {started skipped out : List α} {a : α} :
      Outbox last .live started (some a) skipped out → last a →
      Outbox last .ended started none skipped (out ++ [a])
  | ended {phase : Outbox.Phase} {started skipped out : List α} {pending : Option α} :
      Outbox last phase started pending skipped out → Outbox last .ended started pending skipped out
  | late {started skipped out : List α} (a : α) :
      Outbox last .ended started none skipped out →
      Outbox last .ended (started ++ [a]) (some a) skipped out
  | fail {started skipped out : List α} {pending : Option α} :
      Outbox last .ended started pending skipped out → Outbox last .ended started none skipped out

namespace Outbox

variable {last : α → Prop} {phase : Phase} {started skipped out : List α} {pending : Option α}

/-- **What is out comes first.** Behind the items that were skipped the outbox has put out the first of
those that were started; while it is live, all of them but the one that is being put out. -/
theorem split (h : Outbox last phase started pending skipped out) :
    ∃ rest, started = skipped ++ out ++ rest ∧ (phase = .before → out = [] ∧ rest = []) ∧
      (phase = .live → rest = pending.toList) := by
  induction h with
  | nil => exact ⟨[], rfl, fun _ => ⟨rfl, rfl⟩, nofun⟩
  | skip a _ ih =>
    obtain ⟨rest, rfl, hbefore, -⟩ := ih
    obtain ⟨-, rfl⟩ := hbefore rfl
    exact ⟨[], by simp, fun _ => ⟨rfl, rfl⟩, nofun⟩
  | opened _ ih =>
    obtain ⟨rest, rfl, hbefore, -⟩ := ih
    obtain ⟨-, rfl⟩ := hbefore rfl
    exact ⟨[], rfl, nofun, fun _ => rfl⟩
  | start a _ ih =>
    obtain ⟨rest, rfl, -, hlive⟩ := ih
    obtain rfl := hlive rfl
    exact ⟨[a], by simp, nofun, fun _ => rfl⟩
  | put _ _ ih =>
    obtain ⟨rest, rfl, -, hlive⟩ := ih
    obtain rfl := hlive rfl
    exact ⟨[], by simp, nofun, fun _ => rfl⟩
  | putLast _ _ ih =>
    obtain ⟨rest, rfl, -, hlive⟩ := ih
    obtain rfl := hlive rfl
    exact ⟨[], by simp, nofun, nofun⟩
  | ended _ ih =>
    obtain ⟨rest, hrest, -⟩ := ih
    exact ⟨rest, hrest, nofun, nofun⟩
  | late a _ ih =>
    obtain ⟨rest, rfl, -⟩ := ih
    exact ⟨rest ++ [a], by simp, nofun, nofun⟩
  | fail _ ih =>
    obtain ⟨rest, hrest, -⟩ := ih
    exact ⟨rest, hrest, nofun, nofun⟩

/-- An outbox that is not open has put out nothing. -/
theorem of_before (h : Outbox last .before started pending skipped out) :
    pending = none ∧ out = [] := by
  cases h with
  | nil | skip => exact ⟨rfl, rfl⟩

/-- An outbox that is not over has put out no last item. -/
theorem not_last (h : Outbox last phase started pending skipped out) (hphase : phase ≠ .ended) :
    ∀ a ∈ out, ¬ last a := by
  induction h with
  | nil | skip | opened => exact nofun
  | start a _ ih => exact ih nofun
  | @put _ _ _ a _ hlast ih =>
    intro b hb
    rcases List.mem_append.1 hb with hb | hb
    · exact ih nofun b hb
    · cases List.mem_singleton.1 hb
      exact hlast
  | putLast | ended | late | fail => exact absurd rfl hphase

/-- **A last item is the end of what is out**, and of the outbox. -/
theorem last_ends (h : Outbox last phase started pending skipped out) {front back : List α} {a : α}
    (hout : out = front ++ a :: back) (hlast : last a) : back = [] ∧ phase = .ended := by
  have hphase : phase = .ended := by
    by_contra hne
    exact h.not_last hne a (by simp [hout]) hlast
  refine ⟨?_, hphase⟩
  clear hphase
  induction h generalizing back with
  | nil | skip | opened => simp at hout
  | start _ _ ih | ended _ ih | late _ _ ih | fail _ ih => exact ih hout
  | put h _ _ | putLast h _ _ =>
    rcases List.eq_nil_or_concat back with rfl | ⟨back', c, rfl⟩
    · rfl
    · -- the item stands before the one that is put out, and the outbox was live then
      rw [List.concat_eq_append, ← List.cons_append, ← List.append_assoc] at hout
      have hfront := (List.append_inj' hout rfl).1
      exact absurd hlast (h.not_last nofun a (by simp [hfront]))

end Outbox
