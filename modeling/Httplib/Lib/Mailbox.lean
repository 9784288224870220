import Mathlib.Data.List.Basic

/-!
# Mailboxes

A mailbox accepts items, hands them out in the order it has accepted them, and may drop all that
still wait. `History` is what such a mailbox has done so far: what it accepted, what was taken, what
was dropped, and what waits. `History.fates` reads the history back from the accepted items: each has
met one fate, in their order, but for those that wait.
-/

namespace Mailbox

variable {α : Type*}

/-- The items accepted, taken, dropped and waiting after a run of a mailbox. -/
inductive History : List α → List α → List α → List α → Prop
  | nil : History [] [] [] []
  | push {accepted taken dropped waiting : List α} (a : α) :
      History accepted taken dropped waiting →
      History (accepted ++ [a]) taken dropped (waiting ++ [a])
  | take {accepted taken dropped waiting : List α} {a : α} :
      History accepted taken dropped (a :: waiting) →
      History accepted (taken ++ [a]) dropped waiting
  | clear {accepted taken dropped waiting : List α} :
      History accepted taken dropped waiting →
      History accepted taken (dropped ++ waiting) []

variable {accepted taken dropped waiting : List α}

/-- **Every item has one fate.** The accepted items are those that were taken (`true`) or dropped
(`false`), in this order, and behind them those that wait. -/
theorem History.fates (h : History accepted taken dropped waiting) :
    ∃ fates : List (α × Bool), accepted = fates.map Prod.fst ++ waiting ∧
      taken = (fates.filter (·.2)).map Prod.fst ∧
      dropped = (fates.filter (!·.2)).map Prod.fst := by
  induction h with
  | nil => exact ⟨[], rfl, rfl, rfl⟩
  | push a _ ih =>
    obtain ⟨fates, rfl, rfl, rfl⟩ := ih
    exact ⟨fates, List.append_assoc _ _ _, rfl, rfl⟩
  | @take _ _ _ _ a _ ih =>
    obtain ⟨fates, rfl, rfl, rfl⟩ := ih
    exact ⟨fates ++ [(a, true)], by simp, by simp, by simp⟩
  | @clear _ _ _ waiting _ ih =>
    obtain ⟨fates, rfl, rfl, rfl⟩ := ih
    refine ⟨fates ++ waiting.map fun a => (a, false), by simp [Function.comp_def], ?_, ?_⟩
    · simp [List.filter_map, Function.comp_def]
    · simp [List.filter_map, Function.comp_def]

/-- A mailbox that has accepted nothing is as at the start. -/
theorem History.of_not_accepted (h : History [] taken dropped waiting) :
    taken = [] ∧ dropped = [] ∧ waiting = [] := by
  obtain ⟨fates, hnone, rfl, rfl⟩ := h.fates
  obtain ⟨hfates, rfl⟩ := List.append_eq_nil_iff.1 hnone.symm
  rw [List.map_eq_nil_iff.1 hfates]
  exact ⟨rfl, rfl, rfl⟩

/-- A mailbox that has dropped nothing has handed out, in their order, all items but those that
wait. -/
theorem History.of_not_dropped (h : History accepted taken [] waiting) :
    accepted = taken ++ waiting := by
  obtain ⟨fates, rfl, rfl, hdropped⟩ := h.fates
  have hall : fates.filter (·.2) = fates := by
    refine List.filter_eq_self.2 fun fate hfate => ?_
    have hnone := List.filter_eq_nil_iff.1 (List.map_eq_nil_iff.1 hdropped.symm) fate hfate
    simpa using hnone
  rw [hall]

end Mailbox
