import Mathlib.Data.List.DropRight

/-!
# Paths that stay below their start

A path is a text cut by a separator into components, two of which do not go down: one stays and one
goes up. `Confined` says that no prefix of the components goes up more often than it goes down;
`walk` decides it by counting levels (`walk_isSome_iff`).
-/

namespace Paths

/-- The separator of a path, and the components that stay and go up. -/
structure Names (α : Type*) where
  sep : α
  here : List α
  up : List α
  here_ne_up : here ≠ up

variable {α : Type*} [DecidableEq α]

namespace Names

variable (N : Names α)

/-- The components of a path: the runs between separators that are not empty. -/
def components (path : List α) : List (List α) :=
  match _h : path.dropWhile (· = N.sep) with
  | [] => []
  | c :: rest => (c :: rest).takeWhile (· ≠ N.sep) :: components (rest.dropWhile (· ≠ N.sep))
termination_by path.length
decreasing_by
  have hlen := (List.dropWhile_suffix (l := path) (· = N.sep)).length_le
  have hlen' := (List.dropWhile_suffix (l := rest) (· ≠ N.sep)).length_le
  rw [_h, List.length_cons] at hlen
  omega

/-- A component that goes down. -/
def Descends (component : List α) : Prop := component ≠ N.here ∧ component ≠ N.up

instance : DecidablePred N.Descends := fun _ => inferInstanceAs (Decidable (_ ∧ _))

/-- From `level` levels down, no prefix of the components goes above the start. -/
def Confined (level : Nat) (components : List (List α)) : Prop :=
  ∀ pre, pre <+: components → pre.count N.up ≤ level + pre.countP N.Descends

/-- The level that the components lead to, none if they go above the start on the way. -/
def walk : Nat → List (List α) → Option Nat
  | level, [] => some level
  | level, c :: components =>
    if c = N.here then walk level components
    else if c = N.up then if level = 0 then none else walk (level - 1) components
    else walk (level + 1) components

variable {N} {level : Nat} {c : List α} {path : List α} {components' : List (List α)}

/-- Separators in front make no difference. -/
@[simp] theorem components_dropWhile (path : List α) :
    N.components (path.dropWhile (· = N.sep)) = N.components path := by
  conv_lhs => rw [components]
  conv_rhs => rw [components]
  rw [List.dropWhile_idempotent]

/-- The empty path has no components. -/
@[simp] theorem components_nil : N.components ([] : List α) = [] := by
  rw [components]
  rfl

/-- The first component of a path that does not begin with a separator. -/
theorem components_cons {a : α} (h : a ≠ N.sep) (rest : List α) :
    N.components (a :: rest) = (a :: rest).takeWhile (· ≠ N.sep) ::
      N.components ((a :: rest).dropWhile (· ≠ N.sep)) := by
  have hdrop : (a :: rest).dropWhile (fun x => decide (x = N.sep)) = a :: rest := by simp [h]
  rw [components]
  split
  · next hnil =>
    rw [hdrop] at hnil
    cases hnil
  · next c rest' hcons =>
    rw [hdrop] at hcons
    cases hcons
    simp [h]

/-- A path without components stays where it is. -/
@[simp] theorem confined_nil : N.Confined level [] := by
  intro pre hpre
  rw [List.prefix_nil.1 hpre]
  exact Nat.zero_le _

/-- A component that stays does not matter. -/
@[simp] theorem confined_here : N.Confined level (N.here :: components') ↔ N.Confined level components' := by
  constructor
  · intro h pre hpre
    have hcons := h (N.here :: pre) (List.cons_prefix_cons.2 ⟨rfl, hpre⟩)
    simpa [Descends, List.count_cons, N.here_ne_up] using hcons
  · intro h pre hpre
    rcases List.prefix_cons_iff.1 hpre with rfl | ⟨pre', rfl, hpre'⟩
    · exact Nat.zero_le _
    · simpa [Descends, List.count_cons, N.here_ne_up] using h pre' hpre'

/-- A component that goes up uses one level. -/
@[simp] theorem confined_up_succ :
    N.Confined (level + 1) (N.up :: components') ↔ N.Confined level components' := by
  constructor
  · intro h pre hpre
    have hcons := h (N.up :: pre) (List.cons_prefix_cons.2 ⟨rfl, hpre⟩)
    rw [List.count_cons_self, List.countP_cons_of_neg (by simp [Descends])] at hcons
    omega
  · intro h pre hpre
    rcases List.prefix_cons_iff.1 hpre with rfl | ⟨pre', rfl, hpre'⟩
    · exact Nat.zero_le _
    · have htail := h pre' hpre'
      rw [List.count_cons_self, List.countP_cons_of_neg (by simp [Descends])]
      omega

/-- At level zero it leads out. -/
@[simp] theorem not_confined_up_zero : ¬ N.Confined 0 (N.up :: components') := by
  intro h
  have hcons := h [N.up] (List.cons_prefix_cons.2 ⟨rfl, List.nil_prefix⟩)
  simp [Descends] at hcons

/-- A component that goes down gains one. -/
theorem confined_descends (h : N.Descends c) :
    N.Confined level (c :: components') ↔ N.Confined (level + 1) components' := by
  constructor
  · intro hcons pre hpre
    have htail := hcons (c :: pre) (List.cons_prefix_cons.2 ⟨rfl, hpre⟩)
    rw [List.count_cons_of_ne h.2, List.countP_cons_of_pos (by simpa using h)] at htail
    omega
  · intro htail pre hpre
    rcases List.prefix_cons_iff.1 hpre with rfl | ⟨pre', rfl, hpre'⟩
    · exact Nat.zero_le _
    · have h' := htail pre' hpre'
      rw [List.count_cons_of_ne h.2, List.countP_cons_of_pos (by simpa using h)]
      omega

/-- **Counting levels decides whether a path is confined.** -/
theorem walk_isSome_iff (level : Nat) (components : List (List α)) :
    (N.walk level components).isSome = true ↔ N.Confined level components := by
  induction components generalizing level with
  | nil => exact iff_of_true rfl confined_nil
  | cons c components ih =>
    rw [walk]
    split
    · next h => rw [h, confined_here, ih]
    · next hhere =>
      split
      · next h =>
        rw [h]
        cases level with
        | zero => exact iff_of_false Bool.false_ne_true not_confined_up_zero
        | succ level => rw [if_neg (Nat.succ_ne_zero level), confined_up_succ, Nat.add_sub_cancel, ih]
      · next hup => rw [confined_descends ⟨hhere, hup⟩, ih]

end Names

end Paths
