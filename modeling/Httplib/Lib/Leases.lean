import Mathlib.Data.List.Infix
import Mathlib.Data.List.Nodup
import Mathlib.Data.List.Perm.Basic

/-!
# Leases

A store keeps items that are idle and lends them out: an item is made when none is idle, the one that
waits longest is lent again, and what comes back is stored while there is room, or closed. `Leases` is
what a store has done so far, as a log. `Leases.places` says that each item is in one place,
`Leases.order` that the items leave the store in the order in which they came back, `Leases.made_idle`
that one is made only when none is idle, and `Leases.peak` that there are never more items open than were
lent at one time.
-/

variable {α : Type*}

/-- What happens to an item. -/
inductive Lease (α : Type*) where
  /-- The item was made and lent. -/
  | made (a : α)
  /-- The item was idle and is lent. -/
  | reused (a : α)
  /-- The item came back and is idle. -/
  | stored (a : α)
  /-- The item came back and is closed. -/
  | closed (a : α)
  /-- The item was idle and is closed. -/
  | dropped (a : α)

namespace Lease

def asMade : Lease α → Option α
  | .made a => some a
  | _ => none

def asStored : Lease α → Option α
  | .stored a => some a
  | _ => none

/-- The item left the store. -/
def asLeft : Lease α → Option α
  | .reused a | .dropped a => some a
  | _ => none

/-- The item is gone. -/
def asGone : Lease α → Option α
  | .closed a | .dropped a => some a
  | _ => none

/-- The item was lent. -/
def asLent : Lease α → Option α
  | .made a | .reused a => some a
  | _ => none

/-- The item came back. -/
def asBack : Lease α → Option α
  | .stored a | .closed a => some a
  | _ => none

end Lease

/-- The items that are idle, those that are lent, and the log. -/
inductive Leases (room : Nat) : List α → List α → List (Lease α) → Prop
  | nil : Leases room [] [] []
  | made {lent : List α} {log : List (Lease α)} {a : α} : Leases room [] lent log →
      a ∉ log.filterMap Lease.asMade → Leases room [] (a :: lent) (log ++ [.made a])
  | reused {idle lent : List α} {log : List (Lease α)} {a : α} : Leases room (a :: idle) lent log →
      Leases room idle (a :: lent) (log ++ [.reused a])
  | stored {idle lent : List α} {log : List (Lease α)} {a : α} : Leases room idle (a :: lent) log →
      idle.length < room → Leases room (idle ++ [a]) lent (log ++ [.stored a])
  | closed {idle lent : List α} {log : List (Lease α)} {a : α} : Leases room idle (a :: lent) log →
      Leases room idle lent (log ++ [.closed a])
  | dropped {idle lent : List α} {log : List (Lease α)} : Leases room idle lent log →
      Leases room [] lent (log ++ idle.map .dropped)
  | perm {idle lent lent' : List α} {log : List (Lease α)} : Leases room idle lent log →
      lent.Perm lent' → Leases room idle lent' log

namespace Leases

variable {room : Nat} {idle lent : List α} {log : List (Lease α)}

/-- What counts the idle items that are closed. -/
theorem filterMap_dropped_some {f : Lease α → Option α} (h : ∀ a, f (.dropped a) = some a)
    (l : List α) : (l.map Lease.dropped).filterMap f = l := by
  rw [List.filterMap_map]
  exact (List.filterMap_congr fun a _ => h a).trans List.filterMap_some

/-- What does not count them. -/
theorem filterMap_dropped_none {f : Lease α → Option α} (h : ∀ a, f (.dropped a) = none)
    (l : List α) : (l.map Lease.dropped).filterMap f = [] := by
  refine List.filterMap_eq_nil_iff.2 fun x hx => ?_
  obtain ⟨a, -, rfl⟩ := List.mem_map.1 hx
  exact h a

/-- **An item is in one place.** Each item that was made is idle, lent or gone. -/
theorem places (h : Leases room idle lent log) :
    (idle ++ lent ++ log.filterMap Lease.asGone).Perm (log.filterMap Lease.asMade) := by
  classical
  rw [List.perm_iff_count]
  induction h with
  | nil => exact fun _ => rfl
  | made _ _ ih | reused _ ih | stored _ _ ih | closed _ ih =>
    intro b
    have hb := ih b
    simp [List.filterMap_append, List.filterMap_cons, Lease.asMade, Lease.asGone, List.count_cons] at hb ⊢
    omega
  | @dropped idle _ _ _ ih =>
    intro b
    have hb := ih b
    rw [List.filterMap_append, List.filterMap_append,
      filterMap_dropped_some (f := Lease.asGone) fun _ => rfl,
      filterMap_dropped_none (f := Lease.asMade) fun _ => rfl]
    simp at hb ⊢
    omega
  | perm _ hperm ih =>
    intro b
    have hb := ih b
    simp only [List.count_append] at hb ⊢
    rw [← hperm.count_eq b]
    exact hb

theorem length_idle (h : Leases room idle lent log) : idle.length ≤ room := by
  induction h with
  | nil | made | dropped => exact Nat.zero_le _
  | reused _ ih => exact Nat.le_of_succ_le ih
  | stored _ hroom _ =>
    rw [List.length_append]
    exact hroom
  | closed _ ih | perm _ _ ih => exact ih

/-- **First in, first out.** The items that came back have left the store in this order, but for those
that are idle. -/
theorem order (h : Leases room idle lent log) :
    log.filterMap Lease.asStored = log.filterMap Lease.asLeft ++ idle := by
  induction h with
  | nil => rfl
  | made _ _ ih | reused _ ih | stored _ _ ih | closed _ ih =>
    simp [List.filterMap_append, List.filterMap_cons, Lease.asStored, Lease.asLeft, ih]
  | dropped _ ih =>
    rw [List.filterMap_append, List.filterMap_append,
      filterMap_dropped_none (f := Lease.asStored) fun _ => rfl,
      filterMap_dropped_some (f := Lease.asLeft) fun _ => rfl, List.append_nil, List.append_nil]
    exact ih
  | perm _ _ ih => exact ih

/-- Where an item was made, it was so before anything else that is logged. -/
theorem exists_of_append_eq {more before after : List (Lease α)} {a : α}
    (hmore : ∀ x ∈ more, x.asMade = none) (h : log ++ more = before ++ .made a :: after) :
    ∃ after', log = before ++ .made a :: after' := by
  rcases List.append_eq_append_iff.1 h with ⟨rest, -, rfl⟩ | ⟨rest, rfl, hrest⟩
  · have hmade := hmore (.made a) (List.mem_append_right _ List.mem_cons_self)
    cases hmade
  · cases rest with
    | nil =>
      have hmade := hmore (.made a) (by rw [← List.nil_append more, ← hrest]; exact List.mem_cons_self)
      cases hmade
    | cons b rest =>
      cases (List.cons.inj hrest).1
      exact ⟨rest, rfl⟩

/-- **An item is made only when none is idle**: all that came back have left again. -/
theorem made_idle (h : Leases room idle lent log) {before after : List (Lease α)} {a : α}
    (hlog : log = before ++ .made a :: after) :
    before.filterMap Lease.asStored = before.filterMap Lease.asLeft := by
  induction h generalizing after with
  | nil => exact absurd hlog.symm (List.append_ne_nil_of_right_ne_nil _ (List.cons_ne_nil _ _))
  | made h _ ih =>
    rcases List.eq_nil_or_concat' after with rfl | ⟨after', x, rfl⟩
    · obtain ⟨rfl, -⟩ := List.append_inj' hlog rfl
      rw [h.order, List.append_nil]
    · rw [← List.cons_append, ← List.append_assoc] at hlog
      exact ih (List.append_inj' hlog rfl).1
  | reused _ ih | stored _ _ ih | closed _ ih =>
    obtain ⟨after', hlog'⟩ := exists_of_append_eq (List.forall_mem_singleton.2 rfl) hlog
    exact ih hlog'
  | dropped _ ih =>
    obtain ⟨after', hlog'⟩ := exists_of_append_eq (List.forall_mem_map.2 fun _ _ => rfl) hlog
    exact ih hlog'
  | perm _ _ ih => exact ih hlog

/-- The items that are lent were lent and have not come back. -/
theorem length_lent (h : Leases room idle lent log) :
    lent.length + (log.filterMap Lease.asBack).length = (log.filterMap Lease.asLent).length := by
  induction h with
  | nil => rfl
  | made _ _ ih | reused _ ih | stored _ _ ih | closed _ ih =>
    simp [List.filterMap_append, List.filterMap_cons, Lease.asBack, Lease.asLent] at ih ⊢
    omega
  | dropped _ ih =>
    rw [List.filterMap_append, List.filterMap_append,
      filterMap_dropped_none (f := Lease.asBack) fun _ => rfl,
      filterMap_dropped_none (f := Lease.asLent) fun _ => rfl, List.append_nil, List.append_nil]
    exact ih
  | perm _ hperm ih => rw [← hperm.length_eq]; exact ih

/-- **The open items.** There was a time at which as many items were lent as are open. -/
theorem peak (h : Leases room idle lent log) :
    ∃ before, before <+: log ∧ idle.length + lent.length + (before.filterMap Lease.asBack).length ≤
      (before.filterMap Lease.asLent).length := by
  induction h with
  | nil => exact ⟨[], List.prefix_rfl, Nat.le_refl _⟩
  | @made lent log a h hnew ih =>
    -- nothing is idle: all that is open is lent
    refine ⟨log ++ [.made a], List.prefix_rfl, Nat.le_of_eq ?_⟩
    rw [List.length_nil, Nat.zero_add]
    exact (made h hnew).length_lent
  | reused _ ih | stored _ _ ih =>
    obtain ⟨before, hbefore, hle⟩ := ih
    refine ⟨before, hbefore.trans (List.prefix_append _ _), ?_⟩
    simp at hle ⊢
    omega
  | closed _ ih | dropped _ ih =>
    obtain ⟨before, hbefore, hle⟩ := ih
    refine ⟨before, hbefore.trans (List.prefix_append _ _), ?_⟩
    simp at hle ⊢
    omega
  | perm _ hperm ih =>
    obtain ⟨before, hbefore, hle⟩ := ih
    exact ⟨before, hbefore, hperm.length_eq ▸ hle⟩

end Leases
