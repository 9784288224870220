import Mathlib.Data.List.Infix
import Mathlib.Data.List.Basic

/-!
# The leftmost occurrence of a pattern

`leftmost pat l` is the position of the first occurrence of `pat` as a contiguous block of `l`.
The facts a scanner needs of it are that the answer does not change when the list grows on the
right (`leftmost_append`), and that a pattern whose first letter occurs in it only once cannot
begin inside a text free of it (`leftmost_append_self`).
-/

namespace Search

variable {α : Type*} [DecidableEq α] {pat l r : List α} {i : Nat}

/-- The position of the first occurrence of `pat` in a list, if there is one. -/
def leftmost (pat : List α) : List α → Option Nat
  | [] => if pat = [] then some 0 else none
  | a :: l => if pat <+: a :: l then some 0 else (leftmost pat l).map (· + 1)

/-- An occurrence at the head is the leftmost one. -/
theorem leftmost_eq_zero (h : pat <+: l) : leftmost pat l = some 0 := by
  cases l with
  | nil => simp [leftmost, List.prefix_nil.1 h]
  | cons a l => simp [leftmost, h]

/-- Without an occurrence at the head, the search goes on in the tail. -/
theorem leftmost_cons {a : α} (h : ¬ pat <+: a :: l) :
    leftmost pat (a :: l) = (leftmost pat l).map (· + 1) := by
  simp [leftmost, h]

/-- The position found is the least one at which the pattern occurs. -/
theorem leftmost_eq_some_iff :
    leftmost pat l = some i ↔ pat <+: l.drop i ∧ ∀ j < i, ¬ pat <+: l.drop j := by
  induction l generalizing i with
  | nil =>
    cases i with
    | zero => simp [leftmost]
    | succ i =>
      simp only [leftmost, List.drop_nil, List.prefix_nil]
      constructor
      · intro h
        split at h <;> simp at h
      · rintro ⟨h, hj⟩
        exact absurd h (hj 0 (Nat.succ_pos i))
  | cons a l ih =>
    by_cases hp : pat <+: a :: l
    · rw [leftmost_eq_zero hp]
      constructor
      · intro h
        cases h
        exact ⟨hp, by simp⟩
      · rintro ⟨_, hj⟩
        rcases Nat.eq_zero_or_pos i with rfl | hi
        · rfl
        · exact absurd hp (hj 0 hi)
    · rw [leftmost_cons hp]
      cases i with
      | zero => simp [hp]
      | succ i =>
        simp only [Option.map_eq_some_iff, Nat.add_right_cancel_iff, exists_eq_right, ih,
          List.drop_succ_cons]
        refine and_congr_right fun _ => ⟨fun h j hj => ?_, fun h j hj => h (j + 1) (by omega)⟩
        cases j with
        | zero => exact hp
        | succ j => exact h j (by omega)

/-- The search fails exactly when the pattern occurs nowhere. -/
theorem leftmost_eq_none_iff : leftmost pat l = none ↔ ¬ pat <:+: l := by
  induction l with
  | nil => simp [leftmost]
  | cons a l ih =>
    by_cases hp : pat <+: a :: l
    · simp [leftmost_eq_zero hp, hp.isInfix]
    · rw [leftmost_cons hp, Option.map_eq_none_iff, ih, List.infix_cons_iff]
      simp [hp]

/-- A pattern that is found occurs. -/
theorem infix_of_leftmost (h : leftmost pat l = some i) : pat <:+: l := by
  by_contra hnone
  rw [leftmost_eq_none_iff.2 hnone] at h
  cases h

/-- An occurrence that was found lies inside the list. -/
theorem leftmost_le (h : leftmost pat l = some i) (hne : pat ≠ []) :
    i + pat.length ≤ l.length := by
  have hp := (leftmost_eq_some_iff.1 h).1.length_le
  have : 0 < pat.length := List.length_pos_of_ne_nil hne
  simp only [List.length_drop] at hp
  omega

/-- The letters before the leftmost occurrence, the occurrence, and the rest. -/
theorem leftmost_decomp (h : leftmost pat l = some i) :
    l = l.take i ++ (pat ++ l.drop (i + pat.length)) := by
  obtain ⟨t, ht⟩ := (leftmost_eq_some_iff.1 h).1
  have hd : l.drop (i + pat.length) = t := by
    rw [← List.drop_drop, ← ht, List.drop_left]
  rw [hd, ht, List.take_append_drop]

/-- The position found does not move when the list grows on the right. -/
theorem leftmost_append (h : leftmost pat l = some i) (hne : pat ≠ []) :
    leftmost pat (l ++ r) = some i := by
  have hle := leftmost_le h hne
  obtain ⟨hp, hj⟩ := leftmost_eq_some_iff.1 h
  refine leftmost_eq_some_iff.2 ⟨?_, fun j hji hpre => hj j hji ?_⟩
  · rw [List.drop_append_of_le_length (by omega)]
    exact hp.trans (List.prefix_append _ _)
  · rw [List.drop_append_of_le_length (by omega)] at hpre
    have : pat.length ≤ (l.drop j).length := by
      rw [List.length_drop]; omega
    exact List.prefix_of_prefix_length_le hpre (List.prefix_append _ _) this

/-- The text before the leftmost occurrence is free of the pattern. -/
theorem not_infix_take_leftmost (h : leftmost pat l = some i) (hne : pat ≠ []) :
    ¬ pat <:+: l.take i := by
  intro hin
  obtain ⟨j, hjs⟩ : ∃ j, leftmost pat (l.take i) = some j := by
    cases hf : leftmost pat (l.take i) with
    | none => exact absurd hin (leftmost_eq_none_iff.1 hf)
    | some j => exact ⟨j, rfl⟩
  have hlt := leftmost_le hjs hne
  have hpos : 0 < pat.length := List.length_pos_of_ne_nil hne
  have heq := leftmost_append (r := l.drop i) hjs hne
  rw [List.take_append_drop, h] at heq
  cases heq
  simp only [List.length_take] at hlt
  omega

/-- A pattern whose first letter does not recur in it has no occurrence that begins inside a text
free of the pattern and ends past it: after such a text, it is found where the text ends. -/
theorem leftmost_append_self {c : α} {p : List α} (hc : c ∉ p) (hfree : ¬ (c :: p) <:+: l) :
    leftmost (c :: p) (l ++ (c :: p ++ r)) = some l.length := by
  refine leftmost_eq_some_iff.2 ⟨by simp, fun j hj hpre => ?_⟩
  rw [List.drop_append_of_le_length (by omega)] at hpre
  -- the letters of the text from `j` on, a non-empty list the occurrence begins with
  obtain ⟨d, m, hm⟩ : ∃ d m, l.drop j = d :: m :=
    List.exists_cons_of_ne_nil (by
      intro h
      have := congrArg List.length h
      simp only [List.length_drop, List.length_nil] at this
      omega)
  rcases Nat.lt_or_ge (l.drop j).length (c :: p).length with hlt | hge
  · have hmp : l.drop j <+: c :: p :=
      List.prefix_of_prefix_length_le (List.prefix_append _ _) hpre (by omega)
    obtain ⟨t, ht⟩ := hmp
    rw [← ht, List.prefix_append_right_inj] at hpre
    have htne : t ≠ [] := by
      rintro rfl
      rw [← ht, List.append_nil] at hlt
      omega
    obtain ⟨e, t', rfl⟩ := List.exists_cons_of_ne_nil htne
    rw [hm, List.cons_append, List.cons_append] at hpre
    rw [hm, List.cons_append, List.cons.injEq] at ht
    have hed : e = d := (List.cons_prefix_cons.1 hpre).1
    exact hc (by rw [← ht.2, ← ht.1, ← hed]; simp)
  · have hin : (c :: p) <+: l.drop j :=
      List.prefix_of_prefix_length_le hpre (List.prefix_append _ _) hge
    exact hfree (hin.isInfix.trans (List.drop_suffix _ _).isInfix)

/-- In front of the occurrence that the search finds there is none. -/
theorem not_prefix_drop_of_lt (h : leftmost pat l = some i) {j : Nat} (hj : j < i) :
    ¬ pat <+: l.drop j := (leftmost_eq_some_iff.1 h).2 j hj

/-- Two copies of such a pattern behind a text free of it are found where the text ends. -/
theorem leftmost_twice {c : α} {p : List α} (hc : c ∉ p) (hfree : ¬ (c :: p) <:+: l) :
    leftmost (c :: p ++ (c :: p)) (l ++ (c :: p ++ (c :: p))) = some l.length := by
  refine leftmost_eq_some_iff.2 ⟨by simp, fun j hj hpre => ?_⟩
  exact not_prefix_drop_of_lt (leftmost_append_self hc hfree) hj ((List.prefix_append _ _).trans hpre)

/-- A single copy in front, with another text free of the pattern behind it, makes no difference. -/
theorem leftmost_twice_of_not_prefix {c : α} {p m : List α} (hc : c ∉ p)
    (hl : ¬ (c :: p) <:+: l) (hm : ¬ (c :: p) <:+: m)
    (hfirst : ¬ (c :: p) <+: m ++ (c :: p ++ (c :: p))) :
    leftmost (c :: p ++ (c :: p)) (l ++ (c :: p ++ (m ++ (c :: p ++ (c :: p))))) =
      some (l.length + ((c :: p).length + m.length)) := by
  refine leftmost_eq_some_iff.2 ⟨?_, fun j hj hpre => ?_⟩
  · rw [← List.drop_drop, List.drop_left, ← List.drop_drop, List.drop_left, List.drop_left]
  · have hone : (c :: p) <+: (l ++ (c :: p ++ (m ++ (c :: p ++ (c :: p))))).drop j :=
      (List.prefix_append _ _).trans hpre
    rcases Nat.lt_or_ge j l.length with hlt | hge
    · exact not_prefix_drop_of_lt (leftmost_append_self hc hl) hlt hone
    obtain ⟨k, rfl⟩ := Nat.exists_eq_add_of_le hge
    rw [← List.drop_drop, List.drop_left] at hpre hone
    rcases Nat.lt_or_ge k (c :: p).length with hlt | hge
    · cases k with
      | zero =>
        rw [List.drop_zero, List.prefix_append_right_inj] at hpre
        exact hfirst hpre
      | succ k =>
        -- the occurrence would begin with a letter of `p`
        rw [List.length_cons, Nat.succ_lt_succ_iff] at hlt
        rw [List.cons_append, List.drop_succ_cons, List.drop_append_of_le_length hlt.le,
          List.drop_eq_getElem_cons hlt, List.cons_append, List.cons_prefix_cons] at hone
        exact hc (hone.1 ▸ List.getElem_mem hlt)
    · obtain ⟨k, rfl⟩ := Nat.exists_eq_add_of_le hge
      rw [← List.drop_drop, List.drop_left] at hone
      exact not_prefix_drop_of_lt (leftmost_append_self hc hm) (by omega) hone

omit [DecidableEq α] in
/-- Two texts free of a pattern of two letters make one that is, unless the pattern stands where they
meet. -/
theorem not_infix_append {c d : α} {m : List α} (hl : ¬ [c, d] <:+: l) (hm : ¬ [c, d] <:+: m)
    (hmeet : l.getLast? ≠ some c ∨ m.head? ≠ some d) : ¬ [c, d] <:+: l ++ m := by
  rintro ⟨s, t, h⟩
  rw [List.append_assoc] at h
  rcases List.append_eq_append_iff.1 h with ⟨u, rfl, hu⟩ | ⟨u, rfl, rfl⟩
  · rcases u with _ | ⟨x, _ | ⟨y, u⟩⟩
    · exact hm ⟨[], t, by simpa using hu⟩
    · cases hu
      rcases hmeet with hlast | hhead
      · exact hlast (by simp)
      · exact hhead rfl
    · cases hu
      exact hl ⟨s, u, by simp⟩
  · exact hm ⟨u, t, by simp⟩

/-- A text free of the first letter of a pattern is passed over. -/
theorem leftmost_append_of_not_mem {c : α} {p : List α} (h : c ∉ l) :
    leftmost (c :: p) (l ++ r) = (leftmost (c :: p) r).map (· + l.length) := by
  induction l with
  | nil => simp
  | cons a l ih =>
    have hac : ¬ (c :: p) <+: a :: (l ++ r) := fun hp =>
      h (by simp [(List.cons_prefix_cons.1 hp).1])
    rw [List.cons_append, leftmost_cons hac, ih (fun hm => h (List.mem_cons_of_mem a hm)),
      Option.map_map]
    rfl

/-- A single letter is found exactly where it first occurs. -/
theorem not_mem_take_leftmost {c : α} (h : leftmost [c] l = some i) : c ∉ l.take i := by
  intro hmem
  exact not_infix_take_leftmost h (by simp) (by
    obtain ⟨s, t, hst⟩ := List.append_of_mem hmem
    exact ⟨s, t, by rw [hst]; simp⟩)

/-- A single letter is not found exactly in the lists it does not belong to. -/
theorem leftmost_singleton_eq_none_iff {c : α} : leftmost [c] l = none ↔ c ∉ l := by
  rw [leftmost_eq_none_iff, not_iff_not]
  constructor
  · rintro ⟨s, t, rfl⟩
    simp
  · intro hmem
    obtain ⟨s, t, hst⟩ := List.append_of_mem hmem
    exact ⟨s, t, by rw [hst]; simp⟩

/-- A list free of the letter, then the letter: it is found at the end of the list. -/
theorem leftmost_singleton_append {c : α} (h : c ∉ l) :
    leftmost [c] (l ++ c :: r) = some l.length := by
  rw [leftmost_append_of_not_mem h, leftmost_eq_zero (by simp)]
  simp

/-! ## The cut at every occurrence -/

/-- Behind an occurrence there is less of the list. -/
theorem length_sub_lt (h : leftmost pat l = some i) (hne : pat ≠ []) :
    l.length - (i + pat.length) < l.length := by
  have hle := leftmost_le h hne
  have hpos := List.length_pos_of_ne_nil hne
  omega

/-- The pieces of a list at the successive leftmost occurrences of a pattern that do not overlap. The
empty pattern does not cut. -/
def cut (pat l : List α) : List (List α) :=
  match h : leftmost pat l with
  | none => [l]
  | some i =>
    if hne : pat = [] then [l]
    else
      have := length_sub_lt h hne
      l.take i :: cut pat (l.drop (i + pat.length))
termination_by l.length

theorem cut_of_leftmost_eq_none (h : leftmost pat l = none) : cut pat l = [l] := by
  rw [cut]
  split
  · rfl
  · next hi =>
    rw [h] at hi
    cases hi

theorem cut_of_leftmost (h : leftmost pat l = some i) (hne : pat ≠ []) :
    cut pat l = l.take i :: cut pat (l.drop (i + pat.length)) := by
  rw [cut]
  split
  · next hnone =>
    rw [h] at hnone
    cases hnone
  · next j hj =>
    rw [h] at hj
    cases hj
    rw [dif_neg hne]

theorem cut_ne_nil (pat l : List α) : cut pat l ≠ [] := by
  rw [cut]
  split
  · exact List.cons_ne_nil _ _
  · split <;> exact List.cons_ne_nil _ _

/-- Only the empty list has an empty piece and no other. -/
theorem cut_eq_singleton_nil_iff (hne : pat ≠ []) : cut pat l = [[]] ↔ l = [] := by
  constructor
  · intro h
    cases hf : leftmost pat l with
    | none =>
      rw [cut_of_leftmost_eq_none hf] at h
      exact (List.cons.inj h).1
    | some i =>
      rw [cut_of_leftmost hf hne] at h
      exact absurd (List.cons.inj h).2 (cut_ne_nil _ _)
  · rintro rfl
    exact cut_of_leftmost_eq_none (leftmost_eq_none_iff.2 fun hin => hne (List.infix_nil.1 hin))

/-- At a single letter, this is Lean's own cut. -/
theorem cut_singleton (c : α) (l : List α) : cut [c] l = l.splitOn c := by
  induction hn : l.length using Nat.strong_induction_on generalizing l with
  | h n ih =>
    by_cases hc : c ∈ l
    · obtain ⟨a, b, rfl, ha⟩ := List.eq_append_cons_of_mem hc
      have hshorter : b.length < n := by
        rw [← hn, List.length_append, List.length_cons]
        omega
      have hdrop : (a ++ c :: b).drop (a.length + [c].length) = b := by
        rw [← List.drop_drop, List.drop_left]
        rfl
      rw [cut_of_leftmost (leftmost_singleton_append ha) (List.cons_ne_nil c []), hdrop,
        List.take_left, ih b.length hshorter b rfl, List.splitOn_append_cons_self_of_not_mem ha]
    · rw [cut_of_leftmost_eq_none (leftmost_singleton_eq_none_iff.2 hc), List.splitOn_eq_singleton hc]

end Search
