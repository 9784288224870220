import Httplib.Lib.Patterns
import Mathlib.Logic.Relation

/-!
# Entries in another order

`Alphabet.Alike` says of two lists of entries that a descent can not tell them apart: behind every front
the labels that take a symbol are tried in one order, and the values entered there are related.
`Alike.of_swap` says when two neighbours may change places: they are entered under one pattern and the
relation does not tell, or their patterns differ first in labels of different ranks or in labels that no
symbol fits both.
-/

namespace Patterns

variable {L S α : Type*}

namespace Alphabet

variable {A : Alphabet L S}

/-- The label takes a symbol, alone or with those behind it. -/
def takes (A : Alphabet L S) (l : L) (s : S) : Bool := A.takesRest l || A.accepts l s

/-- The order in which two labels are entered does not tell. -/
def Apart (A : Alphabet L S) (l m : L) : Prop :=
  A.rank l = A.rank m → ∀ s, ¬ (A.takes l s = true ∧ A.takes m s = true)

variable [DecidableEq L]

/-- Two patterns where the first labels in which they differ, if there are any, are apart. -/
def Swappable (A : Alphabet L S) : List L → List L → Prop
  | l :: p, m :: q => if l = m then A.Swappable p q else A.Apart l m
  | [], _ | _ :: _, [] => True

/-- The labels that take a symbol, in the order in which they are tried. -/
def takers (A : Alphabet L S) (es : Entries L α) (s : S) : List L :=
  (A.order (heads es)).filter (A.takes · s)

end Alphabet

variable [DecidableEq L]

/-- The entries that begin with some labels, without them. -/
def deriveAll (front : List L) (es : Entries L α) : Entries L α :=
  front.foldl (fun es l => derive l es) es

/-- No descent tells these entries apart, if what it reads from the values entered under one pattern is
the same for related ones. -/
structure Alphabet.Alike (A : Alphabet L S) (R : List α → List α → Prop) (es es' : Entries L α) :
    Prop where
  takers : ∀ front s, A.takers (deriveAll front es) s = A.takers (deriveAll front es') s
  values : ∀ p, R (valuesAt p es) (valuesAt p es')

section
variable {l : L} {es : Entries L α}

/-- What is kept of the elements, each once, is what is kept, each once. -/
theorem filter_eraseDups (keep : L → Bool) (ls : List L) :
    ls.eraseDups.filter keep = (ls.filter keep).eraseDups := by
  induction ls using List.reverseRecOn with
  | nil => rfl
  | append_singleton ls x ih =>
    rw [List.filter_append, List.eraseDups_append, List.eraseDups_append, List.filter_append, ih]
    congr 1
    cases hx : keep x with
    | true =>
      by_cases hmem : x ∈ ls
      · simp [List.removeAll, hmem, hx]
      · simp [List.removeAll, hmem, hx, List.eraseDups_cons]
    | false =>
      by_cases hmem : x ∈ ls
      · simp [List.removeAll, hmem, hx]
      · simp [List.removeAll, hmem, hx, List.eraseDups_cons]

omit [DecidableEq L] in
theorem firsts_cons (e : List L × α) (es : Entries L α) :
    firsts (e :: es) = e.1.head?.toList ++ firsts es := by
  rw [firsts, List.filterMap_cons]
  cases e.1.head? <;> rfl

theorem derive_cons (l : L) (e : List L × α) (es : Entries L α) :
    derive l (e :: es) = derive l [e] ++ derive l es := by
  rw [← List.singleton_append, derive, List.filterMap_append]
  rfl

/-- An entry is behind a label if its pattern begins with it. -/
theorem derive_singleton (l m : L) (p : List L) (a : α) :
    derive l [(m :: p, a)] = if m = l then [(p, a)] else [] := by
  by_cases h : m = l <;> simp [derive, h]

end

namespace Alphabet

variable {A : Alphabet L S} {es es' pre post : Entries L α} {e e' : List L × α}
  {R : List α → List α → Prop}

/-- The labels that take a symbol, rank by rank, each once. -/
theorem takers_eq (es : Entries L α) (s : S) :
    A.takers es s = (List.range A.ranks).flatMap fun k =>
      ((firsts es).filter fun l => A.takes l s && decide (A.rank l = k)).eraseDups := by
  rw [takers, order, List.filter_flatMap]
  refine List.flatMap_congr fun k _ => ?_
  rw [heads, List.filter_filter, filter_eraseDups]

/-- Neighbours whose first labels are apart. -/
theorem takers_swap (happart : ∀ l ∈ e.1.head?, ∀ m ∈ e'.1.head?, l ≠ m → A.Apart l m) (s : S) :
    A.takers (pre ++ e :: e' :: post) s = A.takers (pre ++ e' :: e :: post) s := by
  rw [takers_eq, takers_eq]
  refine List.flatMap_congr fun k _ => congrArg List.eraseDups ?_
  simp only [firsts, List.filterMap_append, List.filter_append]
  congr 1
  rw [← firsts, ← firsts]
  simp only [firsts_cons, List.filter_append, ← List.append_assoc]
  congr 1
  cases hl : e.1.head? with
  | none => simp
  | some l =>
    cases hm : e'.1.head? with
    | none => simp
    | some m =>
      by_cases hlm : l = m
      · rw [hlm]
      · have hnot := happart l hl m hm hlm
        simp only [Option.toList_some, List.filter_cons, List.filter_nil]
        split
        · next hkeep =>
          split
          · next hkeep' =>
            simp only [Bool.and_eq_true, decide_eq_true_eq] at hkeep hkeep'
            exact absurd ⟨hkeep.1, hkeep'.1⟩ (hnot (hkeep.2.trans hkeep'.2.symm) s)
          · rfl
        · split <;> rfl

theorem apart_of_swappable (h : A.Swappable e.1 e'.1) :
    ∀ l ∈ e.1.head?, ∀ m ∈ e'.1.head?, l ≠ m → A.Apart l m := by
  obtain ⟨_ | ⟨l, p⟩, a⟩ := e
  · nofun
  · obtain ⟨_ | ⟨m, q⟩, b⟩ := e'
    · nofun
    · rintro _ ⟨⟩ _ ⟨⟩ hne
      rwa [Swappable, if_neg hne] at h

/-- Behind a label two neighbours are neighbours again, or there is one of them at most. -/
theorem derive_swap (h : A.Swappable e.1 e'.1) (l : L) :
    derive l (pre ++ e :: e' :: post) = derive l (pre ++ e' :: e :: post) ∨
      ∃ p q, A.Swappable p q ∧
        derive l (pre ++ e :: e' :: post) = derive l pre ++ (p, e.2) :: (q, e'.2) :: derive l post ∧
        derive l (pre ++ e' :: e :: post) = derive l pre ++ (q, e'.2) :: (p, e.2) :: derive l post := by
  have happend : ∀ more : Entries L α, derive l (pre ++ more) = derive l pre ++ derive l more :=
    fun _ => List.filterMap_append
  obtain ⟨_ | ⟨x, p⟩, a⟩ := e
  · exact .inl (by rw [happend, happend]; rfl)
  · obtain ⟨_ | ⟨y, q⟩, b⟩ := e'
    · exact .inl (by rw [happend, happend]; rfl)
    · simp only [happend, derive_cons l _ (_ :: _), derive_cons l _ post, derive_singleton]
      by_cases hx : x = l
      · by_cases hy : y = l
        · subst hx hy
          rw [Swappable, if_pos rfl] at h
          exact .inr ⟨p, q, h, by simp, by simp⟩
        · exact .inl (by simp [hy])
      · exact .inl (by simp [hx])

/-- Neighbours that may change places behind any front. The induction on the front is one on what is left
of the two patterns behind it. -/
theorem takers_deriveAll_swap (h : A.Swappable e.1 e'.1) (front : List L) (s : S) :
    A.takers (deriveAll front (pre ++ e :: e' :: post)) s =
      A.takers (deriveAll front (pre ++ e' :: e :: post)) s := by
  induction front generalizing pre post e e' with
  | nil => exact takers_swap (apart_of_swappable h) s
  | cons l front ih =>
    rw [deriveAll, deriveAll, List.foldl_cons, List.foldl_cons]
    rcases derive_swap h l with heq | ⟨p, q, hpq, hfirst, hsecond⟩
    · rw [heq]
    · rw [hfirst, hsecond]
      exact ih hpq

/-- **Neighbours that may change places.** -/
theorem Alike.of_swap (h : A.Swappable e.1 e'.1) (hrefl : ∀ as, R as as)
    (hsame : e.1 = e'.1 → ∀ as bs, R (as ++ e.2 :: e'.2 :: bs) (as ++ e'.2 :: e.2 :: bs)) :
    A.Alike R (pre ++ e :: e' :: post) (pre ++ e' :: e :: post) where
  takers := takers_deriveAll_swap h
  values p := by
    simp only [valuesAt, List.filter_append, List.map_append, List.filter_cons]
    by_cases he : e.1 = p
    · by_cases he' : e'.1 = p
      · simpa [he, he'] using hsame (he.trans he'.symm) _ _
      · simpa [he, he'] using hrefl _
    · simpa [he] using hrefl _

/-- Behind a label alike entries are alike. -/
theorem Alike.derive (h : A.Alike R es es') (l : L) : A.Alike R (derive l es) (derive l es') where
  takers front s := h.takers (l :: front) s
  values p := by
    rw [← valuesAt_cons, ← valuesAt_cons]
    exact h.values (l :: p)

end Alphabet

end Patterns
