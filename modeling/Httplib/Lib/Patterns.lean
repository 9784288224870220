import Mathlib.Data.List.Basic
import Mathlib.Data.List.Induction
import Mathlib.Data.List.Nodup

/-!
# Pattern lists with precedence

A pattern is a list of labels, matched against a list of symbols label by label; a label may instead
take all the symbols that are left. Labels are tried by rank, and within a rank by which was entered
first after the same prefix. `matched` lists the matching patterns by descending label by label;
`pick` chooses among all entries at once. `pick_eq` says that the first of the list is the choice.
-/

namespace Patterns

variable {L S α β γ : Type*}

/-- How labels match symbols and in which order they are tried. -/
structure Alphabet (L S : Type*) where
  accepts : L → S → Bool
  /-- The label takes all the symbols that are left, of which there is one at least. -/
  takesRest : L → Bool
  ranks : Nat
  rank : L → Nat
  rank_lt : ∀ l, rank l < ranks

/-- Patterns with their values, in the order they were entered. -/
abbrev Entries (L α : Type*) := List (List L × α)

/-- The first labels, in the order of the entries. -/
def firsts (es : Entries L α) : List L := es.filterMap fun e => e.1.head?

/-- The pattern matches the symbols. -/
def Alphabet.accept (A : Alphabet L S) : List L → List S → Bool
  | [], [] => true
  | l :: p, s :: ss => if A.takesRest l then p.isEmpty else A.accepts l s && A.accept p ss
  | [], _ :: _ | _ :: _, [] => false

variable [DecidableEq L]

/-- The entries that begin with a label, without it. -/
def derive (l : L) (es : Entries L α) : Entries L α :=
  es.filterMap fun e =>
    match e.1 with
    | [] => none
    | h :: t => if h = l then some (t, e.2) else none

/-- The values entered under a pattern. -/
def valuesAt (p : List L) (es : Entries L α) : List α := (es.filter (·.1 = p)).map Prod.snd

/-- The first labels, each once. -/
def heads (es : Entries L α) : List L := (firsts es).eraseDups

namespace Alphabet

variable (A : Alphabet L S)

/-- Labels in the order in which they are tried. -/
def order (ls : List L) : List L := (List.range A.ranks).flatMap fun k => ls.filter (A.rank · = k)

/-- One label goes before another: by rank, then by which was entered first. -/
def before (es : Entries L α) (l m : L) : Bool :=
  A.rank l < A.rank m || A.rank l = A.rank m && (firsts es).idxOf l < (firsts es).idxOf m

/-- One pattern goes before another: at the first label in which they differ. -/
def precedes : Entries L α → List L → List L → Bool
  | es, l :: p, m :: q => if l = m then precedes (derive l es) p q else A.before es l m
  | _, [], _ | _, _ :: _, [] => false

/-- The patterns that match, with their values, in the order of a descent that tries the labels one
after the other. -/
def matched : Entries L α → List S → List (List L × List α)
  | es, [] => [([], valuesAt [] es)]
  | es, s :: ss => (A.order (heads es)).flatMap fun l =>
    if A.takesRest l then [([l], valuesAt [] (derive l es))]
    else if A.accepts l s then (matched (derive l es) ss).map fun e => (l :: e.1, e.2)
    else []

/-- The entries that match and that `select` does not drop, with what it keeps of their values. -/
def candidates (select : α → Option β) (es : Entries L α) (ss : List S) : Entries L β :=
  es.filterMap fun e => if A.accept e.1 ss then (select e.2).map (e.1, ·) else none

/-- The flat choice: of the candidates, the pattern that goes before all others, and of its values
the one entered last. -/
def pick (select : α → Option β) (es : Entries L α) (ss : List S) : Option β :=
  let cs := A.candidates select es ss
  match cs.find? fun c => cs.all fun c' => c.1 = c'.1 || A.precedes es c.1 c'.1 with
  | none => none
  | some c => (valuesAt c.1 cs).getLast?

end Alphabet

/-! ## Entries label by label -/

section
variable {l m : L} {p q : List L} {a : α} {es : Entries L α}

/-- One more entry below the label it begins with, or below none of the others. -/
theorem derive_concat (es : Entries L α) (l m : L) (p : List L) (a : α) :
    derive l (es ++ [(m :: p, a)]) = derive l es ++ if m = l then [(p, a)] else [] := by
  by_cases h : m = l <;> simp [derive, h]

/-- An entry that ends here stands below no label. -/
@[simp] theorem derive_concat_nil (es : Entries L α) (l : L) (a : α) :
    derive l (es ++ [([], a)]) = derive l es := by
  simp [derive]

/-- The entries below a label are those that begin with it. -/
theorem mem_derive : (p, a) ∈ derive l es ↔ (l :: p, a) ∈ es := by
  simp only [derive, List.mem_filterMap]
  constructor
  · rintro ⟨⟨q, b⟩, hmem, h⟩
    cases q with
    | nil => cases h
    | cons m q =>
      simp only [Option.ite_none_right_eq_some, Option.some.injEq, Prod.mk.injEq] at h
      obtain ⟨rfl, rfl, rfl⟩ := h
      exact hmem
  · intro h
    exact ⟨_, h, by simp⟩

/-- What stands at a pattern stands at its rest below its first label. -/
theorem valuesAt_cons : valuesAt (l :: p) es = valuesAt p (derive l es) := by
  induction es with
  | nil => rfl
  | cons e es ih =>
    obtain ⟨q, b⟩ := e
    unfold valuesAt derive at ih ⊢
    cases q with
    | nil => simpa using ih
    | cons m q =>
      by_cases hm : m = l
      · by_cases hq : q = p <;> simpa [hm, hq] using ih
      · simpa [hm] using ih

/-- One more value here. -/
@[simp] theorem valuesAt_nil_concat (es : Entries L α) (a : α) :
    valuesAt [] (es ++ [([], a)]) = valuesAt [] es ++ [a] := by
  simp [valuesAt]

/-- An entry that goes on is no value here. -/
@[simp] theorem valuesAt_nil_concat_cons (es : Entries L α) (l : L) (p : List L) (a : α) :
    valuesAt [] (es ++ [(l :: p, a)]) = valuesAt [] es := by
  simp [valuesAt]

/-- A label is new at its first entry only. -/
theorem heads_concat (es : Entries L α) (l : L) (p : List L) (a : α) :
    heads (es ++ [(l :: p, a)]) = if l ∈ heads es then heads es else heads es ++ [l] := by
  have hfirsts : firsts (es ++ [(l :: p, a)]) = firsts es ++ [l] := by simp [firsts]
  rw [heads, hfirsts, List.eraseDups_append, heads]
  split
  · next h =>
    rw [List.mem_eraseDups] at h
    simp [List.removeAll, h]
  · next h =>
    rw [List.mem_eraseDups] at h
    simp [List.removeAll, h, List.eraseDups_cons]

/-- An entry that ends here brings no label. -/
@[simp] theorem heads_concat_nil (es : Entries L α) (a : α) : heads (es ++ [([], a)]) = heads es := by
  have hfirsts : firsts (es ++ [([], a)]) = firsts es := by
    rw [firsts, List.filterMap_append]
    exact List.append_nil _
  rw [heads, hfirsts, heads]

/-- The first label of an entry is one of the heads. -/
theorem mem_heads_of_mem (h : (l :: p, a) ∈ es) : l ∈ heads es := by
  rw [heads, List.mem_eraseDups, firsts, List.mem_filterMap]
  exact ⟨_, h, rfl⟩

/-- A label that no entry begins with has no entries behind it. -/
theorem derive_eq_nil (h : l ∉ heads es) : derive l es = [] := by
  rw [List.eq_nil_iff_forall_not_mem]
  rintro ⟨p, a⟩ hmem
  exact h (mem_heads_of_mem (mem_derive.1 hmem))

/-- The first labels, each once, stand in the order in which they were entered. -/
theorem pairwise_eraseDups (ls : List L) :
    ls.eraseDups.Pairwise fun l m => ls.idxOf l < ls.idxOf m := by
  induction ls using List.reverseRecOn with
  | nil => exact List.Pairwise.nil
  | append_singleton ls x ih =>
    have hidx : ls.eraseDups.Pairwise fun l m => (ls ++ [x]).idxOf l < (ls ++ [x]).idxOf m := by
      refine ih.imp_of_mem fun {l m} hl hm h => ?_
      rw [List.mem_eraseDups] at hl hm
      rwa [List.idxOf_append_of_mem hl, List.idxOf_append_of_mem hm]
    rw [List.eraseDups_append]
    by_cases hx : x ∈ ls
    · simpa [List.removeAll, hx] using hidx
    · simp only [List.removeAll, List.elem_eq_mem, hx, List.filter_cons, decide_false, Bool.not_false,
        if_true, List.filter_nil, List.eraseDups_cons, List.eraseDups_nil]
      refine List.pairwise_append.2 ⟨hidx, List.pairwise_singleton _ _, ?_⟩
      intro l hl m hm
      rw [List.mem_eraseDups] at hl
      cases List.mem_singleton.1 hm
      rw [List.idxOf_append_of_mem hl, List.idxOf_append_of_notMem hx]
      have := List.idxOf_lt_length_iff.2 hl
      omega

/-- No head is listed twice. -/
theorem nodup_heads (es : Entries L α) : (heads es).Nodup :=
  (pairwise_eraseDups (firsts es)).imp fun h => fun heq => absurd (heq ▸ h) (Nat.lt_irrefl _)

/-! ### Entries with other values -/

/-- Another value at each entry changes nothing in what stands below a label. -/
theorem derive_map (f : α → β) (l : L) (es : Entries L α) :
    derive l (es.map fun e => (e.1, f e.2)) = (derive l es).map fun e => (e.1, f e.2) := by
  rw [derive, derive, List.filterMap_map, List.map_filterMap]
  refine List.filterMap_congr fun e _ => ?_
  obtain ⟨_ | ⟨m, p⟩, a⟩ := e
  · rfl
  · by_cases h : m = l <;> simp [h]

/-- Another value at each entry is another value at each pattern. -/
@[simp] theorem valuesAt_map (f : α → β) (p : List L) (es : Entries L α) :
    valuesAt p (es.map fun e => (e.1, f e.2)) = (valuesAt p es).map f := by
  rw [valuesAt, valuesAt, List.filter_map, List.map_map, List.map_map]
  rfl

/-- The heads do not depend on the values. -/
@[simp] theorem heads_map (f : α → β) (es : Entries L α) :
    heads (es.map fun e => (e.1, f e.2)) = heads es := by
  rw [heads, heads, firsts, firsts, List.filterMap_map]
  rfl

end

namespace Alphabet

variable {A : Alphabet L S} {es : Entries L α} {l m : L} {p q : List L} {ss : List S}

/-! ## The order of the labels -/

omit [DecidableEq L] in
/-- The order of an alphabet loses no label. -/
@[simp] theorem mem_order {ls : List L} : l ∈ A.order ls ↔ l ∈ ls := by
  simp only [order, List.mem_flatMap, List.mem_range, List.mem_filter, decide_eq_true_eq]
  exact ⟨fun ⟨_, _, h, _⟩ => h, fun h => ⟨A.rank l, A.rank_lt l, h, rfl⟩⟩

/-- A label comes first by its rank, and among labels of one rank by its first entry. -/
theorem before_iff : A.before es l m = true ↔
    A.rank l < A.rank m ∨ A.rank l = A.rank m ∧ (firsts es).idxOf l < (firsts es).idxOf m := by
  simp [before]

/-- No label comes before itself. -/
@[simp] theorem not_before_self : A.before es l l = false := by simp [before]

/-- Of two labels at most one comes first. -/
theorem before_asymm (h : A.before es l m = true) : A.before es m l = false := by
  rw [← Bool.not_eq_true, before_iff]
  rw [before_iff] at h
  omega

/-- Labels are tried in the order of `before`. -/
theorem pairwise_order (es : Entries L α) :
    (A.order (heads es)).Pairwise fun l m => A.before es l m = true := by
  rw [order, List.pairwise_flatMap]
  constructor
  · intro k _
    refine ((pairwise_eraseDups (firsts es)).filter _).imp_of_mem fun {l m} hl hm h => ?_
    rw [List.mem_filter, decide_eq_true_eq] at hl hm
    exact before_iff.2 (.inr ⟨hl.2.trans hm.2.symm, h⟩)
  · refine List.pairwise_lt_range.imp fun {j k} hjk l hl m hm => ?_
    rw [List.mem_filter, decide_eq_true_eq] at hl hm
    exact before_iff.2 (.inl (by omega))

/-! ## The order of the patterns -/

/-- Patterns with the same first label are told apart below it. -/
@[simp] theorem precedes_cons_self : A.precedes es (l :: p) (l :: q) = A.precedes (derive l es) p q := by
  rw [precedes, if_pos rfl]

/-- Patterns with different first labels are told apart by these. -/
theorem precedes_cons_of_before (h : A.before es l m = true) :
    A.precedes es (l :: p) (m :: q) = true := by
  rw [precedes, if_neg, h]
  rintro rfl
  rw [not_before_self] at h
  cases h

/-- Of two patterns at most one comes first. -/
theorem precedes_asymm (h : A.precedes es p q = true) : A.precedes es q p = false := by
  induction p generalizing es q with
  | nil => cases h
  | cons l p ih =>
    cases q with
    | nil => cases h
    | cons m q =>
      rw [precedes] at h ⊢
      split at h
      · next heq =>
        subst heq
        rw [if_pos rfl]
        exact ih h
      · next hne =>
        rw [if_neg (Ne.symm hne)]
        exact before_asymm h

/-! ## The descent -/

omit [DecidableEq L] in
/-- A pattern has no more labels than there are symbols. -/
theorem length_le_of_accept (h : A.accept p ss = true) : p.length ≤ ss.length := by
  induction p generalizing ss with
  | nil => exact Nat.zero_le _
  | cons l p ih =>
    cases ss with
    | nil => cases h
    | cons s ss =>
      rw [accept] at h
      rw [List.length_cons, List.length_cons]
      split at h
      · rw [List.isEmpty_iff.1 h]
        exact Nat.succ_le_succ (Nat.zero_le _)
      · rw [Bool.and_eq_true] at h
        exact Nat.succ_le_succ (ih h.2)

/-- What the descent lists matches, with the values entered under it. -/
theorem accept_of_mem_matched {e : List L × List α} (h : e ∈ A.matched es ss) :
    A.accept e.1 ss = true ∧ e.2 = valuesAt e.1 es := by
  induction ss generalizing es e with
  | nil =>
    cases List.mem_singleton.1 h
    exact ⟨rfl, rfl⟩
  | cons s ss ih =>
    simp only [matched, List.mem_flatMap] at h
    obtain ⟨l, -, h⟩ := h
    split at h
    · next hrest =>
      cases List.mem_singleton.1 h
      exact ⟨by simp [accept, hrest], valuesAt_cons.symm⟩
    · next hrest =>
      split at h
      · next hacc =>
        obtain ⟨e', hmem, rfl⟩ := List.mem_map.1 h
        obtain ⟨hmatch, hvalues⟩ := ih hmem
        exact ⟨by simp [accept, hrest, hacc, hmatch], hvalues.trans valuesAt_cons.symm⟩
      · simp at h

/-- The descent lists every pattern that was entered and matches. -/
theorem mem_matched {a : α} (hmem : (p, a) ∈ es) (h : A.accept p ss = true) :
    (p, valuesAt p es) ∈ A.matched es ss := by
  induction ss generalizing es p with
  | nil =>
    cases p with
    | nil => exact List.mem_singleton_self _
    | cons l p => cases h
  | cons s ss ih =>
    cases p with
    | nil => cases h
    | cons l p =>
      rw [matched, List.mem_flatMap]
      refine ⟨l, mem_order.2 (mem_heads_of_mem hmem), ?_⟩
      rw [accept] at h
      rw [valuesAt_cons]
      split at h
      · next hrest =>
        rw [List.isEmpty_iff] at h
        subst h
        rw [if_pos hrest]
        exact List.mem_singleton_self _
      · next hrest =>
        rw [Bool.and_eq_true] at h
        rw [if_neg hrest, if_pos h.1]
        exact List.mem_map.2 ⟨_, ih (mem_derive.2 hmem) h.2, rfl⟩

/-- **The descent lists the patterns in the order of `precedes`.** -/
theorem pairwise_matched (es : Entries L α) (ss : List S) :
    (A.matched es ss).Pairwise fun e e' => A.precedes es e.1 e'.1 = true := by
  induction ss generalizing es with
  | nil => exact List.pairwise_singleton _ _
  | cons s ss ih =>
    rw [matched, List.pairwise_flatMap]
    constructor
    · intro l _
      split
      · exact List.pairwise_singleton _ _
      · split
        · refine List.pairwise_map.2 ((ih (derive l es)).imp fun h => ?_)
          rwa [precedes_cons_self]
        · exact List.Pairwise.nil
    · refine (pairwise_order es).imp fun {l m} hbefore e he e' he' => ?_
      have hcons : ∀ {l e}, e ∈ (if A.takesRest l then [([l], valuesAt [] (derive l es))]
          else if A.accepts l s then (A.matched (derive l es) ss).map fun e => (l :: e.1, e.2)
          else []) → ∃ p, e.1 = l :: p := by
        intro l e he
        split at he
        · cases List.mem_singleton.1 he
          exact ⟨[], rfl⟩
        · split at he
          · obtain ⟨e', -, rfl⟩ := List.mem_map.1 he
            exact ⟨e'.1, rfl⟩
          · simp at he
      obtain ⟨p, hp⟩ := hcons he
      obtain ⟨q, hq⟩ := hcons he'
      rw [hp, hq]
      exact precedes_cons_of_before hbefore

/-- The descent of entries with other values. -/
theorem matched_map (f : α → β) (es : Entries L α) (ss : List S) :
    A.matched (es.map fun e => (e.1, f e.2)) ss =
      (A.matched es ss).map fun e => (e.1, e.2.map f) := by
  induction ss generalizing es with
  | nil => rw [matched, matched, valuesAt_map]; rfl
  | cons s ss ih =>
    rw [matched, matched, heads_map, List.map_flatMap]
    refine List.flatMap_congr fun l _ => ?_
    rw [derive_map, valuesAt_map, ih]
    split
    · rfl
    · split
      · rw [List.map_map, List.map_map]
        rfl
      · rfl

/-! ## The descent finds the flat choice -/

omit [DecidableEq L] in
/-- The candidates are the entries whose pattern accepts the text and whose value is selected. -/
theorem mem_candidates {select : α → Option β} {b : β} :
    (p, b) ∈ A.candidates select es ss ↔
      A.accept p ss = true ∧ ∃ a, (p, a) ∈ es ∧ select a = some b := by
  simp only [candidates, List.mem_filterMap, Option.ite_none_right_eq_some, Option.map_eq_some_iff]
  constructor
  · rintro ⟨⟨q, a⟩, hmem, hacc, b, hb, h⟩
    cases h
    exact ⟨hacc, a, hmem, hb⟩
  · rintro ⟨hacc, a, hmem, hb⟩
    exact ⟨_, hmem, hacc, _, hb, rfl⟩

/-- The values kept of the entries of one pattern that matches. -/
theorem valuesAt_candidates (select : α → Option β) (h : A.accept p ss = true)
    (es : Entries L α) :
    valuesAt p (A.candidates select es ss) = (valuesAt p es).filterMap select := by
  induction es with
  | nil => rfl
  | cons e es ih =>
    obtain ⟨q, a⟩ := e
    unfold valuesAt candidates at ih ⊢
    by_cases hq : q = p
    · subst hq
      cases hs : select a <;> simpa [h, hs] using ih
    · cases hacc : A.accept q ss <;> cases hs : select a <;> simpa [hacc, hs, hq] using ih

/-- A candidate is listed by the descent, with a value kept. -/
theorem mem_matched_of_candidate {select : α → Option β} {b : β}
    (h : (p, b) ∈ A.candidates select es ss) :
    (p, valuesAt p es) ∈ A.matched es ss ∧
      ((valuesAt p es).filterMap select).getLast? ≠ none := by
  obtain ⟨hacc, a, hmem, hb⟩ := mem_candidates.1 h
  refine ⟨mem_matched hmem hacc, fun hnone => ?_⟩
  have ha : a ∈ valuesAt p es :=
    List.mem_map.2 ⟨_, List.mem_filter.2 ⟨hmem, decide_eq_true rfl⟩, rfl⟩
  have hkept : b ∈ (valuesAt p es).filterMap select := List.mem_filterMap.2 ⟨a, ha, hb⟩
  rw [List.getLast?_eq_none_iff.1 hnone] at hkept
  cases hkept

/-- The pattern that goes before all other candidates is the one that is picked. -/
theorem pick_of_least {select : α → Option β} {b : β} (hmem : (p, b) ∈ A.candidates select es ss)
    (hleast : ∀ c ∈ A.candidates select es ss, p = c.1 ∨ A.precedes es p c.1 = true) :
    A.pick select es ss = ((valuesAt p es).filterMap select).getLast? := by
  unfold pick
  dsimp only
  cases hfind : (A.candidates select es ss).find? fun c =>
      (A.candidates select es ss).all fun c' => c.1 = c'.1 || A.precedes es c.1 c'.1 with
  | none =>
    rw [List.find?_eq_none] at hfind
    refine absurd (List.all_eq_true.2 fun c hc => ?_) (hfind _ hmem)
    rw [Bool.or_eq_true, decide_eq_true_eq]
    exact hleast c hc
  | some c =>
    have hc := List.mem_of_find?_eq_some hfind
    have hall := List.find?_some hfind
    have hfirst := List.all_eq_true.1 hall _ hmem
    rw [Bool.or_eq_true, decide_eq_true_eq] at hfirst
    have heq : c.1 = p := by
      rcases hfirst with h | h
      · exact h
      · rcases hleast c hc with h' | h'
        · exact h'.symm
        · rw [precedes_asymm h'] at h
          cases h
    rw [← valuesAt_candidates select (mem_candidates.1 hmem).1, ← heq]

/-- The first pattern of the descent that has a value kept goes before all other candidates. -/
theorem least_of_findSome? {select : α → Option β} {b : β}
    (h : (A.matched es ss).findSome? (fun e => (e.2.filterMap select).getLast?) = some b) :
    ∃ p, (p, b) ∈ A.candidates select es ss ∧
      (∀ c ∈ A.candidates select es ss, p = c.1 ∨ A.precedes es p c.1 = true) ∧
      ((valuesAt p es).filterMap select).getLast? = some b := by
  rw [List.findSome?_eq_some_iff] at h
  obtain ⟨earlier, ⟨p, vs⟩, later, hlist, hb, hearlier⟩ := h
  have hp : (p, vs) ∈ A.matched es ss := by
    rw [hlist]
    exact List.mem_append_right _ List.mem_cons_self
  obtain ⟨hacc, hvs⟩ := accept_of_mem_matched hp
  have hpair := pairwise_matched (A := A) es ss
  rw [hlist] at hpair
  dsimp only at hacc hvs hb
  subst hvs
  have hmem : (p, b) ∈ A.candidates select es ss := by
    obtain ⟨a, ha, hab⟩ := List.mem_filterMap.1 (List.mem_of_getLast? hb)
    obtain ⟨e, he, rfl⟩ := List.mem_map.1 ha
    rw [List.mem_filter, decide_eq_true_eq] at he
    exact mem_candidates.2 ⟨hacc, e.2, he.2 ▸ he.1, hab⟩
  refine ⟨p, hmem, fun c hc => ?_, hb⟩
  -- a candidate is listed, and not before `p`
  obtain ⟨hlisted, hkept⟩ := mem_matched_of_candidate hc
  rw [hlist] at hlisted
  rcases List.mem_append.1 hlisted with h | h
  · exact absurd (hearlier _ h) hkept
  · rcases List.mem_cons.1 h with h | h
    · exact .inl (congrArg Prod.fst h).symm
    · exact .inr (List.rel_of_pairwise_cons (List.pairwise_append.1 hpair).2.1 h)

/-- If there are candidates, one goes before all others. -/
theorem exists_least {select : α → Option β} {c : List L × β}
    (h : c ∈ A.candidates select es ss) :
    ∃ p b, (p, b) ∈ A.candidates select es ss ∧
      ∀ c ∈ A.candidates select es ss, p = c.1 ∨ A.precedes es p c.1 = true := by
  cases hfind : (A.matched es ss).findSome? fun e => (e.2.filterMap select).getLast? with
  | none =>
    obtain ⟨hlisted, hkept⟩ := mem_matched_of_candidate h
    exact absurd (List.findSome?_eq_none_iff.1 hfind _ hlisted) hkept
  | some b =>
    obtain ⟨p, hp, hleast, -⟩ := least_of_findSome? hfind
    exact ⟨p, b, hp, hleast⟩

/-- **The first pattern of the descent that has a value kept is the flat choice.** -/
theorem pick_eq (select : α → Option β) (es : Entries L α) (ss : List S) :
    A.pick select es ss =
      (A.matched es ss).findSome? fun e => (e.2.filterMap select).getLast? := by
  cases hfind : (A.matched es ss).findSome? fun e => (e.2.filterMap select).getLast? with
  | none =>
    rw [List.findSome?_eq_none_iff] at hfind
    have hnil : A.candidates select es ss = [] := by
      rw [List.eq_nil_iff_forall_not_mem]
      intro c hc
      obtain ⟨hlisted, hkept⟩ := mem_matched_of_candidate hc
      exact hkept (hfind _ hlisted)
    rw [pick, hnil]
    rfl
  | some b =>
    obtain ⟨p, hp, hleast, hb⟩ := least_of_findSome? hfind
    exact (pick_of_least hp hleast).trans hb

/-- What is picked of entries with other values. -/
theorem pick_map (select : β → Option γ) (f : α → β) (es : Entries L α) (ss : List S) :
    A.pick select (es.map fun e => (e.1, f e.2)) ss = A.pick (select ∘ f) es ss := by
  rw [pick_eq, pick_eq, matched_map, List.findSome?_map]
  refine congrArg (List.findSome? · _) (funext fun e => ?_)
  rw [Function.comp_apply, List.filterMap_map]

end Alphabet

end Patterns
