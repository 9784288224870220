import Httplib.Lib.Patterns

/-!
# Entries that are never picked

An entry that `select` drops is never picked, but it settles which of two labels goes first.
`pick_insert` says when it changes no choice: where one of its labels would go before another, an
earlier entry goes before both. `pick_entered` says what is picked where there is no such entry: the
choice falls on the label that was entered first.
-/

namespace Patterns

variable {L S α β : Type*}

/-- No entry begins with these labels. -/
def New (p : List L) (es : Entries L α) : Prop := ∀ e ∈ es, ¬ p <+: e.1

section
variable {l m : L} {p q : List L} {es : Entries L α} {a : α}

/-- The first labels of two lists of entries are those of the one and then those of the other. -/
@[simp] theorem firsts_append (es more : Entries L α) : firsts (es ++ more) = firsts es ++ firsts more :=
  List.filterMap_append

/-- The first label of an entry is one of the first labels. -/
theorem mem_firsts_of_mem (h : (l :: p, a) ∈ es) : l ∈ firsts es :=
  List.mem_filterMap.2 ⟨_, h, rfl⟩

/-- A pattern of one label is new exactly when no entry begins with the label. -/
theorem new_singleton_iff : New [l] es ↔ l ∉ firsts es := by
  constructor
  · intro h hl
    obtain ⟨⟨q, a⟩, hmem, hq⟩ := List.mem_filterMap.1 hl
    cases q with
    | nil => cases hq
    | cons x q =>
      cases hq
      exact h _ hmem (List.cons_prefix_cons.2 ⟨rfl, List.nil_prefix⟩)
  · rintro h ⟨q, a⟩ hmem ⟨r, hr⟩
    dsimp only at hr
    subst hr
    exact h (mem_firsts_of_mem hmem)

variable [DecidableEq L]

/-- The entries behind a label are taken from each list in turn. -/
@[simp] theorem derive_append (l : L) (es more : Entries L α) :
    derive l (es ++ more) = derive l es ++ derive l more :=
  List.filterMap_append

/-- An entry that begins with the label is kept without it. -/
@[simp] theorem derive_cons_self (l : L) (p : List L) (a : α) (es : Entries L α) :
    derive l ((l :: p, a) :: es) = (p, a) :: derive l es := by
  simp [derive]

/-- A pattern is new exactly when its rest is new behind its first label. -/
theorem new_cons_iff : New (l :: p) es ↔ New p (derive l es) := by
  constructor
  · rintro h ⟨q, a⟩ hmem hprefix
    exact h _ (mem_derive.1 hmem) (List.cons_prefix_cons.2 ⟨rfl, hprefix⟩)
  · rintro h ⟨q, a⟩ hmem ⟨r, hr⟩
    dsimp only at hr
    subst hr
    exact h _ (mem_derive.2 hmem) (List.prefix_append p r)

end

namespace Alphabet

variable {A : Alphabet L S} {l m x y : L} {front p q c tail : List L} {s : S} {ss : List S}

/-! ## The labels in front of another -/

/-- A label that others follow does not take the rest. -/
theorem accept_cons_append :
    A.accept (x :: (front ++ l :: p)) (s :: ss) = true ↔
      A.takesRest x = false ∧ A.accepts x s = true ∧ A.accept (front ++ l :: p) ss = true := by
  rw [accept]
  cases A.takesRest x with
  | true => simp
  | false => simp

/-- What a pattern accepts, its front accepts on the segments up to there. -/
theorem accept_take (h : A.accept (front ++ l :: p) ss = true) :
    A.accept (front ++ [l]) (ss.take (front.length + 1)) = true := by
  induction front generalizing ss with
  | nil =>
    cases ss with
    | nil => cases h
    | cons s ss =>
      rw [List.nil_append, accept] at h
      rw [List.nil_append, List.length_nil, List.take_succ_cons, List.take_zero, accept]
      split at h
      · next hrest => rw [if_pos hrest]; rfl
      · next hrest =>
        rw [Bool.and_eq_true] at h
        rw [if_neg hrest, h.1]
        rfl
  | cons x front ih =>
    cases ss with
    | nil => cases h
    | cons s ss =>
      obtain ⟨hrest, hacc, h⟩ := accept_cons_append.1 h
      exact accept_cons_append.2 ⟨hrest, hacc, ih h⟩

/-- The symbol that the last of some labels accepts. -/
theorem exists_accepts_of_accept_take
    (h : A.accept (front ++ [l]) (ss.take (front.length + 1)) = true) :
    ∃ s, ss[front.length]? = some s ∧ (A.takesRest l = true ∨ A.accepts l s = true) := by
  induction front generalizing ss with
  | nil =>
    cases ss with
    | nil => cases h
    | cons s ss =>
      refine ⟨s, rfl, ?_⟩
      rw [List.nil_append, List.length_nil, List.take_succ_cons, List.take_zero, accept] at h
      cases hrest : A.takesRest l with
      | true => exact .inl rfl
      | false =>
        rw [hrest, if_neg Bool.false_ne_true, Bool.and_eq_true] at h
        exact .inr h.1
  | cons x front ih =>
    cases ss with
    | nil => cases h
    | cons s ss => exact ih (accept_cons_append.1 h).2.2

/-- A pattern with another label and further ones behind it. -/
theorem accept_extend (h : A.accept (front ++ [l]) (ss.take (front.length + 1)) = true)
    (hl : A.takesRest l = false) (hx : A.takesRest x = false)
    (hacc : ∀ s, A.accepts l s = true → A.accepts x s = true)
    (htail : A.accept tail (ss.drop (front.length + 1)) = true) :
    A.accept (front ++ x :: tail) ss = true := by
  induction front generalizing ss with
  | nil =>
    cases ss with
    | nil => cases h
    | cons s ss =>
      rw [List.nil_append, List.length_nil, List.take_succ_cons, List.take_zero, accept, hl,
        if_neg Bool.false_ne_true, Bool.and_eq_true] at h
      rw [List.nil_append, accept, hx, if_neg Bool.false_ne_true, hacc s h.1]
      exact htail
  | cons f front ih =>
    cases ss with
    | nil => cases h
    | cons s ss =>
      obtain ⟨hrest, hfs, h⟩ := accept_cons_append.1 h
      exact accept_cons_append.2 ⟨hrest, hfs, ih h htail⟩

variable [DecidableEq L] {es more : Entries L α} {a : α}

/-! ## The order and further entries -/

/-- Further entries do not change which of two labels goes first once one of them does. -/
theorem before_append (h : A.before es l m = true) (more : Entries L α) :
    A.before (es ++ more) l m = true := by
  rw [before_iff] at h ⊢
  rcases h with h | ⟨hrank, hidx⟩
  · exact .inl h
  · refine .inr ⟨hrank, ?_⟩
    have hlen := Nat.lt_of_lt_of_le hidx List.idxOf_le_length
    rw [firsts_append, List.idxOf_append_of_mem (List.idxOf_lt_length_iff.1 hlen)]
    by_cases hm : m ∈ firsts es
    · rwa [List.idxOf_append_of_mem hm]
    · rw [List.idxOf_append_of_notMem hm]
      exact Nat.lt_of_lt_of_le hlen (Nat.le_add_right _ _)

/-- Entries added later do not change which of two patterns comes first. -/
theorem precedes_append (h : A.precedes es p q = true) (more : Entries L α) :
    A.precedes (es ++ more) p q = true := by
  induction p generalizing es more q with
  | nil => cases h
  | cons l p ih =>
    cases q with
    | nil => cases h
    | cons m q =>
      rw [precedes] at h ⊢
      split at h
      · next hlm =>
        rw [if_pos hlm, derive_append]
        exact ih h _
      · next hlm =>
        rw [if_neg hlm]
        exact before_append h more

/-- The order is that of the patterns, whatever their values. -/
theorem precedes_map (f : α → β) (es : Entries L α) (p q : List L) :
    A.precedes (es.map fun e => (e.1, f e.2)) p q = A.precedes es p q := by
  induction p generalizing es q with
  | nil => cases q <;> rfl
  | cons l p ih =>
    cases q with
    | nil => rfl
    | cons m q =>
      have hfirsts : firsts (es.map fun e => (e.1, f e.2)) = firsts es := by
        rw [firsts, firsts, List.filterMap_map]
        rfl
      rw [precedes, precedes, derive_map, ih, before, before, hfirsts]

/-- Entries of the same patterns have the same order. -/
theorem precedes_congr {es : Entries L α} {es' : Entries L β}
    (h : es.map Prod.fst = es'.map Prod.fst) (p q : List L) :
    A.precedes es p q = A.precedes es' p q := by
  have hmap : (es.map fun e => (e.1, ())) = es'.map fun e => (e.1, ()) := by
    have hunit := congrArg (List.map fun p => (p, ())) h
    rwa [List.map_map, List.map_map] at hunit
  rw [← precedes_map (fun _ => ()) es, hmap, precedes_map (fun _ => ()) es']

/-- Of two labels one goes first if one of them was entered. -/
theorem before_total (h : l ∈ firsts es) (hne : l ≠ m) :
    A.before es l m = true ∨ A.before es m l = true := by
  have hidx : (firsts es).idxOf l ≠ (firsts es).idxOf m := fun heq => hne ((List.idxOf_inj h).1 heq)
  rw [before_iff, before_iff]
  omega

/-- A label that was entered goes before one of its rank that was not. -/
theorem before_of_new (hl : l ∈ firsts es) (hm : m ∉ firsts es) (hrank : A.rank l ≤ A.rank m) :
    A.before es l m = true := by
  rw [before_iff, List.idxOf_eq_length hm]
  rcases Nat.lt_or_eq_of_le hrank with hlt | heq
  · exact .inl hlt
  · exact .inr ⟨heq, List.idxOf_lt_length_iff.2 hl⟩

/-- Of two patterns that match, one goes first if one of them was entered. -/
theorem precedes_total (hp : (p, a) ∈ es) (haccp : A.accept p ss = true)
    (haccq : A.accept q ss = true) (hne : p ≠ q) :
    A.precedes es p q = true ∨ A.precedes es q p = true := by
  induction p generalizing es q ss with
  | nil =>
    cases ss with
    | nil =>
      cases q with
      | nil => exact absurd rfl hne
      | cons m q => cases haccq
    | cons s ss => cases haccp
  | cons l p ih =>
    cases ss with
    | nil => cases haccp
    | cons s ss =>
      cases q with
      | nil => cases haccq
      | cons m q =>
        by_cases hlm : l = m
        · subst hlm
          rw [precedes_cons_self, precedes_cons_self]
          have hpq : p ≠ q := fun heq => hne (by rw [heq])
          rw [accept] at haccp haccq
          split at haccp
          · next hrest =>
            rw [if_pos hrest] at haccq
            exact absurd ((List.isEmpty_iff.1 haccp).trans (List.isEmpty_iff.1 haccq).symm) hpq
          · next hrest =>
            rw [if_neg hrest] at haccq
            rw [Bool.and_eq_true] at haccp haccq
            exact ih (mem_derive.2 hp) haccp.2 haccq.2 hpq
        · rw [precedes, precedes, if_neg hlm, if_neg (Ne.symm hlm)]
          exact before_total (mem_firsts_of_mem hp) hlm

/-! ## What goes before a label, and before another in its place -/

/-- What goes before a label also goes before a new label of its rank in its place. -/
theorem precedes_of_precedes_front (hc : (c, a) ∈ es) (h : A.precedes es c (front ++ [l]) = true)
    (hm : New (front ++ [m]) es) (hrank : A.rank m = A.rank l) (more : Entries L α) :
    A.precedes (es ++ more) c (front ++ m :: tail) = true := by
  refine precedes_append ?_ more
  induction front generalizing es c with
  | nil =>
    cases c with
    | nil => cases h
    | cons y c =>
      rw [List.nil_append, precedes] at h
      split at h
      · cases c <;> cases h
      · have hy := mem_firsts_of_mem hc
        have hnot := new_singleton_iff.1 hm
        refine precedes_cons_of_before (before_of_new hy hnot ?_)
        rw [hrank]
        rw [before_iff] at h
        omega
  | cons x front ih =>
    cases c with
    | nil => cases h
    | cons y c =>
      rw [List.cons_append, precedes] at h ⊢
      split at h
      · next hyx =>
        subst hyx
        rw [if_pos rfl]
        exact ih (mem_derive.2 hc) h (new_cons_iff.1 hm)
      · next hyx => rwa [if_neg hyx]

/-- What matches and does not go before a new label goes behind any label of its rank in its place. -/
theorem precedes_front (hc : (c, a) ∈ es) (hacc : A.accept c ss = true)
    (hfront : A.accept (front ++ [l]) (ss.take (front.length + 1)) = true)
    (hl : New (front ++ [l]) es) (h : A.precedes es c (front ++ [l]) ≠ true)
    (hrank : A.rank x = A.rank l) (more : Entries L α) :
    A.precedes (es ++ more) (front ++ x :: tail) c = true := by
  induction front generalizing es c ss more with
  | nil =>
    cases ss with
    | nil => cases hfront
    | cons s ss =>
      cases c with
      | nil => cases hacc
      | cons y c =>
        have hy := mem_firsts_of_mem hc
        have hnot := new_singleton_iff.1 hl
        have hyl : y ≠ l := fun heq => hnot (heq ▸ hy)
        rw [List.nil_append, precedes, if_neg hyl] at h
        have hrank' : A.rank l < A.rank y := by
          by_contra hle
          exact h (before_of_new hy hnot (Nat.le_of_not_lt hle))
        exact precedes_cons_of_before (before_iff.2 (.inl (hrank ▸ hrank')))
  | cons f front ih =>
    cases ss with
    | nil => cases hfront
    | cons s ss =>
      obtain ⟨hrest, hfs, hfront⟩ := accept_cons_append.1 hfront
      cases c with
      | nil => cases hacc
      | cons y c =>
        rw [List.cons_append, precedes] at h
        by_cases hyf : y = f
        · subst hyf
          rw [if_pos rfl] at h
          rw [accept, hrest, if_neg Bool.false_ne_true, Bool.and_eq_true] at hacc
          rw [List.cons_append, precedes_cons_self, derive_append]
          exact ih (mem_derive.2 hc) hacc.2 hfront (new_cons_iff.1 hl) h _
        · rw [if_neg hyf] at h
          rcases before_total (A := A) (mem_firsts_of_mem hc) hyf with hbefore | hbefore
          · exact absurd hbefore h
          · exact precedes_cons_of_before (before_append hbefore more)

/-- Of two new labels of one rank, the one that is entered first goes first. -/
theorem precedes_entered (hm : New (front ++ [m]) es) (hl : New (front ++ [l]) es) (hne : m ≠ l)
    (hrank : A.rank m = A.rank l) :
    A.precedes (es ++ (front ++ m :: p, a) :: more) (front ++ m :: q) (front ++ l :: c) = true := by
  induction front generalizing es more with
  | nil =>
    refine precedes_cons_of_before (before_iff.2 (.inr ⟨hrank, ?_⟩))
    have hfirsts : firsts (es ++ ([] ++ m :: p, a) :: more) = firsts es ++ m :: firsts more := by
      simp [firsts]
    rw [hfirsts, List.idxOf_append_of_notMem (new_singleton_iff.1 hm),
      List.idxOf_append_of_notMem (new_singleton_iff.1 hl), List.idxOf_cons_self,
      List.idxOf_cons_ne _ hne]
    omega
  | cons x front ih =>
    rw [List.cons_append, List.cons_append, List.cons_append, precedes_cons_self, derive_append,
      derive_cons_self]
    exact ih (new_cons_iff.1 hm) (new_cons_iff.1 hl)

/-- Where an element more turns the order of two others around, it is the first one, and neither stands
before it. -/
theorem of_idxOf_lt_of_idxOf_lt {front back : List L} {z : L}
    (h : (front ++ z :: back).idxOf x < (front ++ z :: back).idxOf y)
    (h' : (front ++ back).idxOf y < (front ++ back).idxOf x) : z = x ∧ x ∉ front ∧ y ∉ front := by
  by_cases hx : x ∈ front
  · rw [List.idxOf_append_of_mem hx] at h h'
    have hlen := List.idxOf_lt_length_iff.2 hx
    by_cases hy : y ∈ front
    · rw [List.idxOf_append_of_mem hy] at h h'
      omega
    · rw [List.idxOf_append_of_notMem hy] at h'
      omega
  · rw [List.idxOf_append_of_notMem hx] at h h'
    by_cases hy : y ∈ front
    · rw [List.idxOf_append_of_mem hy] at h
      have hlen := List.idxOf_lt_length_iff.2 hy
      omega
    · rw [List.idxOf_append_of_notMem hy] at h h'
      refine ⟨?_, hx, hy⟩
      by_contra hzx
      rw [List.idxOf_cons_ne _ hzx] at h
      by_cases hzy : z = y
      · rw [hzy, List.idxOf_cons_self] at h
        omega
      · rw [List.idxOf_cons_ne _ hzy] at h
        omega

/-- Where an entry more turns the order of two patterns around, it has entered a label of one of them
before that of the other. -/
theorem exists_of_reordered (h : A.precedes (es ++ (q, a) :: more) c p = true)
    (h' : A.precedes (es ++ more) p c = true) :
    ∃ front l back m c' p', q = front ++ l :: back ∧ c = front ++ l :: c' ∧ p = front ++ m :: p' ∧
      m ≠ l ∧ A.rank m = A.rank l ∧ New (front ++ [l]) es ∧ New (front ++ [m]) es := by
  induction c generalizing es more q p with
  | nil => cases h
  | cons x c ih =>
    cases p with
    | nil => cases h
    | cons y p =>
      rw [precedes] at h h'
      by_cases hxy : x = y
      · subst hxy
        rw [if_pos rfl, derive_append] at h h'
        have hother : derive x ((q, a) :: more) = derive x more → False := by
          intro heq
          rw [heq] at h
          rw [precedes_asymm h] at h'
          cases h'
        cases q with
        | nil => exact (hother (by simp [derive])).elim
        | cons z q =>
          by_cases hzx : z = x
          · subst hzx
            rw [derive_cons_self] at h
            obtain ⟨front, l, back, m, c', p', rfl, rfl, rfl, hne, hrank, hl, hm⟩ := ih h h'
            exact ⟨z :: front, l, back, m, c', p', rfl, rfl, rfl, hne, hrank, new_cons_iff.2 hl,
              new_cons_iff.2 hm⟩
          · exact (hother (by simp [derive, hzx])).elim
      · rw [if_neg hxy] at h
        rw [if_neg (Ne.symm hxy)] at h'
        obtain ⟨z, back, rfl⟩ : ∃ z back, q = z :: back := by
          cases q with
          | nil =>
            have hfirsts : firsts (es ++ ([], a) :: more) = firsts (es ++ more) := by
              rw [firsts_append, firsts_append]
              rfl
            rw [before, hfirsts, ← before] at h
            rw [before_asymm h] at h'
            cases h'
          | cons z back => exact ⟨z, back, rfl⟩
        have hfirsts : firsts (es ++ (z :: back, a) :: more) = firsts es ++ z :: firsts more :=
          firsts_append _ _
        rw [before_iff, hfirsts] at h
        rw [before_iff, firsts_append] at h'
        have hidx : (firsts es ++ z :: firsts more).idxOf x < (firsts es ++ z :: firsts more).idxOf y := by
          omega
        have hidx' : (firsts es ++ firsts more).idxOf y < (firsts es ++ firsts more).idxOf x := by
          omega
        obtain ⟨rfl, hx, hy⟩ := of_idxOf_lt_of_idxOf_lt hidx hidx'
        exact ⟨[], z, back, y, c, p, rfl, rfl, rfl, Ne.symm hxy, by omega, new_singleton_iff.2 hx,
          new_singleton_iff.2 hy⟩

/-! ## What is picked -/

section
variable {select : α → Option β}

omit [DecidableEq L] in
/-- The candidates of two lists of entries are those of the one and then those of the other. -/
@[simp] theorem candidates_append (es more : Entries L α) :
    A.candidates select (es ++ more) ss = A.candidates select es ss ++ A.candidates select more ss :=
  List.filterMap_append

omit [DecidableEq L] in
/-- An entry that is dropped is no candidate. -/
theorem candidates_cons (ha : select a = none) (q : List L) :
    A.candidates select ((q, a) :: more) ss = A.candidates select more ss := by
  unfold candidates
  rw [List.filterMap_cons, ha]
  simp

omit [DecidableEq L] in
/-- An entry that selects nothing adds no candidate. -/
theorem candidates_insert (ha : select a = none) (q : List L) :
    A.candidates select (es ++ (q, a) :: more) ss = A.candidates select (es ++ more) ss := by
  rw [candidates_append, candidates_append, candidates_cons ha]

/-- **An entry that is dropped changes no choice** if, wherever it settles that one of its labels goes
before another, an earlier entry goes before both. -/
theorem pick_insert (ha : select a = none)
    (htaken : ∀ front l back m, q = front ++ l :: back → m ≠ l → A.rank m = A.rank l →
      A.accept (front ++ [l]) (ss.take (front.length + 1)) = true →
      A.accept (front ++ [m]) (ss.take (front.length + 1)) = true → New (front ++ [l]) es →
      ∃ d b, (d, b) ∈ A.candidates select es ss ∧ A.precedes es d (front ++ [l]) = true) :
    A.pick select (es ++ (q, a) :: more) ss = A.pick select (es ++ more) ss := by
  have hcandidates : A.candidates select (es ++ (q, a) :: more) ss =
      A.candidates select (es ++ more) ss := candidates_insert ha q
  by_cases hnil : A.candidates select (es ++ more) ss = []
  · rw [pick, pick, hcandidates, hnil]
    rfl
  obtain ⟨c, hc⟩ := List.exists_mem_of_ne_nil _ hnil
  obtain ⟨p, b, hp, hleast⟩ := exists_least hc
  obtain ⟨haccp, ap, hentered, -⟩ := mem_candidates.1 (hcandidates ▸ hp)
  have hvalues : (valuesAt p (es ++ (q, a) :: more)).filterMap select =
      (valuesAt p (es ++ more)).filterMap select := by
    rw [← valuesAt_candidates select haccp, ← valuesAt_candidates select haccp, hcandidates]
  rw [pick_of_least hp hleast, ← hvalues]
  refine pick_of_least (hcandidates ▸ hp) fun c hc => ?_
  rw [hcandidates] at hc
  by_cases hpc : p = c.1
  · exact .inl hpc
  obtain ⟨haccc, -⟩ := mem_candidates.1 hc
  rcases precedes_total hentered haccp haccc hpc with h | h
  · exact .inr h
  · exfalso
    -- the order of the two was turned around, so an earlier entry goes before the least one
    have h' := (hleast c hc).resolve_left hpc
    obtain ⟨front, l, back, m, c', p', rfl, hc', rfl, hne, hrank, hl, hm⟩ := exists_of_reordered h h'
    rw [hc'] at haccc
    obtain ⟨d, w, hd, hprecedes⟩ := htaken front l back m rfl hne hrank (accept_take haccc)
      (accept_take haccp) hl
    obtain ⟨-, ad, hdes, -⟩ := mem_candidates.1 hd
    have hless : A.precedes (es ++ more) d (front ++ m :: p') = true :=
      precedes_of_precedes_front hdes hprecedes hm hrank more
    have hdc : (d, w) ∈ A.candidates select (es ++ more) ss := by
      rw [candidates_append]
      exact List.mem_append_left _ hd
    rcases hleast _ hdc with heq | hless'
    · dsimp only at heq
      rw [heq] at hless
      rw [precedes_asymm hless] at hless
      cases hless
    · rw [precedes_asymm hless] at hless'
      cases hless'

/-- **Of new labels in one place, the choice falls on the one that is entered first**, if what was
entered before and matches goes behind them: `x` is the first one, and every further candidate has
another one of its rank in its place, or is the pattern itself with the same value. -/
theorem pick_entered {v : β}
    (hfront : A.accept (front ++ [l]) (ss.take (front.length + 1)) = true)
    (hl : New (front ++ [l]) es) (hx : New (front ++ [x]) es) (hrank : A.rank x = A.rank l)
    (hbehind : ∀ c w, (c, w) ∈ A.candidates select es ss → A.precedes es c (front ++ [l]) ≠ true)
    (hmem : (front ++ x :: tail, v) ∈ A.candidates select ((front ++ x :: p, a) :: more) ss)
    (hcand : ∀ c w, (c, w) ∈ A.candidates select ((front ++ x :: p, a) :: more) ss →
      c = front ++ x :: tail ∧ w = v ∨
        ∃ y c', c = front ++ y :: c' ∧ x ≠ y ∧ A.rank x = A.rank y ∧ New (front ++ [y]) es) :
    A.pick select (es ++ (front ++ x :: p, a) :: more) ss = some v := by
  have hpicked : (front ++ x :: tail, v) ∈
      A.candidates select (es ++ (front ++ x :: p, a) :: more) ss := by
    rw [candidates_append]
    exact List.mem_append_right _ hmem
  have hacc := (mem_candidates.1 hpicked).1
  rw [pick_of_least hpicked]
  · -- all values kept of the pattern are `v`
    rw [← valuesAt_candidates select hacc]
    have hall : ∀ w ∈ valuesAt (front ++ x :: tail)
        (A.candidates select (es ++ (front ++ x :: p, a) :: more) ss), w = v := by
      intro w hw
      obtain ⟨⟨c, w⟩, hc, rfl⟩ := List.mem_map.1 hw
      obtain ⟨hc, heq⟩ := List.mem_filter.1 hc
      cases of_decide_eq_true heq
      rw [candidates_append] at hc
      rcases List.mem_append.1 hc with hc | hc
      · obtain ⟨-, b, hb, -⟩ := mem_candidates.1 hc
        exact absurd (List.prefix_append_right_inj front |>.2 (List.cons_prefix_cons.2
          ⟨rfl, List.nil_prefix⟩)) (hx _ hb)
      · rcases hcand _ _ hc with ⟨-, hw⟩ | ⟨y, c', heq, hne, -⟩
        · exact hw
        · exact absurd (List.cons.inj (List.append_cancel_left heq)).1 hne
    cases hlast : (valuesAt (front ++ x :: tail)
        (A.candidates select (es ++ (front ++ x :: p, a) :: more) ss)).getLast? with
    | none =>
      have hv : v ∈ valuesAt (front ++ x :: tail)
          (A.candidates select (es ++ (front ++ x :: p, a) :: more) ss) :=
        List.mem_map.2 ⟨_, List.mem_filter.2 ⟨hpicked, decide_eq_true rfl⟩, rfl⟩
      rw [List.getLast?_eq_none_iff.1 hlast] at hv
      cases hv
    | some w => rw [hall w (List.mem_of_getLast? hlast)]
  · rintro ⟨c, w⟩ hc
    rw [candidates_append] at hc
    rcases List.mem_append.1 hc with hc | hc
    · obtain ⟨haccc, b, hb, -⟩ := mem_candidates.1 hc
      exact .inr (precedes_front hb haccc hfront hl (hbehind c w hc) hrank _)
    · rcases hcand c w hc with ⟨rfl, -⟩ | ⟨y, c', rfl, hne, hrank', hy⟩
      · exact .inl rfl
      · exact .inr (precedes_entered hx hy hne hrank')

/-- **Two new labels in one place**: the choice falls on the one that is entered first, even if what
enters it is dropped. -/
theorem pick_siblings {b d : α} {v w : β} (back : List L)
    (hfront : A.accept (front ++ [l]) (ss.take (front.length + 1)) = true)
    (haccx : A.accept (front ++ x :: tail) ss = true) (haccl : A.accept (front ++ l :: tail) ss = true)
    (hl : New (front ++ [l]) es) (hx : New (front ++ [x]) es) (hxl : x ≠ l)
    (hrank : A.rank x = A.rank l)
    (hbehind : ∀ c w, (c, w) ∈ A.candidates select es ss → A.precedes es c (front ++ [l]) ≠ true)
    (ha : select a = some v) (hb : select b = some w) (hd : select d = none) :
    A.pick select (es ++ [(front ++ x :: tail, a), (front ++ l :: tail, b)]) ss = some v ∧
      A.pick select (es ++ (front ++ l :: back, d) ::
        [(front ++ x :: tail, a), (front ++ l :: tail, b)]) ss = some w := by
  have hcand : ∀ c u, (c, u) ∈ A.candidates select
      [(front ++ x :: tail, a), (front ++ l :: tail, b)] ss →
      c = front ++ x :: tail ∧ u = v ∨ c = front ++ l :: tail ∧ u = w := by
    intro c u hc
    obtain ⟨-, e, hentry, hkept⟩ := mem_candidates.1 hc
    rw [List.mem_cons, List.mem_singleton] at hentry
    rcases hentry with hentry | hentry
    · cases hentry
      exact .inl ⟨rfl, (Option.some.inj (ha.symm.trans hkept)).symm⟩
    · cases hentry
      exact .inr ⟨rfl, (Option.some.inj (hb.symm.trans hkept)).symm⟩
  have hmemx : (front ++ x :: tail, v) ∈ A.candidates select
      [(front ++ x :: tail, a), (front ++ l :: tail, b)] ss :=
    mem_candidates.2 ⟨haccx, a, List.mem_cons_self, ha⟩
  have hmeml : (front ++ l :: tail, w) ∈ A.candidates select
      [(front ++ x :: tail, a), (front ++ l :: tail, b)] ss :=
    mem_candidates.2 ⟨haccl, b, List.mem_cons_of_mem _ List.mem_cons_self, hb⟩
  constructor
  · refine pick_entered hfront hl hx hrank hbehind hmemx fun c u hc => ?_
    rcases hcand c u hc with hsame | ⟨rfl, -⟩
    · exact .inl hsame
    · exact .inr ⟨l, tail, rfl, hxl, hrank, hl⟩
  · have hdrop : A.candidates select ((front ++ l :: back, d) ::
        [(front ++ x :: tail, a), (front ++ l :: tail, b)]) ss =
        A.candidates select [(front ++ x :: tail, a), (front ++ l :: tail, b)] ss :=
      candidates_cons hd _
    refine pick_entered hfront hl hl rfl hbehind (hdrop ▸ hmeml) fun c u hc => ?_
    rw [hdrop] at hc
    rcases hcand c u hc with ⟨rfl, -⟩ | hsame
    · exact .inr ⟨x, tail, rfl, Ne.symm hxl, hrank.symm, hx⟩
    · exact .inl hsame

/-- **A pattern that goes before all others is picked**, with what was entered under it last. -/
theorem pick_appended {as : List α} {v : β} (hacc : A.accept p ss = true)
    (hlast : (as.filterMap select).getLast? = some v)
    (hleast : ∀ c w, (c, w) ∈ A.candidates select es ss →
      p = c ∨ A.precedes (es ++ [(p, a)]) p c = true) :
    A.pick select (es ++ as.map fun a => (p, a)) ss = some v := by
  obtain ⟨b, hb, hv⟩ := List.mem_filterMap.1 (List.mem_of_getLast? hlast)
  have hmem : (p, v) ∈ A.candidates select (es ++ as.map fun a => (p, a)) ss :=
    mem_candidates.2 ⟨hacc, b, List.mem_append_right _ (List.mem_map.2 ⟨b, hb, rfl⟩), hv⟩
  rw [pick_of_least hmem]
  · have hvalues : valuesAt p (es ++ as.map fun a => (p, a)) = valuesAt p es ++ as := by
      have hkept : (as.map fun a => (p, a)).filter (fun e => e.1 = p) = as.map fun a => (p, a) := by
        rw [List.filter_eq_self]
        intro e he
        obtain ⟨a, -, rfl⟩ := List.mem_map.1 he
        exact decide_eq_true rfl
      rw [valuesAt, List.filter_append, List.map_append, hkept, List.map_map]
      exact congrArg _ (List.map_id as)
    rw [hvalues, List.filterMap_append, List.getLast?_append, hlast]
    rfl
  · rintro ⟨c, w⟩ hc
    rw [candidates_append] at hc
    rcases List.mem_append.1 hc with hc | hc
    · refine (hleast c w hc).imp_right fun h => ?_
      cases as with
      | nil => cases hb
      | cons a' as =>
        have hsame : A.precedes (es ++ [(p, a')]) p c = true := by
          rw [← h]
          exact precedes_congr (by simp) p c
        have hmore := precedes_append hsame (as.map fun a => (p, a))
        rwa [List.append_assoc] at hmore
    · obtain ⟨-, a', ha', -⟩ := mem_candidates.1 hc
      obtain ⟨_, -, heq⟩ := List.mem_map.1 ha'
      exact .inl (Prod.mk.inj heq).1

end

end Alphabet

end Patterns
