import Httplib.Server.Routing

/-!
# The parameters of a request

`match_nodes` puts what a segment binds into one map and takes it out again by its name when the branch
finds nothing. `path_params_iff` says when the map of a request that is dispatched is that of its
pattern, and when a search that finds nothing leaves the map as it was.
-/

namespace Httplib

open Patterns

namespace Segment

/-- What a pattern binds on a path, as far as it matches it. -/
def captures (Regex : Type) [StdRegex Regex] : List Segment → List Bytes → Params
  | l :: p, seg :: rest =>
    if (alphabet Regex).takesRest l then [(bytes "*", Node.joinRest (seg :: rest))]
    else if (alphabet Regex).accepts l seg then
      l.name?.toList.map (·, seg) ++ captures Regex p rest
    else []
  | [], _ | _ :: _, [] => []

/-- The names that a pattern binds on a path. -/
def names (Regex : Type) [StdRegex Regex] (p : List Segment) (segments : List Bytes) : List Bytes :=
  (captures Regex p segments).map Prod.fst

/-- The value of a parameter: the last one that a pattern binds to it. -/
def captured (Regex : Type) [StdRegex Regex] (p : List Segment) (segments : List Bytes)
    (name : Bytes) : Option Bytes :=
  ((captures Regex p segments).filter (·.1 = name)).getLast?.map Prod.snd

variable {Handler Ws : Type}

/-- The names that the patterns of routes bind on a path, also those that match it in part. -/
def tried (Regex : Type) [StdRegex Regex] (es : Entries Segment (Target Handler Ws))
    (segments : List Bytes) : List Bytes :=
  es.flatMap fun e => names Regex e.1 segments

/-- The names that a search takes out of the map on its way down a pattern, but for those that the
pattern binds there or behind: at each segment it has tried the routes that go before the pattern. -/
def erased (Regex : Type) [StdRegex Regex] :
    Entries Segment (Target Handler Ws) → List Segment → List Bytes → List Bytes
  | es, l :: p, seg :: rest =>
    (tried Regex (es.filter fun e => e.1.head?.any ((alphabet Regex).before es · l))
      (seg :: rest)).filter (· ∉ names Regex (l :: p) (seg :: rest)) ++
    erased Regex (derive l es) p rest
  | _, [], _ | _, _ :: _, [] => []

/-! ## What patterns bind, segment by segment -/

variable {Regex : Type} [StdRegex Regex] {es : Entries Segment (Target Handler Ws)} {l : Segment}
  {seg name : Bytes} {rest ns : List Bytes} {p : List Segment}

/-- The names that a segment adds to those behind it. -/
def namesVia (Regex : Type) [StdRegex Regex] (l : Segment) (seg : Bytes) (behind : List Bytes) :
    List Bytes :=
  if (alphabet Regex).takesRest l then [bytes "*"]
  else if (alphabet Regex).accepts l seg then l.name?.toList ++ behind
  else []

/-- The names along a path are those the first segment takes, in front of those of the rest. -/
theorem names_cons (l : Segment) (p : List Segment) (seg : Bytes) (rest : List Bytes) :
    names Regex (l :: p) (seg :: rest) = namesVia Regex l seg (names Regex p rest) := by
  rw [names, captures, namesVia]
  split
  · rfl
  · split
    · rw [List.map_append, names, List.map_map]
      exact congrArg (· ++ _) (List.map_id _)
    · rfl

/-- More names behind a segment are more names with it. -/
theorem mem_namesVia_of_subset {ns' : List Bytes} (h : ∀ name ∈ ns, name ∈ ns')
    (hname : name ∈ namesVia Regex l seg ns) : name ∈ namesVia Regex l seg ns' := by
  unfold namesVia at hname ⊢
  split at hname
  · next hrest => rwa [if_pos hrest]
  · next hrest =>
    rw [if_neg hrest]
    split at hname
    · next hacc =>
      rw [if_pos hacc]
      rcases List.mem_append.1 hname with hname | hname
      · exact List.mem_append_left _ hname
      · exact List.mem_append_right _ (h name hname)
    · cases hname

/-- The names bound by the routes that begin with a segment. -/
theorem exists_names_cons_iff :
    (∃ p a, (l :: p, a) ∈ es ∧ name ∈ names Regex (l :: p) (seg :: rest)) ↔
      l ∈ heads es ∧ name ∈ namesVia Regex l seg (tried Regex (derive l es) rest) := by
  constructor
  · rintro ⟨p, a, hmem, hname⟩
    rw [names_cons] at hname
    refine ⟨mem_heads_of_mem hmem, mem_namesVia_of_subset (fun n hn => ?_) hname⟩
    exact List.mem_flatMap.2 ⟨(p, a), mem_derive.2 hmem, hn⟩
  · rintro ⟨hl, hname⟩
    obtain ⟨⟨q, a⟩, hmem, hhead⟩ : ∃ e ∈ es, e.1.head? = some l := by
      rwa [heads, List.mem_eraseDups, firsts, List.mem_filterMap] at hl
    obtain ⟨p, rfl⟩ : ∃ p, q = l :: p := by
      cases q with
      | nil => cases hhead
      | cons m q =>
        cases hhead
        exact ⟨q, rfl⟩
    -- the name is bound by the segment itself, or behind it by one of the routes
    unfold namesVia at hname
    split at hname
    · next hrest =>
      refine ⟨p, a, hmem, ?_⟩
      rwa [names_cons, namesVia, if_pos hrest]
    · next hrest =>
      split at hname
      · next hacc =>
        rcases List.mem_append.1 hname with hname | hname
        · refine ⟨p, a, hmem, ?_⟩
          rw [names_cons, namesVia, if_neg hrest, if_pos hacc]
          exact List.mem_append_left _ hname
        · obtain ⟨⟨p', a'⟩, hmem', hname⟩ := List.mem_flatMap.1 hname
          refine ⟨p', a', mem_derive.1 hmem', ?_⟩
          rw [names_cons, namesVia, if_neg hrest, if_pos hacc]
          exact List.mem_append_right _ hname
      · cases hname

/-- A pattern that binds a name on a path of a first segment has a first segment itself. -/
theorem mem_names_cons {q : List Segment} (h : name ∈ names Regex q (seg :: rest)) :
    ∃ l p, q = l :: p := by
  cases q with
  | nil => cases h
  | cons l p => exact ⟨l, p, rfl⟩

/-- A name is tried exactly when some head of the entries takes the first segment and the name is its own or
is tried behind it. -/
theorem mem_tried_cons :
    name ∈ tried Regex es (seg :: rest) ↔
      ∃ l ∈ heads es, name ∈ namesVia Regex l seg (tried Regex (derive l es) rest) := by
  simp only [← exists_names_cons_iff]
  constructor
  · intro h
    obtain ⟨⟨q, a⟩, hmem, hname⟩ := List.mem_flatMap.1 h
    obtain ⟨l, p, rfl⟩ := mem_names_cons hname
    exact ⟨l, p, a, hmem, hname⟩
  · rintro ⟨l, p, a, hmem, hname⟩
    exact List.mem_flatMap.2 ⟨_, hmem, hname⟩

/-- The same among the entries whose head passes a test. -/
theorem mem_tried_filter {before : Segment → Bool} :
    name ∈ tried Regex (es.filter fun e => e.1.head?.any before) (seg :: rest) ↔
      ∃ l ∈ heads es, before l = true ∧
        name ∈ namesVia Regex l seg (tried Regex (derive l es) rest) := by
  constructor
  · intro h
    obtain ⟨⟨q, a⟩, hmem, hname⟩ := List.mem_flatMap.1 h
    obtain ⟨l, p, rfl⟩ := mem_names_cons hname
    obtain ⟨hmem, hbefore⟩ := List.mem_filter.1 hmem
    obtain ⟨hl, hvia⟩ := exists_names_cons_iff.1 ⟨p, a, hmem, hname⟩
    exact ⟨l, hl, hbefore, hvia⟩
  · rintro ⟨l, hl, hbefore, hvia⟩
    obtain ⟨p, a, hmem, hname⟩ := exists_names_cons_iff.2 ⟨hl, hvia⟩
    exact List.mem_flatMap.2 ⟨_, List.mem_filter.2 ⟨hmem, hbefore⟩, hname⟩

/-- Nothing is bound exactly under the names that a pattern does not bind. -/
theorem captured_eq_none_iff {segments : List Bytes} :
    captured Regex p segments name = none ↔ name ∉ names Regex p segments := by
  rw [captured, Option.map_eq_none_iff, List.getLast?_eq_none_iff, List.filter_eq_nil_iff, names]
  simp only [decide_eq_true_eq, List.mem_map, not_exists, not_and]

/-- What is bound behind the first segment goes before what the segment binds. -/
theorem captured_cons (hrest : (alphabet Regex).takesRest l = false)
    (hacc : (alphabet Regex).accepts l seg = true) :
    captured Regex (l :: p) (seg :: rest) name =
      (captured Regex p rest name).or (if l.name? = some name then some seg else none) := by
  rw [captured, captures, if_neg (by simp [hrest]), if_pos hacc, List.filter_append,
    List.getLast?_append, captured, Option.map_or]
  refine congrArg (Option.or _) ?_
  cases hname : l.name? with
  | none => rfl
  | some n =>
    by_cases hn : n = name
    · simp [hn]
    · simp [hn]

/-- A wildcard binds the rest of the path. -/
theorem captured_of_takesRest (hrest : (alphabet Regex).takesRest l = true) :
    captured Regex [l] (seg :: rest) name =
      if name = bytes "*" then some (Node.joinRest (seg :: rest)) else none := by
  rw [captured, captures, if_pos hrest]
  by_cases hname : bytes "*" = name
  · simp [hname]
  · simp [hname, Ne.symm hname]

/-- What a pattern that ends in a wildcard binds to `*`: the segments behind the others, put
together. -/
theorem captured_wildcard {segments : List Bytes}
    (h : (alphabet Regex).accept (p ++ [.wildcard]) segments = true) :
    captured Regex (p ++ [.wildcard]) segments (bytes "*") =
      some (Node.joinRest (segments.drop p.length)) := by
  induction p generalizing segments with
  | nil =>
    cases segments with
    | nil => cases h
    | cons seg rest => rfl
  | cons l p ih =>
    cases segments with
    | nil => cases h
    | cons seg rest =>
      rw [List.cons_append, Alphabet.accept] at h
      cases hrest : (alphabet Regex).takesRest l with
      | true => simp [hrest] at h
      | false =>
        rw [hrest, if_neg Bool.false_ne_true, Bool.and_eq_true] at h
        rw [List.cons_append, captured_cons hrest h.1, ih h.2]
        rfl

/-- A name that a pattern binds is taken out behind its first segment, or not at all. -/
theorem not_mem_erased_cons (hname : name ∈ names Regex (l :: p) (seg :: rest))
    (hbehind : name ∉ erased Regex (derive l es) p rest) :
    name ∉ erased Regex es (l :: p) (seg :: rest) := by
  rw [erased, List.mem_append, List.mem_filter, decide_eq_true_eq]
  rintro (⟨-, hnot⟩ | herased)
  · exact hnot hname
  · exact hbehind herased

/-- What such a pattern binds to `*` stays in the map. -/
theorem wildcard_not_mem_erased {segments : List Bytes}
    (h : (alphabet Regex).accept (p ++ [.wildcard]) segments = true) :
    bytes "*" ∉ erased Regex es (p ++ [.wildcard]) segments := by
  have hbound := captured_wildcard h
  induction p generalizing es segments with
  | nil =>
    cases segments with
    | nil => cases h
    | cons seg rest => simp [erased, names, captures, alphabet]
  | cons l p ih =>
    cases segments with
    | nil => cases h
    | cons seg rest =>
      have hnames : bytes "*" ∈ names Regex (l :: (p ++ [.wildcard])) (seg :: rest) := by
        by_contra hnot
        rw [List.cons_append, captured_eq_none_iff.2 hnot] at hbound
        cases hbound
      rw [List.cons_append, Alphabet.accept] at h
      split at h
      · simp at h
      · rw [Bool.and_eq_true] at h
        exact not_mem_erased_cons hnames (ih h.2 (captured_wildcard h.2))

end Segment

/-! ## What a search that finds nothing does to the map -/

namespace Node

variable {Handler Ws Regex σ : Type} {a b : Attempt Handler Ws Regex σ} {ns ns' : List Bytes}

/-- A part of the search that finds nothing leaves these parameters out of the map and does not touch
others. -/
def Erases (a : Attempt Handler Ws Regex σ) (ns : List Bytes) : Prop :=
  ∀ st st', a st = (none, st') → ∀ name,
    st'.params.find? name = if name ∈ ns then none else st.params.find? name

/-- Which names an attempt may erase is a set: only membership counts. -/
theorem Erases.congr (ha : Erases a ns) (h : ∀ name, name ∈ ns ↔ name ∈ ns') : Erases a ns' := by
  intro st st' hnone name
  rw [ha st st' hnone name, if_congr (h name) rfl rfl]

/-- Skipping erases nothing. -/
theorem erases_skip : Erases (Attempt.skip : Attempt Handler Ws Regex σ) [] := by
  intro st st' hnone name
  cases hnone
  exact (if_neg List.not_mem_nil).symm

/-- Visiting a node erases nothing. -/
theorem erases_visit (handler : NodeData Handler Ws Regex → σ → Bool × σ)
    (node : Node Handler Ws Regex) : Erases (visit handler node) [] := by
  intro st st' hnone name
  obtain ⟨-, rfl⟩ := Prod.mk.inj hnone
  exact (if_neg List.not_mem_nil).symm

/-- Two attempts in turn erase what either erases. -/
theorem Erases.orElse (ha : Erases a ns) (hb : Erases b ns') : Erases (a.orElse b) (ns ++ ns') := by
  intro st st' hnone name
  rw [Attempt.orElse] at hnone
  rcases hst : a st with ⟨_ | node, st₁⟩
  · rw [hst] at hnone
    rw [hb st₁ st' hnone name, ha st st₁ hst name]
    by_cases h : name ∈ ns
    · simp [h]
    · simp [h]
  · rw [hst] at hnone
    cases hnone

/-- A capture erases its own name besides. -/
theorem Erases.capture (ha : Erases a ns) (name value : Bytes) :
    Erases (a.capture name value) (name :: ns) := by
  intro st st' hnone other
  rw [Attempt.capture] at hnone
  rcases hst : a { st with params := st.params.set name value } with ⟨_ | node, st₁⟩
  · rw [hst] at hnone
    cases hnone
    dsimp only
    rw [Params.find?_erase, ha _ _ hst other, Params.find?_set]
    by_cases h : other = name
    · simp [h]
    · simp [h]
  · rw [hst] at hnone
    cases hnone

/-- Trying each of a list erases what any of them erases. -/
theorem erases_tryEach {γ : Type} {f : γ → Attempt Handler Ws Regex σ} {g : γ → List Bytes}
    {l : List γ} (h : ∀ c ∈ l, Erases (f c) (g c)) :
    Erases (Attempt.tryEach (l.map f)) (l.flatMap g) := by
  induction l with
  | nil => exact erases_skip
  | cons c l ih =>
    rw [List.map_cons, Attempt.tryEach, List.flatMap_cons]
    exact (h c List.mem_cons_self).orElse (ih fun c hc => h c (List.mem_cons_of_mem _ hc))

variable [StdRegex Regex]

/-- What the part behind one child does to the map, given what the search of the child does. -/
theorem erases_tryChild {handler : NodeData Handler Ws Regex → σ → Bool × σ} {rest : List Bytes}
    {child : Segment × Node Handler Ws Regex} (seg : Bytes)
    (h : Erases (child.2.matchNodes handler rest) ns) :
    Erases (tryChild handler seg rest child) (Segment.namesVia Regex child.1 seg ns) := by
  unfold tryChild Segment.namesVia
  split
  · exact (erases_visit handler child.2).capture _ _
  · split
    · cases child.1.name? with
      | some name => exact h.capture name seg
      | none => exact h
    · exact erases_skip

end Node

namespace Represents

variable {Handler Ws Regex σ : Type} [StdRegex Regex] {node : Node Handler Ws Regex}
  {es : Entries Segment (Target Handler Ws)}

/-- **A search that finds nothing takes out the names that it has tried.** -/
theorem erases_matchNodes (h : Represents node es)
    (handler : NodeData Handler Ws Regex → σ → Bool × σ) (segments : List Bytes) :
    Node.Erases (node.matchNodes handler segments) (Segment.tried Regex es segments) := by
  induction segments generalizing node es with
  | nil =>
    refine Node.Erases.congr (Node.erases_visit handler node) fun name => ?_
    refine iff_of_false List.not_mem_nil fun hname => ?_
    obtain ⟨⟨q, a⟩, -, hname⟩ := List.mem_flatMap.1 hname
    cases q <;> cases hname
  | cons seg rest ih =>
    rw [h.matchNodes_cons]
    refine (Node.erases_tryEach fun child hchild =>
      Node.erases_tryChild seg (ih (h.of_mem_children hchild))).congr fun name => ?_
    rw [List.mem_flatMap, Segment.mem_tried_cons]
    constructor
    · rintro ⟨child, hchild, hname⟩
      exact ⟨child.1, h.mem_heads_iff.2 ⟨child, hchild, rfl⟩, hname⟩
    · rintro ⟨l, hl, hname⟩
      obtain ⟨child, hchild, rfl⟩ := h.mem_heads_iff.1 hl
      exact ⟨child, hchild, hname⟩

/-- The names tried behind the children in front of one are those of the routes that go before it. -/
theorem mem_tried_front (h : Represents node es) {front back : List (Segment × Node Handler Ws Regex)}
    {child : Segment × Node Handler Ws Regex} (hchildren : node.children = front ++ child :: back)
    {seg name : Bytes} {rest : List Bytes} :
    name ∈ (front.flatMap fun c =>
        Segment.namesVia Regex c.1 seg (Segment.tried Regex (derive c.1 es) rest)) ↔
      name ∈ Segment.tried Regex (es.filter fun e =>
        e.1.head?.any ((Segment.alphabet Regex).before es · child.1)) (seg :: rest) := by
  have horder := h.pairwise_children
  rw [hchildren, List.pairwise_append, List.pairwise_cons] at horder
  obtain ⟨-, ⟨hback, -⟩, hfront⟩ := horder
  have hmem : ∀ c ∈ front, c ∈ node.children := by
    rw [hchildren]
    exact fun c hc => List.mem_append_left _ hc
  rw [List.mem_flatMap, Segment.mem_tried_filter]
  constructor
  · rintro ⟨c, hc, hname⟩
    exact ⟨c.1, h.mem_heads_iff.2 ⟨c, hmem c hc, rfl⟩, hfront c hc _ List.mem_cons_self, hname⟩
  · rintro ⟨l, hl, hlt, hname⟩
    obtain ⟨c, hc, rfl⟩ := h.mem_heads_iff.1 hl
    rw [hchildren] at hc
    rcases List.mem_append.1 hc with hc | hc
    · exact ⟨c, hc, hname⟩
    · rcases List.mem_cons.1 hc with rfl | hc
      · rw [Alphabet.not_before_self] at hlt
        cases hlt
      · rw [Alphabet.before_asymm (hback c hc)] at hlt
        cases hlt

/-! ## What a search that finds a node does to the map -/

variable {method : Verb} {segments : List Bytes} {data : NodeData Handler Ws Regex}
  {st st' : Node.Search (List Bytes)} {q : List Segment} {handler : Handler}

/-- A search finds nothing only where nothing is registered for the method under a pattern that
matches. -/
theorem not_accept_of_matchNodes (h : Represents node es)
    (hnone : node.matchNodes (Router.collect method) segments st = (none, st'))
    (hq : (q, .http method handler) ∈ es) : (Segment.alphabet Regex).accept q segments = false := by
  rw [← Bool.not_eq_true]
  intro hacc
  have hscan := congrArg Prod.fst (h.scans_matchNodes (Router.collect method) segments st)
  rw [hnone, (Router.scan_collect method _ st.seen).1] at hscan
  -- the pattern is shown to the predicate, with what is registered under it
  have hlisted : Target.contents (valuesAt q es) ∈ (node.leaves segments).map Node.contents := by
    rw [h.contents_leaves]
    exact List.mem_map.2 ⟨_, Alphabet.mem_matched hq hacc, rfl⟩
  obtain ⟨leaf, hleaf, hcontents⟩ := List.mem_map.1 hlisted
  have htarget : Target.http method handler ∈ valuesAt q es :=
    List.mem_map.2 ⟨_, List.mem_filter.2 ⟨hq, decide_eq_true rfl⟩, rfl⟩
  have hhandler := Router.mem_contents.2 ⟨handler, htarget⟩
  rw [← hcontents] at hhandler
  exact List.find?_eq_none.1 hscan.symm leaf hleaf (Router.findHandler_isSome_iff.2 hhandler)

/-- A child that is tried without success accepts no pattern registered behind it for the method. -/
theorem not_accept_of_tryChild {seg : Bytes} {rest : List Bytes}
    {child : Segment × Node Handler Ws Regex} (h : Represents child.2 (derive child.1 es))
    (hnone : Node.tryChild (Router.collect method) seg rest child st = (none, st'))
    (hq : (child.1 :: q, .http method handler) ∈ es) :
    (Segment.alphabet Regex).accept (child.1 :: q) (seg :: rest) = false := by
  unfold Node.tryChild at hnone
  rw [Alphabet.accept]
  split at hnone
  · next hrest =>
    rw [if_pos hrest]
    obtain ⟨st₁, st₂, hvisit⟩ := Node.Attempt.capture_eq_none hnone
    cases q with
    | nil =>
      have hsearch : child.2.matchNodes (Router.collect method) [] st₁ = (none, st₂) := hvisit
      cases not_accept_of_matchNodes h hsearch (mem_derive.2 hq)
    | cons => rfl
  · next hrest =>
    rw [if_neg hrest]
    split at hnone
    · next hacc =>
      rw [hacc, Bool.true_and]
      cases hname : child.1.name? with
      | some name =>
        rw [hname] at hnone
        obtain ⟨st₁, st₂, hsearch⟩ := Node.Attempt.capture_eq_none hnone
        exact not_accept_of_matchNodes h hsearch (mem_derive.2 hq)
      | none =>
        rw [hname] at hnone
        exact not_accept_of_matchNodes h hnone (mem_derive.2 hq)
    · next hacc => rw [Bool.eq_false_iff.2 hacc, Bool.false_and]

/-- A search has found the node of a pattern: the first one that matches and has a handler for the
method. What was bound to a name before is still there if nothing has taken it out. -/
structure Picked (es : Entries Segment (Target Handler Ws)) (method : Verb) (segments : List Bytes)
    (data : NodeData Handler Ws Regex) (before after : Params) (p : List Segment) : Prop where
  contents : Node.contents data = Target.contents (valuesAt p es)
  found : (Router.findHandler data.handlers method).isSome = true
  accept : (Segment.alphabet Regex).accept p segments = true
  first : ∀ q handler, (q, .http method handler) ∈ es →
    (Segment.alphabet Regex).accept q segments = true →
    q = p ∨ (Segment.alphabet Regex).precedes es p q = true
  params : ∀ name, after.find? name =
    if name ∈ Segment.erased Regex es p segments then none
    else (Segment.captured Regex p segments name).or (before.find? name)

omit [StdRegex Regex] in
/-- The search at its last segment finds the node itself. -/
theorem visit_eq_some (h : Node.visit (Router.collect method) node st = (some data, st')) :
    node.data = data ∧ (Router.findHandler data.handlers method).isSome = true ∧
      st'.params = st.params := by
  rw [Node.visit] at h
  cases hfound : (Router.collect method node.data st.seen).1 with
  | false => simp [hfound] at h
  | true =>
    simp only [hfound, if_true, Prod.mk.injEq, Option.some.injEq] at h
    obtain ⟨rfl, rfl⟩ := h
    exact ⟨rfl, hfound, rfl⟩

/-- What was found behind one child. -/
theorem picked_of_tryChild {seg : Bytes} {rest : List Bytes} {child : Segment × Node Handler Ws Regex}
    (h : Represents child.2 (derive child.1 es))
    (hfound : Node.tryChild (Router.collect method) seg rest child st = (some data, st'))
    (ih : ∀ {st}, child.2.matchNodes (Router.collect method) rest st = (some data, st') →
      ∃ p, Picked (derive child.1 es) method rest data st.params st'.params p) :
    ∃ p, Node.contents data = Target.contents (valuesAt (child.1 :: p) es) ∧
      (Router.findHandler data.handlers method).isSome = true ∧
      (Segment.alphabet Regex).accept (child.1 :: p) (seg :: rest) = true ∧
      (∀ q handler, (child.1 :: q, .http method handler) ∈ es →
        (Segment.alphabet Regex).accept (child.1 :: q) (seg :: rest) = true →
        q = p ∨ (Segment.alphabet Regex).precedes (derive child.1 es) p q = true) ∧
      ∀ name, st'.params.find? name =
        if name ∈ Segment.erased Regex (derive child.1 es) p rest then none
        else (Segment.captured Regex (child.1 :: p) (seg :: rest) name).or (st.params.find? name) := by
  unfold Node.tryChild at hfound
  split at hfound
  · next hrest =>
    -- a wildcard takes the path to its end
    have hvisit := visit_eq_some (Node.Attempt.capture_eq_some hfound)
    obtain ⟨hcontents⟩ := h
    obtain ⟨rfl, hhandler, hparams⟩ := hvisit
    have hacc : (Segment.alphabet Regex).accept [child.1] (seg :: rest) = true := by
      rw [Alphabet.accept, if_pos hrest]
      rfl
    refine ⟨[], by rw [hcontents, valuesAt_cons], hhandler, hacc, fun q handler _ hq => ?_, fun name => ?_⟩
    · rw [Alphabet.accept, if_pos hrest, List.isEmpty_iff] at hq
      exact .inl hq
    · rw [hparams, Params.find?_set, Segment.captured_of_takesRest hrest, Segment.erased,
        if_neg List.not_mem_nil]
      split <;> rfl
  · next hrest =>
    split at hfound
    · next hacc =>
      have hbehind : ∀ q, (Segment.alphabet Regex).accept (child.1 :: q) (seg :: rest) =
          (Segment.alphabet Regex).accept q rest := by
        intro q
        rw [Alphabet.accept, if_neg hrest, hacc, Bool.true_and]
      -- the search goes on, with what the segment binds in the map
      obtain ⟨st₁, hsearch, hst₁⟩ : ∃ st₁, child.2.matchNodes (Router.collect method) rest st₁ =
          (some data, st') ∧ ∀ name, st₁.params.find? name =
            (if child.1.name? = some name then some seg else none).or (st.params.find? name) := by
        cases hname : child.1.name? with
        | some n =>
          rw [hname] at hfound
          refine ⟨_, Node.Attempt.capture_eq_some hfound, fun name => ?_⟩
          dsimp only
          rw [Params.find?_set]
          by_cases hn : n = name
          · simp [hn]
          · simp [hn, Ne.symm hn]
        | none =>
          rw [hname] at hfound
          exact ⟨st, hfound, fun name => rfl⟩
      obtain ⟨p, hp⟩ := ih hsearch
      refine ⟨p, by rw [hp.contents, valuesAt_cons], hp.found, (hbehind p).trans hp.accept,
        fun q handler hq hacc' => ?_, fun name => ?_⟩
      · exact hp.first q handler (mem_derive.2 hq) ((hbehind q).symm.trans hacc')
      · rw [hp.params, hst₁, Segment.captured_cons (Bool.eq_false_iff.2 hrest) hacc, Option.or_assoc]
    · cases hfound

/-- **What a search finds.** The induction is on the segments: the children before the one that
something is found behind have found nothing, so they hold no candidate, and have taken out of the map
what they tried. -/
theorem picked_of_matchNodes (h : Represents node es)
    (hfound : node.matchNodes (Router.collect method) segments st = (some data, st')) :
    ∃ p, Picked es method segments data st.params st'.params p := by
  induction segments generalizing node es st with
  | nil =>
    obtain ⟨rfl, hhandler, hparams⟩ := visit_eq_some hfound
    obtain ⟨hcontents⟩ := h
    refine ⟨[], hcontents, hhandler, rfl, fun q handler _ hq => ?_, fun name => ?_⟩
    · cases q with
      | nil => exact .inl rfl
      | cons => cases hq
    · rw [hparams]
      exact (if_neg List.not_mem_nil).symm
  | cons seg rest ih =>
    have hsearch := hfound
    rw [h.matchNodes_cons] at hsearch
    obtain ⟨front, child, back, hchildren, st₁, hfront, hchild⟩ :=
      Node.Attempt.tryEach_eq_some hsearch
    have hmem : ∀ c, c ∈ front ++ child :: back → c ∈ node.children := fun c hc => hchildren ▸ hc
    have hrep := h.of_mem_children (hmem child (by simp))
    obtain ⟨p, hcontents, hhandler, hacc, hfirst, hparams⟩ := picked_of_tryChild hrep hchild (ih hrep)
    have horder := h.pairwise_children
    rw [hchildren, List.pairwise_append, List.pairwise_cons] at horder
    obtain ⟨-, ⟨hback, -⟩, -⟩ := horder
    refine ⟨child.1 :: p, hcontents, hhandler, hacc, fun q handler hq hq' => ?_, fun name => ?_⟩
    · obtain ⟨l, q, rfl⟩ : ∃ l q', q = l :: q' := by
        cases q with
        | nil => cases hq'
        | cons l q => exact ⟨l, q, rfl⟩
      obtain ⟨c, hc, rfl⟩ := h.mem_heads_iff.1 (mem_heads_of_mem hq)
      rw [hchildren] at hc
      rcases List.mem_append.1 hc with hc | hc
      · obtain ⟨st₂, st₃, hnone⟩ := Node.Attempt.tryEach_eq_none hfront hc
        have hrep := h.of_mem_children (hmem c (List.mem_append_left _ hc))
        rw [not_accept_of_tryChild hrep hnone hq] at hq'
        cases hq'
      · rcases List.mem_cons.1 hc with rfl | hc
        · rcases hfirst q handler hq hq' with rfl | hprecedes
          · exact .inl rfl
          · exact .inr (Alphabet.precedes_cons_self.trans hprecedes)
        · exact .inr (Alphabet.precedes_cons_of_before (hback c hc))
    · -- the names that the children before have taken out
      have herases := Node.erases_tryEach (fun c hc => Node.erases_tryChild seg
        ((h.of_mem_children (hmem c (List.mem_append_left _ hc))).erases_matchNodes
          (Router.collect method) rest)) st st₁ hfront name
      rw [hparams, herases, Segment.erased]
      simp only [h.mem_tried_front hchildren, List.mem_append, List.mem_filter, decide_eq_true_eq]
      by_cases hname : name ∈ Segment.names Regex (child.1 :: p) (seg :: rest)
      · obtain ⟨value, hvalue⟩ := Option.ne_none_iff_exists'.1
          fun hnone => Segment.captured_eq_none_iff.1 hnone hname
        simp [hname, hvalue]
      · rw [Segment.captured_eq_none_iff.2 hname]
        simp only [hname, not_false_iff, and_true, Option.none_or]
        by_cases hbehind : name ∈ Segment.erased Regex (derive child.1 es) p rest
        · simp [hbehind]
        · simp [hbehind]

end Represents

/-! ## The map of a request -/

/-- The pattern that a request is dispatched by: of those that match and have a handler for the method,
the one that goes before all others. Its handler is the one that was registered last. -/
structure DispatchedBy {Handler Ws : Type} (Regex : Type) [StdRegex Regex]
    (regs : List (Registration Handler Ws)) (method : Verb) (path : Bytes) (handler : Handler)
    (p : List Segment) : Prop where
  handler : ((valuesAt p (routes regs)).filterMap (Target.select method)).getLast? = some handler
  accept : (Segment.alphabet Regex).accept p (splitSegments path) = true
  first : ∀ reg ∈ regs, ∀ handler', reg.target = .http method handler' → reg.Matches Regex path →
    Segment.pattern (splitSegments reg.path) = p ∨
      (Segment.alphabet Regex).precedes (routes regs) p (Segment.pattern (splitSegments reg.path)) = true

namespace DispatchedBy

variable {Handler Ws Regex Json StreamHandler : Type} [StdRegex Regex]
  {regs : List (Registration Handler Ws)} {method : Verb} {path : Bytes} {handler : Handler}
  {p q : List Segment}

/-- The pattern is registered for the method. -/
theorem registered (h : DispatchedBy Regex regs method path handler p) :
    ∃ reg ∈ regs, Segment.pattern (splitSegments reg.path) = p ∧ reg.target = .http method handler := by
  obtain ⟨target, htarget, hselect⟩ := List.mem_filterMap.1 (List.mem_of_getLast? h.handler)
  obtain ⟨route, hroute, rfl⟩ := List.mem_map.1 htarget
  obtain ⟨hroute, hp⟩ := List.mem_filter.1 hroute
  obtain ⟨reg, hreg, rfl⟩ := List.mem_map.1 hroute
  refine ⟨reg, hreg, of_decide_eq_true hp, ?_⟩
  cases htarget : reg.target with
  | ws entry =>
    rw [htarget] at hselect
    cases hselect
  | http m handler' =>
    simp only [htarget, Target.select, Option.ite_none_right_eq_some, Option.some.injEq] at hselect
    rw [hselect.1, hselect.2]

/-- There is one such pattern at most. -/
theorem unique (hp : DispatchedBy Regex regs method path handler p) {handler' : Handler}
    (hq : DispatchedBy Regex regs method path handler' q) : p = q := by
  obtain ⟨reg, hreg, rfl, htarget⟩ := hp.registered
  obtain ⟨reg', hreg', rfl, htarget'⟩ := hq.registered
  rcases hq.first reg hreg _ htarget hp.accept with h | h
  · exact h
  · rcases hp.first reg' hreg' _ htarget' hq.accept with h' | h'
    · exact h'.symm
    · rw [Alphabet.precedes_asymm h] at h'
      cases h'

open Router in
/-- **The map of a request that is dispatched.** -/
theorem of_run {router : Router Handler Ws Regex} (hregs : registerAll {} regs = some router)
    {host : Host} {req req' : Request} {resp : Response Json StreamHandler}
    (hrun : procRouting host router req resp = .run handler req') :
    ∃ p, DispatchedBy Regex regs req.method req.path handler p ∧
      ∀ name, req'.pathParams.find? name =
        if name ∈ Segment.erased Regex (routes regs) p (splitSegments req.path) then none
        else Segment.captured Regex p (splitSegments req.path) name := by
  obtain ⟨node, st, hsearch, hhandler, rfl⟩ := matchNodes_of_run hrun
  obtain ⟨p, hp⟩ := (Represents.registerAll hregs).picked_of_matchNodes hsearch
  refine ⟨p, ⟨?_, hp.accept, fun reg hreg handler' htarget hmatches => ?_⟩, fun name => ?_⟩
  · rw [← findHandler_contents, ← hp.contents]
    exact hhandler
  · refine hp.first _ handler' (List.mem_map.2 ⟨reg, hreg, ?_⟩) hmatches
    rw [htarget]
  · exact (hp.params name).trans (if_congr Iff.rfl rfl (Option.or_none))

open Router in
/-- **What is under `*` in a request that is dispatched by a pattern with a wildcard.** -/
theorem wildcard_of_run {router : Router Handler Ws Regex}
    (hregs : registerAll {} regs = some router) {host : Host} {req req' : Request}
    {resp : Response Json StreamHandler} (hrun : procRouting host router req resp = .run handler req')
    (hp : DispatchedBy Regex regs req.method req.path handler (p ++ [.wildcard])) :
    req'.pathParams.find? (bytes "*") =
      some (Node.joinRest ((splitSegments req.path).drop p.length)) := by
  obtain ⟨q, hq, hparams⟩ := of_run hregs hrun
  cases hp.unique hq
  rw [hparams, if_neg (Segment.wildcard_not_mem_erased hp.accept), Segment.captured_wildcard hp.accept]

end DispatchedBy

open Router in
/-- **When the map of a request is that of its pattern**: no name that the pattern binds has been taken
out behind the segment that binds it last. And a search that finds nothing leaves the map as it was
exactly if no name that it tries stands in the map. -/
theorem path_params_iff {Handler Ws Regex Json StreamHandler : Type} [StdRegex Regex] (host : Host)
    {regs : List (Registration Handler Ws)} {router : Router Handler Ws Regex}
    (hregs : registerAll {} regs = some router) :
    (∀ (req req' : Request) (resp : Response Json StreamHandler) (handler : Handler),
      procRouting host router req resp = .run handler req' →
      (∃ p, DispatchedBy Regex regs req.method req.path handler p) ∧
        ∀ p, DispatchedBy Regex regs req.method req.path handler p →
          ((∀ name, req'.pathParams.find? name =
              Segment.captured Regex p (splitSegments req.path) name) ↔
            ∀ name ∈ Segment.names Regex p (splitSegments req.path),
              name ∉ Segment.erased Regex (routes regs) p (splitSegments req.path))) ∧
      ∀ (σ : Type) (node : Node Handler Ws Regex) (es : Entries Segment (Target Handler Ws)),
        Represents node es → ∀ (handler : NodeData Handler Ws Regex → σ → Bool × σ)
          (segments : List Bytes) (st st' : Node.Search σ),
          node.matchNodes handler segments st = (none, st') →
          ((∀ name, st'.params.find? name = st.params.find? name) ↔
            ∀ name ∈ Segment.tried Regex es segments, st.params.find? name = none) := by
  constructor
  · intro req req' resp handler hrun
    obtain ⟨p, hp, hparams⟩ := DispatchedBy.of_run hregs hrun
    refine ⟨⟨p, hp⟩, fun q hq => ?_⟩
    cases hp.unique hq
    constructor
    · intro hall name hname herased
      have hnone := (hall name).symm.trans ((hparams name).trans (if_pos herased))
      exact Segment.captured_eq_none_iff.1 hnone hname
    · intro hkept name
      rw [hparams]
      by_cases hname : name ∈ Segment.names Regex p (splitSegments req.path)
      · exact if_neg (hkept name hname)
      · rw [Segment.captured_eq_none_iff.2 hname, ite_self]
  · intro σ node es hrep handler segments st st' hnone
    have herases := hrep.erases_matchNodes handler segments st st' hnone
    constructor
    · intro hsame name hname
      rw [← hsame name, herases, if_pos hname]
    · intro hfree name
      rw [herases]
      split
      · next hname => exact (hfree name hname).symm
      · rfl

open scoped Platform.Plain in
/-- A route with one parameter, whose name no other route binds. -/
theorem path_params_iff_regex :
    letI := literalRegex
    ∃ router : Router Nat Unit Bytes, Router.registerAll {} sampleRoutes = some router ∧
      ∀ req', router.procRouting plainHost (.ofHeader .get (bytes "/a/b") 11 [])
          (.new plainHost 11 true : Response Unit Unit) = .run 2 req' →
        ∀ name, req'.pathParams.find? name = if bytes "y" = name then some (bytes "b") else none := by
  let _ := literalRegex
  obtain ⟨router, hregs⟩ : ∃ router : Router Nat Unit Bytes,
      Router.registerAll {} sampleRoutes = some router := ⟨_, rfl⟩
  refine ⟨router, hregs, fun req' hrun name => ?_⟩
  have hp : DispatchedBy Bytes sampleRoutes .get (bytes "/a/b") 2
      [.static (bytes "a"), .regex (bytes "\x7by:b\x7d")] := by
    refine ⟨rfl, by decide, fun reg hreg handler' htarget hmatches => ?_⟩
    simp only [sampleRoutes, List.mem_cons, List.not_mem_nil, or_false] at hreg
    rcases hreg with rfl | rfl | rfl | rfl
    · exact .inr (by decide)
    · exact .inl (by decide)
    · cases htarget
    · cases htarget
  have hparams := ((path_params_iff plainHost hregs).1
    (.ofHeader .get (bytes "/a/b") 11 []) req' (.new plainHost 11 true : Response Unit Unit) 2 hrun).2
    _ hp
  refine (hparams.2 (by decide) name).trans ?_
  have hcaptures : Segment.captures Bytes [.static (bytes "a"), .regex (bytes "\x7by:b\x7d")]
      (splitSegments (Request.ofHeader .get (bytes "/a/b") 11 []).path) = [(bytes "y", bytes "b")] := by
    decide
  rw [Segment.captured, hcaptures]
  by_cases hname : bytes "y" = name
  · simp [hname]
  · simp [hname]

/-- A parameter that is bound by two routes: the one that is tried first binds it twice and finds
nothing, and its value is taken out of the map. -/
def nestedRoutes : List (Registration Nat Unit) :=
  [⟨bytes "/:a/:a/x", .http .get 1⟩, ⟨bytes "/:a/*", .http .get 2⟩]

open scoped Platform.Plain in
/-- The request is dispatched by the second route, without its parameter. -/
theorem path_params_iff_nested :
    letI := literalRegex
    ∃ (router : Router Nat Unit Bytes) (req' : Request),
      Router.registerAll {} nestedRoutes = some router ∧
      router.procRouting plainHost (.ofHeader .get (bytes "/1/2/y") 11 [])
        (.new plainHost 11 true : Response Unit Unit) = .run 2 req' ∧
      DispatchedBy Bytes nestedRoutes .get (bytes "/1/2/y") 2 [.param (bytes ":a"), .wildcard] ∧
      Segment.captured Bytes [.param (bytes ":a"), .wildcard] (splitSegments (bytes "/1/2/y"))
        (bytes "a") = some (bytes "1") ∧
      req'.pathParams.find? (bytes "a") = none := by
  let _ := literalRegex
  refine ⟨_, _, rfl, rfl, ⟨rfl, by decide, fun reg hreg handler' htarget hmatches => ?_⟩, by decide, rfl⟩
  simp only [nestedRoutes, List.mem_cons, List.not_mem_nil, or_false] at hreg
  rcases hreg with rfl | rfl
  · -- the first route does not match
    rw [Registration.Matches] at hmatches
    revert hmatches
    decide
  · exact .inl (by decide)

end Httplib
