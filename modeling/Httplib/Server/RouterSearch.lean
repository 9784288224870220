import Httplib.Server.RouterTree

/-!
# The search of the router, as a search of its routes

A search of a tree tries the children one after the other in the order of their segments
(`Holds.matchNodes_cons`), so it goes through the matching routes in the order of
`Patterns.Alphabet.matched` (`Holds.scans_matchNodes`, `Holds.contents_leaves`).
-/

namespace Httplib

open Patterns

/-! ## The search, child by child -/

namespace Node

variable {Handler Ws Regex σ : Type}

namespace Attempt

variable {a : Attempt Handler Ws Regex σ}

/-- Parts of a search, one after the other. -/
def tryEach : List (Attempt Handler Ws Regex σ) → Attempt Handler Ws Regex σ
  | [] => skip
  | a :: as => a.orElse (tryEach as)

/-- Nothing is tried behind an attempt that is the last one. -/
@[simp] theorem orElse_skip (a : Attempt Handler Ws Regex σ) : a.orElse skip = a := by
  funext st
  rw [orElse]
  rcases a st with ⟨_ | node, st'⟩ <;> rfl

/-- An attempt behind none is the first one. -/
@[simp] theorem skip_orElse (a : Attempt Handler Ws Regex σ) : skip.orElse a = a := rfl

/-- Attempts are made one after the other, in whatever way they are put together. -/
theorem orElse_assoc (a b c : Attempt Handler Ws Regex σ) :
    (a.orElse b).orElse c = a.orElse (b.orElse c) := by
  funext st
  simp only [orElse]
  rcases a st with ⟨_ | node, st'⟩ <;> rfl

/-- Two lists of attempts are made one after the other. -/
@[simp] theorem tryEach_append (as bs : List (Attempt Handler Ws Regex σ)) :
    tryEach (as ++ bs) = (tryEach as).orElse (tryEach bs) := by
  induction as with
  | nil => rfl
  | cons a as ih => rw [List.cons_append, tryEach, tryEach, ih, orElse_assoc]

/-- A list of attempts that all do nothing does nothing. -/
theorem tryEach_map_skip {γ : Type} {f : γ → Attempt Handler Ws Regex σ} {l : List γ}
    (h : ∀ c ∈ l, f c = skip) : tryEach (l.map f) = skip := by
  induction l with
  | nil => rfl
  | cons c l ih =>
    rw [List.map_cons, tryEach, h c List.mem_cons_self, skip_orElse]
    exact ih fun c hc => h c (List.mem_cons_of_mem _ hc)

/-- A loop over children. -/
theorem firstOf_eq_tryEach (f : Node Handler Ws Regex → Attempt Handler Ws Regex σ)
    (children : List (Node Handler Ws Regex)) :
    firstOf f children = tryEach (children.map f) := by
  induction children with
  | nil => rfl
  | cons child children ih => rw [firstOf, List.map_cons, tryEach, ih]

/-- Of the children with distinct keys, the ones with a given key are the one that is found. -/
theorem tryEach_eq_find? {children : List (Node Handler Ws Regex)}
    (hnodup : (children.map fun child => child.data.key).Nodup) (key : Bytes)
    (f : Node Handler Ws Regex → Attempt Handler Ws Regex σ) :
    tryEach (children.map fun child => if child.data.key = key then f child else skip) =
      match children.find? fun child => child.data.key = key with
      | some child => f child
      | none => skip := by
  induction children with
  | nil => rfl
  | cons child children ih =>
    rw [List.map_cons, List.nodup_cons] at hnodup
    rw [List.map_cons, tryEach, List.find?_cons]
    by_cases hkey : child.data.key = key
    · have hskip : tryEach (children.map fun child =>
          if child.data.key = key then f child else skip) = skip := by
        refine tryEach_map_skip fun other hother => if_neg fun heq => hnodup.1 ?_
        exact List.mem_map.2 ⟨other, hother, heq.trans hkey.symm⟩
      rw [if_pos hkey, hskip, orElse_skip, decide_eq_true hkey]
    · rw [if_neg hkey, skip_orElse, ih hnodup.2, decide_eq_false hkey]

section
variable {node : NodeData Handler Ws Regex} {st st' : Search σ}

/-- A capture is an attempt with one more parameter, which stays where it succeeds. -/
theorem capture_eq_some {name value : Bytes} (h : a.capture name value st = (some node, st')) :
    a { st with params := st.params.set name value } = (some node, st') := by
  rw [capture] at h
  rcases ha : a { st with params := st.params.set name value } with ⟨_ | node', st₁⟩
  · rw [ha] at h
    cases h
  · rw [ha] at h
    exact h

/-- Where a capture fails, the attempt in it has failed. -/
theorem capture_eq_none {name value : Bytes} (h : a.capture name value st = (none, st')) :
    ∃ st₁ st₂, a st₁ = (none, st₂) := by
  rw [capture] at h
  rcases ha : a { st with params := st.params.set name value } with ⟨_ | node', st₁⟩
  · exact ⟨_, st₁, ha⟩
  · rw [ha] at h
    cases h

/-- What is found was found by one part, and those before it found nothing. -/
theorem tryEach_eq_some {γ : Type} {f : γ → Attempt Handler Ws Regex σ} {l : List γ}
    (h : tryEach (l.map f) st = (some node, st')) :
    ∃ front c back, l = front ++ c :: back ∧
      ∃ st₁, tryEach (front.map f) st = (none, st₁) ∧ f c st₁ = (some node, st') := by
  induction l generalizing st with
  | nil => cases h
  | cons c l ih =>
    rw [List.map_cons, tryEach, orElse] at h
    rcases hc : f c st with ⟨_ | node', st₁⟩
    · rw [hc] at h
      obtain ⟨front, c', back, rfl, st₂, hfront, hc'⟩ := ih h
      refine ⟨c :: front, c', back, rfl, st₂, ?_, hc'⟩
      rw [List.map_cons, tryEach, orElse, hc]
      exact hfront
    · rw [hc] at h
      cases h
      exact ⟨[], c, l, rfl, st, rfl, hc⟩

/-- If nothing is found, no part finds anything. -/
theorem tryEach_eq_none {γ : Type} {f : γ → Attempt Handler Ws Regex σ} {l : List γ}
    (h : tryEach (l.map f) st = (none, st')) {c : γ} (hc : c ∈ l) :
    ∃ st₁ st₂, f c st₁ = (none, st₂) := by
  induction l generalizing st with
  | nil => cases hc
  | cons c' l ih =>
    rw [List.map_cons, tryEach, orElse] at h
    rcases hc' : f c' st with ⟨_ | node', st₁⟩
    · rw [hc'] at h
      rcases List.mem_cons.1 hc with rfl | hc
      · exact ⟨st, st₁, hc'⟩
      · exact ih h hc
    · rw [hc'] at h
      cases h

end

end Attempt

variable [StdRegex Regex]

/-- The children of a node in the order in which they are tried. -/
def children (node : Node Handler Ws Regex) : List (Segment × Node Handler Ws Regex) :=
  (List.range (Segment.alphabet Regex).ranks).flatMap node.kids

/-- The part of a search behind one child. -/
def tryChild (handler : NodeData Handler Ws Regex → σ → Bool × σ) (seg : Bytes) (rest : List Bytes)
    (child : Segment × Node Handler Ws Regex) : Attempt Handler Ws Regex σ :=
  if (Segment.alphabet Regex).takesRest child.1 then
    .capture (bytes "*") (joinRest (seg :: rest)) (visit handler child.2)
  else if (Segment.alphabet Regex).accepts child.1 seg then
    match child.1.name? with
    | some name => .capture name seg (matchNodes handler rest child.2)
    | none => matchNodes handler rest child.2
  else .skip

end Node

namespace Holds

variable {Handler Ws Regex σ : Type} [StdRegex Regex] {node : Node Handler Ws Regex}
  {es : Entries Segment (Option (Target Handler Ws))} {seg : Bytes}

/-- The regex of a child is the one of its segment, and so is its parameter. -/
theorem regex_of_labelled (h : Node.Labelled (.regex seg) node) :
    node.data.regex = StdRegex.compile (Node.regexParts seg).2 ∧
      node.data.paramName = (Node.regexParts seg).1 := by
  obtain ⟨fresh, hfresh, hdata⟩ := h
  obtain ⟨regex, hregex, rfl⟩ := Option.map_eq_some_iff.1 hfresh
  rw [hdata, hregex]
  exact ⟨rfl, rfl⟩

/-- The name of a parameter is its segment without the colon. -/
theorem paramName_of_labelled (h : Node.Labelled (.param seg) node) :
    node.data.paramName = seg.drop 1 := by
  obtain ⟨fresh, hfresh, hdata⟩ := h
  cases hfresh
  rw [hdata]

/-- The children stand in the order of the alphabet. -/
theorem labels_children (h : Holds node es) :
    (node.children.map Prod.fst) = (Segment.alphabet Regex).order (heads es) := by
  obtain ⟨-, hlabels, -, -⟩ := h
  rw [Node.children, List.map_flatMap, Alphabet.order]
  exact List.flatMap_congr fun k _ => hlabels k

/-- A child holds the entries below its label. -/
theorem of_mem_children (h : Holds node es) {child : Segment × Node Handler Ws Regex}
    (hchild : child ∈ node.children) : Holds child.2 (derive child.1 es) := by
  obtain ⟨-, -, -, hchildren⟩ := h
  obtain ⟨k, -, hkid⟩ := List.mem_flatMap.1 hchild
  exact hchildren k child hkid

/-- **A search tries the children one after the other.** The four kinds of children are the four parts
of a call. -/
theorem matchNodes_cons (h : Holds node es)
    (handler : NodeData Handler Ws Regex → σ → Bool × σ) (seg : Bytes) (rest : List Bytes) :
    node.matchNodes handler (seg :: rest) =
      .tryEach (node.children.map (Node.tryChild handler seg rest)) := by
  obtain ⟨-, hlabels, hlabelled, -⟩ := h
  have hkids : node.children = node.kids 0 ++ (node.kids 1 ++ (node.kids 2 ++ node.kids 3)) := by
    rw [Node.children, show List.range (Segment.alphabet Regex).ranks = [0, 1, 2, 3] from rfl]
    simp only [List.flatMap_cons, List.flatMap_nil, List.append_nil]
  rw [hkids, List.map_append, List.map_append, List.map_append, Node.Attempt.tryEach_append,
    Node.Attempt.tryEach_append, Node.Attempt.tryEach_append, Node.matchNodes]
  refine congrArg₂ _ ?_ (congrArg₂ _ ?_ (congrArg₂ _ ?_ ?_))
  · have hkeys : (node.staticChildren.map fun child => child.data.key).Nodup := by
      have hnodup : ((node.kids 0).map Prod.fst).Nodup := by
        rw [hlabels]
        exact (nodup_heads es).filter _
      rw [Node.kids, List.map_map] at hnodup
      exact List.Nodup.of_map Segment.static (by rwa [List.map_map])
    refine (Node.Attempt.tryEach_eq_find? hkeys seg (Node.matchNodes handler rest)).symm.trans ?_
    rw [Node.kids, List.map_map]
    refine congrArg _ (List.map_congr_left fun child _ => ?_)
    simp [Node.tryChild, Segment.alphabet, Segment.name?]
  · rw [Node.Attempt.firstOf_eq_tryEach, Node.kids, List.map_map]
    refine congrArg _ (List.map_congr_left fun child hchild => ?_)
    obtain ⟨hregex, hname⟩ := regex_of_labelled
      (hlabelled 1 _ (List.mem_map.2 ⟨child, hchild, rfl⟩))
    rw [hregex, hname]
    rfl
  · rw [Node.Attempt.firstOf_eq_tryEach, Node.kids, List.map_map]
    refine congrArg _ (List.map_congr_left fun child hchild => ?_)
    have hname := paramName_of_labelled (hlabelled 2 _ (List.mem_map.2 ⟨child, hchild, rfl⟩))
    rw [hname]
    rfl
  · cases hwild : node.wildcardChildren with
    | none => simp [Node.kids, hwild, Node.Attempt.tryEach]
    | some child =>
      simp only [Node.kids, hwild, Option.toList_some, List.map_cons, List.map_nil,
        Node.Attempt.tryEach, Node.Attempt.orElse_skip]
      rfl

end Holds

/-! ## What a search goes through -/

namespace Node

variable {Handler Ws Regex σ : Type}

/-- The nodes that a search with these nodes ahead shows to its predicate, and the one it stops at. -/
def scan (handler : NodeData Handler Ws Regex → σ → Bool × σ) :
    List (NodeData Handler Ws Regex) → σ → Option (NodeData Handler Ws Regex) × σ
  | [], seen => (none, seen)
  | node :: nodes, seen =>
    if (handler node seen).1 then (some node, (handler node seen).2)
    else scan handler nodes (handler node seen).2

/-- A part of the search shows these nodes to the predicate, whatever the parameters are. -/
def Scans (handler : NodeData Handler Ws Regex → σ → Bool × σ)
    (a : Attempt Handler Ws Regex σ) (nodes : List (NodeData Handler Ws Regex)) : Prop :=
  ∀ st, ((a st).1, (a st).2.seen) = scan handler nodes st.seen

variable {handler : NodeData Handler Ws Regex → σ → Bool × σ} {a b : Attempt Handler Ws Regex σ}
  {nodes nodes' : List (NodeData Handler Ws Regex)}

/-- A scan over two lists goes on to the second where it finds nothing in the first. -/
theorem scan_append (nodes nodes' : List (NodeData Handler Ws Regex)) (seen : σ) :
    scan handler (nodes ++ nodes') seen =
      match scan handler nodes seen with
      | (some node, seen) => (some node, seen)
      | (none, seen) => scan handler nodes' seen := by
  induction nodes generalizing seen with
  | nil => rfl
  | cons node nodes ih =>
    rw [List.cons_append, scan, scan]
    split
    · rfl
    · exact ih _

/-- Doing nothing scans no node. -/
theorem scans_skip : Scans handler Attempt.skip [] := fun _ => rfl

/-- A visit scans the node it is at. -/
theorem scans_visit (node : Node Handler Ws Regex) :
    Scans handler (visit handler node) [node.data] := by
  intro st
  rw [visit, scan, scan]
  cases hfound : (handler node.data st.seen).1 <;> simp [hfound]

/-- Two attempts one after the other scan the nodes of both. -/
theorem Scans.orElse (ha : Scans handler a nodes) (hb : Scans handler b nodes') :
    Scans handler (a.orElse b) (nodes ++ nodes') := by
  intro st
  rw [scan_append, ← ha st, Attempt.orElse]
  rcases a st with ⟨_ | node, st'⟩
  · exact hb st'
  · rfl

/-- A parameter makes no difference to what is scanned. -/
theorem Scans.capture (ha : Scans handler a nodes) (name value : Bytes) :
    Scans handler (a.capture name value) nodes := by
  intro st
  have h := ha { st with params := st.params.set name value }
  rw [Attempt.capture]
  rcases hst : a { st with params := st.params.set name value } with ⟨_ | node, st'⟩ <;>
    rw [hst] at h <;> exact h

/-- A list of attempts scans the nodes of each in turn. -/
theorem scans_tryEach {γ : Type} {f : γ → Attempt Handler Ws Regex σ}
    {g : γ → List (NodeData Handler Ws Regex)} {l : List γ} (h : ∀ c ∈ l, Scans handler (f c) (g c)) :
    Scans handler (Attempt.tryEach (l.map f)) (l.flatMap g) := by
  induction l with
  | nil => exact scans_skip
  | cons c l ih =>
    rw [List.map_cons, Attempt.tryEach, List.flatMap_cons]
    exact (h c List.mem_cons_self).orElse (ih fun c hc => h c (List.mem_cons_of_mem _ hc))

variable [StdRegex Regex]

/-- The nodes that a search shows to its predicate if that never stops it, in this order. -/
def leaves : List Bytes → Node Handler Ws Regex → List (NodeData Handler Ws Regex)
  | [], node => [node.data]
  | seg :: rest, node => (List.range (Segment.alphabet Regex).ranks).flatMap fun k =>
    (node.kids k).flatMap fun child =>
      if (Segment.alphabet Regex).takesRest child.1 then [child.2.data]
      else if (Segment.alphabet Regex).accepts child.1 seg then leaves rest child.2
      else []

end Node

namespace Holds

variable {Handler Ws Regex σ : Type} [StdRegex Regex] {node : Node Handler Ws Regex}
  {es : Entries Segment (Option (Target Handler Ws))}

/-- What the nodes hold is what was registered under the patterns that match. -/
theorem contents_leaves (h : Holds node es) (segments : List Bytes) :
    (node.leaves segments).map Node.contents =
      ((Segment.alphabet Regex).matched es segments).map fun e =>
        Target.contents e.2.reduceOption := by
  induction segments generalizing node es with
  | nil =>
    cases h with
    | mk hcontents => simp [Node.leaves, Alphabet.matched, hcontents]
  | cons seg rest ih =>
    obtain ⟨-, hlabels, -, hchildren⟩ := h
    rw [Node.leaves, Alphabet.matched, Alphabet.order, List.map_flatMap, List.map_flatMap,
      List.flatMap_assoc]
    refine List.flatMap_congr fun k _ => ?_
    rw [← hlabels k, List.map_flatMap, List.flatMap_map]
    refine List.flatMap_congr fun child hchild => ?_
    have hrep := hchildren k child hchild
    split
    · obtain ⟨hcontents, -⟩ := hrep
      simp [hcontents]
    · split
      · rw [ih hrep, List.map_map]
        rfl
      · rfl

/-- **A search shows the matching nodes to its predicate in the order of `leaves`**, one after the
other, until the predicate stops it. The induction is on the segments. -/
theorem scans_matchNodes (h : Holds node es)
    (handler : NodeData Handler Ws Regex → σ → Bool × σ) (segments : List Bytes) :
    Node.Scans handler (node.matchNodes handler segments) (node.leaves segments) := by
  induction segments generalizing node es with
  | nil => exact Node.scans_visit node
  | cons seg rest ih =>
    rw [h.matchNodes_cons, Node.leaves, ← List.flatMap_assoc]
    refine Node.scans_tryEach fun child hchild => ?_
    have hrep := ih (h.of_mem_children hchild)
    unfold Node.tryChild
    split
    · exact (Node.scans_visit child.2).capture _ _
    · split
      · cases child.1.name? with
        | some name => exact hrep.capture _ _
        | none => exact hrep
      · exact Node.scans_skip

end Holds

namespace Represents

variable {Handler Ws Regex σ : Type} [StdRegex Regex] {node : Node Handler Ws Regex}
  {es : Entries Segment (Target Handler Ws)}

/-! The same of a tree that holds routes. -/

theorem contents_leaves (h : Represents node es) (segments : List Bytes) :
    (node.leaves segments).map Node.contents =
      ((Segment.alphabet Regex).matched es segments).map fun e => Target.contents e.2 := by
  rw [(represents_iff_holds.1 h).contents_leaves, Alphabet.matched_map, List.map_map]
  refine List.map_congr_left fun e _ => congrArg Target.contents ?_
  rw [List.reduceOption, List.filterMap_map]
  exact List.filterMap_some

theorem scans_matchNodes (h : Represents node es)
    (handler : NodeData Handler Ws Regex → σ → Bool × σ) (segments : List Bytes) :
    Node.Scans handler (node.matchNodes handler segments) (node.leaves segments) :=
  (represents_iff_holds.1 h).scans_matchNodes handler segments

/-- The children stand in the order of the alphabet. -/
theorem labels_children (h : Represents node es) :
    (node.children.map Prod.fst) = (Segment.alphabet Regex).order (heads es) := by
  rw [(represents_iff_holds.1 h).labels_children, heads_map]

/-- There are children for the segments that routes begin with. -/
theorem mem_heads_iff (h : Represents node es) {l : Segment} :
    l ∈ heads es ↔ ∃ child ∈ node.children, child.1 = l := by
  rw [← Alphabet.mem_order (A := Segment.alphabet Regex), ← h.labels_children, List.mem_map]

/-- The children stand in the order of their segments. -/
theorem pairwise_children (h : Represents node es) :
    node.children.Pairwise fun c d => (Segment.alphabet Regex).before es c.1 d.1 = true := by
  have horder := Alphabet.pairwise_order (A := Segment.alphabet Regex) es
  rwa [← h.labels_children, List.pairwise_map] at horder

/-- A child represents the entries below its label. -/
theorem of_mem_children (h : Represents node es) {child : Segment × Node Handler Ws Regex}
    (hchild : child ∈ node.children) : Represents child.2 (derive child.1 es) := by
  have hholds := (represents_iff_holds.1 h).of_mem_children hchild
  rw [derive_map] at hholds
  exact represents_iff_holds.2 hholds

theorem matchNodes_cons (h : Represents node es)
    (handler : NodeData Handler Ws Regex → σ → Bool × σ) (seg : Bytes) (rest : List Bytes) :
    node.matchNodes handler (seg :: rest) =
      .tryEach (node.children.map (Node.tryChild handler seg rest)) :=
  (represents_iff_holds.1 h).matchNodes_cons handler seg rest

end Represents

end Httplib
