import Httplib.Lib.Patterns
import Httplib.Server.Router
import Mathlib.Data.List.ReduceOption

/-!
# The tree of the router, as a list of routes

A sequence of registrations is a flat list of routes (`routes`), each a pattern of segments with what
is registered under it. `Represents` says that a tree of nodes holds such a list: a node holds what
is registered under the empty pattern, and has one child for each first segment, in the order in which
they were registered within each kind, which holds the routes behind that segment. `Holds` says the
same of registrations some of which have thrown and left their first nodes behind. Both are kept by
registrations (`Holds.register`, `Represents.registerAll`).
-/

namespace Httplib

open Patterns

/-! ## The segments of a path -/

/-- No segment of a path has a slash in it. -/
theorem slash_not_mem_splitSegments {path seg : Bytes} (h : seg ∈ splitSegments path) :
    (47 : UInt8) ∉ seg := by
  rcases List.mem_append.1 h with h | h
  · exact not_mem_of_mem_split h
  · split at h
    · rw [List.mem_singleton.1 h]
      exact List.not_mem_nil
    · cases h

/-- **The segments of a path** are what stands between its slashes, trimmed. -/
theorem splitSegments_eq {path : Bytes} (hne : path ≠ []) (hslash : path ≠ [47]) :
    splitSegments path = ((stripLeading 47 path).splitOn 47).map trimCopy := by
  rw [splitSegments, show bytes "/" = [47] from rfl, split_singleton hne]
  cases hend : endsWith path [47] with
  | true =>
    obtain ⟨l, rfl⟩ := List.isSuffixOf_iff_suffix.1 hend
    have hl : l ≠ [] := fun hnil => hslash (by rw [hnil, List.nil_append])
    have hstrip : stripLeading 47 (l ++ [47]) = stripLeading 47 l ++ [47] := by
      rw [stripLeading, stripLeading, List.head?_append_of_ne_nil _ hl]
      split
      · rw [List.tail_append_of_ne_nil hl]
      · rfl
    have hpieces : (stripLeading 47 l ++ [47]).splitOn 47 = (stripLeading 47 l).splitOn 47 ++ [[]] :=
      List.splitOn_append_cons_self _ _
    -- the piece behind the last slash is dropped, and put back
    have hlen := List.length_pos_of_ne_nil (List.splitOn_ne_nil 47 (stripLeading 47 l))
    rw [hstrip, hpieces, dropLastEmpty, if_pos ⟨by simp; omega, by simp⟩, List.dropLast_concat,
      List.map_append]
    rfl
  | false =>
    have hkeep : dropLastEmpty ((stripLeading 47 path).splitOn 47) =
        (stripLeading 47 path).splitOn 47 := by
      refine if_neg fun hlast => ?_
      rcases getLast?_of_splitOn hlast.2 with hnil | hlast'
      · rw [hnil] at hlast
        exact absurd hlast.1 (by decide)
      · have hsuffix : [47] <:+ path := by
          obtain ⟨l, hl⟩ := List.getLast?_eq_some_iff.1 hlast'
          rw [stripLeading] at hl
          split at hl
          · exact List.IsSuffix.trans ⟨l, hl.symm⟩ (List.tail_suffix path)
          · exact ⟨l, hl.symm⟩
        rw [endsWith, List.isSuffixOf_iff_suffix.2 hsuffix] at hend
        cases hend
    rw [hkeep, if_neg Bool.false_ne_true, List.append_nil]

/-! ## Patterns -/

/-- A segment of a pattern. A `*` is a wildcard where it is the last one, and elsewhere a segment like
others. -/
inductive Segment where
  | static (seg : Bytes)
  | regex (seg : Bytes)
  | param (seg : Bytes)
  | wildcard
  deriving DecidableEq

/-- What is registered under a pattern. -/
inductive Target (Handler Ws : Type) where
  | http (method : Verb) (handler : Handler)
  | ws (entry : Ws)

/-- A call of `set_http_handler_impl` or `set_ws_handler_impl`. -/
structure Registration (Handler Ws : Type) where
  path : Bytes
  target : Target Handler Ws

namespace Segment

/-- How `insert` takes a segment, given those behind it. -/
def ofBytes (seg : Bytes) (rest : List Bytes) : Segment :=
  if rest = [] ∧ seg = bytes "*" then .wildcard
  else if startsWith seg (bytes ":") then .param seg
  else if seg.head? = some 123 ∧ seg.getLast? = some 125 then .regex seg
  else .static seg

/-- The pattern that a path is registered under. -/
def pattern : List Bytes → List Segment
  | [] => []
  | seg :: rest => ofBytes seg rest :: pattern rest

/-- The fresh node for a segment; there is none for a text that is no regular expression. -/
def fresh {Handler Ws Regex : Type} [StdRegex Regex] : Segment → Option (Node Handler Ws Regex)
  | .static seg => some { data := { key := seg, type := .staticNode } }
  | .regex seg => Node.regexNode seg
  | .param seg => some { data := { key := seg, type := .paramNode, paramName := seg.drop 1 } }
  | .wildcard => some { data := { key := bytes "*", type := .wildcardNode } }

/-- The parameter that a segment binds. -/
def name? : Segment → Option Bytes
  | .static _ => none
  | .regex seg => some (Node.regexParts seg).1
  | .param seg => some (seg.drop 1)
  | .wildcard => some (bytes "*")

/-- How segments of patterns match segments of paths, and the order in which they are tried. -/
def alphabet (Regex : Type) [StdRegex Regex] : Alphabet Segment Bytes where
  accepts
    | .static seg, s => seg = s
    | .regex seg, s =>
      (StdRegex.compile (Node.regexParts seg).2 : Option Regex).any (StdRegex.regexMatch · s)
    | .param _, _ | .wildcard, _ => true
  takesRest
    | .wildcard => true
    | _ => false
  ranks := 4
  rank
    | .static _ => 0
    | .regex _ => 1
    | .param _ => 2
    | .wildcard => 3
  rank_lt l := by cases l <;> simp

/-- There is a node for a segment: it is no text that is no regular expression. -/
def compiles (Regex : Type) [StdRegex Regex] : Segment → Bool
  | .regex seg => (StdRegex.compile (Node.regexParts seg).2 : Option Regex).isSome
  | _ => true

/-- What a call of `insert` leaves in the tree: the nodes in front of the first segment that there is
no node for, and what is registered if there is no such segment. -/
def trace {Handler Ws : Type} (Regex : Type) [StdRegex Regex] (p : List Segment)
    (target : Target Handler Ws) : List Segment × Option (Target Handler Ws) :=
  (p.takeWhile (compiles Regex), if p.all (compiles Regex) then some target else none)

end Segment

/-- The routes of a sequence of registrations. -/
def routes {Handler Ws : Type} (regs : List (Registration Handler Ws)) :
    Entries Segment (Target Handler Ws) :=
  regs.map fun reg => (Segment.pattern (splitSegments reg.path), reg.target)

namespace Target

variable {Handler Ws Regex : Type}

/-- What a registration does to the node it finds. -/
def update (data : NodeData Handler Ws Regex) : Target Handler Ws → NodeData Handler Ws Regex
  | .http method handler => { data with handlers := Router.setHandler data.handlers method handler }
  | .ws entry => { data with wsHandler := some entry }

/-- The handler for a method. -/
def select (method : Verb) : Target Handler Ws → Option Handler
  | .http m handler => if m = method then some handler else none
  | .ws _ => none

end Target

namespace Router

variable {Handler Ws Regex : Type} [StdRegex Regex]

/-- The router after a registration, and whether it succeeded. -/
def register (router : Router Handler Ws Regex) (reg : Registration Handler Ws) :
    Router Handler Ws Regex × Bool :=
  match reg.target with
  | .http method handler => router.setHttpHandler method reg.path handler
  | .ws entry => router.setWsHandler reg.path entry

/-- The router after a sequence of registrations, all of which succeed. -/
def registerAll (router : Router Handler Ws Regex) (regs : List (Registration Handler Ws)) :
    Option (Router Handler Ws Regex) :=
  regs.foldlM (fun router reg =>
    if (router.register reg).2 then some (router.register reg).1 else none) router

end Router

namespace Node

variable {Handler Ws Regex : Type} [StdRegex Regex]

/-! ## The children of a node -/

/-- The children of a node, by the rank of their segments. -/
def kids (node : Node Handler Ws Regex) : Nat → List (Segment × Node Handler Ws Regex)
  | 0 => node.staticChildren.map fun child => (.static child.data.key, child)
  | 1 => node.regexChildren.map fun child => (.regex child.data.key, child)
  | 2 => node.paramChildren.map fun child => (.param child.data.key, child)
  | 3 => node.wildcardChildren.toList.map fun child => (.wildcard, child)
  | _ => []

/-- What registrations do not change in a node: it is that of the fresh node for its segment. -/
def Labelled (segment : Segment) (node : Node Handler Ws Regex) : Prop :=
  ∃ fresh : Node Handler Ws Regex, segment.fresh = some fresh ∧ node.data =
    { fresh.data with handlers := node.data.handlers, wsHandler := node.data.wsHandler }

/-- What registrations put into a node. -/
def contents (data : NodeData Handler Ws Regex) : List (Verb × Handler) × Option Ws :=
  (data.handlers, data.wsHandler)

end Node

/-- What a sequence of registrations puts into one node. -/
def Target.contents {Handler Ws : Type} (targets : List (Target Handler Ws)) :
    List (Verb × Handler) × Option Ws :=
  targets.foldl (fun contents target =>
    match target with
    | .http method handler => (Router.setHandler contents.1 method handler, contents.2)
    | .ws entry => (contents.1, some entry)) ([], none)

/-- **The tree holds the routes.** -/
inductive Represents {Handler Ws Regex : Type} [StdRegex Regex] :
    Node Handler Ws Regex → Entries Segment (Target Handler Ws) → Prop
  | mk {node es} (contents : Node.contents node.data = Target.contents (valuesAt [] es))
    (labels : ∀ k, (node.kids k).map Prod.fst =
      (heads es).filter ((Segment.alphabet Regex).rank · = k))
    (labelled : ∀ k, ∀ child ∈ node.kids k, Node.Labelled child.1 child.2)
    (children : ∀ k, ∀ child ∈ node.kids k, Represents child.2 (derive child.1 es)) :
    Represents node es

/-- The tree holds what calls of `insert` leave in it, also those that throw. -/
inductive Holds {Handler Ws Regex : Type} [StdRegex Regex] :
    Node Handler Ws Regex → Entries Segment (Option (Target Handler Ws)) → Prop
  | mk {node es} (contents : Node.contents node.data =
      Target.contents (valuesAt [] es).reduceOption)
    (labels : ∀ k, (node.kids k).map Prod.fst =
      (heads es).filter ((Segment.alphabet Regex).rank · = k))
    (labelled : ∀ k, ∀ child ∈ node.kids k, Node.Labelled child.1 child.2)
    (children : ∀ k, ∀ child ∈ node.kids k, Holds child.2 (derive child.1 es)) :
    Holds node es

/-- Routes are what calls that do not throw leave in the tree. -/
theorem represents_iff_holds {Handler Ws Regex : Type} [StdRegex Regex]
    {node : Node Handler Ws Regex} {es : Entries Segment (Target Handler Ws)} :
    Represents node es ↔ Holds node (es.map fun e => (e.1, some e.2)) := by
  constructor
  · intro h
    induction h with
    | @mk node es hcontents hlabels hlabelled hchildren ih =>
      refine .mk ?_ (fun k => ?_) hlabelled fun k child hchild => ?_
      · rw [valuesAt_map, hcontents, List.reduceOption, List.filterMap_map]
        exact congrArg _ List.filterMap_some.symm
      · rw [heads_map, hlabels]
      · rw [derive_map]
        exact ih k child hchild
  · intro h
    generalize hes : (es.map fun e => (e.1, some e.2)) = es' at h
    induction h generalizing es with
    | @mk node es' hcontents hlabels hlabelled hchildren ih =>
      subst hes
      refine .mk ?_ (fun k => ?_) hlabelled fun k child hchild => ?_
      · rw [hcontents, valuesAt_map, List.reduceOption, List.filterMap_map]
        exact congrArg _ List.filterMap_some
      · rw [hlabels, heads_map]
      · exact ih k child hchild (derive_map _ _ _).symm

namespace Node

variable {Handler Ws Regex : Type} [StdRegex Regex] {node : Node Handler Ws Regex}
  {target : Target Handler Ws} {l : Segment} {seg : Bytes} {rest : List Bytes}

/-! ## What `insert` does at one segment -/

/-- `upsert` on children that carry their segments. -/
def upsertAt (l : Segment) (fresh : Option (Node Handler Ws Regex))
    (f : Node Handler Ws Regex → Node Handler Ws Regex × Bool) :
    List (Segment × Node Handler Ws Regex) → List (Segment × Node Handler Ws Regex) × Bool
  | [] =>
    match fresh with
    | none => ([], false)
    | some child => ([(l, (f child).1)], (f child).2)
  | (m, child) :: children =>
    if m = l then ((m, (f child).1) :: children, (f child).2)
    else ((m, child) :: (upsertAt l fresh f children).1, (upsertAt l fresh f children).2)

/-- Only the node at the end of the pattern is changed itself. -/
theorem data_insert_cons (update : NodeData Handler Ws Regex → NodeData Handler Ws Regex) :
    (insert update (seg :: rest) node).1.data = node.data := by
  rw [insert]
  split
  · rfl
  · split
    · rfl
    · split <;> rfl

theorem data_insert (target : Target Handler Ws) (segments : List Bytes)
    (node : Node Handler Ws Regex) :
    ∃ handlers ws, (insert (target.update ·) segments node).1.data =
      { node.data with handlers, wsHandler := ws } := by
  cases segments with
  | nil => cases target <;> exact ⟨_, _, rfl⟩
  | cons seg rest => exact ⟨_, _, data_insert_cons _⟩

@[simp] theorem key_insert (target : Target Handler Ws) (segments : List Bytes)
    (node : Node Handler Ws Regex) :
    (insert (target.update ·) segments node).1.data.key = node.data.key := by
  obtain ⟨handlers, ws, h⟩ := data_insert target segments node
  rw [h]

omit [StdRegex Regex] in
/-- A list of children of one kind, each with its segment. -/
theorem upsertAt_map (mk : Bytes → Segment) (hmk : Function.Injective mk) (key : Bytes)
    (fresh : Option (Node Handler Ws Regex)) (hfresh : ∀ child ∈ fresh, child.data.key = key)
    {f : Node Handler Ws Regex → Node Handler Ws Regex × Bool}
    (hf : ∀ child, (f child).1.data.key = child.data.key) (children : List (Node Handler Ws Regex)) :
    upsertAt (mk key) fresh f (children.map fun child => (mk child.data.key, child)) =
      ((upsert key fresh f children).1.map fun child => (mk child.data.key, child),
        (upsert key fresh f children).2) := by
  induction children with
  | nil =>
    cases fresh with
    | none => rfl
    | some child => simp [upsertAt, upsert, hf, hfresh child rfl]
  | cons child children ih =>
    simp only [List.map_cons, upsertAt, upsert, hmk.eq_iff, ih]
    split
    · next h => simp [hf, h]
    · rfl

/-- **What `insert` does at a segment**: it goes on in the child for it, made afresh if there is
none. -/
theorem insert_cons (target : Target Handler Ws) (seg : Bytes) (rest : List Bytes)
    (node : Node Handler Ws Regex) :
    let l := Segment.ofBytes seg rest
    let r := upsertAt l l.fresh (insert (target.update ·) rest)
      (node.kids ((Segment.alphabet Regex).rank l))
    (∀ k, (insert (target.update ·) (seg :: rest) node).1.kids k =
        if k = (Segment.alphabet Regex).rank l then r.1 else node.kids k) ∧
      (insert (target.update ·) (seg :: rest) node).2 = r.2 := by
  have hkey : ∀ child : Node Handler Ws Regex,
      (insert (target.update ·) rest child).1.data.key = child.data.key := key_insert target rest
  dsimp only
  unfold insert Segment.ofBytes
  split
  · next h =>
    obtain ⟨rfl, rfl⟩ := h
    constructor
    · intro k
      rcases k with _ | _ | _ | _ | k
      · rfl
      · rfl
      · rfl
      · cases hchild : node.wildcardChildren <;>
          simp [kids, hchild, upsertAt, Segment.fresh, Segment.alphabet]
      · rfl
    · cases hchild : node.wildcardChildren <;>
        simp [kids, hchild, upsertAt, Segment.fresh, Segment.alphabet]
  · split
    · have hmap := upsertAt_map .param (fun _ _ h => Segment.param.inj h) seg
        (Segment.fresh (.param seg)) (by simp [Segment.fresh]) hkey
        node.paramChildren
      constructor
      · intro k
        rcases k with _ | _ | _ | _ | k
        · rfl
        · rfl
        · exact (congrArg Prod.fst hmap).symm
        · rfl
        · rfl
      · exact (congrArg Prod.snd hmap).symm
    · split
      · have hfresh : ∀ child ∈ ((Segment.regex seg).fresh : Option (Node Handler Ws Regex)),
            child.data.key = seg := by
          intro child hchild
          simp only [Segment.fresh, regexNode, Option.mem_def, Option.map_eq_some_iff] at hchild
          obtain ⟨regex, -, rfl⟩ := hchild
          rfl
        have hmap := upsertAt_map .regex (fun _ _ h => Segment.regex.inj h) seg _ hfresh hkey
          node.regexChildren
        constructor
        · intro k
          rcases k with _ | _ | _ | _ | k
          · rfl
          · exact (congrArg Prod.fst hmap).symm
          · rfl
          · rfl
          · rfl
        · exact (congrArg Prod.snd hmap).symm
      · have hmap := upsertAt_map .static (fun _ _ h => Segment.static.inj h) seg
          (Segment.fresh (.static seg)) (by simp [Segment.fresh]) hkey
          node.staticChildren
        constructor
        · intro k
          rcases k with _ | _ | _ | _ | k
          · exact (congrArg Prod.fst hmap).symm
          · rfl
          · rfl
          · rfl
          · rfl
        · exact (congrArg Prod.snd hmap).symm

section
variable {c₀ : Node Handler Ws Regex} {f : Node Handler Ws Regex → Node Handler Ws Regex × Bool}
  {children : List (Segment × Node Handler Ws Regex)}

omit [StdRegex Regex]

/-- A fresh child that can not be made is no child. -/
theorem upsertAt_none (h : l ∉ children.map Prod.fst) :
    upsertAt l none f children = (children, false) := by
  induction children with
  | nil => rfl
  | cons child children ih =>
    obtain ⟨m, child⟩ := child
    rw [List.map_cons, List.mem_cons, not_or] at h
    rw [upsertAt, if_neg (Ne.symm h.1), ih h.2]

/-- A new segment comes last. -/
theorem labels_upsertAt :
    (upsertAt l (some c₀) f children).1.map Prod.fst =
      if l ∈ children.map Prod.fst then children.map Prod.fst
      else children.map Prod.fst ++ [l] := by
  induction children with
  | nil => rfl
  | cons child children ih =>
    obtain ⟨m, child⟩ := child
    rw [upsertAt]
    split
    · next hm => simp [hm]
    · next hm =>
      rw [List.map_cons, ih]
      by_cases hl : l ∈ children.map Prod.fst
      · simp [hl]
      · simp [hl, Ne.symm hm]

/-- One child is gone on in: the one for the segment, or a fresh one. The others are as they were. -/
theorem exists_upsertAt (c₀ : Node Handler Ws Regex)
    (f : Node Handler Ws Regex → Node Handler Ws Regex × Bool)
    (hnodup : (children.map Prod.fst).Nodup) :
    ∃ c, ((l, c) ∈ children ∨ c = c₀ ∧ l ∉ children.map Prod.fst) ∧
      (upsertAt l (some c₀) f children).2 = (f c).2 ∧
      ∀ child ∈ (upsertAt l (some c₀) f children).1,
        child.1 ≠ l ∧ child ∈ children ∨ child = (l, (f c).1) := by
  induction children with
  | nil => exact ⟨c₀, .inr ⟨rfl, List.not_mem_nil⟩, rfl, fun child h => .inr (List.mem_singleton.1 h)⟩
  | cons head children ih =>
    obtain ⟨m, c⟩ := head
    rw [List.map_cons, List.nodup_cons] at hnodup
    rw [upsertAt]
    split
    · next hm =>
      subst hm
      refine ⟨c, .inl List.mem_cons_self, rfl, fun child h => ?_⟩
      rcases List.mem_cons.1 h with rfl | hold
      · exact .inr rfl
      · refine .inl ⟨fun heq => hnodup.1 ?_, List.mem_cons_of_mem _ hold⟩
        exact heq ▸ List.mem_map.2 ⟨child, hold, rfl⟩
    · next hm =>
      obtain ⟨c', hc', hsnd, hothers⟩ := ih hnodup.2
      refine ⟨c', ?_, hsnd, fun child h => ?_⟩
      · rcases hc' with hc' | ⟨hc', hnew⟩
        · exact .inl (List.mem_cons_of_mem _ hc')
        · refine .inr ⟨hc', ?_⟩
          rw [List.map_cons, List.mem_cons]
          exact not_or.2 ⟨Ne.symm hm, hnew⟩
      · rcases List.mem_cons.1 h with rfl | h
        · exact .inl ⟨hm, List.mem_cons_self⟩
        · rcases hothers child h with ⟨hne, hold⟩ | heq
          · exact .inl ⟨hne, List.mem_cons_of_mem _ hold⟩
          · exact .inr heq

end

theorem Labelled.insert (h : Labelled l node) (target : Target Handler Ws)
    (segments : List Bytes) :
    Labelled l (insert (target.update ·) segments node).1 := by
  obtain ⟨fresh, hfresh, hdata⟩ := h
  obtain ⟨handlers, ws, hinsert⟩ := data_insert target segments node
  refine ⟨fresh, hfresh, ?_⟩
  rw [hinsert, hdata]

end Node

/-! ## Registration keeps the invariant -/

theorem Segment.compiles_iff {Handler Ws Regex : Type} [StdRegex Regex] {l : Segment} :
    l.compiles Regex = true ↔ ∃ node : Node Handler Ws Regex, l.fresh = some node := by
  cases l with
  | static | param | wildcard => exact iff_of_true rfl ⟨_, rfl⟩
  | regex seg =>
    rw [← Option.isSome_iff_exists, fresh, Node.regexNode, Option.isSome_map]
    rfl

section
variable {Handler Ws Regex : Type} [StdRegex Regex] {l : Segment}

/-- A call leaves nothing behind a segment that there is no node for. -/
theorem Segment.trace_of_not_compiles (h : l.compiles Regex = false) (p : List Segment)
    (target : Target Handler Ws) : trace Regex (l :: p) target = ([], none) := by
  rw [trace, List.takeWhile_cons, List.all_cons, h]
  rfl

/-- Behind other segments it leaves what it leaves in the child. -/
theorem Segment.trace_of_compiles (h : l.compiles Regex = true) (p : List Segment)
    (target : Target Handler Ws) :
    trace Regex (l :: p) target = (l :: (trace Regex p target).1, (trace Regex p target).2) := by
  rw [trace, List.takeWhile_cons, List.all_cons, h, Bool.true_and]
  rfl

end

namespace Holds

variable {Handler Ws Regex : Type} [StdRegex Regex] {node : Node Handler Ws Regex}
  {es : Entries Segment (Option (Target Handler Ws))} {l : Segment}

/-- A fresh node holds nothing. -/
theorem fresh (h : l.fresh = some node) :
    Node.Labelled l node ∧ Holds node ([] : Entries Segment (Option (Target Handler Ws))) := by
  have hdata : Node.contents node.data = ([], none) ∧ ∀ k, node.kids k = [] := by
    cases l with
    | static | param | wildcard =>
      cases h
      exact ⟨rfl, fun k => by rcases k with _ | _ | _ | _ | k <;> rfl⟩
    | regex seg =>
      obtain ⟨regex, -, rfl⟩ := Option.map_eq_some_iff.1 h
      exact ⟨rfl, fun k => by rcases k with _ | _ | _ | _ | k <;> rfl⟩
  refine ⟨⟨node, h, rfl⟩, .mk hdata.1 (fun k => ?_) (fun k child hchild => ?_) fun k child hchild => ?_⟩
  · rw [hdata.2 k]
    rfl
  · rw [hdata.2 k] at hchild
    cases hchild
  · rw [hdata.2 k] at hchild
    cases hchild

/-- What is entered under the empty pattern is put into the node itself. -/
theorem enter (h : Holds node es) {node' : Node Handler Ws Regex}
    (hkids : ∀ k, node'.kids k = node.kids k) {value : Option (Target Handler Ws)}
    (hcontents : Node.contents node'.data =
      Target.contents ((valuesAt [] es).reduceOption ++ value.toList)) :
    Holds node' (es ++ [([], value)]) := by
  obtain ⟨-, hlabels, hlabelled, hchildren⟩ := h
  refine .mk ?_ (fun k => ?_) (fun k child hchild => ?_) fun k child hchild => ?_
  · rw [hcontents, valuesAt_nil_concat, List.reduceOption_append]
    cases value <;> rfl
  · rw [hkids k, hlabels k, heads_concat_nil]
  · rw [hkids k] at hchild
    exact hlabelled k child hchild
  · rw [hkids k] at hchild
    rw [derive_concat_nil]
    exact hchildren k child hchild

/-- What is entered under a label is put into the child for it; the other children stay. -/
theorem enterChild (h : Holds node es) {node' child' : Node Handler Ws Regex} {p : List Segment}
    {value : Option (Target Handler Ws)} (hdata : node'.data = node.data)
    (hlabels : ∀ k, (node'.kids k).map Prod.fst =
      (heads (es ++ [(l :: p, value)])).filter ((Segment.alphabet Regex).rank · = k))
    (hchildren : ∀ k, ∀ child ∈ node'.kids k,
      child.1 ≠ l ∧ child ∈ node.kids k ∨ child = (l, child'))
    (hlabelled : Node.Labelled l child') (hchild : Holds child' (derive l es ++ [(p, value)])) :
    Holds node' (es ++ [(l :: p, value)]) := by
  obtain ⟨hcontents, -, hlabelledOld, hchildrenOld⟩ := h
  refine .mk ?_ hlabels (fun k child hmem => ?_) fun k child hmem => ?_
  · rw [hdata, hcontents, valuesAt_nil_concat_cons]
  · rcases hchildren k child hmem with ⟨-, hold⟩ | rfl
    · exact hlabelledOld k child hold
    · exact hlabelled
  · rw [derive_concat]
    rcases hchildren k child hmem with ⟨hne, hold⟩ | rfl
    · rw [if_neg (Ne.symm hne), List.append_nil]
      exact hchildrenOld k child hold
    · rw [if_pos rfl]
      exact hchild

/-- The child for a label is among those of its rank. -/
theorem rank_of_mem_kids (h : Holds node es) {k : Nat} {child : Segment × Node Handler Ws Regex}
    (hchild : child ∈ node.kids k) : (Segment.alphabet Regex).rank child.1 = k := by
  obtain ⟨-, hlabels, -, -⟩ := h
  have hlabel : child.1 ∈ (node.kids k).map Prod.fst := List.mem_map.2 ⟨_, hchild, rfl⟩
  rw [hlabels, List.mem_filter, decide_eq_true_eq] at hlabel
  exact hlabel.2

/-- There are children for the labels that patterns begin with. -/
theorem mem_labels_iff (h : Holds node es) :
    l ∈ (node.kids ((Segment.alphabet Regex).rank l)).map Prod.fst ↔ l ∈ heads es := by
  obtain ⟨-, hlabels, -, -⟩ := h
  rw [hlabels, List.mem_filter]
  simp

/-- There is no child for a segment that there is no node for. -/
theorem not_mem_labels (h : Holds node es) (hfresh : (l.fresh : Option (Node Handler Ws Regex)) = none)
    (k : Nat) : l ∉ (node.kids k).map Prod.fst := by
  obtain ⟨-, -, hlabelled, -⟩ := h
  intro hl
  obtain ⟨⟨m, child⟩, hchild, rfl⟩ := List.mem_map.1 hl
  obtain ⟨fresh, hsome, -⟩ := hlabelled _ _ hchild
  rw [hfresh] at hsome
  cases hsome

/-- The labels after an insertion behind one of them are those of the entries with the new one. -/
theorem labels_upsertAt (h : Holds node es) (c₀ : Node Handler Ws Regex)
    (f : Node Handler Ws Regex → Node Handler Ws Regex × Bool) (p : List Segment)
    (value : Option (Target Handler Ws)) (k : Nat) :
    (if k = (Segment.alphabet Regex).rank l then
        (Node.upsertAt l (some c₀) f (node.kids ((Segment.alphabet Regex).rank l))).1
      else node.kids k).map Prod.fst =
      (heads (es ++ [(l :: p, value)])).filter ((Segment.alphabet Regex).rank · = k) := by
  have hmem := h.mem_labels_iff (l := l)
  obtain ⟨-, hlabels, -, -⟩ := h
  rw [heads_concat]
  split
  · next hk =>
    subst hk
    rw [Node.labels_upsertAt]
    by_cases hl : l ∈ heads es
    · rw [if_pos (hmem.2 hl), if_pos hl, hlabels]
    · rw [if_neg fun h => hl (hmem.1 h), if_neg hl, hlabels, List.filter_append]
      simp
  · next hk =>
    rw [hlabels k]
    split
    · rfl
    · simp [Ne.symm hk]

/-- **`insert` keeps the invariant**: it throws exactly if there is no node for some segment, and adds
its trace at the end in either case. -/
theorem insert (h : Holds node es) (target : Target Handler Ws) (segments : List Bytes) :
    (node.insert (target.update ·) segments).2 =
        (Segment.pattern segments).all (Segment.compiles Regex) ∧
      Holds (node.insert (target.update ·) segments).1
        (es ++ [Segment.trace Regex (Segment.pattern segments) target]) := by
  induction segments generalizing node es with
  | nil =>
    refine ⟨rfl, (h.enter (fun k => ?_) ?_ : Holds _ (es ++ [([], some target)]))⟩
    · rcases k with _ | _ | _ | _ | k <;> rfl
    · obtain ⟨hcontents⟩ := h
      rw [Option.toList_some, Target.contents, List.foldl_append, ← Target.contents, ← hcontents]
      cases target <;> rfl
  | cons seg rest ih =>
    obtain ⟨hkids, hsnd⟩ := Node.insert_cons target seg rest node
    have hdata : (node.insert (target.update ·) (seg :: rest)).1.data = node.data :=
      Node.data_insert_cons _
    rw [Segment.pattern]
    generalize Segment.ofBytes seg rest = l at hkids hsnd ⊢
    obtain ⟨hcontents, hlabels, hlabelled, hchildren⟩ := id h
    cases hcompiles : l.compiles Regex with
    | false =>
      -- there is no node for the segment, so no child changes
      have hfresh : (l.fresh : Option (Node Handler Ws Regex)) = none := by
        cases hfresh : (l.fresh : Option (Node Handler Ws Regex)) with
        | none => rfl
        | some child =>
          rw [Segment.compiles_iff.2 ⟨child, hfresh⟩] at hcompiles
          cases hcompiles
      rw [hfresh, Node.upsertAt_none (h.not_mem_labels hfresh _)] at hkids hsnd
      rw [hsnd, Segment.trace_of_not_compiles hcompiles, List.all_cons, hcompiles, Bool.false_and]
      refine ⟨rfl, h.enter (fun k => ?_) ?_⟩
      · rw [hkids k]
        split
        · next hk => rw [hk]
        · rfl
      · rw [hdata, hcontents, Option.toList_none, List.append_nil]
    | true =>
      obtain ⟨c₀, hc₀⟩ : ∃ c₀ : Node Handler Ws Regex, l.fresh = some c₀ :=
        Segment.compiles_iff.1 hcompiles
      rw [hc₀] at hkids hsnd
      have hnodup : ((node.kids ((Segment.alphabet Regex).rank l)).map Prod.fst).Nodup := by
        rw [hlabels]
        exact (nodup_heads es).filter _
      obtain ⟨c, hc, hok, hothers⟩ :=
        Node.exists_upsertAt c₀ (Node.insert (target.update ·) rest) hnodup
      -- the child that the insertion went on in
      have hrep : Node.Labelled l c ∧ Holds c (derive l es) := by
        rcases hc with hc | ⟨rfl, hnew⟩
        · exact ⟨hlabelled _ _ hc, hchildren _ _ hc⟩
        · rw [h.mem_labels_iff] at hnew
          rw [derive_eq_nil hnew]
          exact fresh hc₀
      obtain ⟨hall, hholds⟩ := ih hrep.2
      rw [Segment.trace_of_compiles hcompiles]
      refine ⟨by rw [hsnd, hok, hall, List.all_cons, hcompiles, Bool.true_and], ?_⟩
      refine h.enterChild hdata (fun k => ?_) (fun k child hchild => ?_) (hrep.1.insert target rest)
        hholds
      · rw [hkids k]
        exact h.labels_upsertAt c₀ _ _ _ k
      · rw [hkids k] at hchild
        split at hchild
        · next hk =>
          subst hk
          exact hothers child hchild
        · next hk =>
          -- a child of another rank has another label
          refine .inl ⟨fun heq => hk ?_, hchild⟩
          rw [← heq]
          exact (h.rank_of_mem_kids hchild).symm

/-- One registration. -/
theorem register {router : Router Handler Ws Regex} (h : Holds router.root es)
    (reg : Registration Handler Ws) :
    (router.register reg).2 =
        (Segment.pattern (splitSegments reg.path)).all (Segment.compiles Regex) ∧
      Holds (router.register reg).1.root
        (es ++ [Segment.trace Regex (Segment.pattern (splitSegments reg.path)) reg.target]) := by
  obtain ⟨path, target⟩ := reg
  cases target with
  | http method handler => exact h.insert (.http method handler) (splitSegments path)
  | ws entry => exact h.insert (.ws entry) (splitSegments path)

end Holds

namespace Represents

variable {Handler Ws Regex : Type} [StdRegex Regex] {es : Entries Segment (Target Handler Ws)}

/-- One registration that succeeds. -/
theorem register {router : Router Handler Ws Regex} (h : Represents router.root es)
    {reg : Registration Handler Ws} (hok : (router.register reg).2 = true) :
    Represents (router.register reg).1.root
      (es ++ [(Segment.pattern (splitSegments reg.path), reg.target)]) := by
  obtain ⟨hall, hholds⟩ := (represents_iff_holds.1 h).register reg
  rw [hok] at hall
  have htrace : Segment.trace Regex (Segment.pattern (splitSegments reg.path)) reg.target =
      (Segment.pattern (splitSegments reg.path), some reg.target) := by
    rw [Segment.trace, ← hall, if_pos rfl, List.takeWhile_eq_self_iff.2 (List.all_eq_true.1 hall.symm)]
  rw [htrace] at hholds
  refine represents_iff_holds.2 ?_
  rwa [List.map_append]

theorem registerAll_from {router router' : Router Handler Ws Regex} (h : Represents router.root es)
    {regs : List (Registration Handler Ws)} (hregs : router.registerAll regs = some router') :
    Represents router'.root (es ++ routes regs) := by
  induction regs generalizing router es with
  | nil =>
    cases hregs
    rwa [routes, List.map_nil, List.append_nil]
  | cons reg regs ih =>
    rw [Router.registerAll, List.foldlM_cons] at hregs
    split at hregs
    · next hok =>
      have hrun := ih (h.register hok) hregs
      rwa [List.append_assoc] at hrun
    · cases hregs

/-- **The router after any sequence of registrations holds their routes.** -/
theorem registerAll {router : Router Handler Ws Regex} {regs : List (Registration Handler Ws)}
    (hregs : Router.registerAll {} regs = some router) : Represents router.root (routes regs) := by
  have hroot : Represents ({} : Router Handler Ws Regex).root [] :=
    represents_iff_holds.2 (Holds.fresh (l := .static []) rfl).2
  exact registerAll_from hroot hregs

end Represents

end Httplib
