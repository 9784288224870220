import Httplib.Server.RouterSearch
import Mathlib.Data.Set.List

/-!
# What the router answers

`proc_routing_picks`: the handler that `proc_routing` runs is the one that a flat matcher picks from
the list of registrations. `routing_refusals`: where it runs none, it answers 405 with the methods
registered on the patterns that match, or 404 if there are none, and `pre_routing` comes to the same
verdict.
-/

namespace Httplib

open Patterns

/-- The pattern of a registration matches a path. -/
def Registration.Matches {Handler Ws : Type} (Regex : Type) [StdRegex Regex]
    (reg : Registration Handler Ws) (path : Bytes) : Prop :=
  (Segment.alphabet Regex).accept (Segment.pattern (splitSegments reg.path)) (splitSegments path) = true

/-- The handler that the flat matcher picks from the list of registrations. -/
def flatPick {Handler Ws : Type} (Regex : Type) [StdRegex Regex]
    (regs : List (Registration Handler Ws)) (method : Verb) (path : Bytes) : Option Handler :=
  (Segment.alphabet Regex).pick (Target.select method) (routes regs) (splitSegments path)

/-- The handler for a method that a call of `insert` leaves. -/
def Target.kept {Handler Ws : Type} (method : Verb) (left : Option (Target Handler Ws)) :
    Option Handler :=
  left.bind (Target.select method)

/-- The handler that is run. -/
def Router.Routed.handler? {Handler Json StreamHandler : Type} :
    Router.Routed Handler Json StreamHandler → Option Handler
  | .run handler _ => some handler
  | .answered _ => none

/-- The first value is that of the first element that has one. -/
theorem findSome?_eq_bind {α β : Type} (f : α → Option β) (l : List α) :
    l.findSome? f = (l.find? fun a => (f a).isSome).bind f := by
  induction l with
  | nil => rfl
  | cons a l ih =>
    rw [List.findSome?_cons, List.find?_cons]
    cases h : f a with
    | none => exact ih
    | some b => exact h.symm

/-! ## The handlers of a node -/

namespace Router

variable {Handler Ws Regex : Type} {method m : Verb} {handlers : List (Verb × Handler)}

/-- Setting a handler replaces that of its method and leaves the others. -/
theorem findHandler_setHandler (handlers : List (Verb × Handler)) (m method : Verb)
    (handler : Handler) :
    findHandler (setHandler handlers m handler) method =
      if m = method then some handler else findHandler handlers method := by
  rw [findHandler, setHandler, List.find?_append, List.find?_filter]
  split
  · next h =>
    subst h
    have hnone : (handlers.find? fun entry => decide (decide (entry.1 ≠ m) = true ∧
        decide (entry.1 = m) = true)) = none := by
      rw [List.find?_eq_none]
      intro entry _
      simp
    rw [hnone]
    simp
  · next h =>
    have hsame : (fun entry : Verb × Handler => decide (decide (entry.1 ≠ m) = true ∧
        decide (entry.1 = method) = true)) = fun entry => decide (entry.1 = method) := by
      funext entry
      rw [Bool.eq_iff_iff]
      simp only [decide_eq_true_eq]
      exact ⟨And.right, fun heq => ⟨fun heq' => h (heq'.symm.trans heq), heq⟩⟩
    rw [hsame]
    simp [findHandler, h]

/-- A handler is found for a method exactly when one is stored. -/
theorem findHandler_isSome_iff :
    (findHandler handlers method).isSome = true ↔ ∃ handler, (method, handler) ∈ handlers := by
  rw [findHandler, Option.isSome_map, List.find?_isSome]
  constructor
  · rintro ⟨⟨m, handler⟩, hmem, hm⟩
    cases of_decide_eq_true hm
    exact ⟨handler, hmem⟩
  · rintro ⟨handler, hmem⟩
    exact ⟨_, hmem, decide_eq_true rfl⟩

/-- A node has the handler for a method that was registered last. -/
theorem findHandler_contents (targets : List (Target Handler Ws)) (method : Verb) :
    findHandler (Target.contents targets).1 method =
      (targets.filterMap (Target.select method)).getLast? := by
  induction targets using List.reverseRecOn with
  | nil => rfl
  | append_singleton targets target ih =>
    rw [Target.contents, List.foldl_append, ← Target.contents, List.filterMap_append,
      List.getLast?_append, ← ih]
    cases target with
    | ws entry => rfl
    | http m handler =>
      simp only [List.foldl_cons, List.foldl_nil, findHandler_setHandler, List.filterMap_cons,
        List.filterMap_nil, Target.select]
      split <;> rfl

/-- The methods of a node are those that were registered. -/
theorem mem_contents {targets : List (Target Handler Ws)} :
    (∃ handler, (method, handler) ∈ (Target.contents targets).1) ↔
      ∃ handler, Target.http method handler ∈ targets := by
  rw [← findHandler_isSome_iff, findHandler_contents, List.getLast?_isSome, ne_eq,
    List.filterMap_eq_nil_iff]
  constructor
  · intro h
    by_contra hnone
    refine h fun target hmem => ?_
    cases target with
    | ws entry => rfl
    | http m handler =>
      refine if_neg fun (heq : m = method) => hnone ⟨handler, ?_⟩
      rwa [← heq]
  · rintro ⟨handler, hmem⟩ h
    have := h _ hmem
    simp [Target.select] at this

/-! ## The names of the methods -/

/-- The verbs in the order of Beast. -/
def verbs : List Verb :=
  [.unknown, .delete, .get, .head, .post, .put, .connect, .options, .trace, .copy, .lock, .mkcol,
    .move, .propfind, .proppatch, .search, .unlock, .bind, .rebind, .unbind, .acl, .report,
    .mkactivity, .checkout, .merge, .msearch, .notify, .subscribe, .unsubscribe, .patch, .purge,
    .mkcalendar, .link, .unlink]

/-- A method is found by its name. -/
@[simp] theorem find?_verbs (verb : Verb) :
    verbs.find? (fun v => v.toString = verb.toString) = some verb := by
  cases verb <;> rfl

/-- Different methods have different names. -/
theorem toString_injective : Function.Injective Verb.toString := by
  intro v w h
  have hv := find?_verbs v
  rw [h, find?_verbs w] at hv
  exact Option.some.inj hv.symm

/-- Inserting adds the one name. -/
@[simp] theorem mem_setInsert {name x : Bytes} {names : List Bytes} :
    x ∈ setInsert name names ↔ x = name ∨ x ∈ names := by
  induction names with
  | nil => simp [setInsert]
  | cons other names ih =>
    rw [setInsert]
    split
    · next h => simp [h]
    · split
      · simp
      · simp [ih, or_left_comm]

/-- A set stays sorted, and so without duplicates. -/
theorem pairwise_setInsert {names : List Bytes} (h : names.Pairwise (· < ·)) (name : Bytes) :
    (setInsert name names).Pairwise (· < ·) := by
  induction names with
  | nil => exact List.pairwise_singleton _ _
  | cons other names ih =>
    obtain ⟨hother, hnames⟩ := List.pairwise_cons.1 h
    rw [setInsert]
    split
    · exact h
    · next hne =>
      split
      · next hlt =>
        refine List.pairwise_cons.2 ⟨fun x hx => ?_, h⟩
        rcases List.mem_cons.1 hx with rfl | hx
        · exact hlt
        · exact List.lt_trans hlt (hother x hx)
      · next hlt =>
        refine List.pairwise_cons.2 ⟨fun x hx => ?_, ih hnames⟩
        rcases mem_setInsert.1 hx with rfl | hx
        · exact Std.lt_of_le_of_ne (List.not_lt.1 hlt) (Ne.symm hne)
        · exact hother x hx

/-- The names that the predicate of `proc_routing` has collected when it has seen these nodes. -/
def allowed (nodes : List (NodeData Handler Ws Regex)) (allows : List Bytes) : List Bytes :=
  nodes.foldl (fun allows node =>
    node.handlers.foldl (fun allows entry => setInsert entry.1.toString allows) allows) allows

/-- The names collected node by node are those of all their handlers. -/
theorem allowed_eq (nodes : List (NodeData Handler Ws Regex)) (allows : List Bytes) :
    allowed nodes allows = (nodes.flatMap (·.handlers)).foldl
      (fun allows entry => setInsert entry.1.toString allows) allows := by
  rw [allowed, List.foldl_flatMap]

/-- They are the names there were, and those of the handlers. -/
theorem mem_foldl_setInsert {entries : List (Verb × Handler)} {allows : List Bytes} {x : Bytes} :
    x ∈ entries.foldl (fun allows entry => setInsert entry.1.toString allows) allows ↔
      x ∈ allows ∨ ∃ entry ∈ entries, x = entry.1.toString := by
  induction entries generalizing allows with
  | nil => simp
  | cons entry entries ih =>
    rw [List.foldl_cons, ih, mem_setInsert]
    simp only [List.mem_cons, exists_eq_or_imp]
    rw [or_assoc, or_left_comm]

/-- Inserting names one after another keeps them in order. -/
theorem pairwise_foldl_setInsert (entries : List (Verb × Handler)) {allows : List Bytes}
    (h : allows.Pairwise (· < ·)) :
    (entries.foldl (fun allows entry => setInsert entry.1.toString allows) allows).Pairwise
      (· < ·) := by
  induction entries generalizing allows with
  | nil => exact h
  | cons entry entries ih => exact ih (pairwise_setInsert h _)

/-- The names collected are in order, so none stands there twice. -/
theorem pairwise_allowed (nodes : List (NodeData Handler Ws Regex)) :
    (allowed nodes []).Pairwise (· < ·) := by
  rw [allowed_eq]
  exact pairwise_foldl_setInsert _ List.Pairwise.nil

/-- No name is collected twice. -/
theorem nodup_allowed (nodes : List (NodeData Handler Ws Regex)) : (allowed nodes []).Nodup := by
  refine (pairwise_allowed nodes).imp fun {x y} (hlt : x < y) (heq : x = y) => ?_
  rw [heq] at hlt
  exact List.lt_irrefl y hlt

/-- What the search of `proc_routing` comes to. -/
theorem scan_collect (method : Verb) (nodes : List (NodeData Handler Ws Regex))
    (allows : List Bytes) :
    (Node.scan (collect method) nodes allows).1 =
        nodes.find? (fun node => (findHandler node.handlers method).isSome) ∧
      (nodes.find? (fun node => (findHandler node.handlers method).isSome) = none →
        (Node.scan (collect method) nodes allows).2 = allowed nodes allows) := by
  induction nodes generalizing allows with
  | nil => exact ⟨rfl, fun _ => rfl⟩
  | cons node nodes ih =>
    rw [Node.scan, List.find?_cons]
    cases hfound : (findHandler node.handlers method).isSome with
    | true =>
      rw [if_pos (show (collect method node allows).1 = true from hfound)]
      exact ⟨rfl, fun hnone => absurd hnone (Option.some_ne_none node)⟩
    | false =>
      rw [if_neg (show ¬ (collect method node allows).1 = true by simp [collect, hfound])]
      exact ih _

/-! ## What `proc_routing` and `pre_routing` do -/

variable {Json StreamHandler : Type} [StdRegex Regex] {router : Router Handler Ws Regex}
  {es : Entries Segment (Option (Target Handler Ws))} {host : Host} {req : Request}
  {resp : Response Json StreamHandler}

/-- The nodes that a path leads to. -/
def nodesAt (router : Router Handler Ws Regex) (path : Bytes) : List (NodeData Handler Ws Regex) :=
  router.root.leaves (splitSegments path)

/-- The answer where no handler is run. -/
def refuse (host : Host) (resp : Response Json StreamHandler) (allows : List Bytes) :
    Response Json StreamHandler :=
  if allows ≠ [] then (resp.set .allow (join (bytes ",") allows)).setErrorContent host 405
  else resp.setErrorContent host 404

/-- The search of `proc_routing` and `pre_routing` stops at the first node that has a handler for the
method, and has collected all names if there is none. -/
theorem matchNodes_collect (h : Holds router.root es) (method : Verb) (path : Bytes) :
    (router.root.matchNodes (collect method) (splitSegments path) { params := [], seen := [] }).1 =
        (router.nodesAt path).find? (fun node => (findHandler node.handlers method).isSome) ∧
      ((router.nodesAt path).find? (fun node => (findHandler node.handlers method).isSome) = none →
        (router.root.matchNodes (collect method) (splitSegments path)
          { params := [], seen := [] }).2.seen = allowed (router.nodesAt path) []) := by
  have hscan := h.scans_matchNodes (collect method) (splitSegments path) { params := [], seen := [] }
  obtain ⟨hnode, hseen⟩ := Prod.ext_iff.1 hscan
  obtain ⟨hfst, hsnd⟩ := scan_collect method (router.nodesAt path) []
  exact ⟨hnode.trans hfst, fun hnone => hseen.trans (hsnd hnone)⟩

/-- `proc_routing` runs the handler of the first node that has one, or refuses. -/
theorem procRouting_eq (h : Holds router.root es) (host : Host) (req : Request)
    (resp : Response Json StreamHandler) :
    (∃ node handler params, (router.nodesAt req.path).find? (fun node =>
        (findHandler node.handlers req.method).isSome) = some node ∧
      findHandler node.handlers req.method = some handler ∧
      procRouting host router req resp = .run handler { req with pathParams := params }) ∨
    (router.nodesAt req.path).find? (fun node => (findHandler node.handlers req.method).isSome) =
        none ∧
      procRouting host router req resp =
        .answered (refuse host resp (allowed (router.nodesAt req.path) [])) := by
  obtain ⟨hnode, hseen⟩ := matchNodes_collect h req.method req.path
  unfold procRouting
  dsimp only
  rw [hnode]
  cases hfind : (router.nodesAt req.path).find? fun node =>
      (findHandler node.handlers req.method).isSome with
  | none =>
    refine .inr ⟨rfl, ?_⟩
    rw [hseen hfind]
    rfl
  | some node =>
    have hsome := List.find?_some hfind
    obtain ⟨handler, hhandler⟩ := Option.isSome_iff_exists.1 hsome
    refine .inl ⟨node, handler, (router.root.matchNodes (collect req.method)
      (splitSegments req.path) { params := [], seen := [] }).2.params, rfl, hhandler, ?_⟩
    dsimp only
    rw [hhandler]

/-- A handler that is run was found by the search, and its request has the parameters of the
search. -/
theorem matchNodes_of_run {req' : Request} {handler : Handler}
    (h : router.procRouting host req resp = .run handler req') :
    ∃ node st, router.root.matchNodes (collect req.method) (splitSegments req.path)
        { params := [], seen := [] } = (some node, st) ∧
      findHandler node.handlers req.method = some handler ∧
      req' = { req with pathParams := st.params } := by
  unfold procRouting at h
  dsimp only at h
  rcases hsearch : router.root.matchNodes (collect req.method) (splitSegments req.path)
    { params := [], seen := [] } with ⟨_ | node, st⟩
  · rw [hsearch] at h
    cases h
  · rw [hsearch] at h
    dsimp only at h
    cases hhandler : findHandler node.handlers req.method with
    | none =>
      rw [hhandler] at h
      cases h
    | some handler' =>
      rw [hhandler] at h
      cases h
      exact ⟨node, st, rfl, hhandler, rfl⟩

/-- `pre_routing` lets the methods pass that it leaves to `proc_routing`, and refuses as
`proc_routing` does, but for the connection, which it closes. -/
theorem preRouting_eq (h : Holds router.root es) (host : Host) {req : Request}
    (hmethod : req.method ∉ [Verb.get, .head, .trace, .connect, .options])
    (resp : Response Json StreamHandler) :
    preRouting host router req resp =
      match (router.nodesAt req.path).find? fun node =>
        (findHandler node.handlers req.method).isSome with
      | some _ => (true, resp)
      | none => (false, refuse host (resp.setKeepAlive false) (allowed (router.nodesAt req.path) [])) := by
  obtain ⟨hnode, hseen⟩ := matchNodes_collect h req.method req.path
  unfold preRouting
  split
  case h_6 =>
    dsimp only
    rw [hnode]
    cases hfind : (router.nodesAt req.path).find? fun node =>
        (findHandler node.handlers req.method).isSome with
    | none =>
      dsimp only
      rw [hseen hfind, refuse]
      split <;> rfl
    | some node =>
      have hsome := List.find?_some hfind
      dsimp only
      rw [if_pos hsome]
  all_goals next hm => simp [hm] at hmethod

/-- The flat choice is the first value of the nodes, for whatever is read from a node, if of the things
registered under one pattern the last one counts. -/
theorem pick_eq_findSome?_of_contents (h : Holds router.root es) (path : Bytes) {β : Type}
    {select : Target Handler Ws → Option β} (read : List (Verb × Handler) × Option Ws → Option β)
    (hread : ∀ targets, read (Target.contents targets) = (targets.filterMap select).getLast?) :
    (Segment.alphabet Regex).pick (·.bind select) es (splitSegments path) =
      (router.nodesAt path).findSome? fun node => read (Node.contents node) := by
  have hmap : ((router.nodesAt path).map Node.contents).findSome? read =
      (((Segment.alphabet Regex).matched es (splitSegments path)).map fun e =>
        Target.contents e.2.reduceOption).findSome? read := by
    rw [nodesAt, h.contents_leaves]
  rw [List.findSome?_map, List.findSome?_map] at hmap
  rw [Alphabet.pick_eq]
  refine Eq.trans ?_ hmap.symm
  refine congrArg (List.findSome? · _) (funext fun e => ?_)
  rw [Function.comp_apply, hread, List.reduceOption, List.filterMap_filterMap]
  rfl

/-- The handlers for a method on the path, in the order of the search, are those that the flat matcher
chooses from. -/
theorem pick_eq_findSome? (h : Holds router.root es) (path : Bytes) (method : Verb) :
    (Segment.alphabet Regex).pick (Target.kept method) es (splitSegments path) =
      (router.nodesAt path).findSome? fun node => findHandler node.handlers method :=
  pick_eq_findSome?_of_contents h path (fun contents => findHandler contents.1 method)
    (findHandler_contents · method)

/-- A node on the path has a handler for a method exactly when one is registered under a pattern that
matches. -/
theorem exists_nodesAt_iff (h : Holds router.root es) (path : Bytes) (method : Verb) :
    (∃ node ∈ router.nodesAt path, ∃ handler, (method, handler) ∈ node.handlers) ↔
      ∃ p handler, (p, some (.http method handler)) ∈ es ∧
        (Segment.alphabet Regex).accept p (splitSegments path) = true := by
  have hcontents := h.contents_leaves (splitSegments path)
  constructor
  · rintro ⟨node, hnode, handler, hmem⟩
    have hin : Node.contents node ∈ ((Segment.alphabet Regex).matched es
        (splitSegments path)).map fun e => Target.contents e.2.reduceOption := by
      rw [← hcontents]
      exact List.mem_map.2 ⟨node, hnode, rfl⟩
    obtain ⟨e, he, heq⟩ := List.mem_map.1 hin
    obtain ⟨hacc, hvalues⟩ := Alphabet.accept_of_mem_matched he
    have hmem' : (method, handler) ∈ (Target.contents e.2.reduceOption).1 := by
      rw [heq]
      exact hmem
    obtain ⟨handler', htarget⟩ := mem_contents.1 ⟨handler, hmem'⟩
    rw [List.reduceOption_mem_iff, hvalues, valuesAt, List.mem_map] at htarget
    obtain ⟨⟨p, _⟩, hroute, rfl⟩ := htarget
    rw [List.mem_filter, decide_eq_true_eq] at hroute
    obtain ⟨hroute, rfl⟩ := hroute
    exact ⟨e.1, handler', hroute, hacc⟩
  · rintro ⟨p, handler, hmem, hacc⟩
    have hlisted := Alphabet.mem_matched hmem hacc
    obtain ⟨node, hnode, heq⟩ : ∃ node ∈ router.nodesAt path, Node.contents node =
        Target.contents (valuesAt p es).reduceOption := by
      rw [← List.mem_map, nodesAt, hcontents]
      exact List.mem_map.2 ⟨_, hlisted, rfl⟩
    have htarget : Target.http method handler ∈ (valuesAt p es).reduceOption :=
      List.reduceOption_mem_iff.2
        (List.mem_map.2 ⟨_, List.mem_filter.2 ⟨hmem, decide_eq_true rfl⟩, rfl⟩)
    obtain ⟨handler', hin⟩ := mem_contents.2 ⟨handler, htarget⟩
    rw [← heq] at hin
    exact ⟨node, hnode, handler', hin⟩

/-- The names collected are those of the methods registered under patterns that match. -/
theorem mem_allowed (h : Holds router.root es) (path x : Bytes) :
    x ∈ allowed (router.nodesAt path) [] ↔
      ∃ method p handler, (p, some (.http method handler)) ∈ es ∧
        (Segment.alphabet Regex).accept p (splitSegments path) = true ∧ x = method.toString := by
  rw [allowed_eq, mem_foldl_setInsert]
  constructor
  · rintro (hnil | ⟨⟨method, handler⟩, hmem, rfl⟩)
    · cases hnil
    · obtain ⟨node, hnode, hmem⟩ := List.mem_flatMap.1 hmem
      obtain ⟨p, handler', hentry, hacc⟩ :=
        (exists_nodesAt_iff h path method).1 ⟨node, hnode, handler, hmem⟩
      exact ⟨method, p, handler', hentry, hacc, rfl⟩
  · rintro ⟨method, p, handler, hentry, hacc, rfl⟩
    obtain ⟨node, hnode, handler', hmem⟩ :=
      (exists_nodesAt_iff h path method).2 ⟨p, handler, hentry, hacc⟩
    exact .inr ⟨_, List.mem_flatMap.2 ⟨node, hnode, hmem⟩, rfl⟩

/-- What is registered for a method under patterns that match, as entries and as registrations. -/
theorem exists_route_iff {regs : List (Registration Handler Ws)} (path : Bytes) (method : Verb) :
    (∃ p handler, (p, some (.http method handler)) ∈
        (routes regs).map (fun e => (e.1, some e.2)) ∧
        (Segment.alphabet Regex).accept p (splitSegments path) = true) ↔
      ∃ reg ∈ regs, ∃ handler, reg.target = .http method handler ∧ reg.Matches Regex path := by
  constructor
  · rintro ⟨p, handler, hmem, hacc⟩
    rw [routes, List.map_map, List.mem_map] at hmem
    obtain ⟨reg, hreg, heq⟩ := hmem
    obtain ⟨rfl, htarget⟩ := Prod.mk.inj heq
    exact ⟨reg, hreg, handler, Option.some.inj htarget, hacc⟩
  · rintro ⟨reg, hreg, handler, htarget, hmatches⟩
    refine ⟨_, handler, List.mem_map.2 ⟨_, List.mem_map.2 ⟨reg, hreg, rfl⟩, ?_⟩, hmatches⟩
    rw [htarget]

/-- The status and the Allow field of a refusal. -/
theorem result_refuse (allows : List Bytes) :
    (refuse host resp allows).header.result = if allows = [] then 404 else 405 := by
  rw [refuse, ite_not]
  split <;> rfl

/-- The `Allow` header of a refusal lists the names joined by commas, if there are any. -/
theorem allow_refuse (allows : List Bytes) :
    (refuse host resp allows).header.fields.find? .allow =
      if allows = [] then resp.header.fields.find? .allow else some (join (bytes ",") allows) := by
  rw [refuse, ite_not]
  split
  · exact Fields.find?_set_of_ne _ _ nofun
  · have hne : Field.contentType ≠ .allow := nofun
    exact (Fields.find?_set_of_ne _ _ hne).trans (Fields.find?_set_self _ _ _)

/-- No node on the path is stopped at exactly when nothing is registered for the method. -/
theorem find?_nodesAt_eq_none_iff {regs : List (Registration Handler Ws)}
    (h : Represents router.root (routes regs)) (path : Bytes) (method : Verb) :
    (router.nodesAt path).find? (fun node => (findHandler node.handlers method).isSome) = none ↔
      ¬ ∃ reg ∈ regs, ∃ handler, reg.target = .http method handler ∧ reg.Matches Regex path := by
  rw [← exists_route_iff, ← exists_nodesAt_iff (represents_iff_holds.1 h) path method,
    List.find?_eq_none]
  simp only [findHandler_isSome_iff, not_exists, not_and]

/-- The names collected are those of the methods registered under patterns that match. -/
theorem mem_allowed_regs {regs : List (Registration Handler Ws)}
    (h : Represents router.root (routes regs)) (path x : Bytes) :
    x ∈ allowed (router.nodesAt path) [] ↔
      ∃ reg ∈ regs, ∃ method handler, reg.target = .http method handler ∧ reg.Matches Regex path ∧
        x = method.toString := by
  rw [mem_allowed (represents_iff_holds.1 h)]
  constructor
  · rintro ⟨method, p, handler, hentry, hacc, rfl⟩
    obtain ⟨reg, hreg, handler', htarget, hmatches⟩ :=
      (exists_route_iff path method).1 ⟨p, handler, hentry, hacc⟩
    exact ⟨reg, hreg, method, handler', htarget, hmatches, rfl⟩
  · rintro ⟨reg, hreg, method, handler, htarget, hmatches, rfl⟩
    obtain ⟨p, handler', hentry, hacc⟩ :=
      (@exists_route_iff Handler Ws Regex _ regs path method).2
        ⟨reg, hreg, handler, htarget, hmatches⟩
    exact ⟨method, p, handler', hentry, hacc, rfl⟩

/-- No name is collected exactly if nothing is registered under patterns that match. -/
theorem allowed_eq_nil_iff {regs : List (Registration Handler Ws)}
    (h : Represents router.root (routes regs)) (path : Bytes) :
    allowed (router.nodesAt path) [] = [] ↔ ¬ ∃ reg ∈ regs, ∃ method handler,
      reg.target = .http method handler ∧ reg.Matches Regex path := by
  rw [List.eq_nil_iff_forall_not_mem]
  constructor
  · rintro hnil ⟨reg, hreg, method, handler, htarget, hmatches⟩
    exact hnil _ ((mem_allowed_regs h _ _).2 ⟨reg, hreg, method, handler, htarget, hmatches, rfl⟩)
  · intro hno x hx
    obtain ⟨reg, hreg, method, handler, htarget, hmatches, -⟩ := (mem_allowed_regs h _ _).1 hx
    exact hno ⟨reg, hreg, method, handler, htarget, hmatches⟩

/-- The names collected are those of a list of methods without duplicates: each is the name of one. -/
theorem exists_methods_allowed {regs : List (Registration Handler Ws)}
    (h : Represents router.root (routes regs)) (path : Bytes) :
    ∃ methods : List Verb, methods.Nodup ∧
      (∀ method, method ∈ methods ↔ ∃ reg ∈ regs, ∃ handler,
        reg.target = .http method handler ∧ reg.Matches Regex path) ∧
      methods.map Verb.toString = allowed (router.nodesAt path) [] := by
  obtain ⟨methods, hmethods⟩ : allowed (router.nodesAt path) [] ∈
      Set.range (List.map Verb.toString) := by
    rw [Set.range_list_map]
    intro x hx
    obtain ⟨reg, hreg, method, handler, -, -, rfl⟩ := (mem_allowed_regs h _ _).1 hx
    exact ⟨method, rfl⟩
  have hnodup := nodup_allowed (router.nodesAt path)
  rw [← hmethods] at hnodup
  refine ⟨methods, hnodup.of_map, fun method => ?_, hmethods⟩
  rw [← List.mem_map_of_injective toString_injective, hmethods, mem_allowed_regs h]
  constructor
  · rintro ⟨reg, hreg, method', handler, htarget, hmatches, hname⟩
    cases toString_injective hname
    exact ⟨reg, hreg, handler, htarget, hmatches⟩
  · rintro ⟨reg, hreg, handler, htarget, hmatches⟩
    exact ⟨reg, hreg, method, handler, htarget, hmatches, rfl⟩

end Router

open Router in
/-- **The router refines the flat matcher.** After any sequence of registrations that all succeed,
`proc_routing` runs a handler exactly when one is registered for the method under a pattern that
matches, and it runs the one that the flat matcher picks. -/
theorem proc_routing_picks {Handler Ws Regex Json StreamHandler : Type} [StdRegex Regex] (host : Host)
    {regs : List (Registration Handler Ws)} {router : Router Handler Ws Regex}
    (hregs : registerAll {} regs = some router) (req : Request)
    (resp : Response Json StreamHandler) :
    (procRouting host router req resp).handler? = flatPick Regex regs req.method req.path ∧
      ((procRouting host router req resp).handler?.isSome = true ↔
        ∃ reg ∈ regs, ∃ handler, reg.target = .http req.method handler ∧
          reg.Matches Regex req.path) := by
  have h := Represents.registerAll hregs
  have hholds := represents_iff_holds.1 h
  have hpick : flatPick Regex regs req.method req.path =
      (router.nodesAt req.path).findSome? fun node => findHandler node.handlers req.method := by
    rw [← pick_eq_findSome? hholds, Alphabet.pick_map]
    rfl
  have hnone := find?_nodesAt_eq_none_iff h req.path req.method
  rcases procRouting_eq hholds host req resp with ⟨node, handler, params, hfind, hhandler, hrun⟩ |
    ⟨hfind, hrun⟩
  · rw [hrun, hpick, findSome?_eq_bind, hfind, Option.bind_some, hhandler]
    refine ⟨rfl, iff_of_true rfl ?_⟩
    by_contra hno
    rw [hnone.2 hno] at hfind
    cases hfind
  · rw [hrun, hpick, findSome?_eq_bind, hfind]
    exact ⟨rfl, iff_of_false Bool.false_ne_true (hnone.1 hfind)⟩

/-- Texts as the regular expressions that match only themselves. -/
@[reducible] def literalRegex : StdRegex Bytes where
  compile text := some text
  regexMatch regex text := regex == text

/-- A route with a parameter, one with a regular expression behind it, and a WebSocket route. -/
def sampleRoutes : List (Registration Nat Unit) :=
  [⟨bytes "/a/:x", .http .get 1⟩, ⟨bytes "/a/\x7by:b\x7d", .http .get 2⟩, ⟨bytes "/a/c", .ws ()⟩,
    ⟨bytes "/a/*", .http .post 3⟩]

open scoped Platform.Plain in
/-- The regular expression goes before the parameter. -/
theorem proc_routing_picks_regex :
    letI := literalRegex
    ∃ router : Router Nat Unit Bytes, Router.registerAll {} sampleRoutes = some router ∧
      (router.procRouting plainHost (.ofHeader .get (bytes "/a/b") 11 [])
        (.new plainHost 11 true : Response Unit Unit)).handler? = some 2 := by
  let _ := literalRegex
  refine ⟨_, rfl, ?_⟩
  have hregs : Router.registerAll {} sampleRoutes =
      some (_ : Router Nat Unit Bytes) := rfl
  exact (proc_routing_picks plainHost hregs (.ofHeader .get (bytes "/a/b") 11 [])
    (.new plainHost 11 true : Response Unit Unit)).1

open Router in
/-- **What is answered where no handler is run.** If nothing is registered for the method under a
pattern that matches, `proc_routing` answers 405 exactly when something is registered for another
method, with the names of these methods, each once, in the Allow field, and 404 otherwise. Where
`pre_routing` searches the tree too, it comes to the same verdict, status and Allow field. -/
theorem routing_refusals {Handler Ws Regex Json StreamHandler : Type} [StdRegex Regex] (host : Host)
    {regs : List (Registration Handler Ws)} {router : Router Handler Ws Regex}
    (hregs : registerAll {} regs = some router) (req : Request)
    (resp : Response Json StreamHandler) :
    ((¬ ∃ reg ∈ regs, ∃ handler, reg.target = .http req.method handler ∧
        reg.Matches Regex req.path) →
      ∃ answer, procRouting host router req resp = .answered answer ∧
        (answer.header.result = 405 ↔ ∃ reg ∈ regs, ∃ method handler,
          reg.target = .http method handler ∧ reg.Matches Regex req.path) ∧
        (answer.header.result = 404 ↔ ¬ ∃ reg ∈ regs, ∃ method handler,
          reg.target = .http method handler ∧ reg.Matches Regex req.path) ∧
        (answer.header.result = 405 → ∃ methods : List Verb, methods.Nodup ∧
          (∀ method, method ∈ methods ↔ ∃ reg ∈ regs, ∃ handler,
            reg.target = .http method handler ∧ reg.Matches Regex req.path) ∧
          answer.header.fields.find? .allow =
            some (join (bytes ",") (methods.map Verb.toString)))) ∧
    (req.method ∉ [Verb.get, .head, .trace, .connect, .options] →
      ((preRouting host router req resp).1 = true ↔
        ∃ handler req', procRouting host router req resp = .run handler req') ∧
      ∀ answer, procRouting host router req resp = .answered answer →
        (preRouting host router req resp).2.header.result = answer.header.result ∧
          (preRouting host router req resp).2.header.fields.find? .allow =
            answer.header.fields.find? .allow) := by
  have h := Represents.registerAll hregs
  have hholds := represents_iff_holds.1 h
  have hnone := find?_nodesAt_eq_none_iff h req.path req.method
  constructor
  · intro hno
    rcases procRouting_eq hholds host req resp with ⟨node, handler, params, hfind, -⟩ | ⟨hfind, hrun⟩
    · rw [hnone.2 hno] at hfind
      cases hfind
    · have hempty := allowed_eq_nil_iff h req.path
      refine ⟨_, hrun, ?_, ?_, fun h405 => ?_⟩
      · rw [result_refuse, ← not_iff_not, ← hempty]
        split <;> simp_all
      · rw [result_refuse, ← hempty]
        split <;> simp_all
      · obtain ⟨methods, hnodup, hmem, hmethods⟩ := exists_methods_allowed h req.path
        refine ⟨methods, hnodup, hmem, ?_⟩
        rw [result_refuse] at h405
        rw [allow_refuse, if_neg, hmethods]
        intro hnil
        rw [if_pos hnil] at h405
        cases h405
  · intro hmethod
    rw [preRouting_eq hholds host hmethod]
    rcases procRouting_eq hholds host req resp with ⟨node, handler, params, hfind, hhandler, hrun⟩ |
      ⟨hfind, hrun⟩
    · rw [hrun, hfind]
      exact ⟨iff_of_true rfl ⟨handler, _, rfl⟩, nofun⟩
    · rw [hrun, hfind]
      refine ⟨iff_of_false Bool.false_ne_true ?_, fun answer hanswer => ?_⟩
      · rintro ⟨handler, req', hcontra⟩
        cases hcontra
      · cases hanswer
        rw [result_refuse, result_refuse, allow_refuse, allow_refuse]
        exact ⟨rfl, rfl⟩

open scoped Platform.Plain in
/-- A method that is registered on none of the patterns that match. -/
theorem routing_refusals_put :
    letI := literalRegex
    ∃ router : Router Nat Unit Bytes, Router.registerAll {} sampleRoutes = some router ∧
      ∃ answer, router.procRouting plainHost (.ofHeader .put (bytes "/a/b") 11 [])
          (.new plainHost 11 true : Response Unit Unit) = .answered answer ∧
        answer.header.result = 405 ∧
        (router.preRouting plainHost (.ofHeader .put (bytes "/a/b") 11 [])
          (.new plainHost 11 true : Response Unit Unit)).2.header.result = 405 := by
  let _ := literalRegex
  obtain ⟨router, hrouter⟩ : ∃ router : Router Nat Unit Bytes,
      Router.registerAll {} sampleRoutes = some router := ⟨_, rfl⟩
  refine ⟨router, hrouter, ?_⟩
  obtain ⟨hproc, hpre⟩ := routing_refusals plainHost hrouter
    (.ofHeader .put (bytes "/a/b") 11 []) (.new plainHost 11 true : Response Unit Unit)
  obtain ⟨answer, hanswer, h405, -, -⟩ := hproc (by simp [sampleRoutes])
  have hresult : answer.header.result = 405 :=
    h405.2 ⟨⟨bytes "/a/:x", .http .get 1⟩, List.mem_cons_self, .get, 1, rfl, rfl⟩
  exact ⟨answer, hanswer, hresult, ((hpre (by decide)).2 answer hanswer).1.trans hresult⟩

end Httplib
