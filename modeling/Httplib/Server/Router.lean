import Httplib.Server.Response

/-!
# The router

`router_impl` (`lib/server/router_impl.cpp`): a tree of nodes built by `insert` and searched by
`match_nodes`. A registration that throws leaves the nodes it has already made, so `insert` returns
the tree in either case, and whether it succeeded. Handlers are values that the router stores and
hands out; what a handler does is not part of the router.
-/

namespace Httplib

/-- `std::regex`: its constructor, which throws at a text that is no regular expression, and
`std::regex_match`. -/
class StdRegex (Regex : Type) where
  compile : Bytes → Option Regex
  regexMatch : Regex → Bytes → Bool

/-- `router_impl::Node::node_type` (`router_impl.h:46`). -/
inductive NodeType where
  | staticNode
  | paramNode
  | regexNode
  | wildcardNode
  deriving DecidableEq

/-- What a `router_impl::Node` (`router_impl.h:44`) holds but for its children. -/
structure NodeData (Handler Ws Regex : Type) where
  key : Bytes := []
  paramName : Bytes := []
  regex : Option Regex := none
  type : NodeType := .staticNode
  handlers : List (Verb × Handler) := []
  wsHandler : Option Ws := none

/-- `router_impl::Node` (`router_impl.h:44`). The static children are a map from the key that each
of them holds. -/
structure Node (Handler Ws Regex : Type) where
  data : NodeData Handler Ws Regex := {}
  staticChildren : List (Node Handler Ws Regex) := []
  paramChildren : List (Node Handler Ws Regex) := []
  regexChildren : List (Node Handler Ws Regex) := []
  wildcardChildren : Option (Node Handler Ws Regex) := none

/-- `router_impl` (`router_impl.h:14`). -/
structure Router (Handler Ws Regex : Type) where
  root : Node Handler Ws Regex := {}
  postHandler : Option Handler := none
  notFoundHandler : Option Handler := none

/-- `detail::split_segments` (`router_impl.cpp:10`). -/
def splitSegments (path : Bytes) : List Bytes :=
  split path (bytes "/") ++ if endsWith path (bytes "/") then [[]] else []

namespace Node

variable {Handler Ws Regex : Type}

/-! ## Registration -/

/-- `insert` goes on in the child with this key, or in a fresh one that it appends; none is a fresh
child that can not be made. -/
def upsert (key : Bytes) (fresh : Option (Node Handler Ws Regex))
    (f : Node Handler Ws Regex → Node Handler Ws Regex × Bool) :
    List (Node Handler Ws Regex) → List (Node Handler Ws Regex) × Bool
  | [] =>
    match fresh with
    | none => ([], false)
    | some child => ([(f child).1], (f child).2)
  | child :: children =>
    if child.data.key = key then ((f child).1 :: children, (f child).2)
    else (child :: (upsert key fresh f children).1, (upsert key fresh f children).2)

/-- The text of the regular expression in a segment, and the name of its parameter
(`router_impl.cpp:80`): both are the whole inside where it has no colon. -/
def regexParts (seg : Bytes) : Bytes × Bytes :=
  let inside := substr seg 1 (seg.length - 2)
  match find inside (bytes ":") with
  | some pos => (inside.take pos, inside.drop (pos + 1))
  | none => (inside, inside)

/-- A fresh regex node (`router_impl.cpp:84`). -/
def regexNode [StdRegex Regex] (seg : Bytes) : Option (Node Handler Ws Regex) :=
  (StdRegex.compile (regexParts seg).2).map fun regex =>
    { data :=
        { key := seg, type := .regexNode, paramName := (regexParts seg).1, regex := some regex } }

/-- `router_impl::insert` (`router_impl.cpp:37`), with what its caller does to the node it finds;
false if it throws. -/
def insert [StdRegex Regex] (update : NodeData Handler Ws Regex → NodeData Handler Ws Regex) :
    List Bytes → Node Handler Ws Regex → Node Handler Ws Regex × Bool
  | [], node => ({ node with data := update node.data }, true)
  | seg :: rest, node =>
    if rest = [] ∧ seg = bytes "*" then
      let child := node.wildcardChildren.getD { data := { key := seg, type := .wildcardNode } }
      let r := insert update rest child
      ({ node with wildcardChildren := some r.1 }, r.2)
    else if startsWith seg (bytes ":") then
      let fresh := { data := { key := seg, type := .paramNode, paramName := seg.drop 1 } }
      let r := upsert seg (some fresh) (insert update rest) node.paramChildren
      ({ node with paramChildren := r.1 }, r.2)
    else if seg.head? = some 123 ∧ seg.getLast? = some 125 then
      let r := upsert seg (regexNode seg) (insert update rest) node.regexChildren
      ({ node with regexChildren := r.1 }, r.2)
    else
      let fresh := { data := { key := seg, type := .staticNode } }
      let r := upsert seg (some fresh) (insert update rest) node.staticChildren
      ({ node with staticChildren := r.1 }, r.2)

/-! ## The search -/

/-- What `match_nodes` works on besides the tree: the parameters, and what its predicate collects. -/
structure Search (σ : Type) where
  params : Params
  seen : σ

/-- A part of the search: the node it found, if any, and what it has left behind. -/
abbrev Attempt (Handler Ws Regex σ : Type) :=
  Search σ → Option (NodeData Handler Ws Regex) × Search σ

namespace Attempt

variable {σ : Type}

/-- The part that finds nothing. -/
def skip : Attempt Handler Ws Regex σ := fun st => (none, st)

/-- One part, and another one if it finds nothing. -/
def orElse (a b : Attempt Handler Ws Regex σ) : Attempt Handler Ws Regex σ := fun st =>
  match a st with
  | (some node, st) => (some node, st)
  | (none, st) => b st

/-- A loop over children. -/
def firstOf (f : Node Handler Ws Regex → Attempt Handler Ws Regex σ) :
    List (Node Handler Ws Regex) → Attempt Handler Ws Regex σ
  | [] => skip
  | child :: children => (f child).orElse (firstOf f children)

/-- A part under a parameter, which is erased if it finds nothing. -/
def capture (name value : Bytes) (a : Attempt Handler Ws Regex σ) :
    Attempt Handler Ws Regex σ := fun st =>
  match a { st with params := st.params.set name value } with
  | (some node, st) => (some node, st)
  | (none, st) => (none, { st with params := st.params.erase name })

end Attempt

/-- What a wildcard captures (`router_impl.cpp:262`). -/
def joinRest (segments : List Bytes) : Bytes :=
  segments.foldl (fun rest seg => (if rest = [] then rest else rest ++ bytes "/") ++ seg) []

/-- The search at its last segment (`router_impl.cpp:224`). -/
def visit {σ : Type} (handler : NodeData Handler Ws Regex → σ → Bool × σ)
    (node : Node Handler Ws Regex) : Attempt Handler Ws Regex σ := fun st =>
  let (found, seen) := handler node.data st.seen
  (if found then some node.data else none, { st with seen })

/-- `router_impl::match_nodes` (`router_impl.cpp:214`) on the segments from `index` on; the predicate
works on a state of its caller. -/
def matchNodes [StdRegex Regex] {σ : Type}
    (handler : NodeData Handler Ws Regex → σ → Bool × σ) :
    List Bytes → Node Handler Ws Regex → Attempt Handler Ws Regex σ
  | [], parent => visit handler parent
  | seg :: rest, parent =>
    let static : Attempt Handler Ws Regex σ :=
      match parent.staticChildren.find? fun child => child.data.key = seg with
      | some child => matchNodes handler rest child
      | none => .skip
    let regex : Attempt Handler Ws Regex σ := .firstOf (fun child =>
      if child.data.regex.any fun regex => StdRegex.regexMatch regex seg then
        .capture child.data.paramName seg (matchNodes handler rest child)
      else .skip) parent.regexChildren
    let param : Attempt Handler Ws Regex σ := .firstOf (fun child =>
      .capture child.data.paramName seg (matchNodes handler rest child)) parent.paramChildren
    let wildcard : Attempt Handler Ws Regex σ :=
      match parent.wildcardChildren with
      | some child => .capture (bytes "*") (joinRest (seg :: rest)) (visit handler child)
      | none => .skip
    static.orElse (regex.orElse (param.orElse wildcard))

end Node

namespace Router

variable {Handler Ws Regex Json StreamHandler : Type} [StdRegex Regex]

/-- `unordered_map::operator[]`, assigned to. -/
def setHandler (handlers : List (Verb × Handler)) (method : Verb) (handler : Handler) :
    List (Verb × Handler) :=
  handlers.filter (fun entry => entry.1 ≠ method) ++ [(method, handler)]

/-- `unordered_map::find`. -/
def findHandler (handlers : List (Verb × Handler)) (method : Verb) : Option Handler :=
  (handlers.find? fun entry => entry.1 = method).map Prod.snd

/-- `router_impl::set_http_handler_impl` (`router_impl.cpp:27`). -/
def setHttpHandler (router : Router Handler Ws Regex) (method : Verb) (path : Bytes)
    (handler : Handler) : Router Handler Ws Regex × Bool :=
  let r := router.root.insert (fun data =>
    { data with handlers := setHandler data.handlers method handler }) (splitSegments path)
  ({ router with root := r.1 }, r.2)

/-- `router_impl::set_ws_handler_impl` (`router_impl.cpp:141`). -/
def setWsHandler (router : Router Handler Ws Regex) (path : Bytes) (entry : Ws) :
    Router Handler Ws Regex × Bool :=
  let r := router.root.insert (fun data => { data with wsHandler := some entry })
    (splitSegments path)
  ({ router with root := r.1 }, r.2)

/-- `std::set::insert`, into the sorted list of the members. -/
def setInsert (name : Bytes) : List Bytes → List Bytes
  | [] => [name]
  | other :: names =>
    if name = other then other :: names
    else if name < other then name :: other :: names
    else other :: setInsert name names

/-- The predicate of `proc_routing` and `pre_routing` (`router_impl.cpp:113`): it collects the names
of the methods that a node has handlers for. -/
def collect (method : Verb) (node : NodeData Handler Ws Regex) (allows : List Bytes) :
    Bool × List Bytes :=
  ((findHandler node.handlers method).isSome,
    node.handlers.foldl (fun allows entry => setInsert entry.1.toString allows) allows)

/-- What `proc_routing` does: it runs a handler, or answers itself. -/
inductive Routed (Handler Json StreamHandler : Type) where
  | run (handler : Handler) (req : Request)
  | answered (resp : Response Json StreamHandler)

/-- `router_impl::proc_routing` (`router_impl.cpp:104`). -/
def procRouting (host : Host) (router : Router Handler Ws Regex) (req : Request)
    (resp : Response Json StreamHandler) : Routed Handler Json StreamHandler :=
  let segments := splitSegments req.path
  let (node, st) := router.root.matchNodes (collect req.method) segments { params := [], seen := [] }
  let answer : Response Json StreamHandler :=
    if st.seen ≠ [] then
      (resp.set .allow (join (bytes ",") st.seen)).setErrorContent host 405
    else resp.setErrorContent host 404
  match node with
  | some node =>
    match findHandler node.handlers req.method with
    | some handler => .run handler { req with pathParams := st.params }
    | none => .answered answer
  | none => .answered answer

/-- `router_impl::pre_routing` (`router_impl.cpp:173`). That `std::regex_match` may throw in it is a
matter of its caller. -/
def preRouting (host : Host) (router : Router Handler Ws Regex) (req : Request)
    (resp : Response Json StreamHandler) : Bool × Response Json StreamHandler :=
  match req.method with
  | .get | .head | .trace | .connect | .options => (true, resp)
  | _ =>
    let segments := splitSegments req.path
    let (node, st) :=
      router.root.matchNodes (collect req.method) segments { params := [], seen := [] }
    let refused : Bool × Response Json StreamHandler :=
      if st.seen ≠ [] then
        (false, ((resp.setKeepAlive false).set .allow (join (bytes ",") st.seen)).setErrorContent
          host 405)
      else (false, (resp.setKeepAlive false).setErrorContent host 404)
    match node with
    | some node => if (findHandler node.handlers req.method).isSome then (true, resp) else refused
    | none => refused

/-- `router_impl::query_ws_handler` (`router_impl.cpp:157`). -/
def queryWsHandler (router : Router Handler Ws Regex) (req : Request) : Option Ws :=
  let (node, _) := router.root.matchNodes (fun node (_ : Unit) => (node.wsHandler.isSome, ()))
    (splitSegments req.path) { params := [], seen := () }
  node.bind (·.wsHandler)

end Router

end Httplib
