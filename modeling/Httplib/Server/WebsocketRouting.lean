import Httplib.Server.FailedRegistration
import Httplib.Server.RouterParams

/-!
# The parameters of a WebSocket request

`query_ws_handler` searches the tree as `proc_routing` does, but drops the map of the search:
`websocket_conn_impl::run` hands its handlers the request as the session made it.
`websocket_params_iff` says for which patterns this makes no difference.
-/

namespace Httplib

open Patterns

/-- `request::path_param` (`request.cpp:91`); there is nothing where `at` throws. -/
def Request.pathParam (req : Request) (key : Bytes) : Option Bytes := req.pathParams.find? key

/-- The entry that `websocket_conn_impl::run` (`websocket_conn_impl.cpp:74`) has found, and the request
that the handlers of this entry see through `http_request()`. -/
def Router.openWebsocket {Handler Ws Regex : Type} [StdRegex Regex] (router : Router Handler Ws Regex)
    (req : Request) : Option (Ws × Request) :=
  (router.queryWsHandler req).map fun entry => (entry, req)

namespace Target

variable {Handler Ws : Type}

/-- The WebSocket entry. -/
def wsEntry : Target Handler Ws → Option Ws
  | .http _ _ => none
  | .ws entry => some entry

/-- The WebSocket entry that a call of `insert` leaves. -/
def keptWs (left : Option (Target Handler Ws)) : Option Ws := left.bind wsEntry

/-- A node has the entry that was registered last. -/
theorem contents_snd (targets : List (Target Handler Ws)) :
    (contents targets).2 = (targets.filterMap wsEntry).getLast? := by
  induction targets using List.reverseRecOn with
  | nil => rfl
  | append_singleton targets target ih =>
    rw [contents, List.foldl_append, ← contents, List.filterMap_append, List.getLast?_append, ← ih]
    cases target with
    | http method handler => rfl
    | ws entry => rfl

end Target

/-- The pattern that a WebSocket is opened by: of those that match and have an entry, the one that goes
before all others. Its entry is the one that was registered last. -/
structure OpenedBy {Handler Ws : Type} (Regex : Type) [StdRegex Regex]
    (regs : List (Registration Handler Ws)) (path : Bytes) (entry : Ws) (p : List Segment) : Prop where
  entry : ((valuesAt p (traces Regex regs)).filterMap Target.keptWs).getLast? = some entry
  accept : (Segment.alphabet Regex).accept p (splitSegments path) = true
  first : ∀ q entry', (q, some (.ws entry')) ∈ traces Regex regs →
    (Segment.alphabet Regex).accept q (splitSegments path) = true →
    p = q ∨ (Segment.alphabet Regex).precedes (traces Regex regs) p q = true

/-! ## What `query_ws_handler` finds -/

namespace Router

variable {Handler Ws Regex : Type}

/-- What the search of `query_ws_handler` comes to. -/
theorem scan_ws (nodes : List (NodeData Handler Ws Regex)) :
    (Node.scan (fun node (_ : Unit) => (node.wsHandler.isSome, ())) nodes ()).1 =
      nodes.find? (·.wsHandler.isSome) := by
  induction nodes with
  | nil => rfl
  | cons node nodes ih =>
    rw [Node.scan, List.find?_cons]
    cases node.wsHandler.isSome with
    | true => rfl
    | false => exact ih

variable [StdRegex Regex] {router : Router Handler Ws Regex}
  {es : Entries Segment (Option (Target Handler Ws))}

/-- `query_ws_handler` finds the entry that the flat matcher picks. -/
theorem queryWsHandler_eq (h : Holds router.root es) (req : Request) :
    router.queryWsHandler req =
      (Segment.alphabet Regex).pick Target.keptWs es (splitSegments req.path) := by
  have hscan := congrArg Prod.fst (h.scans_matchNodes
    (fun node (_ : Unit) => (node.wsHandler.isSome, ())) (splitSegments req.path)
    { params := [], seen := () })
  rw [scan_ws] at hscan
  have hfind : router.queryWsHandler req =
      (router.nodesAt req.path).findSome? (·.wsHandler) := by
    rw [findSome?_eq_bind]
    exact congrArg (Option.bind · (·.wsHandler)) hscan
  rw [hfind]
  exact (pick_eq_findSome?_of_contents h req.path Prod.snd Target.contents_snd).symm

end Router

namespace OpenedBy

variable {Handler Ws Regex : Type} [StdRegex Regex] {regs : List (Registration Handler Ws)}
  {path : Bytes} {entry entry' : Ws} {p q : List Segment} {req req' : Request}

/-- The pattern is registered for WebSockets. -/
theorem registered (h : OpenedBy Regex regs path entry p) :
    (p, some (.ws entry)) ∈ traces Regex regs := by
  obtain ⟨left, hleft, hkept⟩ := List.mem_filterMap.1 (List.mem_of_getLast? h.entry)
  obtain ⟨e, he, rfl⟩ := List.mem_map.1 hleft
  obtain ⟨he, hp⟩ := List.mem_filter.1 he
  obtain ⟨target, htarget, hws⟩ := Option.bind_eq_some_iff.1 hkept
  cases target with
  | http method handler => cases hws
  | ws entry =>
    cases hws
    rwa [← of_decide_eq_true hp, ← htarget]

/-- There is one such pattern at most. -/
theorem unique (hp : OpenedBy Regex regs path entry p) (hq : OpenedBy Regex regs path entry' q) :
    q = p := by
  rcases hp.first q _ hq.registered hq.accept with h | h
  · exact h.symm
  · rcases hq.first p _ hp.registered hp.accept with h' | h'
    · exact h'
    · rw [Alphabet.precedes_asymm h] at h'
      cases h'

/-- A WebSocket is opened by a pattern, with the request as it was. -/
theorem of_openWebsocket
    (hopen : (Router.registerEach {} regs : Router Handler Ws Regex).openWebsocket req =
      some (entry, req')) : req' = req ∧ ∃ p, OpenedBy Regex regs req.path entry p := by
  obtain ⟨found, hfound, hpair⟩ := Option.map_eq_some_iff.1 hopen
  cases hpair
  have hholds : Holds (Router.registerEach {} regs : Router Handler Ws Regex).root
      ([] ++ traces Regex regs) := holds_empty.registerEach regs
  rw [List.nil_append] at hholds
  rw [Router.queryWsHandler_eq hholds, Alphabet.pick_eq] at hfound
  obtain ⟨p, hp, hleast, hlast⟩ := Alphabet.least_of_findSome? hfound
  refine ⟨rfl, p, hlast, (Alphabet.mem_candidates.1 hp).1, fun q entry' hq hacc => ?_⟩
  exact hleast (q, entry') (Alphabet.mem_candidates.2 ⟨hacc, _, hq, rfl⟩)

end OpenedBy

/-! ## What patterns without parameters bind -/

namespace Segment

variable {Handler Ws Regex : Type} [StdRegex Regex] {es : Entries Segment (Target Handler Ws)}
  {p : List Segment}

/-- A pattern all of whose segments stand for themselves. -/
def AllStatic (p : List Segment) : Prop := ∀ l ∈ p, ∃ seg, l = .static seg

/-- Such a pattern binds nothing. -/
theorem names_of_allStatic (h : AllStatic p) (segments : List Bytes) :
    names Regex p segments = [] := by
  induction p generalizing segments with
  | nil => rfl
  | cons l p ih =>
    cases segments with
    | nil => rfl
    | cons seg rest =>
      obtain ⟨⟨s, rfl⟩, hp⟩ := List.forall_mem_cons.1 h
      rw [names_cons, ih hp]
      exact ite_self []

/-- No other segment of a text is tried before the text itself, but texts that do not match. -/
theorem tried_before_static (seg : Bytes) (rest : List Bytes) :
    tried Regex (es.filter fun e => e.1.head?.any ((alphabet Regex).before es · (.static seg)))
      (seg :: rest) = [] := by
  rw [List.eq_nil_iff_forall_not_mem]
  intro name hname
  obtain ⟨l, -, hbefore, hvia⟩ := mem_tried_filter.1 hname
  cases l with
  | static s =>
    -- the names are behind a text that matches, which is the text itself
    by_cases hs : s = seg
    · rw [hs, Alphabet.not_before_self] at hbefore
      cases hbefore
    · have hnone : namesVia Regex (.static s) seg (tried Regex (derive (.static s) es) rest) = [] :=
        if_neg fun hacc => hs (of_decide_eq_true hacc)
      rw [hnone] at hvia
      cases hvia
  | regex | param | wildcard => simp [Alphabet.before, alphabet] at hbefore

/-- On its way down such a pattern a search takes nothing out of the map. -/
theorem erased_of_allStatic (h : AllStatic p) {segments : List Bytes}
    (hacc : (alphabet Regex).accept p segments = true) : erased Regex es p segments = [] := by
  induction p generalizing es segments with
  | nil => cases segments <;> rfl
  | cons l p ih =>
    cases segments with
    | nil => rfl
    | cons seg rest =>
      obtain ⟨⟨s, rfl⟩, hp⟩ := List.forall_mem_cons.1 h
      rw [Alphabet.accept, if_neg (by simp [alphabet]), Bool.and_eq_true] at hacc
      cases of_decide_eq_true hacc.1
      rw [erased, tried_before_static, ih hp hacc.2]
      rfl

/-- What the last parameter of a pattern binds stays in the map. -/
theorem exists_name_not_mem_erased (es : Entries Segment (Target Handler Ws)) (h : ¬ AllStatic p)
    {segments : List Bytes} (hacc : (alphabet Regex).accept p segments = true) :
    ∃ name ∈ names Regex p segments, name ∉ erased Regex es p segments := by
  induction p generalizing es segments with
  | nil => exact absurd (List.forall_mem_nil _) h
  | cons l p ih =>
    cases segments with
    | nil => cases hacc
    | cons seg rest =>
      rw [Alphabet.accept] at hacc
      split at hacc
      · next hrest =>
        -- a wildcard is the last segment
        cases p with
        | cons => cases hacc
        | nil =>
          have hname : bytes "*" ∈ names Regex [l] (seg :: rest) := by
            rw [names_cons, namesVia, if_pos hrest]
            exact List.mem_singleton_self _
          exact ⟨_, hname, not_mem_erased_cons hname List.not_mem_nil⟩
      · next hrest =>
        rw [Bool.and_eq_true] at hacc
        obtain ⟨hseg, hacc⟩ := hacc
        have hnames : names Regex (l :: p) (seg :: rest) = l.name?.toList ++ names Regex p rest := by
          rw [names_cons, namesVia, if_neg hrest, if_pos hseg]
        by_cases hp : AllStatic p
        · -- nothing is taken out behind the segment
          obtain ⟨name, hl⟩ : ∃ name, l.name? = some name := by
            cases l with
            | static s => exact absurd (List.forall_mem_cons.2 ⟨⟨s, rfl⟩, hp⟩) h
            | regex | param | wildcard => exact ⟨_, rfl⟩
          have hname : name ∈ names Regex (l :: p) (seg :: rest) := by
            rw [hnames, hl]
            exact List.mem_cons_self
          refine ⟨name, hname, not_mem_erased_cons hname ?_⟩
          rw [erased_of_allStatic hp hacc]
          exact List.not_mem_nil
        · obtain ⟨name, hname, hbehind⟩ := ih (derive l es) hp hacc
          have hname : name ∈ names Regex (l :: p) (seg :: rest) := by
            rw [hnames]
            exact List.mem_append_right _ hname
          exact ⟨name, hname, not_mem_erased_cons hname hbehind⟩

end Segment

/-! ## The map of a WebSocket request -/

/-- The request of a session has no parameters. -/
theorem Request.pathParam_ofHeader [Platform] (method : Verb) (target : Bytes) (version : Nat)
    (fields : Fields) (key : Bytes) : (ofHeader method target version fields).pathParam key = none := by
  unfold ofHeader
  split <;> rfl

/-- **When WebSocket handlers see the parameters of their pattern**: only if it has none, that is if
all its segments stand for themselves. And only then the map is the one that `proc_routing` makes for
an HTTP route with this pattern and path. -/
theorem websocket_params_iff [Platform] {Handler Ws Regex Json StreamHandler : Type} [StdRegex Regex]
    (host : Host) (regs : List (Registration Handler Ws)) (method : Verb) (target : Bytes) (version : Nat)
    (fields : Fields) {entry : Ws} {req : Request}
    (hopen : (Router.registerEach {} regs : Router Handler Ws Regex).openWebsocket
      (.ofHeader method target version fields) = some (entry, req)) :
    ∃ p, OpenedBy Regex regs req.path entry p ∧ (∀ q, OpenedBy Regex regs req.path entry q → q = p) ∧
      ((∀ name ∈ Segment.names Regex p (splitSegments req.path),
          req.pathParam name = Segment.captured Regex p (splitSegments req.path) name) ↔
        Segment.AllStatic p) ∧
      ∀ (router : Router Handler Ws Regex) (httpReq httpReq' : Request)
        (resp : Response Json StreamHandler) (handler : Handler),
        Router.registerAll {} regs = some router →
        router.procRouting host httpReq resp = .run handler httpReq' → httpReq.path = req.path →
        DispatchedBy Regex regs httpReq.method httpReq.path handler p →
          ((∀ name ∈ Segment.names Regex p (splitSegments req.path),
              req.pathParam name = httpReq'.pathParam name) ↔ Segment.AllStatic p) := by
  obtain ⟨rfl, p, hp⟩ := OpenedBy.of_openWebsocket hopen
  refine ⟨p, hp, fun q hq => hp.unique hq, ⟨fun hall => ?_, fun hstatic name hname => ?_⟩,
    fun router httpReq httpReq' resp handler hregs hrun hpath hdispatched =>
      ⟨fun hall => ?_, fun hstatic name hname => ?_⟩⟩
  · by_contra hstatic
    obtain ⟨name, hname, -⟩ :=
      Segment.exists_name_not_mem_erased (routes regs) hstatic hp.accept
    have hcaptured := hall name hname
    rw [Request.pathParam_ofHeader] at hcaptured
    exact Segment.captured_eq_none_iff.1 hcaptured.symm hname
  · rw [Segment.names_of_allStatic hstatic] at hname
    cases hname
  · by_contra hstatic
    obtain ⟨name, hname, hkept⟩ :=
      Segment.exists_name_not_mem_erased (routes regs) hstatic hp.accept
    obtain ⟨q, hq, hparams⟩ := DispatchedBy.of_run hregs hrun
    cases hdispatched.unique hq
    have hhttp := hall name hname
    rw [Request.pathParam_ofHeader, Request.pathParam, hparams, hpath, if_neg hkept] at hhttp
    exact Segment.captured_eq_none_iff.1 hhttp.symm hname
  · rw [Segment.names_of_allStatic hstatic] at hname
    cases hname

/-- A chat room, for WebSockets and for requests. -/
def chatRoutes : List (Registration Nat Unit) :=
  [⟨bytes "/chat/:room", .ws ()⟩, ⟨bytes "/chat/:room", .http .get 1⟩]

/-- The pattern of a room. -/
def chatPattern : List Segment := [.static (bytes "chat"), .param (bytes ":room")]

open scoped Platform.Plain in
/-- The request for a room. -/
def chatRequest : Request := .ofHeader .get (bytes "/chat/42") 11 []

theorem chat_openedBy :
    letI := literalRegex
    OpenedBy Bytes chatRoutes chatRequest.path () chatPattern := by
  let _ := literalRegex
  refine ⟨rfl, by decide, fun q entry hq _ => .inl ?_⟩
  have htraces : traces Bytes chatRoutes =
      [(chatPattern, some (.ws ())), (chatPattern, some (.http .get 1))] := rfl
  rw [htraces] at hq
  simp only [List.mem_cons, Prod.mk.injEq, List.not_mem_nil, or_false] at hq
  rcases hq with ⟨rfl, -⟩ | ⟨rfl, -⟩ <;> rfl

/-- The handlers of a WebSocket in a room do not see which. -/
theorem websocket_params_iff_chat :
    letI := literalRegex
    ¬ ∀ name ∈ Segment.names Bytes chatPattern (splitSegments chatRequest.path),
      chatRequest.pathParam name =
        Segment.captured Bytes chatPattern (splitSegments chatRequest.path) name := by
  let _ := literalRegex
  have hopen : (Router.registerEach {} chatRoutes : Router Nat Unit Bytes).openWebsocket chatRequest =
      some ((), chatRequest) := rfl
  obtain ⟨p, -, hunique, hparams, -⟩ := @websocket_params_iff Platform.Plain.plain Nat Unit Bytes
    Unit Unit _ plainHost chatRoutes .get (bytes "/chat/42") 11 [] _ _ hopen
  cases hunique _ chat_openedBy
  rw [hparams]
  intro hstatic
  obtain ⟨seg, hseg⟩ := hstatic _ (List.mem_cons_of_mem _ List.mem_cons_self)
  cases hseg

/-- `proc_routing` gives the handler of a request the room, and the handlers of a WebSocket with the
same pattern and path see none. -/
theorem websocket_request_without_room :
    letI := literalRegex
    ∃ (router : Router Nat Unit Bytes) (httpReq req : Request),
      Router.registerAll {} chatRoutes = some router ∧
      router.procRouting plainHost chatRequest (.new plainHost 11 true : Response Unit Unit) =
        .run 1 httpReq ∧
      (Router.registerEach {} chatRoutes : Router Nat Unit Bytes).openWebsocket chatRequest =
        some ((), req) ∧
      OpenedBy Bytes chatRoutes req.path () chatPattern ∧
      Segment.captured Bytes chatPattern (splitSegments req.path) (bytes "room") = some (bytes "42") ∧
      httpReq.pathParam (bytes "room") = some (bytes "42") ∧
      req.pathParam (bytes "room") = none := by
  let _ := literalRegex
  exact ⟨_, _, chatRequest, rfl, rfl, rfl, chat_openedBy, by decide, rfl, rfl⟩

end Httplib
