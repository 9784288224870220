import Httplib.Lib.PatternSwap
import Httplib.Server.WebsocketRouting
import Mathlib.Data.Option.Defs

/-!
# The order of registrations

Routes are registered in some order, and a tree is built in this order. `registration_order` says which
registrations may change places without any request being routed in another way: those that are not
for one thing at one node, unless a segment fits both of the parameters or regular expressions at which
their patterns part.
-/

namespace Httplib

open Patterns

/-- The second target takes the place of the first one in a node. -/
def Target.replacedBy {Handler Ws : Type} : Target Handler Ws → Target Handler Ws → Bool
  | .http method _, .http method' _ => method = method'
  | .ws _, .ws _ => true
  | .http _ _, .ws _ | .ws _, .http _ _ => false

/-- The order of two registrations does not tell. -/
structure Registration.Independent {Handler Ws : Type} (Regex : Type) [StdRegex Regex]
    (reg reg' : Registration Handler Ws) : Prop where
  swappable : (Segment.alphabet Regex).Swappable (Segment.pattern (splitSegments reg.path))
    (Segment.pattern (splitSegments reg'.path))
  target : Segment.pattern (splitSegments reg.path) = Segment.pattern (splitSegments reg'.path) →
    reg.target.replacedBy reg'.target = false

/-- Two neighbours in a sequence of registrations change places. -/
def Exchange {Handler Ws : Type} (Regex : Type) [StdRegex Regex]
    (regs regs' : List (Registration Handler Ws)) : Prop :=
  ∃ front reg reg' back, reg.Independent Regex reg' ∧ regs = front ++ reg :: reg' :: back ∧
    regs' = front ++ reg' :: reg :: back

/-! ## What registrations leave -/

namespace Target

variable {Handler Ws : Type}

/-- What is read from the things that calls leave under one pattern. -/
def SameKept (left left' : List (Option (Target Handler Ws))) : Prop :=
  (∀ method, (left.filterMap (kept method)).getLast? = (left'.filterMap (kept method)).getLast?) ∧
    (left.filterMap keptWs).getLast? = (left'.filterMap keptWs).getLast?

theorem sameKept_refl (left : List (Option (Target Handler Ws))) : SameKept left left :=
  ⟨fun _ => rfl, rfl⟩

/-- Neighbours of which one at most is kept. -/
theorem filterMap_swap {α β : Type} {f : α → Option β} {a b : α} (h : f a = none ∨ f b = none)
    (as bs : List α) : (as ++ a :: b :: bs).filterMap f = (as ++ b :: a :: bs).filterMap f := by
  rcases h with h | h <;> simp [List.filterMap_append, List.filterMap_cons, h]

/-- Targets of which neither takes the place of the other. -/
theorem sameKept_swap {target target' : Option (Target Handler Ws)}
    (h : ∀ t ∈ target, ∀ t' ∈ target', t.replacedBy t' = false)
    (left right : List (Option (Target Handler Ws))) :
    SameKept (left ++ target :: target' :: right) (left ++ target' :: target :: right) := by
  have hone : (∀ method, kept method target = none ∨ kept method target' = none) ∧
      (keptWs target = none ∨ keptWs target' = none) := by
    cases target with
    | none => exact ⟨fun _ => .inl rfl, .inl rfl⟩
    | some t =>
      cases target' with
      | none => exact ⟨fun _ => .inr rfl, .inr rfl⟩
      | some t' =>
        have hnot := h t rfl t' rfl
        cases t with
        | ws entry =>
          cases t' with
          | ws entry' => cases hnot
          | http method handler => exact ⟨fun _ => .inl rfl, .inr rfl⟩
        | http m handler =>
          cases t' with
          | ws entry => exact ⟨fun _ => .inr rfl, .inl rfl⟩
          | http m' handler' =>
            refine ⟨fun method => ?_, .inl rfl⟩
            by_cases hm : m = method
            · refine .inr (if_neg fun hm' => ?_)
              exact of_decide_eq_false hnot (hm.trans hm'.symm)
            · exact .inl (if_neg hm)
  refine ⟨fun method => ?_, ?_⟩
  · rw [filterMap_swap (hone.1 method)]
  · rw [filterMap_swap hone.2]

end Target

namespace Segment

variable {Handler Ws Regex : Type} [StdRegex Regex] {p q : List Segment}

/-- The nodes in front of a segment that there is none for. -/
theorem swappable_takeWhile (keep : Segment → Bool) (h : (alphabet Regex).Swappable p q) :
    (alphabet Regex).Swappable (p.takeWhile keep) (q.takeWhile keep) := by
  induction p generalizing q with
  | nil => trivial
  | cons l p ih =>
    cases q with
    | nil =>
      rw [List.takeWhile_cons]
      split <;> trivial
    | cons m q =>
      rw [Alphabet.Swappable] at h
      rw [List.takeWhile_cons, List.takeWhile_cons]
      split
      · split
        · rw [Alphabet.Swappable]
          split at h
          · next hlm => rw [if_pos hlm]; exact ih h
          · next hlm => rwa [if_neg hlm]
        · trivial
      · trivial

/-- What is left of a whole pattern is the pattern. -/
theorem trace_eq_some {target t : Target Handler Ws} (h : t ∈ (trace Regex p target).2) :
    (trace Regex p target).1 = p ∧ t = target := by
  obtain ⟨hall, ht⟩ := Option.ite_none_right_eq_some.1 h
  exact ⟨List.takeWhile_eq_self_iff.2 (List.all_eq_true.1 hall), (Option.some.inj ht).symm⟩

end Segment

/-- The traces of registrations two neighbours of which change places. -/
theorem Exchange.alike {Handler Ws Regex : Type} [StdRegex Regex]
    {regs regs' : List (Registration Handler Ws)} (h : Exchange Regex regs regs') :
    (Segment.alphabet Regex).Alike Target.SameKept (traces Regex regs) (traces Regex regs') := by
  obtain ⟨front, reg, reg', back, hindependent, rfl, rfl⟩ := h
  simp only [traces, List.map_append, List.map_cons]
  refine Alphabet.Alike.of_swap (Segment.swappable_takeWhile _ hindependent.swappable)
    Target.sameKept_refl fun hpattern left right => Target.sameKept_swap (fun t ht t' ht' => ?_) _ _
  obtain ⟨hp, rfl⟩ := Segment.trace_eq_some ht
  obtain ⟨hp', rfl⟩ := Segment.trace_eq_some ht'
  exact hindependent.target (hp.symm.trans (hpattern.trans hp'))

/-! ## Searches that come to the same -/

/-- Two nodes that answer every question of a search alike. -/
def NodeData.Alike {Handler Ws Regex : Type} (data data' : NodeData Handler Ws Regex) : Prop :=
  (∀ method, Router.findHandler data.handlers method = Router.findHandler data'.handlers method) ∧
    data.wsHandler = data'.wsHandler

namespace Node

variable {Handler Ws Regex σ : Type} {I : σ → Prop}
  {handler : NodeData Handler Ws Regex → σ → Bool × σ}

/-- A predicate that can not tell alike nodes apart where its state meets a condition, which it keeps. -/
def Blind (handler : NodeData Handler Ws Regex → σ → Bool × σ) (I : σ → Prop) : Prop :=
  ∀ data data' seen, data.Alike data' → I seen →
    handler data seen = handler data' seen ∧ I (handler data' seen).2

namespace Attempt

variable {a b a' b' : Attempt Handler Ws Regex σ}

/-- Two parts of searches that leave the same behind and find alike nodes. -/
def Alike (I : σ → Prop) (a b : Attempt Handler Ws Regex σ) : Prop :=
  ∀ st, I st.seen → (a st).2 = (b st).2 ∧ I (b st).2.seen ∧
    Option.Rel NodeData.Alike (a st).1 (b st).1

theorem alike_skip : Alike I (skip : Attempt Handler Ws Regex σ) skip := fun _ h => ⟨rfl, h, .none⟩

theorem alike_visit (hblind : Blind handler I) {node node' : Node Handler Ws Regex}
    (h : node.data.Alike node'.data) : Alike I (visit handler node) (visit handler node') := by
  intro st hst
  obtain ⟨heq, hseen⟩ := hblind _ _ st.seen h hst
  rw [visit, visit, heq]
  refine ⟨rfl, hseen, ?_⟩
  dsimp only
  split
  · exact .some h
  · exact .none

theorem Alike.orElse (ha : Alike I a a') (hb : Alike I b b') :
    Alike I (a.orElse b) (a'.orElse b') := by
  intro st hst
  obtain ⟨hleft, hseen, hfound⟩ := ha st hst
  simp only [Attempt.orElse]
  rcases hast : a st with ⟨found, left⟩
  rcases hast' : a' st with ⟨found', left'⟩
  rw [hast, hast'] at hleft hfound
  rw [hast'] at hseen
  dsimp only at hleft hseen hfound
  subst hleft
  cases hfound with
  | some h => exact ⟨rfl, hseen, .some h⟩
  | none => exact hb left hseen

theorem Alike.capture (ha : Alike I a a') (name value : Bytes) :
    Alike I (a.capture name value) (a'.capture name value) := by
  intro st hst
  obtain ⟨hleft, hseen, hfound⟩ := ha { st with params := st.params.set name value } hst
  simp only [Attempt.capture]
  rcases hast : a { st with params := st.params.set name value } with ⟨found, left⟩
  rcases hast' : a' { st with params := st.params.set name value } with ⟨found', left'⟩
  rw [hast, hast'] at hleft hfound
  rw [hast'] at hseen
  dsimp only at hleft hseen hfound
  subst hleft
  cases hfound with
  | some h => exact ⟨rfl, hseen, .some h⟩
  | none => exact ⟨rfl, hseen, .none⟩

/-- Parts for the same labels, one after the other. -/
theorem alike_tryEach {f g : Segment × Node Handler Ws Regex → Attempt Handler Ws Regex σ}
    {children children' : List (Segment × Node Handler Ws Regex)}
    (hlabels : children.map Prod.fst = children'.map Prod.fst)
    (h : ∀ c ∈ children, ∀ c' ∈ children', c.1 = c'.1 → Alike I (f c) (g c')) :
    Alike I (tryEach (children.map f)) (tryEach (children'.map g)) := by
  induction children generalizing children' with
  | nil =>
    rw [List.map_eq_nil_iff.1 hlabels.symm]
    exact alike_skip
  | cons c children ih =>
    cases children' with
    | nil => cases hlabels
    | cons c' children' =>
      obtain ⟨hfirst, hrest⟩ := List.cons.inj hlabels
      refine (h c List.mem_cons_self c' List.mem_cons_self hfirst).orElse (ih hrest ?_)
      exact fun d hd d' hd' => h d (List.mem_cons_of_mem _ hd) d' (List.mem_cons_of_mem _ hd')

/-- Parts that are skipped do not count. -/
theorem tryEach_filter {γ : Type} {f : γ → Attempt Handler Ws Regex σ} {keep : γ → Bool} {l : List γ}
    (h : ∀ c ∈ l, keep c = false → f c = skip) : tryEach (l.map f) = tryEach ((l.filter keep).map f) := by
  induction l with
  | nil => rfl
  | cons c l ih =>
    have hrest := ih fun c hc => h c (List.mem_cons_of_mem _ hc)
    rw [List.map_cons, tryEach, hrest, List.filter_cons]
    split
    · rfl
    · next hc =>
      rw [h c List.mem_cons_self (Bool.not_eq_true _ ▸ hc)]
      rfl

end Attempt

end Node

namespace Holds

variable {Handler Ws Regex σ : Type} [StdRegex Regex] {node node' : Node Handler Ws Regex}
  {es es' : Entries Segment (Option (Target Handler Ws))}

/-- Nodes with the same things entered under the empty pattern. -/
theorem data_alike (h : Holds node es) (h' : Holds node' es')
    (hsame : Target.SameKept (valuesAt [] es) (valuesAt [] es')) : node.data.Alike node'.data := by
  obtain ⟨hcontents, -, -, -⟩ := h
  obtain ⟨hcontents', -, -, -⟩ := h'
  have hhandlers : node.data.handlers = (Target.contents (valuesAt [] es).reduceOption).1 :=
    congrArg Prod.fst hcontents
  have hhandlers' : node'.data.handlers = (Target.contents (valuesAt [] es').reduceOption).1 :=
    congrArg Prod.fst hcontents'
  have hws : node.data.wsHandler = (Target.contents (valuesAt [] es).reduceOption).2 :=
    congrArg Prod.snd hcontents
  have hws' : node'.data.wsHandler = (Target.contents (valuesAt [] es').reduceOption).2 :=
    congrArg Prod.snd hcontents'
  have hkept : ∀ (left : List (Option (Target Handler Ws))) {β : Type} (f : Target Handler Ws → Option β),
      left.reduceOption.filterMap f = left.filterMap (·.bind f) := by
    intro left β f
    rw [List.reduceOption, List.filterMap_filterMap]
    rfl
  constructor
  · intro method
    rw [hhandlers, hhandlers', Router.findHandler_contents, Router.findHandler_contents, hkept, hkept]
    exact hsame.1 method
  · rw [hws, hws', Target.contents_snd, Target.contents_snd, hkept, hkept]
    exact hsame.2

/-- **A search in trees that hold alike entries.** The induction is on the segments. -/
theorem matchNodes_alike (h : Holds node es) (h' : Holds node' es')
    (halike : (Segment.alphabet Regex).Alike Target.SameKept es es') {I : σ → Prop}
    {handler : NodeData Handler Ws Regex → σ → Bool × σ} (hblind : Node.Blind handler I)
    (segments : List Bytes) :
    Node.Attempt.Alike I (node.matchNodes handler segments) (node'.matchNodes handler segments) := by
  induction segments generalizing node node' es es' with
  | nil => exact Node.Attempt.alike_visit hblind (h.data_alike h' (halike.values []))
  | cons seg rest ih =>
    have hskip : ∀ children : List (Segment × Node Handler Ws Regex), ∀ c ∈ children,
        (Segment.alphabet Regex).takes c.1 seg = false →
          Node.tryChild handler seg rest c = .skip := by
      intro _ c _ hc
      rw [Alphabet.takes, Bool.or_eq_false_iff] at hc
      rw [Node.tryChild, hc.1, hc.2]
      rfl
    have hlabels : ∀ {node : Node Handler Ws Regex} {es}, Holds node es →
        (node.children.filter fun c => (Segment.alphabet Regex).takes c.1 seg).map Prod.fst =
          (Segment.alphabet Regex).takers es seg := by
      intro node es h
      rw [Alphabet.takers, ← h.labels_children, List.filter_map]
      rfl
    rw [h.matchNodes_cons, h'.matchNodes_cons, Node.Attempt.tryEach_filter (hskip node.children),
      Node.Attempt.tryEach_filter (hskip node'.children)]
    refine Node.Attempt.alike_tryEach ?_ fun c hc c' hc' heq => ?_
    · rw [hlabels h, hlabels h']
      exact halike.takers [] seg
    · have hchild := h.of_mem_children (List.mem_of_mem_filter hc)
      have hchild' := h'.of_mem_children (List.mem_of_mem_filter hc')
      rw [← heq] at hchild'
      have hbehind := halike.derive c.1
      rw [Node.tryChild, Node.tryChild, ← heq]
      split
      · exact (Node.Attempt.alike_visit hblind
          (hchild.data_alike hchild' (hbehind.values []))).capture _ _
      · split
        · have hrest := ih hchild hchild' hbehind
          cases c.1.name? with
          | some name => exact hrest.capture _ _
          | none => exact hrest
        · exact Node.Attempt.alike_skip

end Holds

namespace Router

variable {Handler Ws Regex : Type} {entries entries' : List (Verb × Handler)} {allows : List Bytes}

/-- A sorted list is the set of its members. -/
theorem eq_of_mem_iff {names names' : List Bytes} (h : names.Pairwise (· < ·))
    (h' : names'.Pairwise (· < ·)) (hmem : ∀ x, x ∈ names ↔ x ∈ names') : names = names' := by
  have hnodup : ∀ {names : List Bytes}, names.Pairwise (· < ·) → names.Nodup := by
    refine fun h => h.imp fun {x y} (hlt : x < y) (heq : x = y) => ?_
    rw [heq] at hlt
    exact List.lt_irrefl y hlt
  refine ((List.perm_ext_iff_of_nodup (hnodup h) (hnodup h')).2 hmem).eq_of_pairwise
    (fun a b _ _ hab hba => ?_) h h'
  exact absurd (List.lt_trans hab hba) (List.lt_irrefl a)

/-- The names that are collected of a node are those of the methods that it has handlers for. -/
theorem foldl_setInsert_congr
    (h : ∀ method, findHandler entries method = findHandler entries' method)
    (hsorted : allows.Pairwise (· < ·)) :
    entries.foldl (fun allows entry => setInsert entry.1.toString allows) allows =
      entries'.foldl (fun allows entry => setInsert entry.1.toString allows) allows := by
  refine eq_of_mem_iff (pairwise_foldl_setInsert _ hsorted) (pairwise_foldl_setInsert _ hsorted)
    fun x => ?_
  have hnames : ∀ entries : List (Verb × Handler), (∃ entry ∈ entries, x = entry.1.toString) ↔
      ∃ method, (findHandler entries method).isSome = true ∧ x = method.toString := by
    intro entries
    simp only [findHandler_isSome_iff]
    constructor
    · rintro ⟨⟨method, handler⟩, hmem, rfl⟩
      exact ⟨method, ⟨handler, hmem⟩, rfl⟩
    · rintro ⟨method, ⟨handler, hmem⟩, rfl⟩
      exact ⟨_, hmem, rfl⟩
  rw [mem_foldl_setInsert, mem_foldl_setInsert, hnames, hnames]
  simp only [h]

/-- The predicate of `proc_routing` and `pre_routing` can not tell alike nodes apart. -/
theorem blind_collect (method : Verb) :
    Node.Blind (collect method : NodeData Handler Ws Regex → _) (·.Pairwise (· < ·)) := by
  intro data data' seen halike hsorted
  refine ⟨Prod.ext ?_ (foldl_setInsert_congr halike.1 hsorted), pairwise_foldl_setInsert _ hsorted⟩
  rw [collect, collect, halike.1]

variable [StdRegex Regex] {router router' : Router Handler Ws Regex}
  {es es' : Entries Segment (Option (Target Handler Ws))}

/-- What `proc_routing` and `pre_routing` search for. -/
theorem matchNodes_collect_alike (h : Holds router.root es) (h' : Holds router'.root es')
    (halike : (Segment.alphabet Regex).Alike Target.SameKept es es') (method : Verb) (path : Bytes) :
    let found := router.root.matchNodes (collect method) (splitSegments path)
      { params := [], seen := [] }
    let found' := router'.root.matchNodes (collect method) (splitSegments path)
      { params := [], seen := [] }
    found.2 = found'.2 ∧ Option.Rel NodeData.Alike found.1 found'.1 := by
  obtain ⟨hleft, -, hfound⟩ := h.matchNodes_alike h' halike (blind_collect method)
    (splitSegments path) { params := [], seen := [] } List.Pairwise.nil
  exact ⟨hleft, hfound⟩

/-- Trees that hold alike entries route alike. -/
theorem routing_alike {Json StreamHandler : Type} (h : Holds router.root es)
    (h' : Holds router'.root es') (halike : (Segment.alphabet Regex).Alike Target.SameKept es es')
    (host : Host) (req : Request) (resp : Response Json StreamHandler) :
    router.procRouting host req resp = router'.procRouting host req resp ∧
      router.preRouting host req resp = router'.preRouting host req resp ∧
      router.queryWsHandler req = router'.queryWsHandler req := by
  obtain ⟨hleft, hfound⟩ := matchNodes_collect_alike h h' halike req.method req.path
  rcases hsearch : router.root.matchNodes (collect req.method) (splitSegments req.path)
    { params := [], seen := [] } with ⟨found, left⟩
  rcases hsearch' : router'.root.matchNodes (collect req.method) (splitSegments req.path)
    { params := [], seen := [] } with ⟨found', left'⟩
  rw [hsearch, hsearch'] at hleft hfound
  dsimp only at hleft hfound
  subst hleft
  refine ⟨?_, ?_, ?_⟩
  · simp only [procRouting, hsearch, hsearch']
    cases hfound with
    | some hnode => simp only [hnode.1]
    | none => rfl
  · simp only [preRouting, hsearch, hsearch']
    cases hfound with
    | some hnode => simp only [hnode.1]
    | none => rfl
  · have hblind : Node.Blind
        (fun (node : NodeData Handler Ws Regex) (_ : Unit) => (node.wsHandler.isSome, ()))
        fun _ => True := by
      intro data data' seen hnode _
      dsimp only
      exact ⟨by rw [hnode.2], trivial⟩
    obtain ⟨-, -, hws⟩ := h.matchNodes_alike h' halike hblind (splitSegments req.path)
      { params := [], seen := () } trivial
    rw [queryWsHandler, queryWsHandler]
    dsimp only
    generalize (router.root.matchNodes _ _ _).1 = found at hws ⊢
    generalize (router'.root.matchNodes _ _ _).1 = found' at hws ⊢
    cases hws with
    | some hnode => exact hnode.2
    | none => rfl

end Router

open Router in
/-- **The order of registrations tells only where two are for one thing, or share a vector of the tree.**
If one sequence of registrations comes from another by exchanging neighbours, each time two that are
independent, then every request is routed alike by the two routers: `proc_routing` runs the same handler
with the same path parameters or gives the same answer, `pre_routing` comes to the same verdict with the
same answer, and `query_ws_handler` finds the same entry. Registrations may throw. -/
theorem registration_order {Handler Ws Regex Json StreamHandler : Type} [StdRegex Regex]
    {regs regs' : List (Registration Handler Ws)}
    (h : Relation.ReflTransGen (Exchange Regex) regs regs') (host : Host) (req : Request)
    (resp : Response Json StreamHandler) :
    let router : Router Handler Ws Regex := registerEach {} regs
    let router' : Router Handler Ws Regex := registerEach {} regs'
    procRouting host router req resp = procRouting host router' req resp ∧
      preRouting host router req resp = preRouting host router' req resp ∧
      router.queryWsHandler req = router'.queryWsHandler req := by
  induction h with
  | refl => exact ⟨rfl, rfl, rfl⟩
  | @tail regs₁ regs₂ _ hexchange ih =>
    have hholds : ∀ regs : List (Registration Handler Ws),
        Holds (registerEach {} regs : Router Handler Ws Regex).root (traces Regex regs) :=
      fun regs => holds_empty.registerEach regs
    obtain ⟨hproc, hpre, hws⟩ :=
      routing_alike (hholds regs₁) (hholds regs₂) hexchange.alike host req resp
    exact ⟨ih.1.trans hproc, ih.2.1.trans hpre, ih.2.2.trans hws⟩

open scoped Platform.Plain in
/-- A parameter and a regular expression of one node change places, and then a WebSocket route and a
parameter. -/
theorem registration_order_param :
    letI := literalRegex
    ∃ regs' : List (Registration Nat Unit), regs' ≠ sampleRoutes ∧
      (Router.registerEach {} sampleRoutes : Router Nat Unit Bytes).procRouting plainHost
          (.ofHeader .get (bytes "/a/b") 11 []) (.new plainHost 11 true : Response Unit Unit) =
        (Router.registerEach {} regs' : Router Nat Unit Bytes).procRouting plainHost
          (.ofHeader .get (bytes "/a/b") 11 []) (.new plainHost 11 true : Response Unit Unit) := by
  let _ := literalRegex
  let param : Registration Nat Unit := ⟨bytes "/a/:x", .http .get 1⟩
  let regex : Registration Nat Unit := ⟨bytes "/a/\x7by:b\x7d", .http .get 2⟩
  let ws : Registration Nat Unit := ⟨bytes "/a/c", .ws ()⟩
  let wildcard : Registration Nat Unit := ⟨bytes "/a/*", .http .post 3⟩
  have hfirst : Exchange Bytes sampleRoutes [regex, param, ws, wildcard] := by
    refine ⟨[], param, regex, [ws, wildcard], ⟨?_, ?_⟩, rfl, rfl⟩
    · intro (h : 2 = 1)
      cases h
    · intro h
      cases h
  have hsecond : Exchange Bytes [regex, param, ws, wildcard] [regex, ws, param, wildcard] := by
    refine ⟨[regex], param, ws, [wildcard], ⟨?_, ?_⟩, rfl, rfl⟩
    · intro (h : 2 = 0)
      cases h
    · intro h
      cases h
  refine ⟨[regex, ws, param, wildcard], fun h => ?_, ?_⟩
  · cases congrArg (List.map Registration.path) h
  · exact (registration_order (.tail (.single hfirst) hsecond) plainHost
      (.ofHeader .get (bytes "/a/b") 11 []) (.new plainHost 11 true : Response Unit Unit)).1

end Httplib
