import Httplib.Lib.Objects
import Httplib.Server.FailedRegistration

/-!
# Handlers for several methods

`router::set_http_handler` (`router.hpp`, `router.inl`) forwards its handler and its aspects once for
each method to what makes a coroutine of them. An argument that is passed as an rvalue is moved from
by the first method, and `set_http_handler_iff` says for which methods this shows.
-/

namespace Httplib

open Objects Patterns

/-- What a call can throw; `std::bad_function_call` is what a call of an empty `std::function` does. -/
inductive Exn (ε : Type) where
  | badFunctionCall
  | other (e : ε)

/-- What a call comes to: it returns or throws, and leaves the request, the response and whatever else
it works on in some state. -/
abbrev Outcome (ε σ α : Type) := Except (Exn ε) α × σ

/-- The types of handlers, of which `function_traits` tells whether they return an awaitable. -/
class HandlerType (F : Type) (ε σ : outParam Type) where
  isAwaitable : Bool
  invoke : F → σ → Outcome ε σ Unit × F

/-- The types of aspects: `before` and `after`, none where there is no such member. -/
class AspectType (A : Type) (ε σ : outParam Type) where
  before : A → Option (σ → Outcome ε σ Bool × A)
  after : A → Option (σ → Outcome ε σ Bool × A)

/-- The two members of an aspect. -/
inductive Phase where
  | before
  | after

/-! ## Function objects of the library -/

/-- A `std::function`. -/
structure StdFunction (T : Type) where
  target : Option T

/-- A `std::function` that is moved from is empty. -/
instance {T : Type} : Movable (StdFunction T) := ⟨fun _ => ⟨none⟩⟩

/-- A `std::function` throws where it is empty, and otherwise calls its target. -/
instance {T ε σ : Type} [HandlerType T ε σ] : HandlerType (StdFunction T) ε σ where
  isAwaitable := HandlerType.isAwaitable T
  invoke
    | ⟨none⟩, s => ((.error .badFunctionCall, s), ⟨none⟩)
    | ⟨some target⟩, s =>
      ((HandlerType.invoke target s).1, ⟨some (HandlerType.invoke target s).2⟩)

/-- `std::bind(handler, &owner, _1, _2)` for a member function, which returns an awaitable or not. -/
structure BoundMember (isAwaitable : Bool) (Owner ε σ : Type) where
  handler : Owner → σ → Outcome ε σ Unit
  owner : Owner

instance {isAwaitable : Bool} {Owner ε σ : Type} :
    HandlerType (BoundMember isAwaitable Owner ε σ) ε σ where
  isAwaitable := isAwaitable
  invoke member s := (member.handler member.owner s, member)

/-! ## Aspects -/

namespace AspectType

variable {A ε σ : Type} [AspectType A ε σ]

/-- A member of an aspect. -/
def member (phase : Phase) (aspect : A) : Option (σ → Outcome ε σ Bool × A) :=
  match phase with
  | .before => before aspect
  | .after => after aspect

/-- A call of a member, none if there is no such member. -/
def call (aspect : A) : Phase × σ → Option (Outcome ε σ Bool) × A
  | (phase, s) =>
    match member phase aspect with
    | none => (none, aspect)
    | some f => (some (f s).1, (f s).2)

end AspectType

/-- `helper::do_before` and `helper::do_after` (`helper.hpp`), on `ok` as the aspects in front have left
it. -/
def doPhase {A ε σ : Type} [AspectType A ε σ] (phase : Phase) (aspect : A) (ok : Bool) (s : σ) :
    Outcome ε σ Bool × A :=
  match AspectType.member phase aspect with
  | none => ((.ok ok, s), aspect)
  | some f => if ok then f s else ((.ok ok, s), aspect)

/-- An element of `std::tuple<Aspects...>`: a reference to an aspect that is passed as an lvalue, or an
aspect. -/
structure Element (A : Type) where
  isReference : Bool
  aspect : A

/-- `std::apply` of one of the two over the aspects (`router.inl:21`). -/
def doEach {A ε σ : Type} [AspectType A ε σ] (phase : Phase) :
    List (Element A) → Bool → σ → Outcome ε σ Bool × List (Element A)
  | [], ok, s => ((.ok ok, s), [])
  | element :: elements, ok, s =>
    let r := doPhase phase element.aspect ok s
    match r.1 with
    | (.error e, s) => ((.error e, s), { element with aspect := r.2 } :: elements)
    | (.ok ok, s) =>
      let rest := doEach phase elements ok s
      (rest.1, { element with aspect := r.2 } :: rest.2)

/-! ## The coroutines that are registered -/

/-- What `util::make_coro_handler` returns: the handler itself, or a coroutine around it. -/
inductive CoroHandler (F : Type) where
  | itself (handler : F)
  | around (handler : F)

namespace CoroHandler

variable {F ε σ : Type} [HandlerType F ε σ]

/-- The handler in it. -/
def handler : CoroHandler F → F
  | itself handler | around handler => handler

/-- A call. -/
def invoke (coro : CoroHandler F) (s : σ) : Outcome ε σ Unit × CoroHandler F :=
  match coro with
  | itself handler => ((HandlerType.invoke handler s).1, itself (HandlerType.invoke handler s).2)
  | around handler => ((HandlerType.invoke handler s).1, around (HandlerType.invoke handler s).2)

end CoroHandler

/-- What `router::make_coro_http_handler` returns: the lambda with its captures, or the handler alone
where there are no aspects. -/
structure CoroHttpHandler (F A : Type) where
  coroHandler : CoroHandler F
  aspects : List (Element A)

/-- The body of the lambda (`router.inl:18`). -/
def CoroHttpHandler.run {F A ε σ : Type} [HandlerType F ε σ] [AspectType A ε σ]
    (coro : CoroHttpHandler F A) (s : σ) : Outcome ε σ Unit × CoroHttpHandler F A :=
  if coro.aspects = [] then
    let called := coro.coroHandler.invoke s
    (called.1, { coro with coroHandler := called.2 })
  else
    let befores := doEach .before coro.aspects true s
    match befores.1 with
    | (.error e, s) => ((.error e, s), { coro with aspects := befores.2 })
    | (.ok ok, s) =>
      let called := if ok then coro.coroHandler.invoke s else ((.ok (), s), coro.coroHandler)
      match called.1 with
      | (.error e, s) => ((.error e, s), ⟨called.2, befores.2⟩)
      | (.ok (), s) =>
        let afters := doEach .after befores.2 true s
        ((afters.1.1.map fun _ => (), afters.1.2), ⟨called.2, afters.2⟩)

section
variable {F A ε σ : Type} [HandlerType F ε σ] [AspectType A ε σ] [Movable F] [Movable A]

omit [Movable A] in
/-- `util::make_coro_handler` (`misc.hpp:14`), and its argument afterwards. -/
def makeCoroHandler (handler : Arg F) : CoroHandler F × Arg F :=
  (if HandlerType.isAwaitable F then .itself handler.object else .around handler.object,
    handler.rest)

/-- The element of the tuple that is constructed from an aspect. -/
def Element.ofArg {A : Type} (asp : Arg A) : Element A := ⟨asp.category = .lvalue, asp.object⟩

/-- `router::make_coro_http_handler` (`router.inl:7`), and its arguments afterwards. What it makes is
moved on to where it is kept, and not used again where it was. -/
def makeCoroHttpHandler (handler : Arg F) (asps : List (Arg A)) :
    CoroHttpHandler F A × Arg F × List (Arg A) :=
  let made := makeCoroHandler handler
  (⟨made.1, asps.map Element.ofArg⟩, made.2, asps.map Arg.rest)

end

namespace Router

variable {F A ε σ Ws Regex : Type} [HandlerType F ε σ] [Movable F] [Movable A] [StdRegex Regex]

/-- `router::set_http_handler` for one method (`router.inl:46`), and its arguments afterwards; false if
it throws. -/
def setHttpHandlerFor (router : Router (CoroHttpHandler F A) Ws Regex) (method : Verb) (key : Bytes)
    (handler : Arg F) (asps : List (Arg A)) :
    (Router (CoroHttpHandler F A) Ws Regex × Bool) × Arg F × List (Arg A) :=
  let made := makeCoroHttpHandler handler asps
  (router.setHttpHandler method key made.1, made.2)

/-- `router::set_http_handler<method...>` (`router.hpp:27`), which forwards its arguments once for each
method. -/
def setHttpHandlers (router : Router (CoroHttpHandler F A) Ws Regex) (methods : List Verb)
    (key : Bytes) (handler : Arg F) (asps : List (Arg A)) :
    (Router (CoroHttpHandler F A) Ws Regex × Bool) × Arg F × List (Arg A) :=
  match methods with
  | [] => ((router, true), handler, asps)
  | method :: methods =>
    let r := router.setHttpHandlerFor method key handler asps
    if r.1.2 then setHttpHandlers r.1.1 methods key r.2.1 r.2.2 else r

omit [HandlerType F ε σ] [Movable F] in
/-- `router::set_http_handler<method...>` for a member function (`router.inl:59`): what is bound is put
into a `std::function`, which is moved on. -/
def setHttpMember {Owner : Type} {isAwaitable : Bool}
    (router : Router (CoroHttpHandler (StdFunction (BoundMember isAwaitable Owner ε σ)) A) Ws Regex)
    (methods : List Verb) (key : Bytes) (handler : Owner → σ → Outcome ε σ Unit) (owner : Owner)
    (asps : List (Arg A)) :
    (Router (CoroHttpHandler (StdFunction (BoundMember isAwaitable Owner ε σ)) A) Ws Regex × Bool) ×
      Arg (StdFunction (BoundMember isAwaitable Owner ε σ)) × List (Arg A) :=
  router.setHttpHandlers methods key ⟨.rvalue, ⟨some ⟨handler, owner⟩⟩⟩ asps

end Router

/-! ## Coroutines of parts that behave alike -/

section
variable {F A ε σ : Type} [HandlerType F ε σ] [AspectType A ε σ]

/-- The parts of two coroutines behave alike. -/
def CoroHttpHandler.PartsAlike (coro coro' : CoroHttpHandler F A) : Prop :=
  Alike HandlerType.invoke coro.coroHandler.handler coro'.coroHandler.handler ∧
    List.Forall₂ (fun element element' : Element A =>
      Alike AspectType.call element.aspect element'.aspect) coro.aspects coro'.aspects

omit [HandlerType F ε σ] in
/-- A phase calls the aspect once, if the phases before it have agreed. -/
theorem doPhase_eq (phase : Phase) (aspect : A) (ok : Bool) (s : σ) :
    doPhase phase aspect ok s =
      if ok then ((AspectType.call aspect (phase, s)).1.getD (.ok ok, s),
        (AspectType.call aspect (phase, s)).2)
      else ((.ok ok, s), aspect) := by
  rw [doPhase, AspectType.call]
  cases AspectType.member phase aspect with
  | none => cases ok <;> rfl
  | some f => cases ok <;> rfl

omit [HandlerType F ε σ] in
/-- Aspects that behave alike come through a phase alike. -/
theorem doPhase_alike {aspect aspect' : A} (h : Alike AspectType.call aspect aspect') (phase : Phase)
    (ok : Bool) (s : σ) :
    (doPhase phase aspect ok s).1 = (doPhase phase aspect' ok s).1 ∧
      Alike AspectType.call (doPhase phase aspect ok s).2 (doPhase phase aspect' ok s).2 := by
  rw [doPhase_eq, doPhase_eq]
  cases ok with
  | false => exact ⟨rfl, h⟩
  | true =>
    refine ⟨?_, h.next (phase, s)⟩
    rw [if_pos rfl, if_pos rfl, h.answer_eq (phase, s)]

omit [HandlerType F ε σ] in
/-- So do lists of them. -/
theorem doEach_alike {elements elements' : List (Element A)}
    (h : List.Forall₂ (fun element element' : Element A =>
      Alike AspectType.call element.aspect element'.aspect) elements elements')
    (phase : Phase) (ok : Bool) (s : σ) :
    (doEach phase elements ok s).1 = (doEach phase elements' ok s).1 ∧
      List.Forall₂ (fun element element' : Element A =>
        Alike AspectType.call element.aspect element'.aspect)
        (doEach phase elements ok s).2 (doEach phase elements' ok s).2 := by
  induction h generalizing ok s with
  | nil => exact ⟨rfl, .nil⟩
  | @cons element element' elements elements' halike htail ih =>
    obtain ⟨hanswer, hnext⟩ := doPhase_alike halike phase ok s
    rw [doEach, doEach]
    dsimp only
    rw [← hanswer]
    rcases (doPhase phase element.aspect ok s).1 with ⟨_ | ok, s⟩
    · exact ⟨rfl, .cons hnext htail⟩
    · exact ⟨(ih ok s).1, .cons hnext (ih ok s).2⟩

omit [AspectType A ε σ] in
/-- Wrapped as a coroutine or not, the handler is called and answers. -/
theorem CoroHandler.invoke_eq (coro : CoroHandler F) (s : σ) :
    (coro.invoke s).1 = (HandlerType.invoke coro.handler s).1 ∧
      (coro.invoke s).2.handler = (HandlerType.invoke coro.handler s).2 := by
  cases coro with
  | itself handler | around handler => exact ⟨rfl, rfl⟩

/-- **Coroutines whose parts behave alike behave alike.** -/
theorem CoroHttpHandler.isBisim_run :
    IsBisim (CoroHttpHandler.run (F := F) (A := A)) CoroHttpHandler.PartsAlike := by
  rintro ⟨coro, elements⟩ ⟨coro', elements'⟩ ⟨hhandler, haspects⟩ s
  have hinvoke : ∀ s, (coro.invoke s).1 = (coro'.invoke s).1 ∧
      Alike HandlerType.invoke (coro.invoke s).2.handler (coro'.invoke s).2.handler := by
    intro s
    rw [(CoroHandler.invoke_eq coro s).1, (CoroHandler.invoke_eq coro' s).1,
      (CoroHandler.invoke_eq coro s).2, (CoroHandler.invoke_eq coro' s).2]
    exact ⟨hhandler.answer_eq s, hhandler.next s⟩
  dsimp only at haspects
  obtain ⟨hbefores, haspects'⟩ := doEach_alike haspects .before true s
  cases haspects with
  | nil => exact ⟨(hinvoke s).1, (hinvoke s).2, .nil⟩
  | cons =>
    unfold run
    rw [if_neg (List.cons_ne_nil _ _), if_neg (List.cons_ne_nil _ _)]
    dsimp only
    rw [← hbefores]
    rcases (doEach _ _ _ _).1 with ⟨e | ok, s⟩
    · exact ⟨rfl, hhandler, haspects'⟩
    · -- the handler is called if all aspects have agreed
      have hcalled : (if ok then coro.invoke s else ((.ok (), s), coro)).1 =
            (if ok then coro'.invoke s else ((.ok (), s), coro')).1 ∧
          Alike HandlerType.invoke (if ok then coro.invoke s else ((.ok (), s), coro)).2.handler
            (if ok then coro'.invoke s else ((.ok (), s), coro')).2.handler := by
        cases ok with
        | false => exact ⟨rfl, hhandler⟩
        | true => exact hinvoke s
      dsimp only
      rw [← hcalled.1]
      rcases (if ok then coro.invoke s else ((.ok (), s), coro)).1 with ⟨e | _, s⟩
      · exact ⟨rfl, hcalled.2, haspects'⟩
      · obtain ⟨hafters, haspects''⟩ := doEach_alike haspects' .after true s
        dsimp only
        rw [← hafters]
        exact ⟨rfl, hcalled.2, haspects''⟩

/-- The handler and the aspects of a coroutine behave like these arguments. -/
def CoroHttpHandler.BehavesAs (coro : CoroHttpHandler F A) (handler : Arg F) (asps : List (Arg A)) :
    Prop :=
  Alike HandlerType.invoke coro.coroHandler.handler handler.object ∧
    List.Forall₂ (fun (element : Element A) (asp : Arg A) =>
      Alike AspectType.call element.aspect asp.object) coro.aspects asps

end

/-! ## One coroutine for each method -/

section
variable {F A ε σ Ws Regex : Type} [HandlerType F ε σ] [Movable F] [Movable A] [StdRegex Regex]

/-- The coroutine that is made of the arguments after some others. -/
def nthMade (handler : Arg F) (asps : List (Arg A)) (k : Nat) : CoroHttpHandler F A :=
  (makeCoroHttpHandler (Arg.rest^[k] handler) (asps.map Arg.rest^[k])).1

/-- The calls of `set_http_handler_impl`. -/
def implCalls (Ws : Type) (key : Bytes) :
    List Verb → Arg F → List (Arg A) → List (Registration (CoroHttpHandler F A) Ws)
  | [], _, _ => []
  | method :: methods, handler, asps =>
    ⟨key, .http method (makeCoroHttpHandler handler asps).1⟩ ::
      implCalls Ws key methods handler.rest (asps.map Arg.rest)

omit [StdRegex Regex] in
/-- The methods of the second part find the arguments that the first part has left. -/
theorem implCalls_append (key : Bytes) (methods methods' : List Verb) (handler : Arg F)
    (asps : List (Arg A)) :
    implCalls Ws key (methods ++ methods') handler asps =
      implCalls Ws key methods handler asps ++
        implCalls Ws key methods' (Arg.rest^[methods.length] handler)
          (asps.map Arg.rest^[methods.length]) := by
  induction methods generalizing handler asps with
  | nil => exact congrArg (implCalls Ws key methods' handler) (List.map_id asps).symm
  | cons method methods ih =>
    rw [List.cons_append, implCalls, ih, implCalls, List.map_map, List.length_cons,
      Function.iterate_succ, Function.comp_apply]
    rfl

omit [StdRegex Regex] in
/-- Every registration is of the key and of one of the methods. -/
theorem of_mem_implCalls {key : Bytes} {methods : List Verb} {handler : Arg F} {asps : List (Arg A)}
    {reg : Registration (CoroHttpHandler F A) Ws} (h : reg ∈ implCalls Ws key methods handler asps) :
    reg.path = key ∧ ∃ method coro, method ∈ methods ∧ reg.target = .http method coro := by
  induction methods generalizing handler asps with
  | nil => cases h
  | cons method methods ih =>
    rw [implCalls, List.mem_cons] at h
    rcases h with rfl | h
    · exact ⟨rfl, method, _, List.mem_cons_self, rfl⟩
    · obtain ⟨hpath, method', coro, hmem, htarget⟩ := ih h
      exact ⟨hpath, method', coro, List.mem_cons_of_mem _ hmem, htarget⟩

/-- What is in force for a method is what its last occurrence has made. -/
theorem getLast?_implCalls (Ws : Type) (key : Bytes) {m : Verb} {back : List Verb} (hback : m ∉ back)
    (front : List Verb) (handler : Arg F) (asps : List (Arg A)) :
    (((implCalls Ws key (front ++ m :: back) handler asps).map fun reg =>
      some reg.target).filterMap (Target.kept m)).getLast? =
        some (nthMade handler asps front.length) := by
  rw [implCalls_append, implCalls, List.map_append, List.map_cons, List.filterMap_append,
    List.filterMap_cons, Target.kept_http]
  have hrest : ((implCalls Ws key back (Arg.rest^[front.length] handler).rest
      ((asps.map Arg.rest^[front.length]).map Arg.rest)).map fun reg =>
        some reg.target).filterMap (Target.kept m) = [] := by
    rw [List.filterMap_eq_nil_iff]
    intro left hleft
    obtain ⟨reg, hreg, rfl⟩ := List.mem_map.1 hleft
    obtain ⟨-, method, coro, hmem, htarget⟩ := of_mem_implCalls hreg
    rw [htarget]
    refine if_neg ?_
    rintro rfl
    exact hback hmem
  rw [hrest, List.getLast?_concat]
  rfl

/-- **The fold registers them one after the other**, until one throws. -/
theorem Router.setHttpHandlers_eq {router : Router (CoroHttpHandler F A) Ws Regex}
    {methods : List Verb} {key : Bytes} {handler : Arg F} {asps : List (Arg A)}
    (hok : (router.setHttpHandlers methods key handler asps).1.2 = true) :
    (router.setHttpHandlers methods key handler asps).1.1 =
      router.registerEach (implCalls Ws key methods handler asps) := by
  induction methods generalizing router handler asps with
  | nil => rfl
  | cons method methods ih =>
    rw [setHttpHandlers] at hok ⊢
    split at hok
    · next hfirst =>
      rw [if_pos hfirst]
      exact ih hok
    · next hfirst => exact absurd hok hfirst

/-- When the fold succeeds every segment of the key compiles. -/
theorem Router.all_compiles_of_setHttpHandlers {router : Router (CoroHttpHandler F A) Ws Regex}
    {es : Entries Segment (Option (Target (CoroHttpHandler F A) Ws))} (h : Holds router.root es)
    {method : Verb} {methods : List Verb} {key : Bytes} {handler : Arg F} {asps : List (Arg A)}
    (hok : (router.setHttpHandlers (method :: methods) key handler asps).1.2 = true) :
    (Segment.pattern (splitSegments key)).all (Segment.compiles Regex) = true := by
  have hfirst : (router.register ⟨key, .http method (makeCoroHttpHandler handler asps).1⟩).2 = true := by
    rw [setHttpHandlers] at hok
    split at hok
    · next hfirst => exact hfirst
    · next hfirst => exact absurd hok hfirst
  exact ((h.register _).1.symm.trans hfirst)

/-- Then each of the calls leaves its target at the pattern of the key. -/
theorem traces_implCalls {key : Bytes}
    (hall : (Segment.pattern (splitSegments key)).all (Segment.compiles Regex) = true)
    (methods : List Verb) (handler : Arg F) (asps : List (Arg A)) :
    traces Regex (implCalls Ws key methods handler asps) =
      ((implCalls Ws key methods handler asps).map fun reg => some reg.target).map fun left =>
        (Segment.pattern (splitSegments key), left) := by
  rw [List.map_map]
  refine List.map_congr_left fun reg hreg => ?_
  rw [(of_mem_implCalls hreg).1, Segment.trace, hall, if_pos rfl,
    List.takeWhile_eq_self_iff.2 (List.all_eq_true.1 hall)]
  rfl

end

/-- A request for a key: of the patterns that match its path and have a handler for its method, that of
the key goes first. -/
def ForKey {Handler Ws : Type} (Regex : Type) [StdRegex Regex] (pre : List (Registration Handler Ws))
    (key : Bytes) (req : Request) : Prop :=
  (Segment.alphabet Regex).accept (Segment.pattern (splitSegments key)) (splitSegments req.path) =
      true ∧
    ∀ c handler, (c, some (.http req.method handler)) ∈ traces Regex pre →
      (Segment.alphabet Regex).accept c (splitSegments req.path) = true →
      c = Segment.pattern (splitSegments key) ∨
        (Segment.alphabet Regex).precedes
          (traces Regex pre ++ [(Segment.pattern (splitSegments key), none)])
          (Segment.pattern (splitSegments key)) c = true

section
variable {F A ε σ Ws Regex Json StreamHandler : Type} [HandlerType F ε σ] [Movable F] [Movable A]
  [StdRegex Regex]

/-- **A request for the key runs what the last occurrence of its method has made.** -/
theorem run_of_forKey {pre : List (Registration (CoroHttpHandler F A) Ws)} {key : Bytes}
    {front back : List Verb} {handler : Arg F} {asps : List (Arg A)} {req : Request}
    (hok : ((({} : Router (CoroHttpHandler F A) Ws Regex).registerEach pre).setHttpHandlers
      (front ++ req.method :: back) key handler asps).1.2 = true) (hback : req.method ∉ back)
    (hfor : ForKey Regex pre key req) (host : Host) (resp : Response Json StreamHandler) :
    ∃ params, ((({} : Router (CoroHttpHandler F A) Ws Regex).registerEach pre).setHttpHandlers
      (front ++ req.method :: back) key handler asps).1.1.procRouting host req resp =
        .run (nthMade handler asps front.length) { req with pathParams := params } := by
  have hpre : Holds (({} : Router (CoroHttpHandler F A) Ws Regex).registerEach pre).root
      ([] ++ traces Regex pre) := holds_empty.registerEach pre
  have hall : (Segment.pattern (splitSegments key)).all (Segment.compiles Regex) = true := by
    cases front with
    | nil | cons => exact Router.all_compiles_of_setHttpHandlers hpre hok
  have hrouter := hpre.registerEach (implCalls Ws key (front ++ req.method :: back) handler asps)
  rw [← Router.setHttpHandlers_eq hok, List.nil_append, traces_implCalls hall] at hrouter
  have hlast := getLast?_implCalls Ws key hback front handler asps
  have hpick := Alphabet.pick_appended (a := none) hfor.1 hlast fun c coro hc => by
    obtain ⟨hacc, left, hentry, hkept⟩ := Alphabet.mem_candidates.1 hc
    obtain ⟨target, rfl, hselect⟩ := Option.bind_eq_some_iff.1 hkept
    cases target with
    | ws entry => cases hselect
    | http method handler =>
      rw [Target.select, Option.ite_none_right_eq_some] at hselect
      exact (hfor.2 c handler (hselect.1 ▸ hentry) hacc).imp_left Eq.symm
  have hverdict := Router.verdict_eq hrouter host req resp
  rw [hpick] at hverdict
  rcases Router.procRouting_eq hrouter host req resp with ⟨node, coro, params, -, -, hrun⟩ | ⟨-, hrun⟩
  · rw [hrun] at hverdict ⊢
    cases hverdict
    exact ⟨params, rfl⟩
  · rw [hrun] at hverdict
    cases hverdict

omit [StdRegex Regex] in
/-- The handler of the coroutine is the object of the argument. -/
theorem handler_makeCoroHttpHandler (handler : Arg F) (asps : List (Arg A)) :
    (makeCoroHttpHandler handler asps).1.coroHandler.handler = handler.object := by
  rw [makeCoroHttpHandler, makeCoroHandler]
  dsimp only
  split <;> rfl

omit [StdRegex Regex] in
/-- What behaves as the arguments behaves as what is made of them. -/
theorem CoroHttpHandler.BehavesAs.partsAlike [AspectType A ε σ] {coro : CoroHttpHandler F A}
    {handler : Arg F} {asps : List (Arg A)} (h : coro.BehavesAs handler asps) :
    coro.PartsAlike (makeCoroHttpHandler handler asps).1 := by
  refine ⟨?_, List.forall₂_map_right_iff.2 h.2⟩
  rw [handler_makeCoroHttpHandler]
  exact h.1

omit [StdRegex Regex] in
/-- What is made of the arguments after some others behaves as they did exactly if they survive. -/
theorem behavesAs_nthMade [AspectType A ε σ] {handler : Arg F} {asps : List (Arg A)} {k : Nat} :
    (nthMade handler asps k).BehavesAs handler asps ↔
      handler.Survives HandlerType.invoke k ∧ ∀ asp ∈ asps, asp.Survives AspectType.call k := by
  have haspects : (nthMade handler asps k).aspects =
      asps.map fun asp => Element.ofArg (Arg.rest^[k] asp) := List.map_map
  rw [CoroHttpHandler.BehavesAs, nthMade, handler_makeCoroHttpHandler, ← nthMade, haspects,
    List.forall₂_map_left_iff, List.forall₂_same, Arg.alike_rest_iff]
  refine and_congr_right fun _ => forall₂_congr fun asp _ => ?_
  exact Arg.alike_rest_iff

/-- A list and a member of it, split at its last occurrence. -/
theorem exists_last_occurrence {α : Type} {l : List α} {x : α} (h : x ∈ l) :
    ∃ front back, l = front ++ x :: back ∧ x ∉ back := by
  obtain ⟨back, front, hsplit, hnot⟩ := List.eq_append_cons_of_mem (List.mem_reverse.2 h)
  refine ⟨front.reverse, back.reverse, ?_, fun hmem => hnot (List.mem_reverse.1 hmem)⟩
  rw [← List.reverse_reverse l, hsplit]
  simp

/-- A request with one of the methods runs a coroutine that behaves like the arguments. -/
def ServesLike [AspectType A ε σ] (Json StreamHandler : Type)
    (router : Router (CoroHttpHandler F A) Ws Regex) (pre : List (Registration (CoroHttpHandler F A) Ws))
    (methods : List Verb) (key : Bytes) (handler : Arg F) (asps : List (Arg A)) : Prop :=
  ∀ (host : Host) (req : Request) (resp : Response Json StreamHandler), req.method ∈ methods →
    ForKey Regex pre key req →
    ∃ coro params, router.procRouting host req resp = .run coro { req with pathParams := params } ∧
      coro.BehavesAs handler asps ∧
      Alike CoroHttpHandler.run coro (makeCoroHttpHandler handler asps).1

/-- **When each method runs what was passed**: exactly if for each method for which requests reach the
key, the arguments survive the registrations in front of its last occurrence. -/
theorem servesLike_iff [AspectType A ε σ] {pre : List (Registration (CoroHttpHandler F A) Ws)}
    {key : Bytes} {methods : List Verb} {handler : Arg F} {asps : List (Arg A)}
    (hok : ((({} : Router (CoroHttpHandler F A) Ws Regex).registerEach pre).setHttpHandlers methods key
      handler asps).1.2 = true) :
    ServesLike Json StreamHandler
      ((({} : Router (CoroHttpHandler F A) Ws Regex).registerEach pre).setHttpHandlers methods key
        handler asps).1.1 pre methods key handler asps ↔
      ∀ front m back, methods = front ++ m :: back → m ∉ back →
        (∃ req : Request, req.method = m ∧ ForKey Regex pre key req) →
        handler.Survives HandlerType.invoke front.length ∧
          ∀ asp ∈ asps, asp.Survives AspectType.call front.length := by
  constructor
  · rintro h front m back rfl hback ⟨req, rfl, hfor⟩
    obtain ⟨params, hrun⟩ := run_of_forKey hok hback hfor plainHost
      (.new plainHost 11 true : Response Json StreamHandler)
    obtain ⟨coro, params', hrun', hbehaves, -⟩ := h plainHost req (.new plainHost 11 true)
      (by simp) hfor
    cases hrun.symm.trans hrun'
    exact behavesAs_nthMade.1 hbehaves
  · intro h host req resp hmethod hfor
    obtain ⟨front, back, rfl, hback⟩ := exists_last_occurrence hmethod
    obtain ⟨params, hrun⟩ := run_of_forKey hok hback hfor host resp
    have hbehaves := behavesAs_nthMade.2 (h front req.method back rfl hback ⟨req, rfl, hfor⟩)
    exact ⟨_, params, hrun, hbehaves, _, CoroHttpHandler.isBisim_run, hbehaves.partsAlike⟩

omit [HandlerType F ε σ] [Movable F] [Movable A] [StdRegex Regex] in
/-- A member function, in a `std::function` that is passed as an rvalue, survives no registration, unless
its calls throw what those of an empty one do. -/
theorem survives_member_iff {Owner : Type} {isAwaitable : Bool}
    {member : BoundMember isAwaitable Owner ε σ} {k : Nat} :
    (⟨.rvalue, ⟨some member⟩⟩ : Arg (StdFunction (BoundMember isAwaitable Owner ε σ))).Survives
        HandlerType.invoke k ↔
      k = 0 ∨ ∀ s, member.handler member.owner s = (.error .badFunctionCall, s) := by
  cases k with
  | zero => exact iff_of_true (Arg.survives_zero _) (.inl rfl)
  | succ k =>
    have hmoved : Movable.moved^[k + 1] (⟨some member⟩ : StdFunction (BoundMember isAwaitable Owner ε σ)) =
        ⟨none⟩ := Function.iterate_succ_apply' _ _ _
    rw [Arg.Survives, hmoved]
    constructor
    · intro h
      exact .inr fun s => ((h rfl).answer_eq s).symm
    · intro h _
      refine ⟨fun a b => a = ⟨none⟩ ∧ b = ⟨some member⟩, ?_, rfl, rfl⟩
      rintro _ _ ⟨rfl, rfl⟩ s
      exact ⟨(h.resolve_left (Nat.succ_ne_zero k) s).symm, rfl, rfl⟩

/-- **When `set_http_handler` gives each of its methods what it was passed.** A handler of any type of
function objects, and a member function with its owner. -/
theorem set_http_handler_iff [AspectType A ε σ] (Json StreamHandler : Type) :
    (∀ (pre : List (Registration (CoroHttpHandler F A) Ws)) (methods : List Verb) (key : Bytes)
      (handler : Arg F) (asps : List (Arg A)),
      let r := (({} : Router (CoroHttpHandler F A) Ws Regex).registerEach pre).setHttpHandlers methods
        key handler asps
      r.1.2 = true →
        (ServesLike Json StreamHandler r.1.1 pre methods key handler asps ↔
          ∀ front m back, methods = front ++ m :: back → m ∉ back →
            (∃ req : Request, req.method = m ∧ ForKey Regex pre key req) →
            handler.Survives HandlerType.invoke front.length ∧
              ∀ asp ∈ asps, asp.Survives AspectType.call front.length)) ∧
    ∀ (Owner : Type) (isAwaitable : Bool)
      (pre : List (Registration
        (CoroHttpHandler (StdFunction (BoundMember isAwaitable Owner ε σ)) A) Ws))
      (methods : List Verb) (key : Bytes) (handler : Owner → σ → Outcome ε σ Unit) (owner : Owner)
      (asps : List (Arg A)),
      let r := (({} : Router (CoroHttpHandler (StdFunction (BoundMember isAwaitable Owner ε σ)) A)
        Ws Regex).registerEach pre).setHttpMember methods key handler owner asps
      r.1.2 = true →
        (ServesLike Json StreamHandler r.1.1 pre methods key
            ⟨.rvalue, ⟨some ⟨handler, owner⟩⟩⟩ asps ↔
          ∀ front m back, methods = front ++ m :: back → m ∉ back →
            (∃ req : Request, req.method = m ∧ ForKey Regex pre key req) →
            (front = [] ∨ ∀ s, handler owner s = (.error .badFunctionCall, s)) ∧
              ∀ asp ∈ asps, asp.Survives AspectType.call front.length) := by
  constructor
  · intro pre methods key handler asps r hok
    exact servesLike_iff hok
  · intro Owner isAwaitable pre methods key handler owner asps r hok
    refine (servesLike_iff hok).trans ?_
    simp only [survives_member_iff, List.length_eq_zero_iff]

end

/-- A handler that counts its calls. -/
@[reducible] def countingHandler : HandlerType Unit Empty Nat where
  isAwaitable := false
  invoke _ s := ((.ok (), s + 1), ())

/-- Aspects without members. -/
@[reducible] def idleAspect : AspectType Unit Empty Nat where
  before _ := none
  after _ := none

/-- A `std::function` that is passed as an lvalue serves two methods. -/
theorem set_http_handler_iff_lvalue :
    letI := countingHandler
    letI := idleAspect
    letI := literalRegex
    letI : Movable Unit := ⟨id⟩
    ServesLike Unit Unit ((({} : Router (CoroHttpHandler (StdFunction Unit) Unit) Unit Bytes).registerEach
      []).setHttpHandlers [.get, .post] (bytes "/x") ⟨.lvalue, ⟨some ()⟩⟩ []).1.1 [] [.get, .post]
      (bytes "/x") ⟨.lvalue, ⟨some ()⟩⟩ [] := by
  let _ := countingHandler
  let _ := idleAspect
  let _ := literalRegex
  let _ : Movable Unit := ⟨id⟩
  have hok : ((({} : Router (CoroHttpHandler (StdFunction Unit) Unit) Unit Bytes).registerEach
      []).setHttpHandlers [.get, .post] (bytes "/x") ⟨.lvalue, ⟨some ()⟩⟩ []).1.2 = true := rfl
  refine ((@set_http_handler_iff (StdFunction Unit) Unit Empty Nat Unit Bytes _ _ _ _ _ Unit Unit).1 []
    [.get, .post] (bytes "/x") ⟨.lvalue, ⟨some ()⟩⟩ [] hok).2 fun front m back _ _ _ =>
      ⟨nofun, fun asp hasp => nomatch hasp⟩

open scoped Platform.Plain in
/-- A `std::function` that is passed as an rvalue for GET and POST: POST throws. -/
theorem set_http_handler_iff_rvalue :
    letI := countingHandler
    letI := idleAspect
    letI := literalRegex
    letI : Movable Unit := ⟨id⟩
    let handler : StdFunction Unit := ⟨some ()⟩
    let router : Router (CoroHttpHandler (StdFunction Unit) Unit) Unit Bytes :=
      (({} : Router (CoroHttpHandler (StdFunction Unit) Unit) Unit Bytes).setHttpHandlers [.get, .post]
        (bytes "/x") ⟨.rvalue, handler⟩ []).1.1
    let served := fun method => ((router.procRouting plainHost
      (.ofHeader method (bytes "/x") 11 []) (.new plainHost 11 true : Response Unit Unit)).handler?.map
        fun coro => (coro.run 0).1)
    (HandlerType.invoke handler 0).1 = (.ok (), 1) ∧ served .get = some (.ok (), 1) ∧
      served .post = some (.error .badFunctionCall, 0) :=
  ⟨rfl, rfl, rfl⟩

end Httplib
