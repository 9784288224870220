import Httplib.Lib.PatternOrder
import Httplib.Server.Routing
import Mathlib.Data.Set.Finite.Basic

/-!
# Registrations that throw

A registration whose pattern has a regular expression that does not compile throws, and leaves the
nodes in front of it in the tree. They hold no handler, but their places among the parameters and the
regular expressions of their node are taken. `failed_registration_iff` says when this tells in no
later request, whatever is registered in between.
-/

namespace Httplib

open Patterns

/-- A parameter or a regular expression: the nodes for these are tried in the order in which they were
made. -/
def Segment.inVector : Segment → Bool
  | .regex _ | .param _ => true
  | .static _ | .wildcard => false

/-- What calls leave in the tree, in their order. -/
def traces {Handler Ws : Type} (Regex : Type) [StdRegex Regex] (regs : List (Registration Handler Ws)) :
    Entries Segment (Option (Target Handler Ws)) :=
  regs.map fun reg => Segment.trace Regex (Segment.pattern (splitSegments reg.path)) reg.target

namespace Router

variable {Handler Ws Regex Json StreamHandler : Type} [StdRegex Regex]

/-- The router after some calls, each of which may throw. -/
def registerEach (router : Router Handler Ws Regex) (regs : List (Registration Handler Ws)) :
    Router Handler Ws Regex :=
  regs.foldl (fun router reg => (router.register reg).1) router

/-- What a request comes to: the handler that is run, or the answer. -/
def Routed.verdict : Routed Handler Json StreamHandler → Handler ⊕ Response Json StreamHandler
  | .run handler _ => .inl handler
  | .answered resp => .inr resp

end Router

/-- The nodes that a call leaves for a pattern tell in no request. Each parameter or regular expression
among them for which there was no node before is behind a route that was registered before: every
request whose path matches the pattern up to it is taken by one that goes before it. -/
def Inert {Handler Ws : Type} (Regex : Type) [StdRegex Regex] (regs : List (Registration Handler Ws))
    (p : List Segment) : Prop :=
  ∀ front l back, p.takeWhile (Segment.compiles Regex) = front ++ l :: back → l.inVector = true →
    New (front ++ [l]) (traces Regex regs) → ∀ req : Request,
    (Segment.alphabet Regex).accept (front ++ [l])
      ((splitSegments req.path).take (front.length + 1)) = true →
    ∃ c handler, (c, some (.http req.method handler)) ∈ traces Regex regs ∧
      (Segment.alphabet Regex).accept c (splitSegments req.path) = true ∧
      (Segment.alphabet Regex).precedes (traces Regex regs) c (front ++ [l]) = true

section
variable {Handler Ws Regex Json StreamHandler : Type} [StdRegex Regex]
  {router router' : Router Handler Ws Regex}
  {es es' : Entries Segment (Option (Target Handler Ws))}

/-! ## What a request comes to -/

omit [StdRegex Regex] in
/-- A handler is kept for its own method. -/
theorem Target.kept_http (method : Verb) (handler : Handler) :
    Target.kept method (some (.http method handler : Target Handler Ws)) = some handler :=
  if_pos rfl

/-- The router after any calls holds their traces. -/
theorem Holds.registerEach (h : Holds router.root es) (regs : List (Registration Handler Ws)) :
    Holds (router.registerEach regs).root (es ++ traces Regex regs) := by
  induction regs generalizing router es with
  | nil => rwa [traces, List.map_nil, List.append_nil]
  | cons reg regs ih =>
    have hrun := ih (h.register reg).2
    rwa [List.append_assoc] at hrun

/-- The handler is the one that the flat matcher picks; where there is none, the answer is a
refusal. -/
theorem Router.verdict_eq (h : Holds router.root es) (host : Host) (req : Request)
    (resp : Response Json StreamHandler) :
    (router.procRouting host req resp).verdict =
      match (Segment.alphabet Regex).pick (Target.kept req.method) es (splitSegments req.path) with
      | some handler => .inl handler
      | none => .inr (refuse host resp (allowed (router.nodesAt req.path) [])) := by
  rw [pick_eq_findSome? h, findSome?_eq_bind]
  rcases procRouting_eq h host req resp with ⟨node, handler, params, hfind, hhandler, hrun⟩ |
    ⟨hfind, hrun⟩
  · rw [hfind, hrun, Option.bind_some, hhandler]
    rfl
  · rw [hfind, hrun]
    rfl

/-- The methods that a refusal names are those registered under patterns that match. -/
theorem Router.allowed_congr (h : Holds router.root es) (h' : Holds router'.root es')
    (hsame : ∀ p target, (p, some target) ∈ es ↔ (p, some target) ∈ es') (path : Bytes) :
    allowed (router.nodesAt path) [] = allowed (router'.nodesAt path) [] := by
  have hperm : (allowed (router.nodesAt path) []).Perm (allowed (router'.nodesAt path) []) := by
    refine (List.perm_ext_iff_of_nodup (nodup_allowed _) (nodup_allowed _)).2 fun x => ?_
    rw [mem_allowed h, mem_allowed h']
    simp only [hsame]
  refine hperm.eq_of_pairwise (fun a b _ _ hab hba => ?_) (pairwise_allowed _) (pairwise_allowed _)
  exact absurd (List.lt_trans hab hba) (List.lt_irrefl a)

/-- What `pre_routing` answers depends on the choice of the flat matcher, and on the methods that a
refusal names. -/
theorem Router.preRouting_congr (h : Holds router.root es) (h' : Holds router'.root es')
    {req : Request}
    (hpick : (Segment.alphabet Regex).pick (Target.kept req.method) es (splitSegments req.path) =
      (Segment.alphabet Regex).pick (Target.kept req.method) es' (splitSegments req.path))
    (hallowed : allowed (router.nodesAt req.path) [] = allowed (router'.nodesAt req.path) [])
    (host : Host) (resp : Response Json StreamHandler) :
    router.preRouting host req resp = router'.preRouting host req resp := by
  by_cases hmethod : req.method ∈ [Verb.get, .head, .trace, .connect, .options]
  · have hpass : ∀ router : Router Handler Ws Regex,
        router.preRouting host req resp = (true, resp) := by
      intro router
      simp only [List.mem_cons, List.not_mem_nil, or_false] at hmethod
      rcases hmethod with hm | hm | hm | hm | hm <;> simp only [preRouting, hm]
    rw [hpass, hpass]
  · rw [pick_eq_findSome? h, pick_eq_findSome? h', findSome?_eq_bind, findSome?_eq_bind] at hpick
    rw [preRouting_eq h host hmethod, preRouting_eq h' host hmethod, hallowed]
    cases hfind : (router.nodesAt req.path).find? fun node =>
        (findHandler node.handlers req.method).isSome with
    | none =>
      cases hfind' : (router'.nodesAt req.path).find? fun node =>
          (findHandler node.handlers req.method).isSome with
      | none => rfl
      | some node =>
        have hsome := List.find?_some hfind'
        rw [hfind, hfind', Option.bind_none, Option.bind_some] at hpick
        rw [← hpick] at hsome
        cases hsome
    | some node =>
      cases hfind' : (router'.nodesAt req.path).find? fun node =>
          (findHandler node.handlers req.method).isSome with
      | none =>
        have hsome := List.find?_some hfind
        rw [hfind, hfind', Option.bind_none, Option.bind_some] at hpick
        rw [hpick] at hsome
        cases hsome
      | some node' => rfl

/-! ## Where the nodes tell in no request -/

/-- Two labels of one rank that accept the same segment are parameters or regular expressions. -/
theorem Segment.inVector_of_accept {front : List Segment} {l m : Segment} {segments : List Bytes}
    (hne : m ≠ l) (hrank : (Segment.alphabet Regex).rank m = (Segment.alphabet Regex).rank l)
    (hl : (Segment.alphabet Regex).accept (front ++ [l]) (segments.take (front.length + 1)) = true)
    (hm : (Segment.alphabet Regex).accept (front ++ [m]) (segments.take (front.length + 1)) = true) :
    l.inVector = true := by
  obtain ⟨s, hs, hacc⟩ := Alphabet.exists_accepts_of_accept_take hl
  obtain ⟨s', hs', hacc'⟩ := Alphabet.exists_accepts_of_accept_take hm
  cases hs.symm.trans hs'
  cases l with
  | regex | param => rfl
  | wildcard =>
    cases m with
    | wildcard => exact absurd rfl hne
    | static | regex | param => cases hrank
  | static a =>
    cases m with
    | static b =>
      simp only [Segment.alphabet, Bool.false_eq_true, false_or, decide_eq_true_eq] at hacc hacc'
      exact absurd (congrArg Segment.static (hacc'.trans hacc.symm)) hne
    | regex | param | wildcard => cases hrank

/-- Inert nodes change no choice. -/
theorem pick_of_inert {pre : List (Registration Handler Ws)} {p : List Segment}
    (hinert : Inert Regex pre p) (later : List (Registration Handler Ws)) (req : Request) :
    (Segment.alphabet Regex).pick (Target.kept req.method)
        (traces Regex pre ++ (p.takeWhile (Segment.compiles Regex), none) :: traces Regex later)
        (splitSegments req.path) =
      (Segment.alphabet Regex).pick (Target.kept req.method) (traces Regex pre ++ traces Regex later)
        (splitSegments req.path) := by
  refine Alphabet.pick_insert rfl fun front l back m hp hne hrank hl hm hnew => ?_
  obtain ⟨c, handler, hc, hacc, hprecedes⟩ :=
    hinert front l back hp (Segment.inVector_of_accept hne hrank hl hm) hnew req hl
  exact ⟨c, handler, Alphabet.mem_candidates.2 ⟨hacc, _, hc, Target.kept_http _ _⟩, hprecedes⟩

/-- **Inert nodes change no answer.** -/
theorem routing_of_inert (host : Host) {pre later : List (Registration Handler Ws)} {p : List Segment}
    (h : Holds router.root (traces Regex pre ++
      (p.takeWhile (Segment.compiles Regex), none) :: traces Regex later))
    (h' : Holds router'.root (traces Regex pre ++ traces Regex later)) (hinert : Inert Regex pre p)
    (req : Request) (resp : Response Json StreamHandler) :
    (router.procRouting host req resp).verdict = (router'.procRouting host req resp).verdict ∧
      router.preRouting host req resp = router'.preRouting host req resp := by
  have hallowed : Router.allowed (router.nodesAt req.path) [] =
      Router.allowed (router'.nodesAt req.path) [] :=
    Router.allowed_congr h h' (fun q target => by simp) req.path
  have hpick := pick_of_inert hinert later req
  refine ⟨?_, Router.preRouting_congr h h' hpick hallowed host resp⟩
  rw [Router.verdict_eq h, Router.verdict_eq h', hallowed, hpick]

end

/-! ## Paths for patterns -/

/-- The path of some segments. -/
def pathOf (segments : List Bytes) : Bytes := 47 :: [47].intercalate segments

/-- The path of clean segments is split into just these. -/
theorem splitSegments_pathOf {segments : List Bytes} (hne : segments ≠ []) (hnil : segments ≠ [[]])
    (hclean : ∀ seg ∈ segments, (47 : UInt8) ∉ seg ∧ trimCopy seg = seg) :
    splitSegments (pathOf segments) = segments := by
  have hsplit := List.splitOn_intercalate 47 (fun seg hseg => (hclean seg hseg).1) hne
  have hslash : pathOf segments ≠ [47] := by
    intro h
    have hempty : [47].intercalate segments = [] := (List.cons.inj h).2
    rw [hempty] at hsplit
    exact hnil hsplit.symm
  have hstrip : stripLeading 47 (pathOf segments) = [47].intercalate segments := rfl
  rw [splitSegments_eq (show pathOf segments ≠ [] from List.cons_ne_nil _ _) hslash, hstrip, hsplit]
  exact (List.map_congr_left fun seg hseg => (hclean seg hseg).2).trans (List.map_id _)

/-- The segments of a path are clean: without slash, and trimmed. -/
theorem clean_splitSegments {path seg : Bytes} (h : seg ∈ splitSegments path) :
    (47 : UInt8) ∉ seg ∧ trimCopy seg = seg := by
  refine ⟨slash_not_mem_splitSegments h, ?_⟩
  by_cases hempty : path = []
  · rw [hempty] at h
    cases h
  by_cases hslash : path = [47]
  · have hnil : seg = [] := by
      rw [hslash, show splitSegments [47] = [[], []] from by decide] at h
      simpa using h
    rw [hnil]
    rfl
  · rw [splitSegments_eq hempty hslash] at h
    obtain ⟨piece, -, rfl⟩ := List.mem_map.1 h
    exact trimCopy_trimCopy piece

namespace Segment

/-- A segment that others follow. -/
def inner (seg : Bytes) : Segment := ofBytes seg [[]]

/-- A segment with others behind it is no wildcard. -/
theorem ofBytes_eq_inner {seg : Bytes} {rest : List Bytes} (h : rest ≠ []) :
    ofBytes seg rest = inner seg := by
  have hrest : ¬(rest = [] ∧ seg = bytes "*") := fun hw => h hw.1
  have hnil : ¬([([] : Bytes)] = [] ∧ seg = bytes "*") := fun hw => List.cons_ne_nil _ _ hw.1
  rw [inner, ofBytes, ofBytes, if_neg hrest, if_neg hnil]

/-- The segments in front of others give their inner segments. -/
theorem pattern_append (front : List Bytes) {rest : List Bytes} (h : rest ≠ []) :
    pattern (front ++ rest) = front.map inner ++ pattern rest := by
  induction front with
  | nil => rfl
  | cons seg front ih =>
    rw [List.cons_append, pattern, ih, ofBytes_eq_inner (by simp [h])]
    rfl

/-- A segment of a pattern, and what it was read from. -/
theorem exists_of_pattern_eq {segments : List Bytes} {front back : List Segment} {l : Segment}
    (h : pattern segments = front ++ l :: back) :
    ∃ before seg behind, segments = before ++ seg :: behind ∧ front = before.map inner ∧
      l = ofBytes seg behind := by
  induction front generalizing segments with
  | nil =>
    cases segments with
    | nil => cases h
    | cons seg behind => exact ⟨[], seg, behind, rfl, rfl, (List.cons.inj h).1.symm⟩
  | cons f front ih =>
    cases segments with
    | nil => cases h
    | cons s segments =>
      obtain ⟨hf, h⟩ := List.cons.inj h
      obtain ⟨before, seg, behind, rfl, rfl, rfl⟩ := ih h
      refine ⟨s :: before, seg, behind, rfl, ?_, rfl⟩
      rw [← hf, ofBytes_eq_inner (by simp)]
      rfl

/-! ## Segments in the place of another -/

/-- A parameter of a given length. -/
def paramText (n : Nat) : Bytes := 58 :: List.replicate n 97

/-- A segment with a regular expression, under a name of a given length. -/
def regexText (n : Nat) (regex : Bytes) : Bytes := 123 :: List.replicate n 97 ++ 58 :: regex ++ [125]

/-- A segment with a colon in front is a parameter, wherever it stands. -/
theorem ofBytes_colon (seg : Bytes) (rest : List Bytes) : ofBytes (58 :: seg) rest = .param (58 :: seg) := by
  have hstar : ¬(rest = [] ∧ 58 :: seg = bytes "*") := fun h =>
    absurd (List.cons.inj h.2).1 (by decide)
  have hcolon : startsWith (58 :: seg) (bytes ":") = true := startsWith_iff.2 (List.prefix_append [58] _)
  rw [ofBytes, if_neg hstar, if_pos hcolon]

/-- A segment in braces is a regular expression, wherever it stands. -/
theorem ofBytes_brace {seg : Bytes} (hlast : (123 :: seg).getLast? = some 125) (rest : List Bytes) :
    ofBytes (123 :: seg) rest = .regex (123 :: seg) := by
  have hstar : ¬(rest = [] ∧ 123 :: seg = bytes "*") := fun h =>
    absurd (List.cons.inj h.2).1 (by decide)
  have hcolon : ¬ startsWith (123 :: seg) (bytes ":") = true := fun h =>
    absurd (List.cons_prefix_cons.1 (startsWith_iff.1 h)).1 (by decide)
  rw [ofBytes, if_neg hstar, if_neg hcolon, if_pos ⟨rfl, hlast⟩]

/-- What a parameter or a regular expression was read from is one wherever it stands. -/
theorem ofBytes_of_inVector {seg : Bytes} {rest : List Bytes}
    (h : (ofBytes seg rest).inVector = true) :
    (∀ rest, ofBytes seg rest = .param seg) ∨ ∀ rest, ofBytes seg rest = .regex seg := by
  rw [ofBytes] at h
  split at h
  · cases h
  · split at h
    · next hcolon =>
      obtain ⟨tail, rfl⟩ := startsWith_iff.1 hcolon
      exact .inl (ofBytes_colon tail)
    · split at h
      · next hbrace =>
        obtain ⟨hhead, hlast⟩ := hbrace
        obtain ⟨tail, rfl⟩ := List.head?_eq_some_iff.1 hhead
        exact .inr (ofBytes_brace hlast)
      · cases h

/-- The text of a regex parameter is taken apart into its name and its regex. -/
theorem regexParts_regexText (n : Nat) (regex : Bytes) :
    Node.regexParts (regexText n regex) = (List.replicate n 97, regex) := by
  have hinside : substr (regexText n regex) 1 ((regexText n regex).length - 2) =
      List.replicate n 97 ++ ([58] ++ regex) := by
    have htext : regexText n regex = 123 :: (List.replicate n 97 ++ ([58] ++ regex)) ++ [125] := by
      simp [regexText]
    have hlen : (regexText n regex).length - 2 = (List.replicate n 97 ++ ([58] ++ regex)).length := by
      rw [htext]
      simp
    rw [substr, hlen, htext]
    exact List.take_left
  have hfind : find (List.replicate n 97 ++ ([58] ++ regex)) (bytes ":") = some n := by
    rw [find_zero, show bytes ":" = [58] from rfl,
      Search.leftmost_append_of_not_mem fun h => absurd (List.eq_of_mem_replicate h) (by decide),
      Search.leftmost_eq_zero (List.prefix_append _ _)]
    simp
  have htake : (List.replicate n (97 : UInt8) ++ ([58] ++ regex)).take n = List.replicate n 97 :=
    List.take_left' List.length_replicate
  have hdrop : (List.replicate n (97 : UInt8) ++ ([58] ++ regex)).drop (n + 1) = regex := by
    rw [← List.append_assoc]
    exact List.drop_left' (by simp)
  rw [Node.regexParts, hinside, hfind]
  simp only [htake, hdrop]

/-- Of a family of labels without repetition, one is not in a list. -/
theorem exists_not_mem {f : Nat → Segment} (hf : f.Injective) (avoid : List Segment) :
    ∃ n, f n ∉ avoid := by
  obtain ⟨-, ⟨n, rfl⟩, hn⟩ := (Set.infinite_range_of_injective hf).exists_notMem_finset avoid.toFinset
  exact ⟨n, fun h => hn (List.mem_toFinset.2 h)⟩

/-- Another segment that is tried as a given parameter or regular expression is. -/
theorem exists_sibling (Regex : Type) [StdRegex Regex] {seg : Bytes} {rest : List Bytes}
    (h : (ofBytes seg rest).inVector = true) (hclean : (47 : UInt8) ∉ seg)
    (avoid : List Segment) :
    ∃ text m, text ≠ [] ∧ ((47 : UInt8) ∉ text ∧ trimCopy text = text) ∧
      (∀ rest, ofBytes text rest = m) ∧ m ∉ avoid ∧
      m.compiles Regex = (ofBytes seg rest).compiles Regex ∧
      (alphabet Regex).takesRest m = false ∧
      (alphabet Regex).rank m = (alphabet Regex).rank (ofBytes seg rest) ∧
      (alphabet Regex).accepts m = (alphabet Regex).accepts (ofBytes seg rest) := by
  rcases ofBytes_of_inVector h with hparam | hregex
  · obtain ⟨n, hn⟩ := exists_not_mem (f := fun n => .param (paramText n))
      (fun n n' heq => by simpa [paramText] using heq) avoid
    refine ⟨paramText n, .param (paramText n), List.cons_ne_nil _ _, ⟨?_, trimCopy_eq_self ?_ ?_⟩,
      ofBytes_colon _, hn, ?_⟩
    · simp [paramText]
    · intro c hc
      cases hc
      rfl
    · intro c hc
      have hmem := List.mem_of_getLast? hc
      rw [paramText, List.mem_cons, List.mem_replicate] at hmem
      rcases hmem with rfl | ⟨-, rfl⟩ <;> rfl
    · rw [hparam]
      exact ⟨rfl, rfl, rfl, rfl⟩
  · obtain ⟨n, hn⟩ := exists_not_mem (f := fun n => .regex (regexText n (Node.regexParts seg).2))
      (fun n n' heq => by
        have hlen := congrArg List.length (Segment.regex.inj heq)
        simp only [regexText, List.cons_append, List.length_cons, List.length_append,
          List.length_replicate] at hlen
        omega) avoid
    have hend : (regexText n (Node.regexParts seg).2).getLast? = some 125 := List.getLast?_concat
    refine ⟨regexText n (Node.regexParts seg).2, .regex (regexText n (Node.regexParts seg).2),
      List.cons_ne_nil _ _, ⟨?_, trimCopy_eq_self ?_ ?_⟩, ofBytes_brace hend, hn, ?_⟩
    · have hregexClean : (47 : UInt8) ∉ (Node.regexParts seg).2 := by
        have hinside : (47 : UInt8) ∉ substr seg 1 (seg.length - 2) :=
          fun h => hclean (List.mem_of_mem_drop (List.mem_of_mem_take h))
        rw [Node.regexParts]
        cases hfind : find (substr seg 1 (seg.length - 2)) (bytes ":") with
        | none => exact hinside
        | some pos => exact fun h => hinside (List.mem_of_mem_drop h)
      simp [regexText, hregexClean]
    · intro c hc
      cases hc
      rfl
    · intro c hc
      rw [hend] at hc
      cases hc
      rfl
    · rw [hregex]
      simp only [compiles, alphabet, regexParts_regexText, and_self]

end Segment

/-! ## Where they tell -/

section
variable {Handler Ws Regex Json StreamHandler : Type} [StdRegex Regex]

/-- As many parameters accept as many segments. -/
theorem accept_params (seg : Bytes) (segments : List Bytes) :
    (Segment.alphabet Regex).accept (List.replicate segments.length (.param seg)) segments = true := by
  induction segments with
  | nil => rfl
  | cons s segments ih => exact ih

/-- A path of parameters gives a pattern of parameters. -/
theorem pattern_params (n : Nat) :
    Segment.pattern (List.replicate n (Segment.paramText 0)) =
      List.replicate n (.param (Segment.paramText 0)) := by
  induction n with
  | zero => rfl
  | succ n ih =>
    rw [List.replicate_succ, Segment.pattern, ih, Segment.paramText, Segment.ofBytes_colon]
    rfl

/-- A segment kept in a vector does not take the rest of a path. -/
theorem Segment.takesRest_of_inVector (Regex : Type) [StdRegex Regex] {l : Segment}
    (h : l.inVector = true) : (Segment.alphabet Regex).takesRest l = false := by
  cases l with
  | regex | param | static => rfl
  | wildcard => cases h

/-- What a registration leaves for a path with some segment in a given place, and parameters behind. -/
theorem traces_pathOf {before : List Bytes} {t : Bytes} {x : Segment}
    (hbefore : ∀ seg ∈ before, (47 : UInt8) ∉ seg ∧ trimCopy seg = seg)
    (hfront : ∀ y ∈ before.map Segment.inner, y.compiles Regex = true) (ht : t ≠ [])
    (hclean : (47 : UInt8) ∉ t ∧ trimCopy t = t) (hx : ∀ rest, Segment.ofBytes t rest = x)
    (hcompiles : x.compiles Regex = true) (n : Nat) (target : Target Handler Ws)
    (regs : List (Registration Handler Ws)) :
    traces Regex (⟨pathOf (before ++ t :: List.replicate n (Segment.paramText 0)), target⟩ :: regs) =
      (before.map Segment.inner ++ x :: List.replicate n (.param (Segment.paramText 0)), some target) ::
        traces Regex regs := by
  have hne : before ++ t :: List.replicate n (Segment.paramText 0) ≠ [] := by simp
  have hnil : before ++ t :: List.replicate n (Segment.paramText 0) ≠ [[]] := by
    intro heq
    have hmem : t ∈ before ++ t :: List.replicate n (Segment.paramText 0) := by simp
    rw [heq, List.mem_singleton] at hmem
    exact ht hmem
  have hcleanAll : ∀ s ∈ before ++ t :: List.replicate n (Segment.paramText 0),
      (47 : UInt8) ∉ s ∧ trimCopy s = s := by
    intro s hs
    rcases List.mem_append.1 hs with hs | hs
    · exact hbefore s hs
    · rcases List.mem_cons.1 hs with rfl | hs
      · exact hclean
      · rw [List.eq_of_mem_replicate hs]
        exact ⟨by decide, by decide⟩
  have hcompilesAll : ∀ y ∈ before.map Segment.inner ++
      x :: List.replicate n (.param (Segment.paramText 0)), y.compiles Regex = true := by
    intro y hy
    rcases List.mem_append.1 hy with hy | hy
    · exact hfront y hy
    · rcases List.mem_cons.1 hy with rfl | hy
      · exact hcompiles
      · rw [List.eq_of_mem_replicate hy]
        rfl
  have hpattern : Segment.pattern (before ++ t :: List.replicate n (Segment.paramText 0)) =
      before.map Segment.inner ++ x :: List.replicate n (.param (Segment.paramText 0)) := by
    rw [Segment.pattern_append before (List.cons_ne_nil _ _), Segment.pattern, hx, pattern_params]
  rw [traces, List.map_cons, splitSegments_pathOf hne hnil hcleanAll, Segment.trace, hpattern,
    List.takeWhile_eq_self_iff.2 hcompilesAll, if_pos (List.all_eq_true.2 hcompilesAll)]
  rfl

/-- Two calls that register the same methods on another segment in the place of a parameter or regular
expression of the pattern, and on this one, with some parameters behind. -/
theorem exists_competitors {segments : List Bytes} {front back : List Segment} {l : Segment}
    (hclean : ∀ seg ∈ segments, (47 : UInt8) ∉ seg ∧ trimCopy seg = seg)
    (hp : (Segment.pattern segments).takeWhile (Segment.compiles Regex) = front ++ l :: back)
    (hl : l.inVector = true) (pre : List (Registration Handler Ws)) (n : Nat)
    (target₁ target₂ : Target Handler Ws) :
    ∃ m, m ≠ l ∧ New (front ++ [m]) (traces Regex pre) ∧
      (Segment.alphabet Regex).takesRest m = false ∧
      (Segment.alphabet Regex).rank m = (Segment.alphabet Regex).rank l ∧
      (Segment.alphabet Regex).accepts m = (Segment.alphabet Regex).accepts l ∧
      ∃ later, traces Regex later =
        [(front ++ m :: List.replicate n (.param (Segment.paramText 0)), some target₁),
          (front ++ l :: List.replicate n (.param (Segment.paramText 0)), some target₂)] := by
  -- the segments that the labels were read from
  obtain ⟨before, seg, behind, rfl, rfl, hseg⟩ : ∃ before seg behind,
      segments = before ++ seg :: behind ∧ front = before.map Segment.inner ∧
        l = Segment.ofBytes seg behind := by
    obtain ⟨rest, hrest⟩ := List.takeWhile_prefix (Segment.compiles Regex) (l := Segment.pattern segments)
    rw [hp, List.append_assoc, List.cons_append] at hrest
    exact Segment.exists_of_pattern_eq hrest.symm
  have hcompiles : ∀ x ∈ before.map Segment.inner ++ [l], x.compiles Regex = true := by
    intro x hx
    refine List.mem_takeWhile_imp (p := Segment.compiles Regex)
      (l := Segment.pattern (before ++ seg :: behind)) ?_
    rw [hp]
    rcases List.mem_append.1 hx with hx | hx
    · exact List.mem_append_left _ hx
    · exact List.mem_append_right _ (List.mem_singleton.1 hx ▸ List.mem_cons_self)
  have hof : ∀ rest, Segment.ofBytes seg rest = l := by
    intro rest
    rw [hseg] at hl ⊢
    rcases Segment.ofBytes_of_inVector hl with h | h
    · rw [h, h]
    · rw [h, h]
  have hne : seg ≠ [] := by
    rintro rfl
    rw [← hof [[]]] at hl
    cases hl
  have hsegClean := hclean seg (by simp)
  obtain ⟨text, m, htextne, htext, hmof, havoid, hmcompiles, hmrest, hmrank, hmacc⟩ :=
    Segment.exists_sibling Regex (hseg ▸ hl) hsegClean.1
      (l :: (traces Regex pre).flatMap Prod.fst)
  rw [← hseg] at hmcompiles hmrank hmacc
  rw [List.mem_cons, not_or] at havoid
  have hlcompiles := hcompiles l (by simp)
  have hfront : ∀ y ∈ before.map Segment.inner, y.compiles Regex = true :=
    fun y hy => hcompiles y (List.mem_append_left _ hy)
  have hbefore : ∀ s ∈ before, (47 : UInt8) ∉ s ∧ trimCopy s = s :=
    fun s hs => hclean s (List.mem_append_left _ hs)
  refine ⟨m, havoid.1, ?_, hmrest, hmrank, hmacc,
    [⟨pathOf (before ++ text :: List.replicate n (Segment.paramText 0)), target₁⟩,
      ⟨pathOf (before ++ seg :: List.replicate n (Segment.paramText 0)), target₂⟩], ?_⟩
  · rintro e he ⟨rest, hrest⟩
    refine havoid.2 (List.mem_flatMap.2 ⟨e, he, ?_⟩)
    rw [← hrest]
    simp
  · rw [traces_pathOf hbefore hfront htextne htext hmof (hmcompiles.trans hlcompiles),
      traces_pathOf hbefore hfront hne hsegClean hof hlcompiles]
    rfl

/-- **Nodes that are not inert change a verdict**: another segment is registered in the place of the
new one, and then the new one itself. With the nodes left, the second one goes first. -/
theorem inert_of_verdict [Nontrivial Handler] {host : Host} {pre : List (Registration Handler Ws)}
    {segments : List Bytes} {router router' : Router Handler Ws Regex}
    (hclean : ∀ seg ∈ segments, (47 : UInt8) ∉ seg ∧ trimCopy seg = seg)
    (h : Holds router.root (traces Regex pre ++
      [((Segment.pattern segments).takeWhile (Segment.compiles Regex), none)]))
    (h' : Holds router'.root (traces Regex pre)) {resp : Response Json StreamHandler}
    (hverdict : ∀ later req, ((router.registerEach later).procRouting host req resp).verdict =
      ((router'.registerEach later).procRouting host req resp).verdict) :
    Inert Regex pre (Segment.pattern segments) := by
  intro front l back hp hl hnew req hacc
  by_contra htaken
  obtain ⟨h₁, h₂, hne⟩ := exists_pair_ne Handler
  obtain ⟨m, hml, hmnew, hmrest, hmrank, hmacc, later, hlater⟩ :=
    exists_competitors hclean hp hl pre ((splitSegments req.path).drop (front.length + 1)).length
      (.http req.method h₁) (.http req.method h₂)
  obtain ⟨tail, htail⟩ : ∃ tail, tail = List.replicate
      ((splitSegments req.path).drop (front.length + 1)).length (Segment.param (Segment.paramText 0)) :=
    ⟨_, rfl⟩
  rw [← htail] at hlater
  have hacctail : (Segment.alphabet Regex).accept tail
      ((splitSegments req.path).drop (front.length + 1)) = true := by
    rw [htail]
    exact accept_params _ _
  have hlrest := Segment.takesRest_of_inVector Regex hl
  have haccl := Alphabet.accept_extend hacc hlrest hlrest (fun _ => id) hacctail
  have haccm := Alphabet.accept_extend hacc hlrest hmrest (fun s hs => hmacc ▸ hs) hacctail
  -- no earlier route that matches goes before the two
  have hbehind : ∀ c w, (c, w) ∈ (Segment.alphabet Regex).candidates (Target.kept req.method)
      (traces Regex pre) (splitSegments req.path) →
      (Segment.alphabet Regex).precedes (traces Regex pre) c (front ++ [l]) ≠ true := by
    intro c w hc hprecedes
    obtain ⟨haccc, left, hentry, hkept⟩ := Alphabet.mem_candidates.1 hc
    obtain ⟨target, rfl, hselect⟩ := Option.bind_eq_some_iff.1 hkept
    cases target with
    | ws entry => cases hselect
    | http method handler =>
      rw [Target.select, Option.ite_none_right_eq_some] at hselect
      exact htaken ⟨c, handler, hselect.1 ▸ hentry, haccc, hprecedes⟩
  obtain ⟨hpick', hpick⟩ := Alphabet.pick_siblings (d := none) back hacc haccm haccl hnew hmnew hml
    hmrank hbehind (Target.kept_http req.method h₁) (Target.kept_http req.method h₂) rfl
  have hrun := h.registerEach later
  have hrun' := h'.registerEach later
  rw [hp, List.append_assoc, hlater] at hrun
  rw [hlater] at hrun'
  have hsame := hverdict later req
  rw [Router.verdict_eq hrun, Router.verdict_eq hrun', List.singleton_append, hpick, hpick'] at hsame
  exact hne (Sum.inl.inj hsame).symm

/-! ## Calls that throw -/

/-- The empty router holds nothing. -/
theorem holds_empty : Holds ({} : Router Handler Ws Regex).root [] :=
  (Holds.fresh (l := .static []) rfl).2

/-- What a call that throws leaves in the tree. -/
theorem Holds.register_of_throws {router : Router Handler Ws Regex}
    {es : Entries Segment (Option (Target Handler Ws))} (h : Holds router.root es)
    {reg : Registration Handler Ws} (hthrows : (router.register reg).2 = false) :
    Holds (router.register reg).1.root (es ++
      [((Segment.pattern (splitSegments reg.path)).takeWhile (Segment.compiles Regex), none)]) := by
  obtain ⟨hall, hholds⟩ := h.register reg
  rwa [Segment.trace, ← hall, hthrows, if_neg Bool.false_ne_true] at hholds

/-- **When a call that throws tells in no later request**: no later calls and no request bring it to
light exactly if the nodes that it leaves are inert. -/
theorem failed_registration_iff [Nontrivial Handler] (host : Host)
    {pre : List (Registration Handler Ws)} {reg : Registration Handler Ws}
    (hthrows : ((({} : Router Handler Ws Regex).registerEach pre).register reg).2 = false) :
    (∀ (later : List (Registration Handler Ws)) (req : Request) (resp : Response Json StreamHandler),
      let router := ((({} : Router Handler Ws Regex).registerEach pre).register reg).1.registerEach later
      let router' := (({} : Router Handler Ws Regex).registerEach pre).registerEach later
      (router.procRouting host req resp).verdict = (router'.procRouting host req resp).verdict ∧
        router.preRouting host req resp = router'.preRouting host req resp) ↔
      Inert Regex pre (Segment.pattern (splitSegments reg.path)) := by
  have hpre : Holds (({} : Router Handler Ws Regex).registerEach pre).root ([] ++ traces Regex pre) :=
    holds_empty.registerEach pre
  rw [List.nil_append] at hpre
  have hleft := hpre.register_of_throws hthrows
  constructor
  · intro h
    exact inert_of_verdict (fun seg hseg => clean_splitSegments hseg) hleft hpre
      fun later req => (h later req (.new host 11 true)).1
  · intro hinert later req resp
    have hrun := hleft.registerEach later
    rw [List.append_assoc] at hrun
    exact routing_of_inert host hrun (hpre.registerEach later) hinert req resp

end

/-- A library for regular expressions that refuses a text with an open parenthesis, and takes others for
themselves. -/
@[reducible] def parenRegex : StdRegex Bytes where
  compile text := if 40 ∈ text then none else some text
  regexMatch regex text := regex == text

open scoped Platform.Plain in
/-- A call that throws behind a parameter that has its node already. -/
theorem failed_registration_iff_known :
    letI := parenRegex
    let before := ({} : Router Nat Unit Bytes).registerEach [⟨bytes "/:a", .http .get 1⟩]
    let failing : Registration Nat Unit := ⟨bytes "/:a/\x7bx:(\x7d", .http .get 0⟩
    let later : List (Registration Nat Unit) := [⟨bytes "/:b", .http .get 2⟩]
    let req := Request.ofHeader .get (bytes "/v") 11 []
    let resp : Response Unit Unit := .new plainHost 11 true
    (((before.register failing).1.registerEach later).procRouting plainHost req resp).verdict =
      ((before.registerEach later).procRouting plainHost req resp).verdict := by
  let _ := parenRegex
  have hthrows : ((({} : Router Nat Unit Bytes).registerEach [⟨bytes "/:a", .http .get 1⟩]).register
      ⟨bytes "/:a/\x7bx:(\x7d", .http .get 0⟩).2 = false := rfl
  refine ((failed_registration_iff plainHost hthrows).2 (fun front l back hp _ hnew => ?_) _ _ _).1
  have hnodes : [Segment.param (bytes ":a")] = front ++ l :: back := hp
  obtain ⟨rfl, rfl, rfl⟩ : front = [] ∧ l = .param (bytes ":a") ∧ back = [] := by
    cases front with
    | nil => cases hnodes; exact ⟨rfl, rfl, rfl⟩
    | cons f front =>
      have hnil := (List.cons.inj hnodes).2
      cases front <;> cases hnil
  exact absurd (List.prefix_refl _) (hnew ([.param (bytes ":a")], some (.http .get 1)) List.mem_cons_self)

open scoped Platform.Plain in
/-- A call that throws behind a new parameter: the next route with this parameter goes before one that
was registered earlier. -/
theorem failed_registration_iff_new :
    letI := parenRegex
    let failing : Registration Nat Unit := ⟨bytes "/:a/\x7bx:(\x7d", .http .get 0⟩
    let later : List (Registration Nat Unit) :=
      [⟨bytes "/:b", .http .get 1⟩, ⟨bytes "/:a", .http .get 2⟩]
    let req := Request.ofHeader .get (bytes "/v") 11 []
    let resp : Response Unit Unit := .new plainHost 11 true
    ((({} : Router Nat Unit Bytes).register failing).2 = false) ∧
      (((({} : Router Nat Unit Bytes).register failing).1.registerEach later).procRouting plainHost req
        resp).verdict = .inl 2 ∧
      ((({} : Router Nat Unit Bytes).registerEach later).procRouting plainHost req resp).verdict =
        .inl 1 :=
  ⟨rfl, rfl, rfl⟩

end Httplib
