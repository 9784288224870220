import Httplib.Server.RouterParams

/-!
# What a wildcard captures

`wildcard_lossless_iff` says for which paths the value under `*` is the part of the path behind the
segments that the wildcard follows: the path is cut at its slashes and each piece is trimmed
(`splitSegments_eq`), and empty pieces in front are lost when the others are put together again
(`joinRest_eq`).
-/

namespace Httplib

open Patterns

/-- The part of a text behind the slash that ends its `k`-th segment. -/
def behindSlashes : Nat → Bytes → Bytes
  | 0, text => text
  | k + 1, text => behindSlashes k ((text.dropWhile (· ≠ 47)).drop 1)

/-! ## A path and its segments -/

/-- The pieces behind the `k`-th slash. -/
theorem splitOn_behindSlashes {k : Nat} {text : Bytes} (h : k < (text.splitOn 47).length) :
    (behindSlashes k text).splitOn 47 = (text.splitOn 47).drop k := by
  induction k generalizing text with
  | zero => rfl
  | succ k ih =>
    have hmem : (47 : UInt8) ∈ text := by
      by_contra hnot
      rw [List.splitOn_eq_singleton hnot] at h
      exact absurd h (Nat.not_lt.2 (Nat.le_add_left 1 k))
    obtain ⟨front, back, rfl, hfront⟩ := List.eq_append_cons_of_mem hmem
    have hpieces := List.splitOn_append_cons_self_of_not_mem hfront back
    have hback : ((front ++ 47 :: back).dropWhile (· ≠ 47)).drop 1 = back := by
      rw [List.dropWhile_append_of_pos]
      · rfl
      · exact fun c hc => decide_eq_true fun heq => hfront (heq ▸ hc)
    rw [hpieces, List.length_cons] at h
    rw [behindSlashes, hback, ih (by omega), hpieces, List.drop_succ_cons]

/-! ## Segments put together -/

theorem foldl_joinRest {rest : Bytes} (h : rest ≠ []) (segments : List Bytes) :
    segments.foldl (fun rest seg => (if rest = [] then rest else rest ++ bytes "/") ++ seg) rest =
      [47].intercalate (rest :: segments) := by
  induction segments generalizing rest with
  | nil => simp
  | cons seg segments ih =>
    rw [List.foldl_cons, if_neg h, ih (by simp [bytes]), List.intercalate_cons_cons]
    cases segments with
    | nil => simp [bytes]
    | cons next segments => simp [bytes]

/-- **What a wildcard puts together**: the segments with slashes between them, without the empty ones
in front. -/
theorem joinRest_eq (segments : List Bytes) :
    Node.joinRest segments = [47].intercalate (segments.dropWhile (· = [])) := by
  induction segments with
  | nil => rfl
  | cons seg segments ih =>
    rw [Node.joinRest, List.foldl_cons, if_pos rfl, List.nil_append, List.dropWhile_cons]
    by_cases hseg : seg = []
    · rw [if_pos (decide_eq_true hseg), ← ih, hseg]
      rfl
    · rw [if_neg (by simpa using hseg), foldl_joinRest hseg]

/-- **When cutting, trimming and putting together gives the text back.** -/
theorem joinRest_map_trimCopy_iff (text : Bytes) :
    Node.joinRest ((text.splitOn 47).map trimCopy) = text ↔
      text = [] ∨ text.head? ≠ some 47 ∧ ∀ piece ∈ text.splitOn 47, trimCopy piece = piece := by
  rw [joinRest_eq]
  by_cases htext : text = []
  · refine iff_of_true ?_ (.inl htext)
    rw [htext]
    rfl
  rw [or_iff_right htext, ne_eq, head?_eq_some_iff_splitOn htext]
  have hjoin : [47].intercalate (text.splitOn 47) = text := List.intercalate_splitOn 47
  constructor
  · intro h
    generalize hkept : ((text.splitOn 47).map trimCopy).dropWhile (· = []) = kept at h
    have hne : kept ≠ [] := by
      rintro rfl
      exact htext h.symm
    have hclean : ∀ piece ∈ kept, (47 : UInt8) ∉ piece := by
      intro piece hpiece hmem
      rw [← hkept] at hpiece
      obtain ⟨raw, hraw, rfl⟩ := List.mem_map.1 ((List.dropWhile_suffix _).subset hpiece)
      exact not_mem_of_mem_splitOn hraw (mem_of_mem_trimCopy hmem)
    -- what is kept are the pieces of the text, so none is dropped or trimmed
    have hpieces := List.splitOn_intercalate 47 hclean hne
    rw [h] at hpieces
    rw [← hpieces] at hkept
    have hmap : (text.splitOn 47).map trimCopy = text.splitOn 47 := by
      have hsuffix := List.dropWhile_suffix (l := (text.splitOn 47).map trimCopy) (· = [])
      rw [hkept] at hsuffix
      exact (hsuffix.eq_of_length (List.length_map _).symm).symm
    rw [hmap] at hkept
    refine ⟨fun hhead => ?_, fun piece hpiece => ?_⟩
    · have hfirst := List.head?_dropWhile_not (· = ([] : Bytes)) (text.splitOn 47)
      rw [hkept, hhead] at hfirst
      exact absurd hfirst (by decide)
    · rw [← List.map_id (text.splitOn 47), List.map_map] at hmap
      exact List.map_inj_left.1 hmap piece hpiece
  · rintro ⟨hhead, htrim⟩
    have hmap : (text.splitOn 47).map trimCopy = text.splitOn 47 :=
      (List.map_congr_left htrim).trans (List.map_id _)
    have hkeep : (text.splitOn 47).dropWhile (· = []) = text.splitOn 47 := by
      cases hsplit : text.splitOn 47 with
      | nil => rfl
      | cons q qs =>
        rw [hsplit] at hhead
        exact List.dropWhile_cons_of_neg fun hq => hhead (congrArg some (of_decide_eq_true hq))
    rw [hmap, hkeep, hjoin]

open Router in
/-- **When a wildcard captures without loss.** In a request that is dispatched by a pattern with `p` in
front of its wildcard, the value under `*` is the part of the path behind the segments of `p` exactly
if that part is empty, or does not begin with a slash and has no white space at either end of a piece
between slashes. -/
theorem wildcard_lossless_iff {Handler Ws Regex Json StreamHandler : Type} [StdRegex Regex]
    {host : Host} {regs : List (Registration Handler Ws)} {router : Router Handler Ws Regex}
    (hregs : registerAll {} regs = some router) {req req' : Request}
    {resp : Response Json StreamHandler} {handler : Handler}
    (hrun : procRouting host router req resp = .run handler req') {p : List Segment}
    (hp : DispatchedBy Regex regs req.method req.path handler (p ++ [.wildcard])) :
    let rest := behindSlashes p.length (stripLeading 47 req.path)
    req'.pathParams.find? (bytes "*") = some rest ↔
      rest = [] ∨ rest.head? ≠ some 47 ∧ ∀ piece ∈ rest.splitOn 47, trimCopy piece = piece := by
  dsimp only
  have hlen := Alphabet.length_le_of_accept hp.accept
  rw [List.length_append, List.length_singleton] at hlen
  rw [DispatchedBy.wildcard_of_run hregs hrun hp, Option.some.injEq]
  generalize req.path = path at hlen ⊢
  by_cases hempty : path = []
  · rw [hempty] at hlen
    exact absurd hlen (Nat.not_succ_le_zero _)
  by_cases hslash : path = [47]
  · -- the path is the slash itself, which has two segments
    subst hslash
    have hk : p.length = 0 ∨ p.length = 1 := by
      have htwo : (splitSegments [47]).length = 2 := by decide
      omega
    rcases hk with hk | hk
    · rw [hk]
      exact iff_of_true (by decide) (.inl (by decide))
    · rw [hk]
      exact iff_of_true (by decide) (.inl (by decide))
  rw [splitSegments_eq hempty hslash] at hlen ⊢
  rw [List.length_map] at hlen
  rw [← List.map_drop, ← splitOn_behindSlashes hlen]
  exact joinRest_map_trimCopy_iff _

open scoped Platform.Plain in
/-- A path behind `/a/`. -/
theorem wildcard_lossless_iff_path :
    letI := literalRegex
    ∃ router : Router Nat Unit Bytes, Router.registerAll {} sampleRoutes = some router ∧
      ∀ req', router.procRouting plainHost (.ofHeader .post (bytes "/a/b/c/") 11 [])
          (.new plainHost 11 true : Response Unit Unit) = .run 3 req' →
        req'.pathParams.find? (bytes "*") = some (bytes "b/c/") := by
  let _ := literalRegex
  obtain ⟨router, hregs⟩ : ∃ router : Router Nat Unit Bytes,
      Router.registerAll {} sampleRoutes = some router := ⟨_, rfl⟩
  refine ⟨router, hregs, fun req' hrun => ?_⟩
  have hp : DispatchedBy Bytes sampleRoutes .post (bytes "/a/b/c/") 3
      ([.static (bytes "a")] ++ [.wildcard]) := by
    refine ⟨rfl, by decide, fun reg hreg handler' htarget hmatches => ?_⟩
    simp only [sampleRoutes, List.mem_cons, List.not_mem_nil, or_false] at hreg
    rcases hreg with rfl | rfl | rfl | rfl
    · cases htarget
    · cases htarget
    · cases htarget
    · exact .inl (by decide)
  exact (wildcard_lossless_iff hregs hrun hp).2 (.inr (by decide))

open scoped Platform.Plain in
/-- A slash at the start of what the wildcard takes. -/
theorem wildcard_lossless_iff_slash :
    letI := literalRegex
    ∃ (router : Router Nat Unit Bytes) (req' : Request),
      Router.registerAll {} sampleRoutes = some router ∧
      router.procRouting plainHost (.ofHeader .post (bytes "/a//b") 11 [])
        (.new plainHost 11 true : Response Unit Unit) = .run 3 req' ∧
      behindSlashes 1 (stripLeading 47 (bytes "/a//b")) = bytes "/b" ∧
      req'.pathParams.find? (bytes "*") = some (bytes "b") := by
  let _ := literalRegex
  exact ⟨_, _, rfl, rfl, by decide, rfl⟩

end Httplib
