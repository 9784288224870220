import Httplib.Server.MountPoint
import Httplib.Server.RouterParams

/-!
# Mount points stay below their directory

`mount_point_confined`: what the handler of a mount point is asked for through its wildcard route, it
refuses, or looks up at a path that is not absolute and no prefix of which climbs above the directory.
The check of the path counts levels (`isValidPath_confined`) but skips slashes in front, so that the
path is not absolute comes from how the wildcard is put together (`head?_joinRest`).
-/

namespace Httplib

open Patterns

/-- The names of POSIX. -/
def posix : Paths.Names UInt8 where
  sep := 47
  here := bytes "."
  up := bytes ".."
  here_ne_up := by decide

/-- The path is not absolute, and no prefix of it climbs above the directory it is appended to. -/
def Confined (rest : Bytes) : Prop :=
  startsWith rest (bytes "/") = false ∧ posix.Confined 0 (posix.components rest)

/-! ## The check of the path -/

theorem head?_skipSlash (path : Bytes) : (skipSlash path).head? ≠ some 47 := by
  intro heq
  have h := List.head?_dropWhile_not (fun c : UInt8 => decide (c = 47)) path
  rw [skipSlash] at heq
  rw [heq] at h
  simp at h

theorem readComponent_eq {path component rest : Bytes}
    (h : readComponent path = some (component, rest)) :
    component = path.takeWhile (· ≠ 47) ∧ rest = path.dropWhile (· ≠ 47) := by
  induction path generalizing component rest with
  | nil =>
    cases h
    exact ⟨rfl, rfl⟩
  | cons c path ih =>
    rw [readComponent] at h
    split at h
    · next hc =>
      cases h
      simp [hc]
    · next hc =>
      split at h
      · cases h
      · split at h
        · cases h
        · rw [Option.map_eq_some_iff] at h
          obtain ⟨r, hr, heq⟩ := h
          cases heq
          obtain ⟨hfst, hsnd⟩ := ih hr
          simp [hc, hfst, hsnd]

/-- A path that the loop accepts from a level on does not climb above the start. The induction is on
the turns, of which there are more than bytes. -/
theorem isValidPathLoop_confined {turns level : Nat} {path : Bytes} (hturns : path.length < turns)
    (hhead : path.head? ≠ some 47) (h : isValidPathLoop turns level path = true) :
    (posix.walk level (posix.components path)).isSome = true := by
  induction turns generalizing level path with
  | zero => exact absurd hturns (Nat.not_lt_zero _)
  | succ turns ih =>
    cases path with
    | nil =>
      rw [Paths.Names.components_nil]
      rfl
    | cons c path =>
      have hc : c ≠ 47 := fun heq => hhead (congrArg some heq)
      rw [isValidPathLoop, if_neg (List.cons_ne_nil c path)] at h
      cases hread : readComponent (c :: path) with
      | none =>
        rw [hread] at h
        cases h
      | some r =>
        obtain ⟨component, rest⟩ := r
        obtain ⟨hcomponent, hrest⟩ := readComponent_eq hread
        rw [hread] at h
        have hlen : (skipSlash rest).length < turns := by
          have hskip := (List.dropWhile_suffix (l := rest) (· = (47 : UInt8))).length_le
          have hdrop := (List.dropWhile_suffix (l := path) (· ≠ (47 : UInt8))).length_le
          rw [hrest, List.dropWhile_cons_of_pos (by simpa using hc)] at hskip
          rw [List.length_cons] at hturns
          rw [skipSlash, hrest, List.dropWhile_cons_of_pos (by simpa using hc)]
          omega
        have hnext := head?_skipSlash rest
        have hcomponents : posix.components (c :: path) =
            component :: posix.components (skipSlash rest) := by
          rw [Paths.Names.components_cons hc, hcomponent, hrest]
          exact congrArg _ (Paths.Names.components_dropWhile _).symm
        rw [hcomponents, Paths.Names.walk]
        dsimp only at h
        split at h
        · next hhere =>
          rw [if_pos (show component = posix.here from hhere)]
          exact ih hlen hnext h
        · next hhere =>
          rw [if_neg (show ¬ component = posix.here from hhere)]
          split at h
          · next hup =>
            rw [if_pos (show component = posix.up from hup)]
            split at h
            · cases h
            · next hlevel =>
              rw [if_neg hlevel]
              exact ih hlen hnext h
          · next hup =>
            rw [if_neg (show ¬ component = posix.up from hup)]
            exact ih hlen hnext h

/-- **A path that is accepted does not climb**, though it may be absolute. -/
theorem isValidPath_confined {path : Bytes} (h : isValidPath path = true) :
    posix.Confined 0 (posix.components path) := by
  rw [← Paths.Names.walk_isSome_iff, ← Paths.Names.components_dropWhile]
  have hlen := (List.dropWhile_suffix (l := path) (· = (47 : UInt8))).length_le
  exact isValidPathLoop_confined (Nat.lt_succ_of_le hlen) (head?_skipSlash path) h

/-! ## The wildcard -/

/-- What a wildcard captures does not begin with a slash: one is only put behind text. -/
theorem head?_joinRest {segments : List Bytes} (h : ∀ seg ∈ segments, (47 : UInt8) ∉ seg) :
    (Node.joinRest segments).head? ≠ some 47 := by
  suffices hfold : ∀ rest : Bytes, rest.head? ≠ some 47 →
      (segments.foldl (fun rest seg =>
        (if rest = [] then rest else rest ++ bytes "/") ++ seg) rest).head? ≠ some 47 from
    hfold [] nofun
  induction segments with
  | nil => exact fun rest hrest => hrest
  | cons seg segments ih =>
    intro rest hrest
    rw [List.foldl_cons]
    refine ih (fun s hs => h s (List.mem_cons_of_mem _ hs)) _ ?_
    cases rest with
    | nil =>
      rw [if_pos rfl, List.nil_append]
      exact fun heq => h seg List.mem_cons_self (List.mem_of_head? heq)
    | cons c rest => simpa using hrest

/-! ## The route of a mount point -/

/-- A text that ends in `/*` has `*` as its last piece. -/
theorem getLast?_pieces {turns : Nat} {l : Bytes} (h : l.length + 2 ≤ turns) :
    (pieces (bytes "/") turns (l ++ bytes "/*")).getLast? = some (bytes "*") := by
  induction turns generalizing l with
  | zero => exact absurd h (Nat.not_succ_le_zero _)
  | succ turns ih =>
    by_cases hl : (47 : UInt8) ∈ l
    · obtain ⟨front, back, rfl, hfront⟩ := List.eq_append_cons_of_mem hl
      have hback := ih (l := back) (by simp at h; omega)
      have hpieces := pieces_append (d := []) (r := back ++ bytes "/*") turns hfront
      rw [if_neg (by simp [bytes])] at hpieces
      rw [List.append_assoc, List.cons_append]
      refine (congrArg List.getLast? hpieces).trans ?_
      cases hrest : pieces (bytes "/") turns (back ++ bytes "/*") with
      | nil =>
        rw [hrest] at hback
        cases hback
      | cons p ps =>
        rw [hrest] at hback
        refine (congrArg (fun l => (trimCopy front :: l).getLast?) hrest).trans ?_
        rwa [List.getLast?_cons_cons]
    · have hpieces := pieces_append (d := []) (r := bytes "*") turns hl
      refine (congrArg List.getLast? hpieces).trans ?_
      obtain ⟨turns, rfl⟩ := Nat.exists_eq_succ_of_ne_zero (show turns ≠ 0 by omega)
      rfl

/-- The last segment of the key of a mount point is a wildcard. -/
theorem MountPointEntry.getLast?_key (entry : MountPointEntry) :
    (splitSegments entry.key).getLast? = some (bytes "*") := by
  obtain ⟨l, hl⟩ : ∃ l, entry.key = l ++ bytes "/*" := by
    unfold key
    split
    · next h =>
      obtain ⟨l, hl⟩ := List.isSuffixOf_iff_suffix.1 h
      exact ⟨l, by rw [← hl, List.append_assoc]; rfl⟩
    · exact ⟨entry.mountPoint, List.append_assoc _ _ _⟩
  have hend : endsWith entry.key (bytes "/") = false := by
    rw [hl, ← Bool.not_eq_true, endsWith, List.isSuffixOf_iff_suffix]
    rintro ⟨m, hm⟩
    have hlast := congrArg List.getLast? hm
    simp [bytes] at hlast
  have hne : entry.key ≠ [] := by
    rw [hl]
    simp [bytes]
  rw [splitSegments, hend, if_neg Bool.false_ne_true, List.append_nil, split_eq hne (by simp [bytes])]
  split
  · next hpre =>
    rw [hl] at hpre ⊢
    cases l with
    | nil => rfl
    | cons c l =>
      have hc : c = 47 := (List.cons_prefix_cons.1 hpre).1.symm
      refine (getLast?_pieces (l := l) ?_)
      simp [bytes]
  · rw [hl]
    refine getLast?_pieces ?_
    simp [bytes]

theorem Segment.getLast?_pattern {segments : List Bytes}
    (h : segments.getLast? = some (bytes "*")) :
    (Segment.pattern segments).getLast? = some .wildcard := by
  induction segments with
  | nil => cases h
  | cons seg rest ih =>
    cases rest with
    | nil =>
      cases h
      rfl
    | cons next rest =>
      rw [List.getLast?_cons_cons] at h
      exact ih h

/-- The handler of a mount point is only registered under the key of that mount point. -/
theorem Setup.path_of_mem_registrations {Handler Ws : Type} {setups : List (Setup Handler Ws)}
    {reg : Registration (AppHandler Handler) Ws} {method : Verb} {entry : MountPointEntry}
    (h : reg ∈ setups.flatMap Setup.registrations)
    (htarget : reg.target = .http method (.mount entry)) : reg.path = entry.key := by
  obtain ⟨setup, -, h⟩ := List.mem_flatMap.1 h
  cases setup with
  | mountPoint entry' =>
    rcases List.mem_cons.1 h with rfl | h
    · cases htarget
      rfl
    · cases List.mem_singleton.1 h
      cases htarget
      rfl
  | route path target =>
    cases target <;> cases List.mem_singleton.1 h <;> cases htarget

/-- **Mount points stay below their directory.** For every application and every request that the
router dispatches to the handler of a mount point, the handler answers 400, or serves a path that is
the directory with a confined path appended. -/
theorem mount_point_confined {Handler Ws Regex Json StreamHandler : Type} [StdRegex Regex]
    (host : Host) {setups : List (Setup Handler Ws)}
    {router : Router (AppHandler Handler) Ws Regex}
    (hsetups : Router.registerAll {} (setups.flatMap Setup.registrations) = some router)
    {req req' : Request} {resp : Response Json StreamHandler} {entry : MountPointEntry}
    (hrun : router.procRouting host req resp = .run (.mount entry) req') (fs : FileSystem Json)
    (boundary : Bytes) (res : Response Json StreamHandler) :
    entry.handle host fs boundary req' res = some (.ok (res.setErrorContent host 400)) ∨
      ∃ rest, Confined rest ∧ entry.handle host fs boundary req' res =
        some (entry.serve host fs boundary (pathAppend entry.baseDir rest) req' res) := by
  obtain ⟨p, hp, -⟩ := DispatchedBy.of_run hsetups hrun
  -- the pattern is the key of the mount point, so it ends in a wildcard
  obtain ⟨reg, hreg, hpattern, htarget⟩ := hp.registered
  rw [Setup.path_of_mem_registrations hreg htarget] at hpattern
  have hlast := Segment.getLast?_pattern entry.getLast?_key
  rw [hpattern] at hlast
  obtain ⟨front, rfl⟩ := List.getLast?_eq_some_iff.1 hlast
  have hrest := DispatchedBy.wildcard_of_run hsetups hrun hp
  generalize front.length = k at hrest
  have hhead : (Node.joinRest ((splitSegments req.path).drop k)).head? ≠ some 47 :=
    head?_joinRest fun seg hseg => slash_not_mem_splitSegments (List.mem_of_mem_drop hseg)
  rw [MountPointEntry.handle, hrest, Option.map_some]
  cases hvalid : isValidPath (Node.joinRest ((splitSegments req.path).drop k)) with
  | false => exact .inl (by rw [if_pos rfl])
  | true =>
    refine .inr ⟨_, ⟨?_, isValidPath_confined hvalid⟩, by rw [if_neg (by simp)]⟩
    rw [← Bool.not_eq_true, startsWith_iff]
    rintro ⟨rest, hprefix⟩
    exact hhead (by rw [← hprefix]; rfl)

/-- A file system without files. -/
def emptyFiles : FileSystem Unit where
  pathExists _ := false
  isRegularFile _ := false
  isDirectory _ := false
  entry _ := { size := none, writeTime := none, content := none, mimeType := [] }
  formatDirToJson _ := ((), true)
  formatDirToHtml _ _ := ([], true)

open scoped Platform.Plain in
/-- A request that goes up once below the mount point. -/
theorem mount_point_confined_files :
    letI := literalRegex
    ∃ router : Router (AppHandler Nat) Unit Bytes,
      Router.registerAll {} ([Setup.mountPoint ⟨bytes "/files", bytes "./", true, .json, []⟩].flatMap
        Setup.registrations) = some router ∧
      ∃ req', router.procRouting plainHost (.ofHeader .get (bytes "/files/a%2f../b") 11 [])
          (.new plainHost 11 true : Response Unit Unit) =
          .run (.mount ⟨bytes "/files", bytes "./", true, .json, []⟩) req' ∧
        let entry : MountPointEntry := ⟨bytes "/files", bytes "./", true, .json, []⟩
        let res : Response Unit Unit := .new plainHost 11 true
        (entry.handle plainHost emptyFiles [] req' res =
            some (.ok (res.setErrorContent plainHost 400)) ∨
          ∃ rest, Confined rest ∧ entry.handle plainHost emptyFiles [] req' res =
            some (entry.serve plainHost emptyFiles [] (pathAppend entry.baseDir rest) req' res)) := by
  let _ := literalRegex
  refine ⟨_, rfl, _, rfl, ?_⟩
  exact @mount_point_confined _ _ _ Unit Unit _ plainHost
    [.mountPoint ⟨bytes "/files", bytes "./", true, .json, []⟩] _ rfl
    (.ofHeader .get (bytes "/files/a%2f../b") 11 []) _ (.new plainHost 11 true) _ rfl emptyFiles []
    (.new plainHost 11 true)

end Httplib
