import Httplib.Server.FailedRegistration
import Httplib.Server.FileContent
import Httplib.Server.MountPointConfined
import Httplib.Server.ResponseReceived
import Httplib.Server.Revalidation
import Httplib.Server.Wildcard

/-!
# A file below a mount point, from the request to the client

The way of a GET for a file below the directory of a mount point: `proc_routing` finds the mount point,
its wildcard captures the path of the file, `is_valid_path` accepts it, `mount_point_entry::operator()`
sets the file as the content, `async_write` sends it and the client reads it. `static_file_received`: a
file that is not empty, whose names stand in a path as they are and whose type a client reads as a string,
arrives byte for byte under its own path.
-/

namespace Httplib

open Patterns

/-- A name that stands in the path of a request as it is: it is not empty, neither `.` nor `..`, and holds
none of the bytes that `is_valid_path` refuses or that are cut off on the way. -/
structure PlainName (name : Bytes) : Prop where
  ne_nil : name ≠ []
  no_slash : (47 : UInt8) ∉ name
  no_nul : (0 : UInt8) ∉ name
  no_backslash : (92 : UInt8) ∉ name
  ne_here : name ≠ bytes "."
  ne_up : name ≠ bytes ".."
  trim : trimCopy name = name

/-- The path of a file below a directory, from the names on the way to it. -/
def joinNames (names : List Bytes) : Bytes := [47].intercalate names

/-! ## The check of the path -/

/-- What stands behind a name in a path. -/
def behindName (names : List Bytes) : Bytes := if names = [] then [] else 47 :: joinNames names

@[simp] theorem joinNames_cons (name : Bytes) (names : List Bytes) :
    joinNames (name :: names) = name ++ behindName names := by
  cases names with
  | nil => simp [joinNames, behindName]
  | cons next names => simp [joinNames, behindName, List.intercalate_cons_cons]

variable {names : List Bytes}

theorem head?_joinNames (h : ∀ name ∈ names, PlainName name) : (joinNames names).head? ≠ some 47 := by
  cases names with
  | nil => exact nofun
  | cons name names =>
    have hname := h name List.mem_cons_self
    rw [joinNames_cons, List.head?_append_of_ne_nil _ hname.ne_nil]
    exact fun heq => hname.no_slash (List.mem_of_head? heq)

theorem joinNames_ne_nil (hne : names ≠ []) (h : ∀ name ∈ names, PlainName name) :
    joinNames names ≠ [] := by
  cases names with
  | nil => exact absurd rfl hne
  | cons name names =>
    rw [joinNames_cons]
    exact List.append_ne_nil_of_left_ne_nil (h name List.mem_cons_self).ne_nil _

/-- The path of a file does not end in a slash. -/
theorem getLast?_joinNames (hne : names ≠ []) (h : ∀ name ∈ names, PlainName name) :
    (joinNames names).getLast? ≠ some 47 := by
  induction names with
  | nil => exact absurd rfl hne
  | cons name names ih =>
    have hname := h name List.mem_cons_self
    rw [joinNames_cons, behindName]
    split
    · rw [List.append_nil]
      exact fun heq => hname.no_slash (List.mem_of_getLast? heq)
    · next hnames =>
      have hrest := fun name' hname' => h name' (List.mem_cons_of_mem _ hname')
      have hnext := joinNames_ne_nil hnames hrest
      rw [List.getLast?_append_of_ne_nil _ (List.cons_ne_nil _ _), List.getLast?_cons_of_ne_nil hnext]
      exact ih hnames hrest

theorem skipSlash_joinNames (h : ∀ name ∈ names, PlainName name) :
    skipSlash (joinNames names) = joinNames names := by
  have hhead := head?_joinNames h
  cases hjoin : joinNames names with
  | nil => rfl
  | cons c rest =>
    rw [hjoin] at hhead
    exact List.dropWhile_cons_of_neg fun hc => hhead (congrArg some (of_decide_eq_true hc))

theorem skipSlash_behindName (h : ∀ name ∈ names, PlainName name) :
    skipSlash (behindName names) = joinNames names := by
  rw [behindName]
  split
  · next hnil =>
    rw [hnil]
    rfl
  · exact skipSlash_joinNames h

theorem readComponent_append {name : Bytes} (hslash : (47 : UInt8) ∉ name) (hnul : (0 : UInt8) ∉ name)
    (hbackslash : (92 : UInt8) ∉ name) (names : List Bytes) :
    readComponent (name ++ behindName names) = some (name, behindName names) := by
  induction name with
  | nil =>
    rw [List.nil_append, behindName]
    split
    · rfl
    · rw [readComponent, if_pos rfl]
  | cons c name ih =>
    rw [List.mem_cons, not_or] at hslash hnul hbackslash
    rw [List.cons_append, readComponent, if_neg (Ne.symm hslash.1), if_neg (Ne.symm hnul.1),
      if_neg (Ne.symm hbackslash.1), ih hslash.2 hnul.2 hbackslash.2]
    rfl

/-- The loop only goes down. -/
theorem isValidPathLoop_joinNames (h : ∀ name ∈ names, PlainName name) (turns level : Nat) :
    isValidPathLoop turns level (joinNames names) = true := by
  induction names generalizing turns level with
  | nil => cases turns <;> rfl
  | cons name names ih =>
    cases turns with
    | zero => rfl
    | succ turns =>
      have hname := h name List.mem_cons_self
      have hrest := fun name' hname' => h name' (List.mem_cons_of_mem _ hname')
      have hne := joinNames_ne_nil (List.cons_ne_nil name names) h
      rw [isValidPathLoop, if_neg hne, joinNames_cons,
        readComponent_append hname.no_slash hname.no_nul hname.no_backslash]
      dsimp only
      rw [if_neg hname.ne_here, if_neg hname.ne_up, skipSlash_behindName hrest]
      exact ih hrest turns (level + 1)

/-- **The path of a file is accepted.** -/
theorem isValidPath_joinNames (h : ∀ name ∈ names, PlainName name) :
    isValidPath (joinNames names) = true := by
  rw [isValidPath, skipSlash_joinNames h]
  exact isValidPathLoop_joinNames h _ _

/-- Behind a directory it has a file name. -/
theorem hasFilename_pathAppend (base : Bytes) (hne : names ≠ []) (h : ∀ name ∈ names, PlainName name) :
    hasFilename (pathAppend base (joinNames names)) = true := by
  have hjoin := joinNames_ne_nil hne h
  have hfile : ∀ front : Bytes, hasFilename (front ++ joinNames names) = true := by
    intro front
    have hend : endsWith (front ++ joinNames names) (bytes "/") = false := by
      rw [← Bool.not_eq_true, endsWith, List.isSuffixOf_iff_suffix]
      rintro ⟨l, hl⟩
      have hlast := congrArg List.getLast? hl
      rw [List.getLast?_append_of_ne_nil _ hjoin] at hlast
      refine getLast?_joinNames hne h (hlast.symm.trans ?_)
      simp [bytes]
    have hne' : front ++ joinNames names ≠ [] := List.append_ne_nil_of_right_ne_nil _ hjoin
    simp [hasFilename, hend, hne']
  rw [pathAppend]
  split
  · exact hfile []
  · split
    · exact hfile (base ++ bytes "/")
    · exact hfile base

/-! ## The way to the mount point -/

/-- The part of the key of a mount point in front of its wildcard (`router.inl:102`). -/
def MountPointEntry.root (entry : MountPointEntry) : Bytes :=
  if endsWith entry.mountPoint (bytes "/") then entry.mountPoint else entry.mountPoint ++ bytes "/"

/-- No segment of a mount point is a regular expression. -/
def MountPointEntry.NoRegex (entry : MountPointEntry) : Prop :=
  ∀ seg ∈ splitSegments entry.key, ¬ (seg.head? = some 123 ∧ seg.getLast? = some 125)

variable {entry : MountPointEntry}

/-- The segments behind a slash. -/
theorem exists_splitSegments_append (l : Bytes) :
    ∃ front, ∀ rest, rest ≠ [] →
      splitSegments (l ++ 47 :: rest) = front ++ (rest.splitOn 47).map trimCopy := by
  have hne : ∀ rest : Bytes, l ++ 47 :: rest ≠ [] := fun rest =>
    List.append_ne_nil_of_right_ne_nil _ (List.cons_ne_nil _ _)
  have hslash : ∀ rest : Bytes, rest ≠ [] → l ++ 47 :: rest ≠ [47] := by
    intro rest hrest heq
    have hlen := congrArg List.length heq
    have hpos := List.length_pos_of_ne_nil hrest
    simp at hlen
    omega
  cases l with
  | nil =>
    refine ⟨[], fun rest hrest => ?_⟩
    rw [splitSegments_eq (hne rest) (hslash rest hrest)]
    rfl
  | cons c l =>
    rcases eq_or_ne c 47 with rfl | hc
    · refine ⟨(l.splitOn 47).map trimCopy, fun rest hrest => ?_⟩
      rw [splitSegments_eq (hne rest) (hslash rest hrest), ← List.map_append,
        ← List.splitOn_append_cons_self]
      rfl
    · refine ⟨((c :: l).splitOn 47).map trimCopy, fun rest hrest => ?_⟩
      have hstrip : stripLeading 47 (c :: l ++ 47 :: rest) = c :: l ++ 47 :: rest :=
        if_neg fun heq => hc (Option.some.inj heq)
      rw [splitSegments_eq (hne rest) (hslash rest hrest), hstrip, ← List.map_append,
        ← List.splitOn_append_cons_self]

/-- The names of a file behind a slash. -/
theorem map_splitOn_joinNames (hne : names ≠ []) (h : ∀ name ∈ names, PlainName name) :
    ((joinNames names).splitOn 47).map trimCopy = names := by
  rw [joinNames, List.splitOn_intercalate 47 (fun name hname => (h name hname).no_slash) hne]
  exact (List.map_congr_left fun name hname => (h name hname).trim).trans (List.map_id _)

/-- **The segments of a mount point, and those of a file below it.** -/
theorem MountPointEntry.exists_segments (entry : MountPointEntry) :
    ∃ front, splitSegments entry.key = front ++ [bytes "*"] ∧
      ∀ names : List Bytes, names ≠ [] → (∀ name ∈ names, PlainName name) →
        splitSegments (entry.root ++ joinNames names) = front ++ names := by
  obtain ⟨l, hl⟩ : ∃ l, entry.root = l ++ [47] := by
    unfold root
    split
    · next h =>
      obtain ⟨l, hl⟩ := List.isSuffixOf_iff_suffix.1 h
      exact ⟨l, hl.symm⟩
    · exact ⟨entry.mountPoint, rfl⟩
  obtain ⟨front, hfront⟩ := exists_splitSegments_append l
  refine ⟨front, ?_, fun names hne h => ?_⟩
  · have hkey : entry.key = l ++ 47 :: bytes "*" := by
      rw [List.append_cons, ← hl]
      rfl
    rw [hkey, hfront _ (by decide)]
    rfl
  · rw [hl, List.append_assoc, List.singleton_append, hfront _ (joinNames_ne_nil hne h),
      map_splitOn_joinNames hne h]

/-- What the wildcard puts together from the names of a file. -/
theorem joinRest_of_plainName (h : ∀ name ∈ names, PlainName name) :
    Node.joinRest names = joinNames names := by
  rw [joinRest_eq, joinNames]
  cases names with
  | nil => rfl
  | cons name names =>
    rw [List.dropWhile_cons_of_neg]
    exact fun hnil => (h name List.mem_cons_self).ne_nil (of_decide_eq_true hnil)

/-- A pattern without regular expressions matches its own segments, and whatever stands for the
wildcard. -/
theorem accept_pattern_append {Regex : Type} [StdRegex Regex] {front : List Bytes}
    (hregex : ∀ seg ∈ front, ¬ (seg.head? = some 123 ∧ seg.getLast? = some 125)) (hne : names ≠ []) :
    (Segment.alphabet Regex).accept (Segment.pattern (front ++ [bytes "*"])) (front ++ names) = true := by
  rw [Segment.pattern_append front (List.cons_ne_nil _ _)]
  induction front with
  | nil =>
    cases names with
    | nil => exact absurd rfl hne
    | cons name names => rfl
  | cons seg front ih =>
    have hrest := ih fun seg' hseg' => hregex seg' (List.mem_cons_of_mem _ hseg')
    have hself : (Segment.alphabet Regex).takesRest (Segment.inner seg) = false ∧
        (Segment.alphabet Regex).accepts (Segment.inner seg) seg = true := by
      rw [Segment.inner, Segment.ofBytes, if_neg fun hlast => List.cons_ne_nil _ _ hlast.1]
      split
      · exact ⟨rfl, rfl⟩
      · rw [if_neg (hregex seg List.mem_cons_self)]
        exact ⟨rfl, decide_eq_true rfl⟩
    rw [List.map_cons, List.cons_append, List.cons_append, Alphabet.accept, hself.1,
      if_neg Bool.false_ne_true, hself.2, Bool.true_and]
    exact hrest

variable {Handler Ws Regex Json Stream : Type} [StdRegex Regex] {host : Host}
  {setups : List (Setup Handler Ws)} {router : Router (AppHandler Handler) Ws Regex} {req : Request}
  {resp : Response Json Stream}

/-- No other route matches the path. -/
def OnlyMountPoint (Regex : Type) [StdRegex Regex] (setups : List (Setup Handler Ws))
    (entry : MountPointEntry) (path : Bytes) : Prop :=
  ∀ setup ∈ setups, ∀ reg ∈ setup.registrations, reg.Matches Regex path → setup = .mountPoint entry

/-- **The request comes to the mount point**, with the path of the file under `*`. -/
theorem run_of_onlyMountPoint
    (hsetups : Router.registerAll {} (setups.flatMap Setup.registrations) = some router)
    (hmem : .mountPoint entry ∈ setups) (hregex : entry.NoRegex) (hne : names ≠ [])
    (h : ∀ name ∈ names, PlainName name) (hmethod : req.method = .get)
    (hpath : req.path = entry.root ++ joinNames names) (honly : OnlyMountPoint Regex setups entry req.path)
    (host : Host) (resp : Response Json Stream) :
    ∃ params : Params, router.procRouting host req resp =
        .run (.mount entry) { req with pathParams := params } ∧
      params.find? (bytes "*") = some (joinNames names) := by
  obtain ⟨front, hkey, hsegments⟩ := entry.exists_segments
  have hsplit : splitSegments req.path = front ++ names := by rw [hpath, hsegments names hne h]
  have hfront : ∀ seg ∈ front, ¬ (seg.head? = some 123 ∧ seg.getLast? = some 125) := by
    intro seg hseg
    refine hregex seg ?_
    rw [hkey]
    exact List.mem_append_left _ hseg
  have hregistered : (⟨entry.key, .http .get (.mount entry)⟩ : Registration (AppHandler Handler) Ws) ∈
      setups.flatMap Setup.registrations :=
    List.mem_flatMap.2 ⟨_, hmem, List.mem_cons_self⟩
  have hmatches : (⟨entry.key, .http .get (.mount entry)⟩ : Registration (AppHandler Handler) Ws).Matches
      Regex req.path := by
    rw [Registration.Matches, hsplit, hkey]
    exact accept_pattern_append hfront hne
  have hrepresents := Represents.registerAll hsetups
  rcases Router.procRouting_eq (represents_iff_holds.1 hrepresents) host req resp with
    ⟨node, handler, params, -, -, hrun⟩ | ⟨hfind, -⟩
  · obtain ⟨p, hp, -⟩ := DispatchedBy.of_run hsetups hrun
    obtain ⟨reg, hreg, hpattern, htarget⟩ := hp.registered
    -- the route that was found is the mount point's own
    obtain ⟨setup, hsetup, hreg⟩ := List.mem_flatMap.1 hreg
    have hfound : reg.Matches Regex req.path := by
      rw [Registration.Matches, hpattern]
      exact hp.accept
    obtain rfl := honly setup hsetup reg hreg hfound
    rw [hmethod] at htarget
    obtain ⟨hregPath, rfl⟩ : reg.path = entry.key ∧ handler = .mount entry := by
      rcases List.mem_cons.1 hreg with rfl | hreg
      · cases htarget
        exact ⟨rfl, rfl⟩
      · cases List.mem_singleton.1 hreg
        cases htarget
    rw [hregPath, hkey, Segment.pattern_append front (List.cons_ne_nil _ _)] at hpattern
    subst hpattern
    have hcaptured := DispatchedBy.wildcard_of_run hsetups hrun hp
    rw [hsplit, List.length_map, List.drop_left, joinRest_of_plainName h] at hcaptured
    exact ⟨params, hrun, hcaptured⟩
  · rw [Router.find?_nodesAt_eq_none_iff hrepresents] at hfind
    refine absurd ⟨_, hregistered, .mount entry, ?_, hmatches⟩ hfind
    rw [hmethod]

/-! ## The file -/

/-- What `set_file_content` finds of a file that nobody writes meanwhile. -/
def FileEntry.readable (content mimeType : Bytes) (time : Int) : FileEntry :=
  { size := some content.length, writeTime := some time, content := some content, mimeType }

/-- The body that it sets for some intervals of the file. -/
def FileBody.served (content mimeType : Bytes) (ranges : List (Int × Int)) : FileBody :=
  { FileBody.open content with contentType := mimeType, ranges }

/-- There is a file at a path. -/
structure FileSystem.HasFile {Json : Type} (fs : FileSystem Json) (path content mimeType : Bytes)
    (time : Int) : Prop where
  pathExists : fs.pathExists path = true
  isRegularFile : fs.isRegularFile path = true
  entry : fs.entry path = .readable content mimeType time

/-- The mount point sets the file. -/
theorem MountPointEntry.handle_of_hasFile {Json : Type} {fs : FileSystem Json} {content mimeType : Bytes}
    {time : Int} (hfile : fs.HasFile (pathAppend entry.baseDir (joinNames names)) content mimeType time)
    (hne : names ≠ []) (h : ∀ name ∈ names, PlainName name)
    (hparam : req.pathParams.find? (bytes "*") = some (joinNames names)) (boundary : Bytes)
    (res : Response Json Stream) :
    entry.handle host fs boundary req res =
      some (res.setFileContent host (.readable content mimeType time) boundary req.fields) := by
  have hname := hasFilename_pathAppend entry.baseDir hne h
  rw [handle, hparam, Option.map_some, isValidPath_joinNames h, if_neg (Bool.noConfusion ·), serve,
    hfile.pathExists, if_neg (Bool.noConfusion ·)]
  dsimp only
  rw [if_pos hname, if_pos hname, hfile.isRegularFile, if_pos rfl, hfile.entry]

namespace FileBody

variable {body : FileBody} {first n : Nat}

/-- The buffers of an interval, and how they end. -/
theorem Interval.buffers_eq (h : body.Interval first n) (hsize : body.fileSize < 2 ^ 63)
    (hcontent : body.fileSize = body.content.length) (hn : n ≠ 0) (junk : Nat) :
    (body.buffers junk).flatten = (body.content.drop first).take n ∧ body.EndsWithBuffer := by
  have hle := h.le
  obtain ⟨hbuffers, hending⟩ := (body.emits_start junk).unique (h.emits hsize junk)
  rw [if_neg hn, if_pos (hcontent ▸ hle)] at hending
  rw [hbuffers, FileWriter.flatten_chunks]
  exact ⟨rfl, body.ending_eq_last_iff.1 hending⟩

end FileBody

namespace Response

variable {Json : Type} {fileEntry : FileEntry} {reqHeader : Fields} {content : Bytes} {time : Int}
  {ranges : List (Int × Int)}

/-- The request asks for the file as it is, and not for the state that it has. -/
structure AsksFor (host : Host) (reqHeader : Fields) (size : Nat) (time : Int)
    (ranges : List (Int × Int)) : Prop where
  ranges : HttpRanges.parse (reqHeader.get .range) size = .ok ranges
  ifNoneMatch : reqHeader.get .ifNoneMatch ≠ fileEtag size time
  ifModifiedSince : reqHeader.get .ifModifiedSince ≠ host.formatGmtDate time

/-- The response for a file of which one interval at most is asked for. -/
theorem setFileContent_interval (r : Response Json Stream) (boundary : Bytes) {mimeType : Bytes}
    (hasks : AsksFor host reqHeader content.length time ranges) (hone : ranges.length ≤ 1) :
    ∃ r', r.setFileContent host (.readable content mimeType time) boundary reqHeader = .ok r' ∧
      r'.body = .file (.served content mimeType ranges) ∧
      r'.header.fields.get .contentType = mimeType := by
  have hanswer := @fileAnswer_of_read host (.readable content mimeType time) reqHeader _ _ _ rfl rfl
    hasks.ranges
  rw [if_neg (not_or.2 ⟨hasks.ifNoneMatch, hasks.ifModifiedSince⟩)] at hanswer
  unfold setFileContent
  rw [hanswer]
  rcases ranges with _ | ⟨range, _ | ⟨range', ranges⟩⟩
  · exact ⟨_, rfl, rfl, congrArg (Option.getD · []) (Fields.find?_set_self _ _ _)⟩
  · exact ⟨_, rfl, rfl, congrArg (Option.getD · []) (Fields.find?_set_self _ _ _)⟩
  · exact absurd hone (Nat.not_le.2 (Nat.succ_lt_succ (Nat.succ_pos _)))

/-- **A response that has been given a file**, or one interval of it, is read as its bytes. -/
theorem receivedAs_interval [Platform] {κ κ' : Type} [JsonLib Json] (hlib : JsonLib.Streams Json)
    {backend : Backend κ} (hpayload : ChunksPayload backend.preparePayload)
    {decoders : Bytes → Option (Codec κ' UInt8)}
    (hpairs : AnyBody.TablesPair backend.creators decoders) (hidentity : backend.creators [] = none)
    {host : Host} {version : Nat} {keepAlive : Bool} {mimeType boundary : Bytes}
    {r : Response Json StreamHandler}
    (hset : (new host version keepAlive : Response Json StreamHandler).setFileContent host
      (.readable content mimeType time) boundary reqHeader = .ok r)
    (hbody : r.body = .file (.served content mimeType ranges))
    (htype : r.header.fields.get .contentType = mimeType) (hsize : content.length ≤ stringMaxSize)
    (hmime : ∀ selector ∈ selectors, startsWith mimeType selector = false) {first n : Nat}
    (hinterval : (FileBody.served content mimeType ranges).Interval first n) (hn : n ≠ 0) {req : Request}
    (hhead : req.method ≠ .head) {buffer sent left : Bytes}
    (hwrite : AsyncWrite backend req r buffer sent left) :
    ReceivedAs backend decoders req r sent (.string ((content.drop first).take n)) := by
  have hlt : content.length < 2 ^ 63 := Nat.lt_of_le_of_lt hsize (by decide)
  obtain ⟨hbuffers, hends⟩ :
      ((FileBody.served content mimeType ranges).buffers backend.junk).flatten =
        (content.drop first).take n ∧ (FileBody.served content mimeType ranges).EndsWithBuffer :=
    hinterval.buffers_eq hlt rfl hn backend.junk
  have hle : first + n ≤ content.length := hinterval.le
  let call : ContentCall Json StreamHandler :=
    .fileContent (.readable content mimeType time) boundary reqHeader
  have hcall : (new host version keepAlive).apply host call = .ok r := hset
  have htracks := (tracks_new host version keepAlive).apply hcall
  rw [List.nil_append] at htracks
  have hlength := contentLength_of_interval hinterval hlt hset hbody rfl
  have hbytes : ((content.drop first).take n).length = n := by
    rw [List.length_take, List.length_drop]
    omega
  have hcarried : r.body.CarriedBy backend.junk (r.header.fields.get .contentType) := by
    rw [hbody, htype]
    refine ⟨hmime, hends, ?_⟩
    rw [hbuffers, hbytes]
    exact Nat.le_trans (Nat.le_trans (Nat.le_add_left n first) hle) hsize
  have hframed : ContentCall.Framed host version backend.junk [call] := by
    refine (htracks.framed_iff backend.junk).1 (.inl ⟨n, hlength, ?_⟩)
    rw [hbody, AnyBody.buffers, hbuffers, hbytes]
  have hannounced : ContentCall.lastAnnounced host [call] ≠ none := by
    rw [← htracks.contentLength, hlength]
    exact Option.some_ne_none n
  have hform : r.body.NoForm := by
    rw [hbody]
    trivial
  have hreceived := htracks.receivedAs hlib hpayload hidentity hcarried hhead (hpairs.at_ _)
    (.inr ⟨hframed, fun hnone => absurd hnone hannounced⟩) (.inl hform) hwrite
  rwa [hbody, AnyBody.arrives, hbuffers] at hreceived

end Response

open Response in
/-- **Every file is served under its path.** In an application with a mount point that has no regular
expression: if a file stands under its directory, on a way of names that stand in a path as they are, with
a type that the client reads as a string, and no other route matches the path of the mount point with these
names behind it, then `proc_routing` gives a GET for this path to the mount point, which sets the file, if
the request does not ask for the state that the file has; and if `async_write` sends it, under whatever
coding the request lets it choose, then the client reads the bytes of the file, or of the one interval that
it has asked for, if there are any. -/
theorem static_file_received [Platform] {Json κ κ' : Type} [JsonLib Json] (hlib : JsonLib.Streams Json)
    {backend : Backend κ} (hpayload : ChunksPayload backend.preparePayload)
    {decoders : Bytes → Option (Codec κ' UInt8)}
    (hpairs : AnyBody.TablesPair backend.creators decoders) (hidentity : backend.creators [] = none)
    (host : Host) (hsetups : Router.registerAll {} (setups.flatMap Setup.registrations) = some router)
    (hmem : .mountPoint entry ∈ setups) (hregex : entry.NoRegex) (hne : names ≠ [])
    (h : ∀ name ∈ names, PlainName name) {fs : FileSystem Json} {content mimeType : Bytes} {time : Int}
    (hfile : fs.HasFile (pathAppend entry.baseDir (joinNames names)) content mimeType time)
    (hsize : content.length ≤ stringMaxSize)
    (hmime : ∀ selector ∈ selectors, startsWith mimeType selector = false)
    (hmethod : req.method = .get) (hpath : req.path = entry.root ++ joinNames names)
    (honly : OnlyMountPoint Regex setups entry req.path) {ranges : List (Int × Int)}
    (hasks : AsksFor host req.fields content.length time ranges) {first n : Nat}
    (hinterval : (FileBody.served content mimeType ranges).Interval first n)
    (hn : n ≠ 0) (keepAlive : Bool) (boundary : Bytes) :
    ∃ (req' : Request) (r : Response Json StreamHandler),
      router.procRouting host req (new host req.version keepAlive : Response Json StreamHandler) =
        .run (.mount entry) req' ∧
      entry.handle host fs boundary req' (new host req.version keepAlive) = some (.ok r) ∧
      ∀ buffer sent left, AsyncWrite backend req' r buffer sent left →
        ReceivedAs backend decoders req' r sent (.string ((content.drop first).take n)) := by
  obtain ⟨params, hrun, hparam⟩ :=
    run_of_onlyMountPoint hsetups hmem hregex hne h hmethod hpath honly host
      (new host req.version keepAlive : Response Json StreamHandler)
  have hone : ranges.length ≤ 1 := by
    cases hinterval with
    | whole hranges =>
      have hnone : ranges = [] := hranges
      rw [hnone]
      exact Nat.zero_le 1
    | @range first last hranges _ _ =>
      have hsingle : ranges = [((first : Int), (last : Int))] := hranges
      rw [hsingle]
      exact Nat.le_refl 1
  obtain ⟨r, hset, hbody, htype⟩ : ∃ r,
      (new host req.version keepAlive : Response Json StreamHandler).setFileContent host
          (.readable content mimeType time) boundary req.fields = .ok r ∧
        r.body = .file (.served content mimeType ranges) ∧ r.header.fields.get .contentType = mimeType :=
    setFileContent_interval _ boundary hasks hone
  have hhandle : entry.handle host fs boundary { req with pathParams := params }
      (new host req.version keepAlive : Response Json StreamHandler) =
        some ((new host req.version keepAlive).setFileContent host (.readable content mimeType time)
          boundary req.fields) :=
    MountPointEntry.handle_of_hasFile hfile hne h hparam boundary _
  refine ⟨_, r, hrun, hhandle.trans (congrArg some hset), fun buffer sent left hwrite => ?_⟩
  have hhead : ({ req with pathParams := params } : Request).method ≠ .head := by
    rw [show ({ req with pathParams := params } : Request).method = .get from hmethod]
    intro hget
    cases hget
  exact receivedAs_interval hlib hpayload hpairs hidentity hset hbody htype hsize hmime hinterval hn hhead
    hwrite

/-- A host whose dates are not empty. -/
def datedHost : Host := { plainHost with formatGmtDate := fun _ => bytes "now" }

/-- A mount point over the working directory. -/
def filesMount : MountPointEntry := ⟨bytes "/files", bytes "./", true, .json, []⟩

/-- A file system with one file. -/
def oneFile : FileSystem Unit where
  pathExists path := path = bytes "./a/b"
  isRegularFile path := path = bytes "./a/b"
  isDirectory _ := false
  entry _ := .readable (bytes "hello") (bytes "text/plain") 0
  formatDirToJson _ := ((), true)
  formatDirToHtml _ _ := ([], true)

open scoped Platform.Plain in
/-- A GET for it. -/
def fileRequest : Request := .ofHeader .get (bytes "/files/a/b") 11 []

/-- The request with what its wildcard captures. -/
def dispatchedFileRequest : Request := { fileRequest with pathParams := [(bytes "*", bytes "a/b")] }

/-- The response with the file. -/
def fileResponse : Response Unit StreamHandler :=
  { header :=
      { version := 11, result := 200, keepAlive := true, contentLength := some 5,
        fields := ((((Response.new datedHost 11 true : Response Unit StreamHandler).set .etag
          (fileEtag 5 0)).set .lastModified (bytes "now")).set .acceptRanges (bytes "bytes")).set
            .contentType (bytes "text/plain") |>.header.fields }
    body := .file (.served (bytes "hello") (bytes "text/plain") []) }

open scoped Platform.Plain in
/-- The file is sent and read. -/
theorem static_file_received_hello :
    letI := nullJson
    filesMount.handle datedHost oneFile [] dispatchedFileRequest (.new datedHost 11 true) =
        some (.ok fileResponse) ∧
      ∃ sent left : Bytes,
        Response.AsyncWrite gzipBackend dispatchedFileRequest fileResponse [] sent left ∧
        Response.ReceivedAs gzipBackend gzipDecoders dispatchedFileRequest fileResponse sent
          (.string (bytes "hello")) := by
  let _ := literalRegex
  let _ := nullJson
  let setups : List (Setup Unit Unit) := [.mountPoint filesMount]
  let router : Router (AppHandler Unit) Unit Bytes :=
    (Router.registerAll {} (setups.flatMap Setup.registrations)).getD {}
  have hsetups : Router.registerAll {} (setups.flatMap Setup.registrations) = some router := rfl
  have hnames : ∀ name ∈ [bytes "a", bytes "b"], PlainName name := by
    intro name hname
    rcases List.mem_cons.1 hname with rfl | hname
    · exact ⟨by decide, by decide, by decide, by decide, by decide, by decide, by decide⟩
    · cases List.mem_singleton.1 hname
      exact ⟨by decide, by decide, by decide, by decide, by decide, by decide, by decide⟩
  have hregex : filesMount.NoRegex := by
    intro seg hseg
    have hsegments : splitSegments filesMount.key = [bytes "files", bytes "*"] := by decide
    rw [hsegments] at hseg
    rcases List.mem_cons.1 hseg with rfl | hseg
    · decide
    · cases List.mem_singleton.1 hseg
      decide
  have honly : OnlyMountPoint Bytes setups filesMount fileRequest.path :=
    fun setup hsetup _ _ _ => List.mem_singleton.1 hsetup
  have hfile : oneFile.HasFile (pathAppend filesMount.baseDir (joinNames [bytes "a", bytes "b"]))
      (bytes "hello") (bytes "text/plain") 0 := ⟨rfl, rfl, rfl⟩
  have hasks : Response.AsksFor datedHost fileRequest.fields (bytes "hello").length 0 [] :=
    ⟨rfl, (fileEtag_ne_nil _ _).symm, by decide⟩
  have hinterval : (FileBody.served (bytes "hello") (bytes "text/plain") []).Interval 0 5 :=
    FileBody.Interval.whole rfl
  obtain ⟨req', r, hrun, hhandle, hreceived⟩ :=
    static_file_received nullJson_streams chunksPayload_chunkedPayload tablesPair_gzip rfl datedHost
      hsetups List.mem_cons_self hregex (List.cons_ne_nil _ _) hnames hfile (by decide) (by decide) rfl
      rfl honly hasks hinterval (by decide) true []
  have hdispatched : router.procRouting datedHost fileRequest
      (.new datedHost 11 true : Response Unit StreamHandler) =
        .run (.mount filesMount) dispatchedFileRequest := rfl
  obtain ⟨-, rfl⟩ := Router.Routed.run.inj (hdispatched.symm.trans hrun)
  have hset : filesMount.handle datedHost oneFile [] dispatchedFileRequest (.new datedHost 11 true) =
      some (.ok fileResponse) := rfl
  obtain rfl : fileResponse = r := Except.ok.inj (Option.some.inj (hset.symm.trans hhandle))
  have hends := (hinterval.buffers_eq (by decide) rfl (by decide) 0).2
  have hemits : Producer.Emits (AnyBodyWriter.get 1)
      (.init gzipBackend.creators (fileResponse.header.fields.get .contentEncoding) gzipBackend.junk
        fileResponse.body) (fileResponse.body.buffers 0) .last := by
    rw [← (FileBody.ending_eq_last_iff _).2 hends]
    exact AnyBodyWriter.emits_plain (fileResponse.body.emits_create 0)
  have hwrite : Response.AsyncWrite gzipBackend dispatchedFileRequest fileResponse [] _ [] :=
    .plain rfl hemits nofun rfl
  exact ⟨hset, _, _, hwrite, hreceived _ _ _ hwrite⟩

end Httplib
