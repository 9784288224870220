import Httplib.Body.AnyBodyWriter
import Httplib.Server.Response

/-!
# When a response is framed

A response is framed if it is chunked or announces the length of its body. The setters that announce
no length (`set_json_content`, `set_form_data_content`, and `set_file_content` for several ranges or
a file it can not read) leave the Content-Length that an earlier setter announced, and `async_write`
then does not compute it anew: `response_framed_iff`.
-/

namespace Httplib

open Producer (Emits)

/-! ## The length of one interval of a file -/

namespace FileBody

open FileWriter

/-- The writer of a whole file returns as many bytes as the file has. -/
theorem length_singleText_whole (body : FileBody) (h : body.fileSize = body.content.length) :
    (singleText body.stream 0 body.fileSize).length = u64 body.content.length := by
  have hzero : i64 0 = 0 := rfl
  have hseek : body.stream.seekg (i64 0) = body.stream := by
    simp [hzero, FileStream.seekg, stream]
  have hle : u64 body.content.length ≤ body.content.length := by
    unfold u64
    omega
  rw [singleText, if_pos (show u64 0 ≤ _ from Nat.zero_le _), hseek, h, show u64 0 = 0 from rfl,
    Nat.sub_zero]
  simp [FileStream.ahead, stream, hle]

/-- The length of an interval counted from its ends is the number of bytes that are returned of it
exactly when the interval is empty or lies in the file. -/
theorem length_singleText_eq_iff (body : FileBody) (first second : Int) :
    u64 (second - first) = (singleText body.stream first second).length ↔
      u64 first = u64 second ∨
        u64 first < 2 ^ 63 ∧ u64 first < u64 second ∧ u64 second ≤ body.content.length := by
  have hfirst := u64_lt first
  have hdiff : u64 first ≤ u64 second → u64 (second - first) = u64 second - u64 first := by
    unfold u64
    omega
  have hwrap : u64 second < u64 first → u64 (second - first) = 2 ^ 64 + u64 second - u64 first := by
    unfold u64
    omega
  rw [singleText, seekg_stream]
  rcases Nat.lt_or_ge (u64 second) (u64 first) with hlt | hle
  · rw [if_neg (Nat.not_le.2 hlt), hwrap hlt]
    split
    · simp [FileStream.ahead, bufSize]
      omega
    · simp [FileStream.ahead]
      omega
  · rw [if_pos hle, hdiff hle]
    split
    · simp [FileStream.ahead]
      omega
    · simp [FileStream.ahead]
      omega

end FileBody

namespace ContentCall

variable {Json Handler : Type}

/-! ## What a call announces and leaves -/

/-- The length that a call gives to `content_length`, if it does. -/
def announces (host : Host) : ContentCall Json Handler → Option Nat
  | .emptyContent _ | .redirect _ _ => some 0
  | .errorContent status => some (Response.errorPage host status host.beastVersion).length
  | .stringContent data _ _ => some data.length
  | .jsonContent _ _ | .formDataContent _ _ | .streamContent _ _ _ => none
  | .fileContent entry _ reqHeader =>
    match Response.fileAnswer host entry reqHeader with
    | .ok (.opened fileSize _ _ file) =>
      match file.ranges with
      | [] => some fileSize
      | [range] => some (u64 (range.2 + 1 - range.1))
      | _ => none
    | .ok (.unsatisfiable _) | .ok .notModified => some 0
    | .ok .unreadable | .error _ => none

/-- The body that a call leaves. -/
def leaves (host : Host) : ContentCall Json Handler → AnyBody Json
  | .emptyContent _ | .redirect _ _ | .streamContent _ _ _ => .empty
  | .errorContent status => .string (Response.errorPage host status host.beastVersion)
  | .stringContent data _ _ => .string data
  | .jsonContent data _ => .json data
  | .formDataContent data boundary => .formData { boundary, fields := data }
  | .fileContent entry boundary reqHeader =>
    match Response.fileAnswer host entry reqHeader with
    | .ok (.opened _ _ _ file) =>
      match file.ranges with
      | [] | [_] => .file file
      | _ => .file { file with boundary }
    | _ => .empty

/-- The stream handler that a call leaves. -/
def handler : ContentCall Json Handler → Option Handler
  | .streamContent handler _ _ => some handler
  | _ => none

/-- The length that a call announces is right: always, but for a file that was read at another size
than it was measured at, or asked for an interval whose ends are the wrong way round. -/
def Exact (host : Host) : ContentCall Json Handler → Prop
  | .fileContent entry _ reqHeader =>
    match Response.fileAnswer host entry reqHeader with
    | .ok (.opened fileSize _ _ file) =>
      match file.ranges with
      | [] => fileSize = u64 file.content.length
      | [range] =>
        u64 range.1 = u64 (range.2 + 1) ∨ u64 range.1 < 2 ^ 63 ∧
          u64 range.1 < u64 (range.2 + 1) ∧ u64 (range.2 + 1) ≤ file.content.length
      | _ => True
    | _ => True
  | _ => True

/-- The length announced last, by whichever call. -/
def lastAnnounced (host : Host) (calls : List (ContentCall Json Handler)) : Option Nat :=
  (calls.filterMap (announces host)).getLast?

variable [JsonLib Json]

/-- **The length announced is that of the body, or none is announced and none is needed.** If the
last call announces a length, it has to be right; if it does not, the length that an earlier call
announced stands, and has to be that of the new body by chance. -/
def Framed (host : Host) (version junk : Nat) (calls : List (ContentCall Json Handler)) : Prop :=
  match calls.getLast? with
  | none => version = 11
  | some call =>
    match call.announces host with
    | some _ => call.Exact host
    | none =>
      match lastAnnounced host calls with
      | none => version = 11
      | some n => n = ((call.leaves host).buffers junk).flatten.length

/-- A file that was opened is at its start and has the size that was read. -/
theorem fileAnswer_opened {host : Host} {entry : FileEntry} {reqHeader : Fields} {fileSize : Nat}
    {etag lastModified : Bytes} {file : FileBody}
    (h : Response.fileAnswer host entry reqHeader = .ok (.opened fileSize etag lastModified file)) :
    file.fileSize = file.content.length := by
  unfold Response.fileAnswer at h
  split at h
  · split at h
    · cases h
    · cases h
    · dsimp only at h
      split at h
      · cases h
      · split at h
        · cases h
        · split at h
          · cases h
          · cases h
            rfl
  · cases h

/-- The length that a call announces is the length of the body it leaves exactly when it is right. -/
theorem announces_eq_length_iff {host : Host} {call : ContentCall Json Handler} {n : Nat}
    (h : call.announces host = some n) (junk : Nat) :
    n = ((call.leaves host).buffers junk).flatten.length ↔ call.Exact host := by
  cases call with
  | emptyContent | redirect | errorContent | stringContent =>
    cases h
    simp [leaves, Exact, AnyBody.buffers]
  | jsonContent | formDataContent | streamContent => cases h
  | fileContent entry boundary reqHeader =>
    simp only [announces] at h
    split at h
    · next hanswer =>
      have hsize := fileAnswer_opened hanswer
      simp only [leaves, Exact, hanswer]
      split at h
      · next hr =>
        cases h
        simp only [hr, AnyBody.buffers, FileBody.buffers, FileWriter.flatten_chunks]
        rw [FileBody.length_singleText_whole _ hsize]
      · next hr =>
        cases h
        simp only [hr, AnyBody.buffers, FileBody.buffers, FileWriter.flatten_chunks]
        exact FileBody.length_singleText_eq_iff _ _ _
      · cases h
    · next hanswer =>
      cases h
      simp [leaves, Exact, hanswer, AnyBody.buffers]
    · next hanswer =>
      cases h
      simp [leaves, Exact, hanswer, AnyBody.buffers]
    · cases h
    · cases h

end ContentCall

namespace Response

variable {Json Handler : Type} {host : Host} {version : Nat}
  {call : ContentCall Json Handler} {calls done : List (ContentCall Json Handler)}
  {r r' : Response Json Handler}

/-! ## What a call changes -/

/-- What a call that announces `announced` and leaves `body` and `handler` keeps and changes. -/
structure Sets (announced : Option Nat) (body : AnyBody Json) (handler : Option Handler)
    (r r' : Response Json Handler) : Prop where
  version : r'.header.version = r.header.version
  server : r'.header.fields.find? .server = r.header.fields.find? .server
  contentEncoding : r'.header.fields.find? .contentEncoding = r.header.fields.find? .contentEncoding
  chunked : r.header.chunked = false → r'.header.chunked = false
  contentLength : r'.header.contentLength = announced.or r.header.contentLength
  body : r'.body = body
  streamHandler : r'.streamHandler = handler

/-- Setting an empty content announces a length of zero. -/
theorem sets_emptyContent (r : Response Json Handler) (status : Nat) :
    Sets (some 0) .empty none r (r.setEmptyContent status) :=
  ⟨rfl, rfl, rfl, fun _ => rfl, rfl, rfl, rfl⟩

/-- Setting a string announces its length. -/
theorem sets_stringContent (r : Response Json Handler) (data contentType : Bytes) (status : Nat) :
    Sets (some data.length) (.string data) none r (r.setStringContent data contentType status) where
  version := rfl
  server := Fields.find?_set_of_ne _ _ nofun
  contentEncoding := Fields.find?_set_of_ne _ _ nofun
  chunked := fun _ => rfl
  contentLength := rfl
  body := rfl
  streamHandler := rfl

/-- Fields other than Server and Content-Encoding may be set before a call. -/
theorem Sets.of_set {announced : Option Nat} {body : AnyBody Json} {handler : Option Handler}
    (name : Field) (value : Bytes) (h : Sets announced body handler (r.set name value) r')
    (hserver : name ≠ .server := by decide) (hencoding : name ≠ .contentEncoding := by decide) :
    Sets announced body handler r r' where
  version := h.version
  server := h.server.trans (Fields.find?_set_of_ne _ _ hserver)
  contentEncoding := h.contentEncoding.trans (Fields.find?_set_of_ne _ _ hencoding)
  chunked := h.chunked
  contentLength := h.contentLength
  body := h.body
  streamHandler := h.streamHandler

/-- A call starts from the response without its content. -/
theorem Sets.of_resetContent {announced : Option Nat} {body : AnyBody Json}
    {handler : Option Handler} (h : Sets announced body handler r.resetContent r') :
    Sets announced body handler r r' :=
  ⟨h.version, h.server, h.contentEncoding, h.chunked, h.contentLength, h.body, h.streamHandler⟩

/-- What `set_file_content` does, for each of its decisions. -/
theorem sets_fileContent {entry : FileEntry} {boundary : Bytes} {reqHeader : Fields}
    (h : r.setFileContent host entry boundary reqHeader = .ok r') :
    Sets ((ContentCall.fileContent entry boundary reqHeader : ContentCall Json Handler).announces host)
      ((ContentCall.fileContent entry boundary reqHeader : ContentCall Json Handler).leaves host)
      none r r' := by
  refine Sets.of_resetContent ?_
  simp only [setFileContent] at h
  simp only [ContentCall.announces, ContentCall.leaves]
  cases hanswer : fileAnswer host entry reqHeader with
  | error e =>
    rw [hanswer] at h
    cases h
  | ok answer =>
    rw [hanswer] at h
    cases answer with
    | unreadable =>
      cases h
      exact ⟨rfl, rfl, rfl, id, rfl, rfl, rfl⟩
    | unsatisfiable fileSize =>
      cases h
      exact Sets.of_set .contentRange _ (sets_emptyContent _ _)
    | notModified =>
      cases h
      exact sets_emptyContent _ _
    | opened fileSize etag lastModified file =>
      refine Sets.of_set .etag etag ?_
      refine Sets.of_set .lastModified lastModified ?_
      obtain ⟨ranges, contentType, _, content, size⟩ := file
      -- the whole file, one range of it, or several
      rcases ranges with _ | ⟨range, _ | ⟨range', ranges⟩⟩
      · cases h
        refine Sets.of_set .acceptRanges (bytes "bytes") ?_
        refine Sets.of_set .contentType contentType ?_
        exact ⟨rfl, rfl, rfl, fun _ => rfl, rfl, rfl, rfl⟩
      · cases h
        refine Sets.of_set .contentRange (bytes "bytes " ++ bytes (toString range.1) ++ bytes "-" ++
          bytes (toString range.2) ++ bytes "/" ++ bytes (toString fileSize)) ?_
        refine Sets.of_set .contentType contentType ?_
        exact ⟨rfl, rfl, rfl, fun _ => rfl, rfl, rfl, rfl⟩
      · cases h
        refine Sets.of_set .contentType (bytes "multipart/byteranges; boundary=" ++ boundary) ?_
        exact ⟨rfl, rfl, rfl, id, rfl, rfl, rfl⟩

/-- **What a call does to a response**, whose Server field is the one it was made with. -/
theorem sets_of_apply (hserver : r.header.fields.find? .server = some host.beastVersion)
    (h : r.apply host call = .ok r') : Sets (call.announces host) (call.leaves host) call.handler r r' := by
  cases call with
  | emptyContent status =>
    cases h
    exact sets_emptyContent r status
  | errorContent status =>
    cases h
    have hget : r.header.fields.get .server = host.beastVersion := by
      rw [Fields.get, hserver, Option.getD_some]
    rw [setErrorContent, hget]
    exact sets_stringContent r _ _ status
  | stringContent data contentType status =>
    cases h
    exact sets_stringContent r data contentType status
  | jsonContent data status =>
    cases h
    refine Sets.of_resetContent ?_
    refine Sets.of_set .contentType (bytes "application/json; charset=utf-8") ?_
    refine Sets.of_set .cacheControl (bytes "no-store") ?_
    exact ⟨rfl, rfl, rfl, id, rfl, rfl, rfl⟩
  | fileContent entry boundary reqHeader => exact sets_fileContent h
  | formDataContent data boundary =>
    cases h
    refine Sets.of_resetContent (Sets.of_set .contentType
      (bytes "multipart/form-data; boundary=" ++ boundary) ?_)
    exact ⟨rfl, rfl, rfl, id, rfl, rfl, rfl⟩
  | redirect url status =>
    cases h
    exact Sets.of_set .location _ (sets_emptyContent _ status)
  | streamContent handler contentType status =>
    cases h
    refine Sets.of_set .contentType contentType ?_
    exact ⟨rfl, rfl, rfl, id, rfl, rfl, rfl⟩

/-! ## Whole sequences of calls -/

/-- The response that the calls leave: everything in it that `async_write` looks at is told by the
last call, but for its Content-Length, which is told by the last call that announced one. -/
structure Tracks (host : Host) (version : Nat) (calls : List (ContentCall Json Handler))
    (r : Response Json Handler) : Prop where
  version : r.header.version = version
  server : r.header.fields.find? .server = some host.beastVersion
  contentEncoding : r.header.fields.find? .contentEncoding = none
  chunked : r.header.chunked = false
  contentLength : r.header.contentLength = ContentCall.lastAnnounced host calls
  body : r.body = (calls.getLast?.map (ContentCall.leaves host)).getD .empty
  streamHandler : r.streamHandler = calls.getLast?.bind ContentCall.handler

/-- A fresh response is that of no calls. -/
theorem tracks_new (host : Host) (version : Nat) (keepAlive : Bool) :
    Tracks host version [] (new host version keepAlive : Response Json Handler) :=
  ⟨rfl, rfl, rfl, rfl, rfl, rfl, rfl⟩

/-- One more call. -/
theorem Tracks.apply (h : Tracks host version done r) (hcall : r.apply host call = .ok r') :
    Tracks host version (done ++ [call]) r' := by
  have hsets := sets_of_apply h.server hcall
  exact {
    version := hsets.version.trans h.version
    server := hsets.server.trans h.server
    contentEncoding := hsets.contentEncoding.trans h.contentEncoding
    chunked := hsets.chunked h.chunked
    contentLength := by
      rw [hsets.contentLength, h.contentLength, ContentCall.lastAnnounced, ContentCall.lastAnnounced,
        List.filterMap_append, List.getLast?_append]
      cases hann : call.announces host <;> simp [hann]
    body := by simp [hsets.body]
    streamHandler := by simp [hsets.streamHandler] }

/-- All the calls. -/
theorem Tracks.applyAll (h : Tracks host version done r) (hcalls : r.applyAll host calls = .ok r') :
    Tracks host version (done ++ calls) r' := by
  induction calls generalizing r done with
  | nil =>
    cases hcalls
    rwa [List.append_nil]
  | cons call calls ih =>
    rw [Response.applyAll, List.foldlM_cons] at hcalls
    cases hr : r.apply host call with
    | error e =>
      rw [hr] at hcalls
      cases hcalls
    | ok r₁ =>
      rw [hr] at hcalls
      have hrun := ih (h.apply hr) hcalls
      rwa [List.append_assoc] at hrun

/-- The length a response has kept is that of its body exactly when the calls frame it. -/
theorem Tracks.framed_iff [JsonLib Json] (h : Tracks host version calls r) (junk : Nat) :
    (∃ n, r.header.contentLength = some n ∧ n = (r.body.buffers junk).flatten.length) ∨
        r.header.contentLength = none ∧ version = 11 ↔
      ContentCall.Framed host version junk calls := by
  rw [h.contentLength, h.body, ContentCall.Framed]
  rcases List.eq_nil_or_concat calls with rfl | ⟨done, call, rfl⟩
  · simp [ContentCall.lastAnnounced]
  · rw [List.concat_eq_append, List.getLast?_concat]
    cases hann : call.announces host with
    | some n =>
      have hlast : ContentCall.lastAnnounced host (done ++ [call]) = some n := by
        simp [ContentCall.lastAnnounced, hann]
      have hexact := ContentCall.announces_eq_length_iff hann junk
      simpa [hlast, hann] using hexact
    | none => cases ContentCall.lastAnnounced host (done ++ [call]) <;> simp [hann]

/-- A coding that is chosen makes the message chunked. -/
theorem chunked_applyEncoding {supported : Bytes → Bool} {req : Request} {header : ResponseHeader}
    (h : chooseEncoding supported req ≠ []) :
    (applyEncoding supported req header).chunked = true := by
  rw [applyEncoding, if_neg h]
  rfl

/-- Without a coding the response stays as it is. -/
theorem applyEncoding_of_eq_nil {supported : Bytes → Bool} {req : Request}
    {header : ResponseHeader} (h : chooseEncoding supported req = []) :
    applyEncoding supported req header = header := if_pos h

/-- The bytes that the writer of a response without a coding returns. -/
theorem emits_length_iff {κ : Type} [JsonLib Json] {creators : Bytes → Option (Codec κ UInt8)}
    {encoding : Bytes} (h : creators encoding = none) (body : AnyBody Json) (junk turns n : Nat) :
    (∃ bufs e, Emits (AnyBodyWriter.get turns) (.init creators encoding junk body) bufs e ∧
      some n = some bufs.flatten.length) ↔ n = (body.buffers junk).flatten.length := by
  have hrun : Emits (AnyBodyWriter.get turns)
      ({ proxy := .create junk body, compressor := none } : AnyBodyWriter κ) (body.buffers junk)
        body.ending := AnyBodyWriter.emits_plain (body.emits_create junk)
  rw [AnyBodyWriter.init, h, Option.map_none]
  constructor
  · rintro ⟨bufs, e, hemits, hlen⟩
    obtain ⟨rfl, rfl⟩ := hemits.unique hrun
    exact Option.some.inj hlen
  · rintro rfl
    exact ⟨_, _, hrun, rfl⟩

end Response

open Response in
/-- **When the message is framed.** For every sequence of calls on a fresh response and every request
other than HEAD: what `async_write` has prepared is chunked, or announces the number of bytes that
the writer of its body returns, exactly when the last call sets a stream, a coding is chosen, or the
calls leave the right length. -/
theorem response_framed_iff {Json Handler κ : Type} [JsonLib Json] (host : Host) (version : Nat)
    (keepAlive : Bool) {preparePayload : ResponseHeader → Option ResponseHeader}
    (hchunked : ∀ h h', preparePayload h = some h' → h.version = 11 → h'.chunked = true)
    (hplain : ∀ h h', preparePayload h = some h' → h.version ≠ 11 →
      h'.chunked = false ∧ h'.contentLength = none)
    {creators : Bytes → Option (Codec κ UInt8)} (hidentity : creators [] = none)
    {req : Request} (hhead : req.method ≠ .head) {calls : List (ContentCall Json Handler)}
    {r r' : Response Json Handler} (hcalls : (new host version keepAlive).applyAll host calls = .ok r)
    (hwrite : r.prepare preparePayload (fun name => (creators name).isSome) req = some r')
    (junk turns : Nat) :
    (r'.header.chunked = true ∨
      ∃ bufs e, Emits (AnyBodyWriter.get turns)
          (.init creators (r'.header.fields.get .contentEncoding) junk r'.body) bufs e ∧
        r'.header.contentLength = some bufs.flatten.length) ↔
    ((calls.getLast?.bind ContentCall.handler).isSome = true ∨
      chooseEncoding (fun name => (creators name).isSome) req ≠ [] ∨
      ContentCall.Framed host version junk calls) := by
  have htracks := (tracks_new host version keepAlive).applyAll hcalls
  rw [List.nil_append] at htracks
  rw [← htracks.framed_iff junk, ← htracks.streamHandler]
  simp only [prepare, if_neg hhead, Option.map_eq_some_iff] at hwrite
  obtain ⟨header, hheader, rfl⟩ := hwrite
  unfold prepareHeader at hheader
  split at hheader
  · next hstream =>
    cases hheader
    simp [ResponseHeader.setChunked, hstream]
  · next hstream =>
    by_cases hencoding : chooseEncoding (fun name => (creators name).isSome) req = []
    · -- no coding: the message is framed by the length that the response has kept, or by Beast
      split at hheader
      · next hlength =>
        obtain ⟨n, hn⟩ := Option.isSome_iff_exists.1 hlength
        cases hheader
        have hget : r.header.fields.get .contentEncoding = [] := by
          rw [Fields.get, htracks.contentEncoding, Option.getD_none]
        rw [applyEncoding_of_eq_nil hencoding, hget, hn, emits_length_iff hidentity]
        simp [htracks.chunked, hstream, hencoding]
      · next hlength =>
        rw [Option.map_eq_some_iff] at hheader
        obtain ⟨header', hprepare, rfl⟩ := hheader
        have hnone := Option.not_isSome_iff_eq_none.1 hlength
        rw [applyEncoding_of_eq_nil hencoding, hnone]
        rcases eq_or_ne version 11 with h11 | h11
        · simp [hchunked _ _ hprepare (htracks.version.trans h11), h11]
        · obtain ⟨hnot, hnolength⟩ := hplain _ _ hprepare (htracks.version ▸ h11)
          simp [hnot, hnolength, h11, hstream, hencoding]
    · refine iff_of_true (.inl ?_) (.inr (.inl hencoding))
      split at hheader
      · cases hheader
        exact chunked_applyEncoding hencoding
      · rw [Option.map_eq_some_iff] at hheader
        obtain ⟨header', -, rfl⟩ := hheader
        exact chunked_applyEncoding hencoding

/-- `prepare_payload` for a body without `size`. -/
def chunkedPayload (header : ResponseHeader) : Option ResponseHeader :=
  if header.version = 11 then some header.setChunked
  else some { header with contentLength := none, chunked := false }

/-- A chunked payload marks a response of HTTP/1.1. -/
theorem chunkedPayload_of_eq (h h' : ResponseHeader) (heq : chunkedPayload h = some h')
    (hversion : h.version = 11) : h'.chunked = true := by
  rw [chunkedPayload, if_pos hversion] at heq
  cases heq
  rfl

/-- Another response it leaves without length and unmarked. -/
theorem chunkedPayload_of_ne (h h' : ResponseHeader) (heq : chunkedPayload h = some h')
    (hversion : h.version ≠ 11) : h'.chunked = false ∧ h'.contentLength = none := by
  rw [chunkedPayload, if_neg hversion] at heq
  cases heq
  exact ⟨rfl, rfl⟩

open scoped Platform.Plain in
/-- A text behind an error page. -/
theorem response_framed_string :
    letI := nullJson
    ∃ r r' : Response Unit Unit,
      (Response.new plainHost 11 true).applyAll plainHost
        [.errorContent 404, .stringContent (bytes "hello") (bytes "text/plain") 200] = .ok r ∧
      r.prepare chunkedPayload (fun _ => false) (.ofHeader .get (bytes "/") 11 []) = some r' ∧
      (r'.header.chunked = true ∨
        ∃ bufs e, Emits (AnyBodyWriter.get 1) (.init (fun _ => (none : Option (Codec Unit UInt8)))
            (r'.header.fields.get .contentEncoding) 0 r'.body) bufs e ∧
          r'.header.contentLength = some bufs.flatten.length) := by
  let _ := nullJson
  refine ⟨_, _, rfl, rfl, ?_⟩
  have hhead : (Request.ofHeader .get (bytes "/") 11 []).method ≠ .head := nofun
  have hcalls : (Response.new plainHost 11 true).applyAll plainHost
      [.errorContent 404, .stringContent (bytes "hello") (bytes "text/plain") 200] =
        .ok (_ : Response Unit Unit) := rfl
  have hidentity : (fun _ => none : Bytes → Option (Codec Unit UInt8)) [] = none := rfl
  exact (response_framed_iff plainHost 11 true chunkedPayload_of_eq chunkedPayload_of_ne hidentity
    hhead hcalls rfl 0 1).2 (.inr (.inr trivial))

open scoped Platform.Plain in
/-- The JSON value `null` behind an error page: it goes out under the Content-Length of the page. -/
theorem response_framed_json :
    letI := nullJson
    ¬ ∀ (host : Host) (version : Nat) (keepAlive : Bool)
      (preparePayload : ResponseHeader → Option ResponseHeader)
      (creators : Bytes → Option (Codec Unit UInt8)) (req : Request)
      (calls : List (ContentCall Unit Unit)) (r r' : Response Unit Unit) (junk turns : Nat),
      (∀ h h', preparePayload h = some h' → h.version = 11 → h'.chunked = true) →
      (∀ h h', preparePayload h = some h' → h.version ≠ 11 →
        h'.chunked = false ∧ h'.contentLength = none) →
      creators [] = none → req.method ≠ .head →
      (Response.new host version keepAlive).applyAll host calls = .ok r →
      r.prepare preparePayload (fun name => (creators name).isSome) req = some r' →
      r'.header.chunked = true ∨
        ∃ bufs e, Emits (AnyBodyWriter.get turns)
            (.init creators (r'.header.fields.get .contentEncoding) junk r'.body) bufs e ∧
          r'.header.contentLength = some bufs.flatten.length := by
  let _ := nullJson
  intro h
  have hframed := h plainHost 11 true chunkedPayload (fun _ => none)
    (.ofHeader .get (bytes "/") 11 []) [.errorContent 404, .jsonContent () 200] _ _ 0 1
    chunkedPayload_of_eq chunkedPayload_of_ne rfl nofun rfl rfl
  rcases hframed with hchunked | ⟨bufs, e, hrun, hlength⟩
  · cases hchunked
  · obtain ⟨rfl, -⟩ := hrun.unique (AnyBodyWriter.emits_plain (AnyBody.emits_create 0 (.json ())))
    have hpage : 4 < (Response.errorPage plainHost 404 (bytes "Boost.Beast")).length := by
      simp [Response.errorPage, bytes]
    exact absurd (Option.some.inj hlength) (Nat.ne_of_gt hpage)

end Httplib
