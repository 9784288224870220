import Httplib.Lib.Chunked
import Httplib.Server.ResponseFraming

/-!
# Writing a response

`session::http_task::async_write` (`lib/server/session.cpp:288`): Beast's serializer sends the header
and the body, and behind it a loop calls the stream handler with the connection's read buffer and
sends what stands in the buffer as chunks. The three results say when the read buffer is left alone
(`async_write_frame_iff`), that a stream never ends where it should (`async_write_stream`), and when
nothing follows the header of a response without a body (`async_write_no_body_iff`).
-/

namespace Httplib

open Producer (Emits Ending)
open Chunked (chunk lastChunk)

/-- One turn of the loop of `async_write` (`session.cpp:326`): what the stream handler appends to the
buffer and returns, whether it reports an error, and whether the writes behind it succeed. -/
structure StreamTurn where
  appended : Bytes
  hasMore : Bool
  failed : Bool := false
  chunkOk : Bool := true
  lastOk : Bool := true

/-- A stream handler, as the turns it will take. -/
abbrev StreamHandler := List StreamTurn

/-- The chunk that a turn sends, and what it leaves in the buffer (`session.cpp:332`). -/
def sendBuffer (ok : Bool) (buffer : Bytes) : Option (Bytes × Bytes) :=
  if buffer = [] then some ([], [])
  else if ok then some (chunk buffer, []) else none

/-- The loop over the stream handler (`session.cpp:326`): the bytes it sends, and the buffer at its
end; none where `async_write` returns false, or the handler does not come to an end. -/
def streamLoop : StreamHandler → Bytes → Option (Bytes × Bytes)
  | [], _ => none
  | turn :: turns, buffer =>
    if turn.failed then none
    else match sendBuffer turn.chunkOk (buffer ++ turn.appended) with
      | none => none
      | some (sent, buffer) =>
        if turn.hasMore then (streamLoop turns buffer).map fun (rest, buffer) => (sent ++ rest, buffer)
        else if turn.lastOk then some (sent ++ lastChunk, buffer) else none

/-- What `http::serializer` sends behind the header, for the buffers that the body writer returns. -/
def serialized (chunked : Bool) (bufs : List Bytes) : Bytes :=
  if chunked then (bufs.map chunk).flatten ++ lastChunk else bufs.flatten

/-- What Beast and the compressors are to `async_write`: `prepare_payload` of a body without `size`,
the table of the `compressor_factory`, and the bytes under a failed file read. -/
structure Backend (κ : Type) where
  preparePayload : ResponseHeader → Option ResponseHeader
  creators : Bytes → Option (Codec κ UInt8)
  junk : Nat

namespace Backend

variable {κ : Type}

/-- `compressor_factory::is_supported_encoding`. -/
def supported (backend : Backend κ) (name : Bytes) : Bool := (backend.creators name).isSome

end Backend

/-- A backend that knows the coding gzip. -/
def gzipBackend : Backend Bytes where
  preparePayload := chunkedPayload
  creators name := if name = bytes "gzip" then some storedCodec else none
  junk := 0

namespace Response

variable {Json κ : Type} [JsonLib Json]

/-- `async_write` returns true (`session.cpp:288`): from the read buffer `buffer` it comes to `left`,
and it sends `sent` behind the blank line of the header. -/
inductive AsyncWrite (backend : Backend κ) (req : Request) (r : Response Json StreamHandler)
    (buffer : Bytes) : Bytes → Bytes → Prop
  /-- No stream handler, or none left for a HEAD. -/
  | plain {r' bufs e n} : r.prepare backend.preparePayload backend.supported req = some r' →
      Emits (AnyBodyWriter.get n)
        (.init backend.creators (r'.header.fields.get .contentEncoding) backend.junk r'.body) bufs e →
      (∀ x, e ≠ .failed x) → r'.streamHandler = none →
      AsyncWrite backend req r buffer (serialized r'.header.chunked bufs) buffer
  | stream {r' bufs e n handler sent left} :
      r.prepare backend.preparePayload backend.supported req = some r' →
      Emits (AnyBodyWriter.get n)
        (.init backend.creators (r'.header.fields.get .contentEncoding) backend.junk r'.body) bufs e →
      (∀ x, e ≠ .failed x) → r'.streamHandler = some handler →
      streamLoop handler buffer = some (sent, left) →
      AsyncWrite backend req r buffer (serialized r'.header.chunked bufs ++ sent) left

variable {backend : Backend κ} {req : Request} {r r' : Response Json StreamHandler}
  {buffer sent left : Bytes}

omit [JsonLib Json] in
/-- The stream handler that is left for a request. -/
theorem streamHandler_prepare
    (h : r.prepare backend.preparePayload backend.supported req = some r') :
    r'.streamHandler = if req.method = .head then none else r.streamHandler := by
  obtain ⟨header, -, rfl⟩ := Option.map_eq_some_iff.1 h
  split <;> rfl

/-! ## The read buffer -/

omit [JsonLib Json] in
/-- A stream that comes to its end has emptied the read buffer. -/
theorem left_of_streamLoop {turns : StreamHandler} (h : streamLoop turns buffer = some (sent, left)) :
    left = [] := by
  have hsend : ∀ {ok : Bool} {buffer sent rest : Bytes},
      sendBuffer ok buffer = some (sent, rest) → rest = [] := by
    intro ok buffer sent rest hsend
    unfold sendBuffer at hsend
    split at hsend
    · cases hsend; rfl
    · split at hsend <;> cases hsend
      rfl
  induction turns generalizing buffer sent with
  | nil => cases h
  | cons turn turns ih =>
    rw [streamLoop] at h
    split at h
    · cases h
    · split at h
      · cases h
      · next sent' rest hturn =>
        split at h
        · obtain ⟨⟨sent'', rest'⟩, hrest, heq⟩ := Option.map_eq_some_iff.1 h
          cases heq
          exact ih hrest
        · split at h <;> cases h
          exact hsend hturn

end Response

open Response in
/-- **When writing leaves the input alone.** For every response and request, a successful
`async_write` leaves the read buffer as it was, and sends what it sends from an empty one, exactly
when no stream handler runs (there is none, or the request is a HEAD) or the read buffer is empty at
the start. -/
theorem async_write_frame_iff {Json κ : Type} [JsonLib Json] {backend : Backend κ} {req : Request}
    {r : Response Json StreamHandler} {buffer sent left : Bytes}
    (h : AsyncWrite backend req r buffer sent left) :
    (left = buffer ∧ ∃ left', AsyncWrite backend req r [] sent left') ↔
      (r.streamHandler = none ∨ req.method = .head ∨ buffer = []) := by
  cases h with
  | plain hprepare hbufs hok hnone =>
    refine iff_of_true ⟨rfl, [], .plain hprepare hbufs hok hnone⟩ ?_
    rw [streamHandler_prepare hprepare] at hnone
    split at hnone
    · next hhead => exact .inr (.inl hhead)
    · exact .inl hnone
  | stream hprepare hbufs hok hsome hloop =>
    have hleft := left_of_streamLoop hloop
    have hstream := hsome
    rw [streamHandler_prepare hprepare] at hstream
    split at hstream
    · cases hstream
    · next hhead =>
      constructor
      · rintro ⟨hframe, -⟩
        exact .inr (.inr (hframe.symm.trans hleft))
      · rintro (hnone | hhead' | hempty)
        · rw [hstream] at hnone
          cases hnone
        · exact absurd hhead' hhead
        · subst hempty
          exact ⟨hleft, _, .stream hprepare hbufs hok hsome hloop⟩

open scoped Platform.Plain in
/-- A text is written while a second request is in the read buffer. -/
theorem async_write_frame_text :
    letI := nullJson
    ∃ sent left,
      Response.AsyncWrite gzipBackend (.ofHeader .get (bytes "/") 11 [])
        ((Response.new plainHost 11 true).setStringContent (bytes "hi") (bytes "text/plain") 200 :
          Response Unit StreamHandler) (bytes "GET /b") sent left ∧
      left = bytes "GET /b" ∧ ∃ left',
        Response.AsyncWrite gzipBackend (.ofHeader .get (bytes "/") 11 [])
          ((Response.new plainHost 11 true).setStringContent (bytes "hi") (bytes "text/plain") 200 :
            Response Unit StreamHandler) [] sent left' := by
  let _ := nullJson
  have hwrite : Response.AsyncWrite gzipBackend (.ofHeader .get (bytes "/") 11 [])
      ((Response.new plainHost 11 true).setStringContent (bytes "hi") (bytes "text/plain") 200 :
        Response Unit StreamHandler) (bytes "GET /b") _ _ :=
    .plain (n := 1) rfl (.last (t := ⟨.string (bytes "hi"), none⟩) rfl) nofun rfl
  exact ⟨_, _, hwrite, (async_write_frame_iff hwrite).2 (.inl rfl)⟩

open scoped Platform.Plain in
/-- A stream of one piece is written while a second request is in the read buffer: the request is
sent to the client in front of the piece. -/
theorem async_write_frame_stream :
    letI := nullJson
    ¬ ∀ (backend : Backend Bytes) (req : Request) (r : Response Unit StreamHandler)
      (buffer sent left : Bytes), Response.AsyncWrite backend req r buffer sent left →
        left = buffer ∧ ∃ left', Response.AsyncWrite backend req r [] sent left' := by
  let _ := nullJson
  intro h
  have hwrite : Response.AsyncWrite gzipBackend (.ofHeader .get (bytes "/") 11 [])
      ((Response.new plainHost 11 true).setStreamContent
        [{ appended := bytes "x", hasMore := false }] (bytes "text/plain") 200 :
          Response Unit StreamHandler) (bytes "GET /b") _ _ :=
    .stream (n := 1) rfl (.done rfl) nofun rfl rfl
  obtain ⟨hframe, -⟩ := h _ _ _ _ _ _ hwrite
  cases hframe

/-! ## Streams -/

/-- A stream handler that appends these pieces, call after call, and a last one as it returns
false. -/
def streamTurns (pieces : List Bytes) (last : Bytes) : StreamHandler :=
  pieces.map (fun piece => { appended := piece, hasMore := true }) ++
    [{ appended := last, hasMore := false }]

theorem sendBuffer_true (buffer : Bytes) :
    sendBuffer true buffer = some (([buffer].filter (· ≠ []) |>.map chunk).flatten, []) := by
  unfold sendBuffer
  rcases eq_or_ne buffer [] with rfl | hne
  · rfl
  · simp [hne]

/-- From an empty buffer the loop sends a chunk for each piece that is not empty, and the last chunk
behind them. -/
theorem streamLoop_streamTurns (pieces : List Bytes) (last : Bytes) :
    streamLoop (streamTurns pieces last) [] =
      some ((((pieces ++ [last]).filter (· ≠ [])).map chunk).flatten ++ lastChunk, []) := by
  induction pieces with
  | nil =>
    rw [streamTurns, List.map_nil, List.nil_append, streamLoop]
    simp only [Bool.false_eq_true, if_false, List.nil_append, if_true, sendBuffer_true]
  | cons piece pieces ih =>
    rw [streamTurns, List.map_cons, List.cons_append, streamLoop, ← streamTurns, List.cons_append,
      ← List.singleton_append, List.filter_append, List.map_append, List.flatten_append,
      List.append_assoc]
    simp only [Bool.false_eq_true, if_false, List.nil_append, if_true, sendBuffer_true, ih,
      Option.map_some]

namespace Response

variable {Json κ : Type} [JsonLib Json] {backend : Backend κ} {req : Request}
  {r r' : Response Json StreamHandler} {buffer sent left : Bytes}

/-! ## Without a body -/

/-- The writer of an empty body returns no buffer, under any coding. -/
theorem emits_empty (creators : Bytes → Option (Codec κ UInt8)) (encoding : Bytes) (junk : Nat) :
    Emits (AnyBodyWriter.get 1) (.init creators encoding junk (.empty : AnyBody Json)) [] .done := by
  refine .done ?_
  unfold AnyBodyWriter.get AnyBodyWriter.init
  cases creators encoding <;> rfl

theorem emits_empty_unique {creators : Bytes → Option (Codec κ UInt8)} {encoding : Bytes}
    {junk turns : Nat} {bufs : List Bytes} {e : Ending HttpError}
    (h : Emits (AnyBodyWriter.get turns) (.init creators encoding junk (.empty : AnyBody Json)) bufs
      e) : bufs = [] := by
  have hinv := h.inv
  unfold AnyBodyWriter.get AnyBodyWriter.init at hinv
  cases hcodec : creators encoding with
  | none =>
    rw [hcodec] at hinv
    exact hinv.1
  | some codec =>
    rw [hcodec] at hinv
    cases turns with
    | zero => exact hinv.elim
    | succ turns => exact hinv.1

omit [JsonLib Json] in
/-- The body of a response that is reset for a HEAD, or had none before. -/
theorem body_prepare_eq_empty (hempty : req.method = .head ∨ r.body = .empty)
    (h : r.prepare backend.preparePayload backend.supported req = some r') : r'.body = .empty := by
  obtain ⟨header, -, rfl⟩ := Option.map_eq_some_iff.1 h
  split
  · rfl
  · next hhead => exact hempty.resolve_left hhead

end Response

open Response in
/-- **A stream ends twice.** For every handler that appends pieces and then returns false, every
response it is set on and every request but a HEAD: `async_write` succeeds from an empty read buffer,
and what it sends behind the header is never a chunked text of the pieces. A receiver finds the last
chunk of an empty text first; the chunked text of the pieces stands behind it. -/
theorem async_write_stream {Json κ : Type} [JsonLib Json] (backend : Backend κ) {req : Request}
    (hhead : req.method ≠ .head) (r : Response Json StreamHandler) (pieces : List Bytes)
    (last contentType : Bytes) (status : Nat) :
    let r := r.setStreamContent (streamTurns pieces last) contentType status
    (∃ sent left, AsyncWrite backend req r [] sent left) ∧
      ∀ sent left, AsyncWrite backend req r [] sent left →
        Chunked.decode sent ≠ some ((pieces ++ [last]).flatten, []) ∧
          ∃ rest, Chunked.decode sent = some ([], rest) ∧
            Chunked.decode rest = some ((pieces ++ [last]).flatten, []) := by
  intro r
  have hbody : r.body = .empty := rfl
  have hstream : r.streamHandler = some (streamTurns pieces last) := rfl
  obtain ⟨r', hr', hchunked⟩ : ∃ r', r.prepare backend.preparePayload backend.supported req =
      some r' ∧ r'.header.chunked = true := by
    refine ⟨{ r with header := r.header.setChunked }, ?_, rfl⟩
    rw [prepare, Response.prepareHeader, hstream, Option.isSome_some, if_pos rfl, Option.map_some,
      if_neg hhead]
  have hhandler : r'.streamHandler = some (streamTurns pieces last) := by
    rw [streamHandler_prepare hr', if_neg hhead, hstream]
  have hbody' := body_prepare_eq_empty (.inr hbody) hr'
  constructor
  · have hbufs : Emits (AnyBodyWriter.get 1)
        (.init backend.creators (r'.header.fields.get .contentEncoding) backend.junk r'.body) [] .done := by
      rw [hbody']
      exact emits_empty _ _ _
    have hok : ∀ x : HttpError, (Ending.done : Ending HttpError) ≠ .failed x := fun x hx => by cases hx
    exact ⟨_, _, .stream hr' hbufs hok hhandler (streamLoop_streamTurns pieces last)⟩
  · intro sent left h
    have hrest : Chunked.decode
        ((((pieces ++ [last]).filter (· ≠ [])).map chunk).flatten ++ lastChunk) =
          some ((pieces ++ [last]).flatten, []) := by
      have hdecode := Chunked.decode_chunks ((pieces ++ [last]).filter (· ≠ []))
        (fun data hdata => by simpa using (List.mem_filter.1 hdata).2) []
      rwa [List.append_nil, List.flatten_filter_ne_nil] at hdecode
    obtain ⟨rest, hsent, hrest'⟩ : ∃ rest, sent = lastChunk ++ rest ∧
        Chunked.decode rest = some ((pieces ++ [last]).flatten, []) := by
      cases h with
      | plain hprepare _ _ hnone =>
        rw [hr'] at hprepare
        cases hprepare
        rw [hhandler] at hnone
        cases hnone
      | stream hprepare hbufs _ hsome hloop =>
        rw [hr'] at hprepare
        cases hprepare
        rw [hhandler] at hsome
        cases hsome
        rw [hbody'] at hbufs
        rw [streamLoop_streamTurns] at hloop
        cases hloop
        rw [emits_empty_unique hbufs, hchunked]
        exact ⟨_, rfl, hrest⟩
    have hfirst : Chunked.decode sent = some ([], rest) := by
      rw [hsent]
      exact Chunked.decode_lastChunk rest
    refine ⟨fun heq => ?_, rest, hfirst, hrest'⟩
    rw [hfirst] at heq
    rw [(Prod.mk.inj (Option.some.inj heq)).2] at hrest'
    cases hrest'

open scoped Platform.Plain in
/-- A stream of one piece. -/
theorem async_write_stream_hello :
    letI := nullJson
    let r := (Response.new plainHost 11 true : Response Unit StreamHandler).setStreamContent
      (streamTurns [] (bytes "hello")) (bytes "text/plain") 200
    (∃ sent left,
        Response.AsyncWrite gzipBackend (.ofHeader .get (bytes "/") 11 []) r [] sent left) ∧
      ∀ sent left,
        Response.AsyncWrite gzipBackend (.ofHeader .get (bytes "/") 11 []) r [] sent left →
          Chunked.decode sent ≠ some (bytes "hello", []) ∧
            ∃ rest, Chunked.decode sent = some ([], rest) ∧
              Chunked.decode rest = some (bytes "hello", []) := by
  let _ := nullJson
  have hhead : (Request.ofHeader .get (bytes "/") 11 []).method ≠ .head := nofun
  exact async_write_stream gzipBackend hhead
    (.new plainHost 11 true) [] (bytes "hello") (bytes "text/plain") 200

open scoped Platform.Plain in
/-- What is sent for this stream is not the chunked text of its piece. -/
theorem async_write_stream_twice :
    letI := nullJson
    ¬ ∀ (backend : Backend Bytes) (req : Request) (r : Response Unit StreamHandler)
      (pieces : List Bytes) (last contentType : Bytes) (status : Nat), req.method ≠ .head →
        ∃ sent left,
          Response.AsyncWrite backend req
            (r.setStreamContent (streamTurns pieces last) contentType status) [] sent left ∧
          Chunked.decode sent = some ((pieces ++ [last]).flatten, []) := by
  let _ := nullJson
  intro h
  obtain ⟨sent, left, hwrite, hdecode⟩ := h gzipBackend (.ofHeader .get (bytes "/") 11 [])
    (.new plainHost 11 true) [] (bytes "hello") (bytes "text/plain") 200 nofun
  have hempty : Chunked.decode sent = some ([], (chunk (bytes "hello") ++ lastChunk)) := by
    cases hwrite with
    | plain hprepare _ _ hnone => cases hprepare; cases hnone
    | stream hprepare hbufs _ hsome hloop =>
      cases hprepare
      cases hsome
      cases hloop
      rw [Response.emits_empty_unique hbufs]
      rfl
  rw [hempty] at hdecode
  cases hdecode

namespace Response

variable {Json κ : Type} {backend : Backend κ} {req : Request} {r r' : Response Json StreamHandler}

/-- When the header that is sent for a HTTP/1.1 response is not chunked. -/
theorem chunked_prepare_iff
    (hpayload : ∀ h h', backend.preparePayload h = some h' → h.version = 11 → h'.chunked = true)
    (hversion : r.header.version = 11) (hchunked : r.header.chunked = false)
    (h : r.prepare backend.preparePayload backend.supported req = some r') :
    r'.header.chunked = false ↔
      chooseEncoding backend.supported req = [] ∧ r.streamHandler = none ∧
        r.header.contentLength ≠ none := by
  obtain ⟨header, hheader, heq⟩ := Option.map_eq_some_iff.1 h
  have hsame : r'.header = header := by
    rw [← heq]
    split <;> rfl
  rw [hsame]
  unfold Response.prepareHeader at hheader
  split at hheader
  · next hstream =>
    cases hheader
    refine iff_of_false nofun ?_
    rintro ⟨-, hnone, -⟩
    rw [hnone] at hstream
    cases hstream
  · next hstream =>
    have hnone := Option.not_isSome_iff_eq_none.1 hstream
    rcases eq_or_ne (chooseEncoding backend.supported req) [] with hencoding | hencoding
    · split at hheader
      · next hlength =>
        cases hheader
        rw [applyEncoding_of_eq_nil hencoding]
        exact iff_of_true hchunked ⟨hencoding, hnone, Option.isSome_iff_ne_none.1 hlength⟩
      · next hlength =>
        obtain ⟨header', hprepare, rfl⟩ := Option.map_eq_some_iff.1 hheader
        rw [applyEncoding_of_eq_nil hencoding, hpayload _ _ hprepare hversion]
        exact iff_of_false nofun fun hcond => hlength (Option.isSome_iff_ne_none.2 hcond.2.2)
    · have hsent : header.chunked = true := by
        split at hheader
        · cases hheader
          exact chunked_applyEncoding hencoding
        · obtain ⟨header', -, rfl⟩ := Option.map_eq_some_iff.1 hheader
          exact chunked_applyEncoding hencoding
      rw [hsent]
      exact iff_of_false nofun fun hcond => hencoding hcond.1

end Response

open Response in
/-- **When nothing follows the header.** For every HTTP/1.1 response that the content setters have
built, and every request, of a HEAD or for a response that `set_empty_content` was called on last
with 100, 204 or 304: `async_write` sends no byte behind the header exactly when no coding is chosen
for the request, the last call sets no stream, and some call has announced a length. -/
theorem async_write_no_body_iff {Json κ : Type} [JsonLib Json] {backend : Backend κ}
    (hpayload : ∀ h h', backend.preparePayload h = some h' → h.version = 11 → h'.chunked = true)
    (host : Host) (keepAlive : Bool) {req : Request} {calls : List (ContentCall Json StreamHandler)}
    {r : Response Json StreamHandler} (hcalls : (new host 11 keepAlive).applyAll host calls = .ok r)
    (hempty : req.method = .head ∨
      ∃ (before : Response Json StreamHandler) (status : Nat),
        (status = 100 ∨ status = 204 ∨ status = 304) ∧ r = before.setEmptyContent status)
    {buffer sent left : Bytes} (h : AsyncWrite backend req r buffer sent left) :
    sent = [] ↔
      chooseEncoding backend.supported req = [] ∧
        calls.getLast?.bind ContentCall.handler = none ∧
        ContentCall.lastAnnounced host calls ≠ none := by
  have htracks := (tracks_new host 11 keepAlive).applyAll hcalls
  rw [List.nil_append] at htracks
  rw [← htracks.streamHandler, ← htracks.contentLength]
  have hbody : req.method = .head ∨ r.body = .empty := by
    refine hempty.imp_right ?_
    rintro ⟨before, status, -, rfl⟩
    rfl
  have hhandler : req.method = .head ∨ r.streamHandler = none := by
    refine hempty.imp_right ?_
    rintro ⟨before, status, -, rfl⟩
    rfl
  cases h with
  | plain hprepare hbufs _ _ =>
    rw [body_prepare_eq_empty hbody hprepare] at hbufs
    rw [← chunked_prepare_iff hpayload htracks.version htracks.chunked hprepare,
      emits_empty_unique hbufs, serialized]
    split
    · next hchunked => exact iff_of_false nofun (by rw [hchunked]; exact nofun)
    · next hchunked => exact iff_of_true rfl (Bool.eq_false_iff.2 hchunked)
  | stream hprepare _ _ hsome _ =>
    rw [streamHandler_prepare hprepare] at hsome
    split at hsome
    · cases hsome
    · next hhead =>
      rw [hhandler.resolve_left hhead] at hsome
      cases hsome

open scoped Platform.Plain in
/-- An answer without a body to a request that takes no coding. -/
theorem async_write_no_body_options :
    letI := nullJson
    ∃ sent left,
      Response.AsyncWrite gzipBackend (.ofHeader .options (bytes "/") 11 [])
        ((Response.new plainHost 11 true).setEmptyContent 204 : Response Unit StreamHandler) []
        sent left ∧ sent = [] := by
  let _ := nullJson
  have hwrite : Response.AsyncWrite gzipBackend (.ofHeader .options (bytes "/") 11 [])
      ((Response.new plainHost 11 true).setEmptyContent 204 : Response Unit StreamHandler) [] _ _ :=
    .plain (n := 1) rfl (.done rfl) nofun rfl
  have hcalls : (Response.new plainHost 11 true).applyAll plainHost [.emptyContent 204] =
      .ok ((Response.new plainHost 11 true).setEmptyContent 204 : Response Unit StreamHandler) := rfl
  refine ⟨_, _, hwrite, (async_write_no_body_iff chunkedPayload_of_eq plainHost true hcalls
    (.inr ⟨_, 204, .inr (.inl rfl), rfl⟩) hwrite).2 ?_⟩
  exact ⟨rfl, rfl, nofun⟩

open scoped Platform.Plain in
/-- The 100 reply to a request that takes gzip: a last chunk follows its header. -/
theorem async_write_no_body_continue :
    letI := nullJson
    ¬ ∀ (host : Host) (keepAlive : Bool) (backend : Backend Bytes) (req : Request)
      (calls : List (ContentCall Unit StreamHandler)) (r : Response Unit StreamHandler)
      (buffer sent left : Bytes),
      (∀ h h', backend.preparePayload h = some h' → h.version = 11 → h'.chunked = true) →
      (Response.new host 11 keepAlive).applyAll host calls = .ok r →
      (req.method = .head ∨ ∃ (before : Response Unit StreamHandler) (status : Nat),
        (status = 100 ∨ status = 204 ∨ status = 304) ∧ r = before.setEmptyContent status) →
      Response.AsyncWrite backend req r buffer sent left → sent = [] := by
  let _ := nullJson
  intro h
  have hwrite : Response.AsyncWrite gzipBackend (.ofHeader .post (bytes "/") 11
        [(.expect, bytes "100-continue"), (.acceptEncoding, bytes "gzip")])
      ((Response.new plainHost 11 true).setEmptyContent 100 : Response Unit StreamHandler) [] _ _ :=
    .plain (n := 1) rfl (.done rfl) nofun rfl
  have hsent := h plainHost true gzipBackend _ [.emptyContent 100] _ _ _ _ chunkedPayload_of_eq rfl
    (.inr ⟨_, 100, .inl rfl, rfl⟩) hwrite
  cases hsent

end Httplib
