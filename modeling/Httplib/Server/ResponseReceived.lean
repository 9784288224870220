import Httplib.Body.AnyBodyRoundTrip
import Httplib.Server.AsyncWrite

/-!
# A response that is received

What the content setters have put into a response, `async_write` sends under the coding that the request
lets it choose, and the `any_body::reader` of a client reads: `response_received`. It rests on the framing
of the message (`ContentCall.Framed`), on the pair of codecs, and on the `Content-Type`, by which the
client selects its reader.
-/

namespace Httplib

open Producer (Emits)

/-- What Beast's parser takes off the connection as the body behind a header, and what it leaves there. -/
def ResponseHeader.received (header : ResponseHeader) (sent : Bytes) : Option (Bytes × Bytes) :=
  if header.chunked then Chunked.decode sent
  else match header.contentLength with
    | some n => if n ≤ sent.length then some (sent.take n, sent.drop n) else none
    | none => some (sent, [])

/-- The length that Beast's parser announces to a body reader. -/
def ResponseHeader.announced (header : ResponseHeader) : Option Nat :=
  if header.chunked then none else header.contentLength

namespace Response

variable {Json Handler : Type} {preparePayload : ResponseHeader → Option ResponseHeader}
  {supported : Bytes → Bool} {req : Request} {r : Response Json Handler} {header : ResponseHeader}

/-- What Beast's `prepare_payload` does for a body without `size` under HTTP/1.1. -/
structure ChunksPayload (preparePayload : ResponseHeader → Option ResponseHeader) : Prop where
  chunked : ∀ {h h'}, preparePayload h = some h' → h.version = 11 → h'.chunked = true
  fields : ∀ {h h'}, preparePayload h = some h' → h'.fields = h.fields

/-- The header for a request whose coding is not supported, or that names none. -/
theorem prepareHeader_of_no_coding (hpayload : ChunksPayload preparePayload)
    (hstream : r.streamHandler = none) (hcoding : chooseEncoding supported req = [])
    (h : r.prepareHeader preparePayload supported req = some header) :
    header.fields = r.header.fields ∧
      ((∃ n, r.header.contentLength = some n ∧ header = r.header) ∨
        r.header.contentLength = none ∧ (r.header.version = 11 → header.chunked = true)) := by
  unfold prepareHeader at h
  rw [hstream, Option.isSome_none, if_neg Bool.false_ne_true] at h
  split at h
  · next hlength =>
    cases h
    rw [applyEncoding_of_eq_nil hcoding]
    exact ⟨rfl, .inl ⟨_, Option.some_get hlength |>.symm, rfl⟩⟩
  · next hlength =>
    obtain ⟨header', hprepare, rfl⟩ := Option.map_eq_some_iff.1 h
    rw [applyEncoding_of_eq_nil hcoding]
    exact ⟨hpayload.fields hprepare, .inr ⟨Option.not_isSome_iff_eq_none.1 hlength,
      hpayload.chunked hprepare⟩⟩

/-- The header for a request that a coding is chosen for. -/
theorem prepareHeader_of_coding (hpayload : ChunksPayload preparePayload)
    (hstream : r.streamHandler = none) (hcoding : chooseEncoding supported req ≠ [])
    (h : r.prepareHeader preparePayload supported req = some header) :
    header.chunked = true ∧
      header.fields = r.header.fields.set .contentEncoding (chooseEncoding supported req) := by
  have hsent : ∀ header' : ResponseHeader, header'.fields = r.header.fields →
      header = applyEncoding supported req header' → header.chunked = true ∧
        header.fields = r.header.fields.set .contentEncoding (chooseEncoding supported req) := by
    rintro header' hfields rfl
    rw [applyEncoding, if_neg hcoding]
    exact ⟨rfl, congrArg (Fields.set · _ _) hfields⟩
  unfold prepareHeader at h
  rw [hstream, Option.isSome_none, if_neg Bool.false_ne_true] at h
  split at h
  · cases h
    exact hsent _ rfl rfl
  · obtain ⟨header', hprepare, rfl⟩ := Option.map_eq_some_iff.1 h
    exact hsent _ (hpayload.fields hprepare) rfl

/-- The coding that is chosen is supported. -/
theorem supported_chooseEncoding (h : chooseEncoding supported req ≠ []) :
    supported (chooseEncoding supported req) = true := by
  rw [chooseEncoding] at h ⊢
  cases hfind : req.fields.find? .acceptEncoding with
  | none => exact absurd (by rw [hfind]) h
  | some value =>
    rw [hfind] at h
    dsimp only [AcceptContent.serverApplyEncoding] at h ⊢
    split at h
    · next elem helem =>
      have hsupported := List.find?_some helem
      exact hsupported
    · exact absurd rfl h

/-- A response with a body that is carried has no stream handler. -/
theorem Tracks.streamHandler_eq_none [JsonLib Json] {host : Host} {version junk : Nat}
    {contentType : Bytes} {calls : List (ContentCall Json Handler)} (h : Tracks host version calls r)
    (hcarried : r.body.CarriedBy junk contentType) : r.streamHandler = none := by
  rw [h.body] at hcarried
  rw [h.streamHandler]
  cases hlast : calls.getLast? with
  | none => rfl
  | some call =>
    rw [hlast] at hcarried
    cases call with
    | streamContent => exact hcarried.elim
    | _ => rfl

/-- What a client makes of the bytes `sent` behind the header of a response: it finds the whole body and
nothing else, the reader it selects by the `Content-Type` is opened for the coding that was chosen, and in
whatever pieces the bytes come, it reads `body`. -/
def ReceivedAs [Platform] {Json κ κ' : Type} [JsonLib Json] (backend : Backend κ)
    (decoders : Bytes → Option (Codec κ' UInt8)) (req : Request) (r : Response Json StreamHandler)
    (sent : Bytes) (body : AnyBody Json) : Prop :=
  ∃ header text reader,
    r.prepareHeader backend.preparePayload backend.supported req = some header ∧
    header.received sent = some (text, []) ∧
    (AnyBodyReader.init decoders (header.fields.get .contentType)
      (header.fields.get .contentEncoding) header.announced :
        Except BodyError (AnyBodyReader Json κ')) = .ok reader ∧
    ∀ pieces : List Bytes, pieces.flatten = text → reader.read pieces = some body

/-- A response that the content setters have left, and that is sent. -/
theorem Tracks.receivedAs [Platform] {Json κ κ' : Type} [JsonLib Json] (hlib : JsonLib.Streams Json)
    {backend : Backend κ} (hpayload : ChunksPayload backend.preparePayload)
    {decoders : Bytes → Option (Codec κ' UInt8)}
    (hidentity : backend.creators [] = none)
    {host : Host} {version : Nat} {calls : List (ContentCall Json StreamHandler)}
    {r : Response Json StreamHandler} (htracks : Tracks host version calls r)
    (hcarried : r.body.CarriedBy backend.junk (r.header.fields.get .contentType))
    {req : Request} (hhead : req.method ≠ .head)
    (hpairs : AnyBody.PairsAt backend.creators decoders (chooseEncoding backend.supported req))
    (hframed : chooseEncoding backend.supported req ≠ [] ∨
      ContentCall.Framed host version backend.junk calls ∧
        (ContentCall.lastAnnounced host calls = none → ∀ b ∈ r.body.buffers backend.junk, b ≠ []))
    (hform : r.body.NoForm ∨ chooseEncoding backend.supported req = []) {buffer sent left : Bytes}
    (hwrite : AsyncWrite backend req r buffer sent left) :
    ReceivedAs backend decoders req r sent (r.body.arrives backend.junk) := by
  have hstream := htracks.streamHandler_eq_none hcarried
  obtain ⟨header, bufs, e, n, hheader, hrun, rfl⟩ : ∃ header bufs e n,
      r.prepareHeader backend.preparePayload backend.supported req = some header ∧
      Emits (AnyBodyWriter.get n)
        (.init backend.creators (header.fields.get .contentEncoding) backend.junk r.body) bufs e ∧
      sent = serialized header.chunked bufs := by
    cases hwrite with
    | plain hprepare hrun hend hnone =>
      obtain ⟨header, hheader, rfl⟩ := Option.map_eq_some_iff.1 hprepare
      rw [if_neg hhead] at hrun ⊢
      exact ⟨header, _, _, _, hheader, hrun, rfl⟩
    | stream hprepare _ _ hsome =>
      rw [streamHandler_prepare hprepare, if_neg hhead, hstream] at hsome
      cases hsome
  refine ⟨header, bufs.flatten, ?_⟩
  by_cases hcoding : chooseEncoding backend.supported req = []
  · -- no coding: the length that was announced, or chunks that are not empty
    obtain ⟨hfields, hkind⟩ := prepareHeader_of_no_coding hpayload hstream hcoding hheader
    obtain ⟨hframed, hbuffers⟩ := hframed.resolve_left (not_not.2 hcoding)
    have hencoding : header.fields.get .contentEncoding = [] := by
      rw [hfields, Fields.get, htracks.contentEncoding, Option.getD_none]
    have hnone : backend.creators (header.fields.get .contentEncoding) = none := by
      rw [hencoding, hidentity]
    have hbufs := AnyBody.bufs_of_plain hnone hrun
    have hlength := (htracks.framed_iff backend.junk).2 hframed
    obtain ⟨hreceived, hannounced⟩ : header.received (serialized header.chunked bufs) =
        some (bufs.flatten, []) ∧ ∀ n ∈ header.announced, n = (r.body.text backend.junk).length := by
      rcases hkind with ⟨n, hn, rfl⟩ | ⟨hn, hchunked⟩
      · obtain ⟨n', hn', hlen⟩ | ⟨hnone', -⟩ := hlength
        · rw [hn] at hn'
          cases hn'
          have hchunked := htracks.chunked
          constructor
          · rw [ResponseHeader.received, hchunked, if_neg Bool.false_ne_true, hn, serialized,
              if_neg Bool.false_ne_true, hbufs, hlen]
            simp
          · rw [ResponseHeader.announced, hchunked, if_neg Bool.false_ne_true, hn]
            rintro _ ⟨⟩
            exact hlen
        · rw [hn] at hnone'
          cases hnone'
      · obtain ⟨n', hn', -⟩ | ⟨-, hversion⟩ := hlength
        · rw [hn] at hn'
          cases hn'
        · rw [htracks.contentLength] at hn
          have hchunked := hchunked (htracks.version.trans hversion)
          have hdecode := Chunked.decode_chunks bufs (hbufs ▸ hbuffers hn) []
          rw [List.append_nil] at hdecode
          constructor
          · rw [ResponseHeader.received, hchunked, if_pos rfl, serialized, if_pos rfl, hdecode]
          · rw [ResponseHeader.announced, hchunked, if_pos rfl]
            exact fun n hn => by cases hn
    rw [← hfields] at hcarried
    rw [hcoding, ← hencoding] at hpairs
    obtain ⟨reader, hreader, hread⟩ :=
      AnyBody.read_text hlib hpairs hcarried (.inr hnone) hrun hannounced
    exact ⟨reader, hheader, hreceived, hreader, hread⟩
  · -- a coding: chunks of the output of its codec
    obtain ⟨hchunked, hfields⟩ := prepareHeader_of_coding hpayload hstream hcoding hheader
    have hencoding : header.fields.get .contentEncoding = chooseEncoding backend.supported req := by
      rw [hfields, Fields.get, Fields.find?_set_self, Option.getD_some]
    have htype : header.fields.get .contentType = r.header.fields.get .contentType := by
      rw [hfields, Fields.get, Fields.find?_set_of_ne _ _ (by decide)]
      rfl
    obtain ⟨codec, hcodec⟩ := Option.isSome_iff_exists.1 (supported_chooseEncoding hcoding)
    rw [← hencoding] at hcodec hpairs
    obtain ⟨decoder, -, hpair⟩ := hpairs.pairs hcodec
    obtain ⟨-, hne⟩ := AnyBody.bufs_of_codec hcarried hcodec hpair.close_ne_nil hrun
    have hdecode := Chunked.decode_chunks bufs hne []
    rw [List.append_nil] at hdecode
    have hannounced : ∀ n ∈ header.announced, n = (r.body.text backend.junk).length := by
      rw [ResponseHeader.announced, hchunked, if_pos rfl]
      exact fun n hn => by cases hn
    rw [← htype] at hcarried
    obtain ⟨reader, hreader, hread⟩ := AnyBody.read_text hlib hpairs hcarried
      (.inl (hform.resolve_right hcoding)) hrun hannounced
    refine ⟨reader, hheader, ?_, hreader, hread⟩
    rw [ResponseHeader.received, hchunked, if_pos rfl, serialized, if_pos rfl, hdecode]

end Response

/-- The decoder beside `storedCodec`: it takes the marker off. -/
def unstoredCodec : Codec Bool UInt8 where
  init := false
  write marked b :=
    if marked then (b, true)
    else match b with
      | [] => ([], false)
      | _ :: rest => (rest, true)
  close _ := []

theorem whole_unstoredCodec (marked : Bool) (pieces : List Bytes) :
    unstoredCodec.whole marked pieces = if marked then pieces.flatten else pieces.flatten.tail := by
  induction pieces generalizing marked with
  | nil => cases marked <;> rfl
  | cons piece pieces ih =>
    rw [Codec.whole_cons]
    cases marked with
    | true => exact congrArg (piece ++ ·) (ih true)
    | false =>
      cases piece with
      | nil => exact ih false
      | cons c rest => exact congrArg (rest ++ ·) (ih true)

theorem storedCodec_pairs : storedCodec.Pairs unstoredCodec where
  close_ne_nil := storedCodec_encodes.close_ne_nil
  whole_eq xs ys h := by
    have htail := storedCodec_encodes.complete xs
    rw [← h] at htail
    rw [whole_unstoredCodec, unstoredCodec, if_neg Bool.false_ne_true]
    rcases hys : ys.flatten with _ | ⟨c, rest⟩
    · rw [hys] at htail
      cases htail
    · rw [hys] at htail
      exact Option.some.inj htail

theorem chunksPayload_chunkedPayload : Response.ChunksPayload chunkedPayload where
  chunked := chunkedPayload_of_eq _ _
  fields := by
    intro h h' heq
    unfold chunkedPayload at heq
    split at heq <;> (cases heq; rfl)

/-- The table of a client that knows the coding gzip. -/
def gzipDecoders (name : Bytes) : Option (Codec Bool UInt8) :=
  if name = bytes "gzip" then some unstoredCodec else none

theorem tablesPair_gzip : AnyBody.TablesPair gzipBackend.creators gzipDecoders where
  pairs := by
    intro name e h
    dsimp only [gzipBackend] at h
    split at h
    · next hname =>
      cases h
      exact ⟨unstoredCodec, if_pos hname, storedCodec_pairs⟩
    · cases h
  unknown := by
    intro name h
    dsimp only [gzipBackend] at h
    split at h
    · cases h
    · next hname => exact if_neg hname

open scoped Platform.Plain in
/-- A request that takes gzip. -/
def gzipRequest : Request := .ofHeader .get (bytes "/") 11 [(.acceptEncoding, bytes "gzip")]

/-- A response with a text. -/
def textResponse : Response Unit StreamHandler :=
  (Response.new plainHost 11 true).setStringContent (bytes "hi") (bytes "text/plain") 200

end Httplib
