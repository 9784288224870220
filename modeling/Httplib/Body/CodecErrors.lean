import Httplib.Body.AnyBodyReader
import Httplib.Body.CompressorFactory

/-!
# Bodies that are no complete stream

`any_body::reader` (`lib/body/any_body.cpp:149`) behind a filter that may throw: neither `put` nor
`finish` catches an exception of it. `malformed_body_reported_iff` says when none leaves them.
-/

namespace Httplib

/-- `any_body::reader::impl` (`any_body.cpp:149`) over a filter that may throw. -/
structure FilterReader (Json κ : Type) [JsonLib Json] where
  proxy : ProxyReader Json
  compressor : Option (BasicCompressor κ)

/-- How the reading of a body ends: an exception leaves `put` or `finish`, one of them reports an
error, or there is a body. -/
inductive ReadEnd (Json : Type) where
  | threw
  | failed (e : BodyError)
  | read (body : AnyBody Json)

/-- The end that `finish` makes. -/
def ReadEnd.ofFinish {Json : Type} : Option (Except BodyError (AnyBody Json)) → ReadEnd Json
  | none => .threw
  | some (.error e) => .failed e
  | some (.ok body) => .read body

theorem ReadEnd.ofFinish_eq_threw_iff {Json : Type} {x : Option (Except BodyError (AnyBody Json))} :
    ofFinish x = .threw ↔ x = none := by
  rcases x with _ | _ | _ <;> simp [ofFinish]

namespace FilterReader

variable {Json κ : Type} [JsonLib Json]

/-- The compressor of `any_body::reader::impl::init` (`any_body.cpp:175`). -/
def init (factory : CompressorFactory κ) (contentEncoding : Bytes) (proxy : ProxyReader Json) :
    FilterReader Json κ :=
  { proxy, compressor := (factory.create contentEncoding).map fun adapter => .init (adapter .decode) }

/-- `any_body::reader::impl::put` (`any_body.cpp:180`); none if an exception leaves it. -/
def put (r : FilterReader Json κ) (data : Bytes) :
    Option (FilterReader Json κ × Nat × Option BodyError) :=
  match r.compressor with
  | none =>
    let (proxy, n, ec) := r.proxy.put data
    some ({ r with proxy }, n, ec)
  | some compressor =>
    (compressor.write data).map fun compressor =>
      if compressor.buffer ≠ [] then
        let (proxy, n, ec) := r.proxy.put compressor.buffer
        ({ proxy, compressor := some (compressor.consume n) }, data.length, ec)
      else ({ r with compressor := some compressor }, data.length, none)

/-- `any_body::reader::impl::finish` (`any_body.cpp:193`); none if an exception leaves it. -/
def finish [Platform] (r : FilterReader Json κ) : Option (Except BodyError (AnyBody Json)) :=
  match r.compressor with
  | none => some r.proxy.finish
  | some compressor =>
    compressor.finish.map fun compressor =>
      if compressor.buffer ≠ [] then (r.proxy.put compressor.buffer).1.finish else r.proxy.finish

/-- Whether the parser stops at what `put` reports: at any error but `need_more`, for which it waits for
more bytes. -/
def stopsAt : Option BodyError → Bool
  | none | some .needMore => false
  | some _ => true

/-- The calls that the parser makes for a body: `put` on each part, and `finish`. -/
def readBody [Platform] (r : FilterReader Json κ) : List Bytes → ReadEnd Json
  | [] => .ofFinish r.finish
  | part :: parts =>
    match r.put part with
    | none => .threw
    | some (r, _, ec) =>
      match ec with
      | none | some .needMore => readBody r parts
      | some e => .failed e

end FilterReader

/-- The reader behind a codec reports an error, other than `need_more`, on one of the texts it is given;
`left` is what it has not consumed. -/
def ProxyReader.Refuses {Json : Type} [JsonLib Json] (proxy : ProxyReader Json) (left : Bytes) :
    List Bytes → Prop
  | [] => False
  | text :: texts =>
    if left ++ text = [] then proxy.Refuses [] texts
    else
      let (next, n, ec) := proxy.put (left ++ text)
      FilterReader.stopsAt ec = true ∨ next.Refuses ((left ++ text).drop n) texts

namespace FilterReader

variable {Json κ : Type} [JsonLib Json] {filter : StreamFilter κ UInt8}

/-- **When an exception leaves the reader**: the filter throws at some part or at the end, and the reader
behind it has not stopped the reading before. -/
theorem readBody_eq_threw_iff [Platform] (proxy : ProxyReader Json) (left : Bytes) (s : κ)
    (parts : List Bytes) :
    readBody { proxy, compressor := some { filter, stream := some s, buffer := left } } parts =
        .threw ↔
      filter.whole s parts = none ∧ ¬ proxy.Refuses left (filter.outputs s parts) := by
  induction parts generalizing proxy left s with
  | nil =>
    rw [readBody, ReadEnd.ofFinish_eq_threw_iff, StreamFilter.whole_nil, StreamFilter.outputs,
      ProxyReader.Refuses, and_iff_left not_false, finish]
    dsimp only
    rw [BasicCompressor.finish_open, Option.map_map, Option.map_eq_none_iff]
  | cons part parts ih =>
    rw [readBody, put, StreamFilter.whole_cons, StreamFilter.outputs]
    dsimp only
    rw [BasicCompressor.write_open]
    rcases filter.write s part with _ | ⟨out, t⟩
    · exact iff_of_true rfl ⟨rfl, not_false⟩
    · have hwhole : (filter.whole t parts).map (out ++ ·) = none ↔ filter.whole t parts = none :=
        Option.map_eq_none_iff
      simp only [Option.bind_some, Option.map_some, hwhole, ProxyReader.Refuses]
      by_cases hnil : left ++ out = []
      · rw [if_neg (not_not.2 hnil), if_pos hnil, hnil]
        exact ih proxy [] t
      · rw [if_pos hnil, if_neg hnil]
        rcases proxy.put (left ++ out) with ⟨next, n, _ | e⟩
        · have hgo := ih next ((left ++ out).drop n) t
          simpa [stopsAt, BasicCompressor.consume] using hgo
        · cases e with
          | needMore =>
            have hgo := ih next ((left ++ out).drop n) t
            simpa [stopsAt, BasicCompressor.consume] using hgo
          | http | json | incomplete => simp [stopsAt]

/-- No exception leaves a reader without a compressor. -/
theorem readBody_plain_ne_threw [Platform] (proxy : ProxyReader Json) (parts : List Bytes) :
    readBody ({ proxy, compressor := none } : FilterReader Json κ) parts ≠ .threw := by
  induction parts generalizing proxy with
  | nil =>
    rw [readBody, Ne, ReadEnd.ofFinish_eq_threw_iff]
    exact Option.some_ne_none _
  | cons part parts ih =>
    rw [readBody, put]
    dsimp only
    rcases proxy.put part with ⟨next, n, _ | e⟩
    · exact ih next
    · cases e with
      | needMore => exact ih next
      | http | json | incomplete => exact nofun

/-- The reader over a codec that never throws, as it was before. -/
def ofCodecReader (r : AnyBodyReader Json κ) : FilterReader Json κ :=
  { proxy := r.proxy
    compressor := r.compressor.map fun c =>
      { filter := .ofCodec c.codec, stream := c.state, buffer := c.buffer } }

/-- Over a codec that never throws, `put` is the `put` of `AnyBodyReader`. -/
theorem put_ofCodecReader (r : AnyBodyReader Json κ) (data : Bytes) :
    (ofCodecReader r).put data =
      some (ofCodecReader (r.put data).1, (r.put data).2) := by
  obtain ⟨proxy, _ | ⟨codec, _ | s, buffer⟩⟩ := r
  · rfl
  · by_cases hnil : buffer = [] <;>
      simp [ofCodecReader, put, AnyBodyReader.put, BasicCompressor.write, Compressor.write, hnil,
        BasicCompressor.consume, Compressor.consume]
  · by_cases hnil : buffer ++ (codec.write s data).1 = []
    · simp [ofCodecReader, put, AnyBodyReader.put, BasicCompressor.write_open, Compressor.write,
        StreamFilter.ofCodec, List.append_eq_nil_iff.1 hnil]
    · simp only [ofCodecReader, put, AnyBodyReader.put, Option.map_some, BasicCompressor.write_open,
        Compressor.write, StreamFilter.ofCodec, if_true]
      rw [if_pos hnil, if_pos hnil]
      rfl

/-- Over a codec that never throws, `finish` is the `finish` of `AnyBodyReader`. -/
theorem finish_ofCodecReader [Platform] (r : AnyBodyReader Json κ) :
    (ofCodecReader r).finish = some r.finish := by
  obtain ⟨proxy, _ | ⟨codec, _ | s, buffer⟩⟩ := r <;> rfl

end FilterReader

/-! ## Which bodies -/

/-- What the libraries are taken to do with streams: a decompressor throws at some part of a body or at
its end exactly if the body is no complete stream of the coding, and the encoder of brotli never. -/
structure FilterLibraries.Strict {κ : Type} (libs : FilterLibraries κ)
    (complete : Bytes → Bytes → Prop) : Prop where
  gzip : ∀ parts, libs.gzipDecompressor.whole libs.gzipDecompressor.init parts = none ↔
    ¬ complete (bytes "gzip") parts.flatten
  zlib : ∀ parts, libs.zlibDecompressor.whole libs.zlibDecompressor.init parts = none ↔
    ¬ complete (bytes "deflate") parts.flatten
  zstd : ∀ parts, libs.zstdDecompressor.whole libs.zstdDecompressor.init parts = none ↔
    ¬ complete (bytes "zstd") parts.flatten
  brotli : ∀ parts, (libs.brotliEncoder.whole libs.brotliEncoder.init parts).isSome

/-- **When no exception leaves the reading of a body**, whatever the reader behind the codec and the
parts the body comes in: there is no codec, or it is the one of brotli, which compresses; or the body is
a complete stream; or the reader behind the codec reports an error on what is decoded before the codec
throws. -/
theorem malformed_body_reported_iff [Platform] {Json κ : Type} [JsonLib Json] {libs : FilterLibraries κ}
    {complete : Bytes → Bytes → Prop} (hlibs : libs.Strict complete) (enabled : Bool)
    (contentEncoding : Bytes) (proxy : ProxyReader Json) (parts : List Bytes) :
    (FilterReader.init (.instance_ enabled libs) contentEncoding proxy).readBody parts ≠ .threw ↔
      ∀ adapter, (CompressorFactory.instance_ enabled libs).create contentEncoding = some adapter →
        contentEncoding = bytes "br" ∨ complete contentEncoding parts.flatten ∨
          proxy.Refuses [] ((adapter .decode).outputs (adapter .decode).init parts) := by
  rw [FilterReader.init]
  cases hcreate : (CompressorFactory.instance_ enabled libs).create contentEncoding with
  | none => exact iff_of_true (FilterReader.readBody_plain_ne_threw proxy parts) nofun
  | some adapter =>
    have hthrows : (adapter .decode).whole (adapter .decode).init parts = none ↔
        ¬ (contentEncoding = bytes "br" ∨ complete contentEncoding parts.flatten) := by
      rcases CompressorFactory.create_cases hcreate with
        ⟨rfl, rfl⟩ | ⟨rfl, rfl⟩ | ⟨rfl, rfl⟩ | ⟨rfl, rfl⟩
      · rw [or_iff_right (by decide)]
        exact hlibs.gzip parts
      · rw [or_iff_right (by decide)]
        exact hlibs.zlib parts
      · rw [or_iff_right (by decide)]
        exact hlibs.zstd parts
      · refine iff_of_false (fun hnone => ?_) (not_not.2 (.inl rfl))
        exact Option.isSome_iff_ne_none.1 (hlibs.brotli parts) hnone
    rw [Option.map_some, BasicCompressor.init, Ne, FilterReader.readBody_eq_threw_iff, hthrows,
      not_and, not_not]
    constructor
    · rintro h _ ⟨⟩
      exact or_assoc.1 (or_iff_not_imp_left.2 h)
    · intro h
      exact or_iff_not_imp_left.1 (or_assoc.2 (h adapter rfl))

/-- The complete streams of the marking library. -/
def Marking.Complete (_ stream : Bytes) : Prop :=
  (Marking.decompressor.whole Marking.decompressor.init [stream]).isSome

theorem Marking.libraries_strict : Marking.libraries.Strict Marking.Complete := by
  have hthrows : ∀ parts,
      Marking.decompressor.whole Marking.decompressor.init parts = none ↔
        ¬ (Marking.decompressor.whole Marking.decompressor.init [parts.flatten]).isSome := by
    intro parts
    rw [Option.not_isSome_iff_eq_none, Marking.decompressor, StreamFilter.whole_ofStep,
      StreamFilter.whole_ofStep, List.flatten_singleton]
  exact ⟨hthrows, hthrows, hthrows, Marking.inverse.total⟩

open scoped Platform.Plain in
/-- A complete stream in two parts. -/
theorem malformed_body_reported_complete :
    letI := nullJson
    (FilterReader.init (.instance_ true Marking.libraries) (bytes "gzip")
      (.string [] : ProxyReader Unit)).readBody [[1, 97], [0]] ≠ .threw := by
  let _ := nullJson
  exact (malformed_body_reported_iff Marking.libraries_strict true (bytes "gzip") (.string [])
    [[1, 97], [0]]).2 fun _ _ => .inr (.inl rfl)

open scoped Platform.Plain in
/-- A stream that is cut off: the exception of the codec's end leaves `finish`. -/
theorem malformed_body_reported_truncated :
    letI := nullJson
    (CompressorFactory.instance_ true Marking.libraries).isSupportedEncoding (bytes "gzip") = true ∧
      (FilterReader.init (.instance_ true Marking.libraries) (bytes "gzip")
        (.string [] : ProxyReader Unit)).readBody [[1, 97]] = .threw :=
  ⟨rfl, rfl⟩

end Httplib
