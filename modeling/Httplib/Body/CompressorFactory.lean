import Httplib.Body.AnyBody
import Httplib.Lib.StreamFilter

/-!
# The table of codings

`compressor_factory` (`lib/body/compressor.cpp:74`) with its adapters, over the filters of the
compression libraries, which are parameters and may throw. `codec_pairing_iff` says for which codings the
adapter for decoding undoes the one for encoding: brotli's has the compressor in both modes.
-/

namespace Httplib

/-- The compressors and decompressors of the libraries: the filters of Boost.Iostreams, and the encoder
and decoder of brotli. -/
structure FilterLibraries (κ : Type) where
  gzipCompressor : StreamFilter κ UInt8
  gzipDecompressor : StreamFilter κ UInt8
  zlibCompressor : StreamFilter κ UInt8
  zlibDecompressor : StreamFilter κ UInt8
  zstdCompressor : StreamFilter κ UInt8
  zstdDecompressor : StreamFilter κ UInt8
  brotliEncoder : StreamFilter κ UInt8
  brotliDecoder : StreamFilter κ UInt8

namespace FilterLibraries

variable {κ : Type}

/-- `basic_brotli_compressor` (`brotli.hpp:134`): the filter over the encoder. -/
def basicBrotliCompressor (libs : FilterLibraries κ) : StreamFilter κ UInt8 := libs.brotliEncoder

/-- `typedef basic_brotli_compressor<> brotli_compressor` (`brotli.hpp:151`). -/
def brotliCompressor (libs : FilterLibraries κ) : StreamFilter κ UInt8 := libs.basicBrotliCompressor

/-- `typedef basic_brotli_compressor<> brotli_decompressor` (`brotli.hpp:172`). -/
def brotliDecompressor (libs : FilterLibraries κ) : StreamFilter κ UInt8 := libs.basicBrotliCompressor

end FilterLibraries

/-! ## The adapters -/

/-- `compressor::mode` (`compressor.hpp:13`). -/
inductive CompressorMode where
  | encode
  | decode
deriving DecidableEq

/-- `basic_compressor` (`compressor.cpp:16`) over a filter that may throw: its `stream_`, none when it
is closed, and its `buffer_`. -/
structure BasicCompressor (κ : Type) where
  filter : StreamFilter κ UInt8
  stream : Option κ
  buffer : Bytes := []

namespace BasicCompressor

variable {κ : Type}

/-- `basic_compressor::init` (`compressor.cpp:21`) with the filter that the adapter pushes. -/
def init (filter : StreamFilter κ UInt8) : BasicCompressor κ := { filter, stream := some filter.init }

/-- `basic_compressor::finish` (`compressor.cpp:35`); none if the filter throws. -/
def finish (c : BasicCompressor κ) : Option (BasicCompressor κ) :=
  match c.stream with
  | none => some c
  | some s => (c.filter.close s).map fun out => { c with stream := none, buffer := c.buffer ++ out }

/-- `basic_compressor::write` (`compressor.cpp:28`); none if the filter throws. -/
def write (c : BasicCompressor κ) (data : Bytes) (more : Bool := true) :
    Option (BasicCompressor κ) :=
  match c.stream with
  | none => some c
  | some s =>
    (c.filter.write s data).bind fun (out, s) =>
      let c := { c with stream := some s, buffer := c.buffer ++ out }
      if more then some c else c.finish

/-- `basic_compressor::consume`. -/
def consume (c : BasicCompressor κ) (n : Nat) : BasicCompressor κ :=
  { c with buffer := c.buffer.drop n }

/-- Finishing an open compressor closes the filter and appends what it still held. -/
theorem finish_open (filter : StreamFilter κ UInt8) (s : κ) (buffer : Bytes) :
    finish { filter, stream := some s, buffer } =
      (filter.close s).map fun out => { filter, stream := none, buffer := buffer ++ out } := rfl

/-- Writing to an open compressor steps the filter and appends what comes out. -/
theorem write_open (filter : StreamFilter κ UInt8) (s : κ) (buffer data : Bytes) :
    write { filter, stream := some s, buffer } data =
      (filter.write s data).map fun (out, t) =>
        { filter, stream := some t, buffer := buffer ++ out } := by
  rw [write.eq_def]
  dsimp only
  rcases filter.write s data with _ | ⟨out, t⟩ <;> rfl

/-- The pieces written one after the other. -/
def writeAll (c : BasicCompressor κ) : List Bytes → Option (BasicCompressor κ)
  | [] => some c
  | piece :: pieces => (c.write piece).bind fun c => c.writeAll pieces

/-- All pieces written, and the stream closed: what the buffer holds then. -/
def pump (c : BasicCompressor κ) (pieces : List Bytes) : Option Bytes :=
  (c.writeAll pieces).bind fun c => c.finish.map (·.buffer)

/-- The buffer holds the whole output of the filter. -/
theorem pump_eq (filter : StreamFilter κ UInt8) (s : κ) (buffer : Bytes) (pieces : List Bytes) :
    pump { filter, stream := some s, buffer } pieces =
      (filter.whole s pieces).map (buffer ++ ·) := by
  induction pieces generalizing s buffer with
  | nil =>
    rw [pump, writeAll, Option.bind_some, finish_open, Option.map_map]
    rfl
  | cons piece pieces ih =>
    rw [StreamFilter.whole_cons, pump, writeAll, write_open]
    rcases filter.write s piece with _ | ⟨out, t⟩
    · rfl
    · refine (ih t (buffer ++ out)).trans ?_
      show _ = ((filter.whole t pieces).map (out ++ ·)).map (buffer ++ ·)
      cases filter.whole t pieces <;> simp

/-- Pumping all pieces through a fresh compressor is the filter over the whole text. -/
@[simp] theorem pump_init (filter : StreamFilter κ UInt8) (pieces : List Bytes) :
    (init filter).pump pieces = filter.whole filter.init pieces := by
  rw [init, pump_eq]
  cases filter.whole filter.init pieces <;> rfl

end BasicCompressor

/-- An adapter: the filter that `init_filtering_ostreambuf` pushes in a mode. -/
abbrev CompressorAdapter (κ : Type) := CompressorMode → StreamFilter κ UInt8

section
variable {κ : Type}

/-- `gzip_compressor_adapter` (`compressor.cpp:47`). -/
def gzipCompressorAdapter (libs : FilterLibraries κ) : CompressorAdapter κ
  | .encode => libs.gzipCompressor
  | .decode => libs.gzipDecompressor

/-- `zlib_compressor_adapter` (`compressor.cpp:59`). -/
def zlibCompressorAdapter (libs : FilterLibraries κ) : CompressorAdapter κ
  | .encode => libs.zlibCompressor
  | .decode => libs.zlibDecompressor

/-- `zstd_compressor_adapter` (`compressor.cpp:71`). -/
def zstdCompressorAdapter (libs : FilterLibraries κ) : CompressorAdapter κ
  | .encode => libs.zstdCompressor
  | .decode => libs.zstdDecompressor

/-- `brotli_compressor_adapter` (`compressor.cpp:83`). -/
def brotliCompressorAdapter (libs : FilterLibraries κ) : CompressorAdapter κ
  | .encode => libs.brotliCompressor
  | .decode => libs.brotliDecompressor

end

/-- `compressor_factory` (`compressor.hpp:28`): `creators_`. -/
structure CompressorFactory (κ : Type) where
  creators : List (Bytes × CompressorAdapter κ)

namespace CompressorFactory

variable {κ : Type}

/-- `compressor_factory::instance` with what its constructor registers (`compressor.cpp:98`); `enabled`
is `HTTPLIB_ENABLED_COMPRESS`. -/
def instance_ (enabled : Bool) (libs : FilterLibraries κ) : CompressorFactory κ :=
  if enabled then
    { creators := [(bytes "gzip", gzipCompressorAdapter libs),
                   (bytes "deflate", zlibCompressorAdapter libs),
                   (bytes "zstd", zstdCompressorAdapter libs),
                   (bytes "br", brotliCompressorAdapter libs)] }
  else { creators := [] }

/-- `compressor_factory::create` (`compressor.cpp:129`). -/
def create (factory : CompressorFactory κ) (encoding : Bytes) : Option (CompressorAdapter κ) :=
  (factory.creators.find? fun entry => entry.1 = encoding).map (·.2)

/-- `compressor_factory::is_supported_encoding` (`compressor.cpp:137`). -/
def isSupportedEncoding (factory : CompressorFactory κ) (encoding : Bytes) : Bool :=
  (factory.create encoding).isSome

end CompressorFactory

/-! ## Pairing -/

/-- What the libraries are taken to do: the two filters of each are inverse and distinct. -/
structure FilterLibraries.Sound {κ : Type} (libs : FilterLibraries κ) : Prop where
  gzip : StreamFilter.Inverse libs.gzipCompressor libs.gzipDecompressor
  zlib : StreamFilter.Inverse libs.zlibCompressor libs.zlibDecompressor
  zstd : StreamFilter.Inverse libs.zstdCompressor libs.zstdDecompressor
  brotli : StreamFilter.Inverse libs.brotliEncoder libs.brotliDecoder
  brotliDistinct : StreamFilter.Distinct libs.brotliEncoder libs.brotliDecoder

section
variable {κ : Type} {libs : FilterLibraries κ} {enabled : Bool} {encoding : Bytes}
  {adapter : CompressorAdapter κ}

/-- The adapters that there are. -/
theorem CompressorFactory.create_cases
    (h : (instance_ enabled libs).create encoding = some adapter) :
    encoding = bytes "gzip" ∧ adapter = gzipCompressorAdapter libs ∨
      encoding = bytes "deflate" ∧ adapter = zlibCompressorAdapter libs ∨
      encoding = bytes "zstd" ∧ adapter = zstdCompressorAdapter libs ∨
      encoding = bytes "br" ∧ adapter = brotliCompressorAdapter libs := by
  cases enabled with
  | false => cases h
  | true =>
    obtain ⟨entry, hfind, rfl⟩ := Option.map_eq_some_iff.1 h
    have hmem := List.mem_of_find?_eq_some hfind
    have hname := List.find?_some hfind
    rw [decide_eq_true_iff] at hname
    simp only [instance_, if_true, List.mem_cons, List.not_mem_nil, or_false] at hmem
    rcases hmem with rfl | rfl | rfl | rfl
    · exact .inl ⟨hname.symm, rfl⟩
    · exact .inr (.inl ⟨hname.symm, rfl⟩)
    · exact .inr (.inr (.inl ⟨hname.symm, rfl⟩))
    · exact .inr (.inr (.inr ⟨hname.symm, rfl⟩))

/-- The output of the adapter for encoding is complete, and in any pieces the one for decoding makes the
text of it. -/
def RoundTrips (adapter : CompressorAdapter κ) (pieces : List Bytes) : Prop :=
  ∃ stream, (BasicCompressor.init (adapter .encode)).pump pieces = some stream ∧
    ∀ parts, parts.flatten = stream →
      (BasicCompressor.init (adapter .decode)).pump parts = some pieces.flatten

/-- Filters that are inverse to each other make the adapters of the two modes a round trip. -/
theorem roundTrips_of_inverse (h : StreamFilter.Inverse (adapter .encode) (adapter .decode))
    (pieces : List Bytes) : RoundTrips adapter pieces := by
  obtain ⟨stream, hstream⟩ := Option.isSome_iff_exists.1 (h.total pieces)
  refine ⟨stream, by rw [BasicCompressor.pump_init, hstream], fun parts hparts => ?_⟩
  rw [BasicCompressor.pump_init]
  exact h.inverse pieces parts (by rw [hparts, hstream])

end

/-- **Codec pairing.** For every coding in the table, every text in any pieces and its stream in any
pieces, the adapter for decoding gives the text back, but not for brotli, and there never. -/
theorem codec_pairing_iff {κ : Type} {libs : FilterLibraries κ} (hlibs : libs.Sound) {enabled : Bool}
    {encoding : Bytes} {adapter : CompressorAdapter κ}
    (hcreate : (CompressorFactory.instance_ enabled libs).create encoding = some adapter)
    (pieces : List Bytes) : RoundTrips adapter pieces ↔ encoding ≠ bytes "br" := by
  rcases CompressorFactory.create_cases hcreate with
    ⟨rfl, rfl⟩ | ⟨rfl, rfl⟩ | ⟨rfl, rfl⟩ | ⟨rfl, rfl⟩
  · exact iff_of_true (roundTrips_of_inverse hlibs.gzip pieces) (by decide)
  · exact iff_of_true (roundTrips_of_inverse hlibs.zlib pieces) (by decide)
  · exact iff_of_true (roundTrips_of_inverse hlibs.zstd pieces) (by decide)
  · refine iff_of_false ?_ (not_not.2 rfl)
    rintro ⟨stream, hstream, hparts⟩
    have hdecode := hparts [stream] List.flatten_singleton
    rw [BasicCompressor.pump_init] at hstream hdecode
    exact hlibs.brotliDistinct.compressor_ne hlibs.brotli hstream hdecode

/-! ### A library -/

/-- The states of a decompressor that finds every byte behind a mark. -/
inductive Marking where
  | idle
  | marked
  | ended
deriving DecidableEq

namespace Marking

/-- One byte into the compressor: a mark, and the byte. -/
def encodeStep (s : Marking) (c : UInt8) : Option (Bytes × Marking) := some ([1, c], s)

/-- One byte into the decompressor. -/
def decodeStep : Marking → UInt8 → Option (Bytes × Marking)
  | .idle, c => if c = 1 then some ([], .marked) else if c = 0 then some ([], .ended) else none
  | .marked, c => some ([c], .idle)
  | .ended, _ => none

/-- The end of the stream must have come. -/
def decodeClose : Marking → Option Bytes
  | .ended => some []
  | .idle | .marked => none

/-- The compressor: a zero closes the stream. -/
def compressor : StreamFilter Marking UInt8 := .ofStep .idle encodeStep fun _ => some [0]

def decompressor : StreamFilter Marking UInt8 := .ofStep .idle decodeStep decodeClose

/-- This library in the place of each. -/
def libraries : FilterLibraries Marking where
  gzipCompressor := compressor
  gzipDecompressor := decompressor
  zlibCompressor := compressor
  zlibDecompressor := decompressor
  zstdCompressor := compressor
  zstdDecompressor := decompressor
  brotliEncoder := compressor
  brotliDecoder := decompressor

/-- The example coder writes a one in front of every byte. -/
theorem stepAll_encodeStep (text : Bytes) :
    StreamFilter.stepAll encodeStep .idle text = some (text.flatMap fun c => [1, c], .idle) := by
  induction text with
  | nil => rfl
  | cons c text ih => simp [StreamFilter.stepAll, encodeStep, ih]

/-- And a zero at the end of the text. -/
theorem compressor_whole (xs : List Bytes) :
    compressor.whole compressor.init xs = some ((xs.flatten.flatMap fun c => [1, c]) ++ [0]) := by
  rw [compressor, StreamFilter.whole_ofStep]
  show (StreamFilter.stepAll encodeStep .idle xs.flatten).bind _ = _
  rw [stepAll_encodeStep]
  rfl

/-- Its decoder takes the marks out again. -/
theorem stepAll_decodeStep (text : Bytes) :
    StreamFilter.stepAll decodeStep .idle ((text.flatMap fun c => [1, c]) ++ [0]) = some (text, .ended) := by
  induction text with
  | nil => rfl
  | cons c text ih =>
    rw [List.flatMap_cons]
    simp [StreamFilter.stepAll, decodeStep, ih]

/-- What is decompressed is not longer than its stream. -/
theorem length_stepAll_decodeStep {s t : Marking} {text out : Bytes}
    (h : StreamFilter.stepAll decodeStep s text = some (out, t)) : out.length ≤ text.length := by
  induction text generalizing s out with
  | nil =>
    cases h
    exact Nat.le_refl 0
  | cons c text ih =>
    rw [StreamFilter.stepAll] at h
    obtain ⟨⟨first, u⟩, hfirst, hrest⟩ := Option.bind_eq_some_iff.1 h
    obtain ⟨⟨rest, v⟩, hrun, heq⟩ := Option.map_eq_some_iff.1 hrest
    cases heq
    have hle := ih hrun
    have hone : first.length ≤ 1 := by
      cases s with
      | idle =>
        rw [decodeStep] at hfirst
        split at hfirst
        · cases hfirst; exact Nat.zero_le 1
        · split at hfirst <;> cases hfirst
          exact Nat.zero_le 1
      | marked => cases hfirst; exact Nat.le_refl 1
      | ended => cases hfirst
    simp only [List.length_append, List.length_cons]
    omega

/-- The example coder and decoder are inverse to each other. -/
theorem inverse : StreamFilter.Inverse compressor decompressor where
  total xs := by rw [compressor_whole]; rfl
  inverse xs ys h := by
    rw [compressor_whole, Option.some.injEq] at h
    rw [decompressor, StreamFilter.whole_ofStep, ← h]
    show (StreamFilter.stepAll decodeStep .idle _).bind _ = _
    rw [stepAll_decodeStep]
    simp [decodeClose]

/-- The example coder never writes an empty text, and never what its decoder would make of the same bytes.
-/
theorem distinct : StreamFilter.Distinct compressor decompressor where
  ne_nil xs h := by
    rw [compressor_whole, Option.some.injEq] at h
    exact List.append_ne_nil_of_right_ne_nil _ (List.cons_ne_nil _ _) h
  differs ys hne h := by
    rw [compressor_whole, decompressor, StreamFilter.whole_ofStep] at h
    obtain ⟨⟨out, t⟩, hrun, hclose⟩ := Option.bind_eq_some_iff.1 h.symm
    obtain ⟨last, hlast, heq⟩ := Option.map_eq_some_iff.1 hclose
    have hnil : last = [] := by
      cases t <;> cases hlast
      rfl
    have hle := length_stepAll_decodeStep hrun
    have hdouble : ∀ l : Bytes, (l.flatMap fun c => [1, c]).length = 2 * l.length := by
      intro l
      rw [List.length_flatMap]
      simp [Nat.mul_comm]
    have hlength := congrArg List.length heq
    rw [hnil, List.append_nil, List.length_append, hdouble, List.length_singleton] at hlength
    omega

/-- With the example coder in every place the libraries behave as documented. -/
theorem libraries_sound : libraries.Sound := ⟨inverse, inverse, inverse, inverse, distinct⟩

end Marking

/-- A text in two pieces, by gzip. -/
theorem codec_pairing_gzip :
    RoundTrips (gzipCompressorAdapter Marking.libraries) [bytes "a", bytes "b"] :=
  (@codec_pairing_iff _ _ Marking.libraries_sound true (bytes "gzip") _ rfl _).2 (by decide)

/-- A text by brotli: what it is decoded to is its stream, compressed once more. -/
theorem codec_pairing_brotli :
    let adapter := brotliCompressorAdapter Marking.libraries
    (CompressorFactory.instance_ true Marking.libraries).create (bytes "br") = some adapter ∧
      (BasicCompressor.init (adapter .encode)).pump [bytes "a"] = some [1, 97, 0] ∧
      (BasicCompressor.init (adapter .decode)).pump [[1, 97, 0]] = some [1, 1, 1, 97, 1, 0, 0] ∧
      ¬ RoundTrips adapter [bytes "a"] := by
  refine ⟨rfl, by decide, by decide, ?_⟩
  rintro ⟨stream, hstream, hparts⟩
  have hdecode := hparts [stream] List.flatten_singleton
  rw [show stream = [1, 97, 0] from (Option.some.inj hstream).symm] at hdecode
  exact absurd hdecode (by decide)

end Httplib
