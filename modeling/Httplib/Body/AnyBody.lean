import Httplib.Body.FileBody
import Httplib.Html.QueryParams
import Httplib.Lib.Codec

/-!
# The body of any type, plain or compressed

`any_body` (`lib/body/any_body.cpp`) holds one of six body types; its writer and its reader are those
of the type it holds, behind a compressor when there is a `Content-Encoding`. Two libraries outside
the repository are parameters: the JSON library (`JsonLib`) and the codecs of Boost.Iostreams (`Codec`,
a filter in one of its two modes).
-/

namespace Httplib

open Incremental (Verdict)
open Producer (Pull)

/-- What the code uses of Boost.JSON: the texts that the calls of a serializer return one after the
other, of which there is at least one, and a parser that is given text in pieces. -/
class JsonLib (Json : Type) where
  serialize : Json → Bytes × List Bytes
  Parser : Type
  parser : Parser
  /-- `parser::write_some`: the parser after it, the number of characters taken, and the error. -/
  writeSome : Parser → Bytes → Parser × Nat × Bool
  done : Parser → Bool
  release : Parser → Json

/-- `basic_compressor` (`compressor.cpp:16`): a codec and the `buffer_` it puts out to. `none` is a
codec that is closed. -/
structure Compressor (κ : Type) where
  codec : Codec κ UInt8
  state : Option κ
  buffer : Bytes := []

namespace Compressor

variable {κ : Type}

/-- `basic_compressor::init`. -/
def init (codec : Codec κ UInt8) : Compressor κ := { codec, state := some codec.init }

/-- `basic_compressor::finish`. -/
def finish (c : Compressor κ) : Compressor κ :=
  match c.state with
  | some s => { c with state := none, buffer := c.buffer ++ c.codec.close s }
  | none => c

/-- `basic_compressor::write` (`compressor.cpp:28`). -/
def write (c : Compressor κ) (data : Bytes) (more : Bool) : Compressor κ :=
  match c.state with
  | some s =>
    let (out, s) := c.codec.write s data
    let c := { c with state := some s, buffer := c.buffer ++ out }
    if more then c else c.finish
  | none => c

/-- `basic_compressor::consume`. -/
def consume (c : Compressor κ) (n : Nat) : Compressor κ := { c with buffer := c.buffer.drop n }

end Compressor

/-- `any_body::value_type` (`any_body.hpp:75`). -/
inductive AnyBody (Json : Type) where
  | empty
  | string (s : Bytes)
  | json (v : Json)
  | formData (form : FormData)
  | file (file : FileBody)
  | queryParams (q : QueryParams)

/-! ## The writers -/

/-- `detail::proxy_writer`: the writer of the body type that is held. -/
inductive ProxyWriter where
  | empty
  | string (body : Bytes)
  | json (pending : Bytes × List Bytes)
  | formData (w : FormDataWriter)
  | file (w : FileWriter)
  | queryParams (buffer : Bytes)

namespace ProxyWriter

/-- `create_proxy_writer` (`any_body.cpp:125`) and `init`; `junk` is what the uninitialised
`file_size_` of the file writer holds. -/
def create {Json : Type} [JsonLib Json] (junk : Nat) : AnyBody Json → ProxyWriter
  | .empty => .empty
  | .string s => .string s
  | .json value => .json (JsonLib.serialize value)
  | .formData form => .formData { body := form }
  | .file body => .file (.start body junk)
  | .queryParams q => .queryParams q.encoded

/-- `proxy_writer::get`: `empty_body.cpp:14`, `string_body.cpp:59`, `json_body.cpp:21`,
`form_data_body.cpp:96`, `file_body.cpp:16`, `query_params_body.cpp:17`. -/
def get : ProxyWriter → Pull ProxyWriter HttpError UInt8
  | .empty => .done
  | .string body => .buffer body false (.string body)
  | .json (text, []) => .buffer text false (.json ([], []))
  | .json (text, next :: rest) => .buffer text true (.json (next, rest))
  | .formData w => w.get.map .formData
  | .file w => w.get.map .file
  | .queryParams buffer => .buffer buffer false (.queryParams buffer)

end ProxyWriter

/-- `any_body::writer::impl` (`any_body.cpp:78`). -/
structure AnyBodyWriter (κ : Type) where
  proxy : ProxyWriter
  compressor : Option (Compressor κ)

namespace AnyBodyWriter

variable {κ : Type}

/-- `any_body::writer::impl::init` (`any_body.cpp:87`); `creators` is the table of the
`compressor_factory`. -/
def init {Json : Type} [JsonLib Json] (creators : Bytes → Option (Codec κ UInt8))
    (contentEncoding : Bytes) (junk : Nat) (body : AnyBody Json) : AnyBodyWriter κ :=
  { proxy := .create junk body, compressor := (creators contentEncoding).map .init }

/-- The loop of `any_body::writer::impl::get` (`any_body.cpp:105`): pieces that give no output are
skipped. Its second test of `result` is never reached with none, because the first one returns. -/
def getLoop (compressor : Compressor κ) :
    Nat → ProxyWriter → Pull (AnyBodyWriter κ) HttpError UInt8
  | 0, _ => .spins
  | turns + 1, proxy =>
    match proxy.get with
    | .done => .done
    | .fail e => .fail e
    | .spins => .spins
    | .buffer b more proxy =>
      let compressor := compressor.write b more
      if compressor.buffer ≠ [] then
        .buffer compressor.buffer more { proxy, compressor := some compressor }
      else getLoop compressor turns proxy

/-- `any_body::writer::impl::get` (`any_body.cpp:99`), its loop with a number of turns. -/
def get (turns : Nat) (w : AnyBodyWriter κ) : Pull (AnyBodyWriter κ) HttpError UInt8 :=
  match w.compressor with
  | none => w.proxy.get.map fun proxy => { w with proxy }
  | some compressor => getLoop { compressor with buffer := [] } turns w.proxy

end AnyBodyWriter

/-! ## The readers -/

/-- What a body reader reports through its `error_code`. -/
inductive BodyError where
  | needMore
  | http (e : HttpError)
  | json
  | incomplete
  deriving DecidableEq

/-- `form_data_body::reader::init` (`form_data_body.cpp:159`): the reader for a `Content-Type`. The
last parameter that names a boundary wins. -/
def FormDataReader.init (contentType : Bytes) : Except HttpError FormDataReader :=
  let boundary := (split contentType (bytes ";")).foldl (fun boundary part =>
    let part := trimCopy part
    if ¬ startsWith part (bytes "boundary") then boundary
    else match split part (bytes "=") with
      | [_, value] => trimCopy value
      | _ => boundary) []
  if boundary = [] then .error .badField else .ok { boundary }

/-- `std::string::max_size()`. -/
def stringMaxSize : Nat := 2 ^ 63 - 1

/-- `detail::proxy_reader`: the reader of the body type that was selected. -/
inductive ProxyReader (Json : Type) [JsonLib Json] where
  | formData (r : FormDataReader)
  | json (parser : JsonLib.Parser Json)
  | queryParams (buffer : Bytes)
  | string (body : Bytes)

namespace ProxyReader

variable {Json : Type} [JsonLib Json]

/-- The selection by `Content-Type` and the `init` of the reader selected (`any_body.cpp:162`), over
a body that holds another type. -/
def create (contentType : Bytes) (contentLength : Option Nat) :
    Except BodyError (ProxyReader Json) :=
  if startsWith contentType (bytes "multipart/form-data") then
    match FormDataReader.init contentType with
    | .ok r => .ok (.formData r)
    | .error e => .error (.http e)
  else if startsWith contentType (bytes "application/json") then .ok (.json JsonLib.parser)
  else if startsWith contentType (bytes "application/x-www-form-urlencoded") then
    .ok (.queryParams [])
  else if contentLength.getD 0 > stringMaxSize then .error (.http .bufferOverflow)
  else .ok (.string [])

/-- `proxy_reader::put`: the reader after it, the bytes it consumed, and the error
(`form_data_body.cpp:187`, `json_body.cpp:46`, `query_params_body.cpp:36`,
`string_body.cpp:29`). -/
def put : ProxyReader Json → Bytes → ProxyReader Json × Nat × Option BodyError
  | .formData r, data =>
    match r.put data with
    | .took n r => (.formData r, n, none)
    | .more => (.formData r, 0, some .needMore)
    | .fail e => (.formData r, 0, some (.http e))
  | .json parser, data =>
    let (parser, n, failed) := JsonLib.writeSome parser data
    (.json parser, n, if failed then some .json else none)
  | .queryParams buffer, data => (.queryParams (buffer ++ data), data.length, none)
  | .string body, data =>
    if data.length > stringMaxSize - body.length then (.string body, 0, some (.http .bufferOverflow))
    else (.string (body ++ data), data.length, none)

/-- `proxy_reader::finish`, with the body it leaves (`form_data_body.cpp:306`, `json_body.cpp:53`,
`query_params_body.cpp:44`, `string_body.cpp:50`). -/
def finish [Platform] : ProxyReader Json → Except BodyError (AnyBody Json)
  | .formData r =>
    match r.finish with
    | .ok () => .ok (.formData { fields := r.fields })
    | .error e => .error (.http e)
  | .json parser =>
    if JsonLib.done parser then .ok (.json (JsonLib.release parser)) else .error .incomplete
  | .queryParams buffer => .ok (.queryParams (.decode buffer))
  | .string body => .ok (.string body)

end ProxyReader

/-- `any_body::reader::impl` (`any_body.cpp:149`). -/
structure AnyBodyReader (Json κ : Type) [JsonLib Json] where
  proxy : ProxyReader Json
  compressor : Option (Compressor κ)

namespace AnyBodyReader

variable {Json κ : Type} [JsonLib Json]

/-- `any_body::reader::impl::put` (`any_body.cpp:180`). -/
def put (r : AnyBodyReader Json κ) (data : Bytes) :
    AnyBodyReader Json κ × Nat × Option BodyError :=
  match r.compressor with
  | none =>
    let (proxy, n, ec) := r.proxy.put data
    ({ r with proxy }, n, ec)
  | some compressor =>
    let compressor := compressor.write data true
    if compressor.buffer ≠ [] then
      let (proxy, n, ec) := r.proxy.put compressor.buffer
      ({ proxy, compressor := some (compressor.consume n) }, data.length, ec)
    else ({ r with compressor := some compressor }, data.length, none)

/-- `any_body::reader::impl::finish` (`any_body.cpp:193`). The error of the `put` in it is
overwritten by the `finish` of the proxy. -/
def finish [Platform] (r : AnyBodyReader Json κ) : Except BodyError (AnyBody Json) :=
  match r.compressor with
  | none => r.proxy.finish
  | some compressor =>
    let compressor := compressor.finish
    if compressor.buffer ≠ [] then (r.proxy.put compressor.buffer).1.finish
    else r.proxy.finish

/-- The plain way to read: `put` is called on what it has not consumed until nothing is left. A call
that consumes nothing or reports an error is where the body can not be read any further. -/
def drain : Nat → AnyBodyReader Json κ → Bytes → Option (AnyBodyReader Json κ)
  | 0, r, data => if data = [] then some r else none
  | turns + 1, r, data =>
    if data = [] then some r
    else match r.put data with
      | (r, n, none) => if n = 0 then none else drain turns r (data.drop n)
      | (_, _, some _) => none

/-- A body that arrives whole: its value, if it is read without an error. -/
def readWhole [Platform] (r : AnyBodyReader Json κ) (data : Bytes) : Option (AnyBody Json) :=
  (drain data.length r data).bind fun r => r.finish.toOption

/-- A body that arrives in chunks and is consumed chunk by chunk, as behind a compressor it always
is: its value, if it is read without an error. -/
def readChunks [Platform] (r : AnyBodyReader Json κ) : List Bytes → Option (AnyBody Json)
  | [] => r.finish.toOption
  | chunk :: chunks =>
    match r.put chunk with
    | (r, _, none) => readChunks r chunks
    | (_, _, some _) => none

end AnyBodyReader

end Httplib
