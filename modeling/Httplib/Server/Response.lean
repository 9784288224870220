import Httplib.Body.AnyBody
import Httplib.Html.AcceptContent
import Httplib.Html.HttpRanges
import Httplib.Server.Message

/-!
# Responses

`server::response` (`lib/server/response.cpp`) with its content setters, and what
`session::http_task::async_write` does to a response before it is serialized. The Content-Length and
Transfer-Encoding fields are kept apart from the others, as Beast's accessors see them.
-/

namespace Httplib

/-- The header of `http::response`. -/
structure ResponseHeader where
  version : Nat
  result : Nat
  keepAlive : Bool
  fields : Fields
  contentLength : Option Nat := none
  chunked : Bool := false

namespace ResponseHeader

/-- `message::set`. -/
def set (header : ResponseHeader) (name : Field) (value : Bytes) : ResponseHeader :=
  { header with fields := header.fields.set name value }

/-- `message::content_length(n)`, which takes `chunked` away. -/
def setContentLength (header : ResponseHeader) (n : Nat) : ResponseHeader :=
  { header with contentLength := some n, chunked := false }

/-- `message::chunked(true)`, which takes Content-Length away. -/
def setChunked (header : ResponseHeader) : ResponseHeader :=
  { header with contentLength := none, chunked := true }

end ResponseHeader

/-- `server::response` (`response.hpp:15`), over the JSON values and the stream handlers. -/
structure Response (Json Handler : Type) where
  header : ResponseHeader
  body : AnyBody Json := .empty
  streamHandler : Option Handler := none

/-- What the setters take from outside the repository: `BOOST_BEAST_VERSION_STRING`, the date,
`http::obsolete_reason`, and the `gmtime` under `html::format_http_gmt_date`. -/
structure Host where
  beastVersion : Bytes
  gmtDate : Bytes
  obsoleteReason : Nat → Bytes
  formatGmtDate : Int → Bytes

/-- A host that leaves the texts of its library empty. -/
def plainHost : Host :=
  { beastVersion := bytes "Boost.Beast", gmtDate := [], obsoleteReason := fun _ => [],
    formatGmtDate := fun _ => [] }

/-- What `set_file_content` finds at a path: the size and the time of the last write, none on an
error, and the bytes that the opened file gives, none if it does not open; with the type that the
table of `mime::get_mime_type` has for its extension. -/
structure FileEntry where
  size : Option Nat
  writeTime : Option Int
  content : Option Bytes
  mimeType : Bytes

/-- How `set_file_content` decides (`response.cpp:79`). -/
inductive FileAnswer where
  /-- No size, no time, or the file does not open: it returns. -/
  | unreadable
  | unsatisfiable (size : Nat)
  | notModified
  | opened (size : Nat) (etag lastModified : Bytes) (file : FileBody)

namespace Response

variable {Json Handler : Type}

/-- `response::response` (`response.cpp:26`). -/
def new (host : Host) (version : Nat) (keepAlive : Bool) : Response Json Handler :=
  { header :=
      { version, result := 404, keepAlive,
        fields := (Fields.set [] .server host.beastVersion).set .date host.gmtDate } }

/-- `message::set`. -/
def set (r : Response Json Handler) (name : Field) (value : Bytes) : Response Json Handler :=
  { r with header := r.header.set name value }

/-- `message::result`. -/
def setResult (r : Response Json Handler) (status : Nat) : Response Json Handler :=
  { r with header := { r.header with result := status } }

/-- `message::content_length`. -/
def setContentLength (r : Response Json Handler) (n : Nat) : Response Json Handler :=
  { r with header := r.header.setContentLength n }

/-- `message::keep_alive`. -/
def setKeepAlive (r : Response Json Handler) (keepAlive : Bool) : Response Json Handler :=
  { r with header := { r.header with keepAlive } }

/-- `response::reset_content` (`response.cpp:182`). -/
def resetContent (r : Response Json Handler) : Response Json Handler :=
  { r with body := .empty, streamHandler := none }

/-- `response::set_empty_content` (`response.cpp:34`). -/
def setEmptyContent (r : Response Json Handler) (status : Nat) : Response Json Handler :=
  { r.resetContent.setResult status with body := .empty }.setContentLength 0

/-- `response::set_string_content` (`response.cpp:58`). -/
def setStringContent (r : Response Json Handler) (data contentType : Bytes) (status : Nat) :
    Response Json Handler :=
  { ((r.resetContent.setContentLength data.length).set .contentType contentType).setResult status
    with body := .string data }

/-- The page of `set_error_content` (`response.cpp:44`). -/
def errorPage (host : Host) (status : Nat) (server : Bytes) : Bytes :=
  let title := bytes (toString status) ++ bytes " " ++ host.obsoleteReason status
  bytes "<html>\n<head><title>" ++ title ++
    bytes "</title></head>\n<body bgcolor=\"white\">\n<center><h1>" ++ title ++
    bytes "</h1></center>\n<hr><center>" ++ server ++ bytes "</center>\n</body>\n</html>"

/-- `response::set_error_content` (`response.cpp:42`). A response has its Server field from the
start; `at` would throw without it. -/
def setErrorContent (host : Host) (r : Response Json Handler) (status : Nat) :
    Response Json Handler :=
  r.setStringContent (errorPage host status (r.header.fields.get .server))
    (bytes "text/html; charset=utf-8") status

/-- `response::set_json_content` (`response.cpp:69`). -/
def setJsonContent (r : Response Json Handler) (data : Json) (status : Nat) :
    Response Json Handler :=
  { ((r.resetContent.setResult status).set .contentType
      (bytes "application/json; charset=utf-8")).set .cacheControl (bytes "no-store")
    with body := .json data }

/-- The checks of `set_file_content` (`response.cpp:82`), against the fields of the request. -/
def fileAnswer (host : Host) (entry : FileEntry) (reqHeader : Fields) :
    Except HttpRanges.ParseError FileAnswer :=
  match entry.size, entry.writeTime with
  | some fileSize, some fileWriteTime =>
    match HttpRanges.parse (reqHeader.get .range) fileSize with
    | .error .undefined => .error .undefined
    | .error .refused => .ok (.unsatisfiable fileSize)
    | .ok ranges =>
      let etag := bytes "W/" ++ bytes (toString fileSize) ++ bytes "-" ++
        bytes (toString fileWriteTime)
      let lastModified := host.formatGmtDate fileWriteTime
      if reqHeader.get .ifNoneMatch = etag then .ok .notModified
      else if reqHeader.get .ifModifiedSince = lastModified then .ok .notModified
      else match entry.content with
        | none => .ok .unreadable
        | some content =>
          .ok (.opened fileSize etag lastModified
            { FileBody.open content with contentType := entry.mimeType, ranges })
  | _, _ => .ok .unreadable

/-- `response::set_file_content` (`response.cpp:79`); `boundary` is what `generate_boundary` draws.
It fails where parsing the Range header is undefined. -/
def setFileContent (host : Host) (r : Response Json Handler) (entry : FileEntry) (boundary : Bytes)
    (reqHeader : Fields) : Except HttpRanges.ParseError (Response Json Handler) := do
  let r := r.resetContent
  match ← fileAnswer host entry reqHeader with
  | .unreadable => return r
  | .unsatisfiable fileSize =>
    return (r.set .contentRange (bytes "bytes */" ++ bytes (toString fileSize))).setEmptyContent 416
  | .notModified => return r.setEmptyContent 304
  | .opened fileSize etag lastModified file =>
    let r := (r.set .etag etag).set .lastModified lastModified
    match file.ranges with
    | [] =>
      let r := (r.set .acceptRanges (bytes "bytes")).set .contentType file.contentType
      return { (r.setResult 200).setContentLength fileSize with body := .file file }
    | [range] =>
      let partSize := u64 (range.2 + 1 - range.1)
      let r := r.set .contentRange (bytes "bytes " ++ bytes (toString range.1) ++ bytes "-" ++
        bytes (toString range.2) ++ bytes "/" ++ bytes (toString fileSize))
      let r := (r.set .contentType file.contentType).setResult 206
      return { r.setContentLength partSize with body := .file file }
    | _ =>
      let r := r.set .contentType (bytes "multipart/byteranges; boundary=" ++ boundary)
      return { r.setResult 206 with body := .file { file with boundary } }

/-- `response::set_form_data_content` (`response.cpp:148`). -/
def setFormDataContent (r : Response Json Handler) (data : List FormData.Field) (boundary : Bytes) :
    Response Json Handler :=
  { (r.resetContent.setResult 200).set .contentType
      (bytes "multipart/form-data; boundary=" ++ boundary)
    with body := .formData { boundary, fields := data } }

/-- `response::set_redirect` (`response.cpp:161`). -/
def setRedirect (r : Response Json Handler) (url : Bytes) (status : Nat) : Response Json Handler :=
  (r.set .location url).setEmptyContent status

/-- `response::set_stream_content_impl` (`response.cpp:168`). -/
def setStreamContent (r : Response Json Handler) (handler : Handler) (contentType : Bytes)
    (status : Nat) : Response Json Handler :=
  { ({ r.resetContent with streamHandler := some handler }.set .contentType contentType).setResult
      status with body := .empty }

end Response

/-- A call of one of the content setters. -/
inductive ContentCall (Json Handler : Type) where
  | emptyContent (status : Nat)
  | errorContent (status : Nat)
  | stringContent (data contentType : Bytes) (status : Nat)
  | jsonContent (data : Json) (status : Nat)
  | fileContent (entry : FileEntry) (boundary : Bytes) (reqHeader : Fields)
  | formDataContent (data : List FormData.Field) (boundary : Bytes)
  | redirect (url : Bytes) (status : Nat)
  | streamContent (handler : Handler) (contentType : Bytes) (status : Nat)

namespace Response

variable {Json Handler : Type}

/-- The response after a call. -/
def apply (host : Host) (r : Response Json Handler) :
    ContentCall Json Handler → Except HttpRanges.ParseError (Response Json Handler)
  | .emptyContent status => .ok (r.setEmptyContent status)
  | .errorContent status => .ok (r.setErrorContent host status)
  | .stringContent data contentType status => .ok (r.setStringContent data contentType status)
  | .jsonContent data status => .ok (r.setJsonContent data status)
  | .fileContent entry boundary reqHeader => r.setFileContent host entry boundary reqHeader
  | .formDataContent data boundary => .ok (r.setFormDataContent data boundary)
  | .redirect url status => .ok (r.setRedirect url status)
  | .streamContent handler contentType status => .ok (r.setStreamContent handler contentType status)

/-- The response after several calls. -/
def applyAll (host : Host) (r : Response Json Handler) (calls : List (ContentCall Json Handler)) :
    Except HttpRanges.ParseError (Response Json Handler) :=
  calls.foldlM (apply host) r

/-- The coding that `async_write` chooses for a request (`session.cpp:297`); the empty text is no
choice. -/
def chooseEncoding (supported : Bytes → Bool) (req : Request) : Bytes :=
  match req.fields.find? .acceptEncoding with
  | none => []
  | some value => AcceptContent.serverApplyEncoding supported (AcceptContent.parse value)

/-- The fields of the coding chosen for a request, if there is one (`session.cpp:300`). -/
def applyEncoding (supported : Bytes → Bool) (req : Request) (header : ResponseHeader) :
    ResponseHeader :=
  let encoding := chooseEncoding supported req
  if encoding = [] then header else (header.set .contentEncoding encoding).setChunked

/-- The header that `async_write` sends (`session.cpp:290`), with `prepare_payload` of a body without
`size` as a parameter, which may throw. -/
def prepareHeader (preparePayload : ResponseHeader → Option ResponseHeader)
    (supported : Bytes → Bool) (req : Request) (r : Response Json Handler) : Option ResponseHeader :=
  if r.streamHandler.isSome then some r.header.setChunked
  else if r.header.contentLength.isSome then some (applyEncoding supported req r.header)
  else (preparePayload r.header).map (applyEncoding supported req)

/-- What `async_write` does before it serializes the response (`session.cpp:288`). -/
def prepare (preparePayload : ResponseHeader → Option ResponseHeader) (supported : Bytes → Bool)
    (req : Request) (r : Response Json Handler) : Option (Response Json Handler) :=
  (r.prepareHeader preparePayload supported req).map fun header =>
    if req.method = .head then { r with header }.resetContent else { r with header }

end Response

end Httplib
