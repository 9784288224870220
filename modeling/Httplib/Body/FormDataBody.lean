import Httplib.Html.FormData
import Httplib.Lib.Incremental
import Httplib.Lib.Producer

/-!
# The multipart body

`form_data_body` (`lib/body/form_data_body.cpp`): the writer, which returns a form one buffer at a
time, and the reader, which is offered the received bytes and takes one element of the body at each
call. A call of the reader answers with an `Incremental.Verdict`: the bytes it consumed, or
`error::need_more` with none consumed, or another error with none consumed.
-/

namespace Httplib

open Incremental (Verdict)
open Producer (Pull)

/-- The errors of `boost::beast::http::error` a body reader or writer reports. -/
inductive HttpError where
  | unexpectedBody
  | badField
  | partialMessage
  | shortRead
  | bufferOverflow
  deriving DecidableEq

/-! ## The header of a part -/

/-- The scan for the quote that ends a quoted value (`form_data_body.cpp:31`): its position, or the
length of the text. A backslash escapes the next byte. -/
def scanQuoted (escape : Bool) : Bytes → Nat
  | [] => 0
  | c :: s =>
    if c = 92 ∧ escape = false then scanQuoted true s + 1
    else if c = 34 ∧ escape = false then 0
    else scanQuoted false s + 1

/-- The value after the `=` (`form_data_body.cpp:26`) and the text after the value. -/
def dispositionValue (rest : Bytes) : Bytes × Bytes :=
  if rest.head? = some 34 then
    let quoted := rest.drop 1
    let fin := scanQuoted false quoted
    (quoted.take fin, quoted.drop (fin + 1))
  else
    let fin := (find rest (bytes ";")).getD rest.length
    (trimCopy (rest.take fin), rest.drop fin)

/-- `parse_content_disposition` (`form_data_body.cpp:12`) from the position where `rest` begins.
Every turn moves past a `=`, so a count of turns above the length of the text never runs out. -/
def parseContentDispositionLoop : Nat → Bytes → List (Bytes × Bytes)
  | 0, _ => []
  | turns + 1, rest =>
    if rest = [] then []
    else match find rest (bytes "=") with
      | none => []
      | some eq =>
        let key := trimCopy (rest.take eq)
        let (value, rest) := dispositionValue (rest.drop (eq + 1))
        let rest := if rest.head? = some 59 then rest.drop 1 else rest
        (key, value) :: parseContentDispositionLoop turns (rest.dropWhile isSpace)

/-- `parse_content_disposition` (`form_data_body.cpp:12`). -/
def parseContentDisposition (header : Bytes) : List (Bytes × Bytes) :=
  parseContentDispositionLoop (header.length + 1) header

/-- The loop of `split_header_field_value` over the lines of a header (`form_data_body.cpp:70`). -/
def headerLines : List Bytes → Except HttpError (List (Bytes × Bytes))
  | [] => .ok []
  | line :: lines =>
    if line = [] then headerLines lines
    else match find line (bytes ":") with
      | none => .error .unexpectedBody
      | some pos => do
        let key := trimCopy (line.take pos)
        let value := trimCopy (line.drop (pos + 1))
        return (key, value) :: (← headerLines lines)

/-- `split_header_field_value` (`form_data_body.cpp:63`). -/
def splitHeaderFieldValue (header : Bytes) : Except HttpError (List (Bytes × Bytes)) :=
  headerLines (split header (bytes "\r\n"))

/-- The assignments of `name` and `filename` (`form_data_body.cpp:242`). -/
def assignDisposition (field : FormData.Field) : List (Bytes × Bytes) → FormData.Field
  | [] => field
  | (key, value) :: rest =>
    if key = bytes "name" then assignDisposition { field with name := value } rest
    else if key = bytes "filename" then assignDisposition { field with filename := value } rest
    else assignDisposition field rest

/-- The loop over the header fields of a part (`form_data_body.cpp:226`). -/
def readHeader (field : FormData.Field) :
    List (Bytes × Bytes) → Except HttpError FormData.Field
  | [] => .ok field
  | (key, value) :: items =>
    if key = bytes "Content-Disposition" then
      match find value (bytes ";") with
      | none => .error .unexpectedBody
      | some pos =>
        if trimCopy (value.take pos) ≠ bytes "form-data" then .error .unexpectedBody
        else readHeader
          (assignDisposition field (parseContentDisposition (value.drop (pos + 1)))) items
    else if key = bytes "Content-Type" then readHeader { field with contentType := value } items
    else readHeader field items

/-- The field a header block describes, its content still to come (`form_data_body.cpp:221`). -/
def parseHeader (header : Bytes) : Except HttpError FormData.Field := do
  readHeader {} (← splitHeaderFieldValue header)

/-! ## The reader -/

/-- `form_data_body::reader::step` (`form_data_body.hpp:60`). -/
inductive FormDataReader.Step where
  | boundaryLine
  | boundaryHeader
  | boundaryContent
  | finshed
  | eof
  deriving DecidableEq

/-- `form_data_body::reader` (`form_data_body.hpp:43`); `fields` is `body_.fields`. -/
structure FormDataReader where
  boundary : Bytes
  step : FormDataReader.Step := .boundaryLine
  fieldData : FormData.Field := {}
  fields : List FormData.Field := []
  deriving DecidableEq

namespace FormDataReader

/-- The line that opens a part. -/
def boundaryLine (boundary : Bytes) : Bytes := bytes "--" ++ boundary ++ bytes "\r\n"

/-- The boundary that closes the body. -/
def boundaryLineLast (boundary : Bytes) : Bytes := bytes "--" ++ boundary ++ bytes "--"

/-- What ends the content of a part. -/
def eofBoundaryLine (boundary : Bytes) : Bytes := bytes "\r\n--" ++ boundary

/-- `field_data_.content.append(text)`. -/
def push (r : FormDataReader) (text : Bytes) : FormDataReader :=
  { r with fieldData.content := r.fieldData.content ++ text }

/-- `form_data_body::reader::put` (`form_data_body.cpp:187`). -/
def put (r : FormDataReader) (data : Bytes) : Verdict FormDataReader HttpError :=
  match r.step with
  | .boundaryLine =>
    let boundaryLine := boundaryLine r.boundary
    let boundaryLineLast := boundaryLineLast r.boundary
    if data.length < max boundaryLine.length boundaryLineLast.length then .more
    else if startsWith data boundaryLine then
      .took boundaryLine.length { r with step := .boundaryHeader }
    else if startsWith data boundaryLineLast then
      .took boundaryLineLast.length { r with step := .finshed }
    else .fail .unexpectedBody
  | .boundaryHeader =>
    match find data (bytes "\r\n\r\n") with
    | none => .more
    | some pos =>
      let header := data.take (pos + 4)
      match parseHeader header with
      | .error e => .fail e
      | .ok field => .took header.length { r with fieldData := field, step := .boundaryContent }
  | .boundaryContent =>
    if startsWith data (bytes "\r") then
      let eofBoundaryLine := eofBoundaryLine r.boundary
      if data.length < eofBoundaryLine.length then .more
      else if startsWith data eofBoundaryLine then
        -- the strings of `field_data_` are moved into `body_.fields` and left empty
        .took 2 { r with step := .boundaryLine, fields := r.fields ++ [r.fieldData], fieldData := {} }
      else .took 1 (r.push (bytes "\r"))
    else match find data (bytes "\r") with
      | none => .took data.length (r.push data)
      | some pos => .took pos (r.push (data.take pos))
  | .finshed =>
    if data.length < 2 then .more
    else if ¬ startsWith data (bytes "\r\n") then .fail .unexpectedBody
    else .took 2 { r with step := .eof }
  | .eof => .fail .unexpectedBody

/-- `form_data_body::reader::finish` (`form_data_body.cpp:306`). -/
def finish (r : FormDataReader) : Except HttpError Unit :=
  if r.step ≠ .eof then .error .partialMessage else .ok ()

end FormDataReader

/-! ## The writer -/

/-- `form_data_body::writer::step` (`form_data_body.hpp:31`). -/
inductive FormDataWriter.Step where
  | header
  | content
  | contentEnd
  | eof
  deriving DecidableEq

/-- `form_data_body::writer` (`form_data_body.hpp:17`). -/
structure FormDataWriter where
  body : FormData
  fieldDataIndex : Nat := 0
  step : FormDataWriter.Step := .header

namespace FormDataWriter

/-- The header block of a part (`form_data_body.cpp:107`), after its boundary line. -/
def partHeader (fieldData : FormData.Field) : Bytes :=
  bytes "Content-Disposition: form-data; name=\"" ++ fieldData.name ++ bytes "\"" ++
    (if fieldData.filename ≠ [] then
      bytes "; filename=\"" ++ fieldData.filename ++ bytes "\"" else []) ++
    bytes "\r\n" ++
    (if fieldData.contentType ≠ [] then
      bytes "Content-Type: " ++ fieldData.contentType ++ bytes "\r\n" else []) ++
    bytes "\r\n"

/-- `form_data_body::writer::get` (`form_data_body.cpp:96`). -/
def get (w : FormDataWriter) : Pull FormDataWriter HttpError UInt8 :=
  match w.body.fields[w.fieldDataIndex]? with
  | none => .done
  | some fieldData =>
    match w.step with
    | .header =>
      let header := bytes "--" ++ w.body.boundary ++ bytes "\r\n" ++ partHeader fieldData
      .buffer header true { w with step := .content }
    | .content => .buffer fieldData.content true { w with step := .contentEnd }
    | .contentEnd =>
      if w.fieldDataIndex = w.body.fields.length - 1 then
        .buffer (bytes "\r\n" ++ (bytes "--" ++ w.body.boundary ++ bytes "--\r\n")) false
          { w with step := .eof }
      else
        .buffer (bytes "\r\n") true
          { w with step := .header, fieldDataIndex := w.fieldDataIndex + 1 }
    | .eof => .done

end FormDataWriter

end Httplib
