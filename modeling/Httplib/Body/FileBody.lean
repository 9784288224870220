import Httplib.Body.FormDataBody

/-!
# The file body

`file_body` (`lib/body/file_body.cpp`): the writer that returns a file, or the parts of it that a
Range header asked for, in buffers of at most `bufSize` bytes. Positions are `std::uint64_t`, the
two ends of a range `std::int64_t`.
-/

namespace Httplib

open Producer (Pull Emits)

/-- The read side of a `std::fstream`. The flag is `failbit`; a read that meets the end of the file
sets it together with `eofbit`. -/
structure FileStream where
  content : Bytes
  pos : Nat := 0
  failed : Bool := false

namespace FileStream

/-- `seekg(off, std::ios::cur)`: a position before the start of the file is refused, one after its
end is not. -/
def seekg (file : FileStream) (off : Int) : FileStream :=
  if file.failed then file
  else if 0 ≤ file.pos + off then { file with pos := (file.pos + off).toNat }
  else { file with failed := true }

/-- `read(buffer, n)`, with the `gcount()` bytes it put into the buffer. -/
def read (file : FileStream) (n : Nat) : Bytes × FileStream :=
  if file.failed then ([], file)
  else
    let data := (file.content.drop file.pos).take n
    (data, { file with pos := file.pos + data.length, failed := decide (data.length < n) })

end FileStream

/-- `file_body::value_type` (`file_body.hpp:12`), its stream as `open` leaves it: at the start of
`content`, the bytes that reading will give, with `fileSize` the size found at opening. -/
structure FileBody where
  ranges : List (Int × Int) := []
  contentType : Bytes := []
  boundary : Bytes := []
  content : Bytes := []
  fileSize : Nat := 0

/-- `file_body::value_type::open`. -/
def FileBody.open (content : Bytes) : FileBody := { content, fileSize := content.length }

/-- `file_body::writer::step` (`file_body.hpp:65`). -/
inductive FileWriter.Step where
  | header
  | content
  | contentEnd
  | eof
  deriving DecidableEq

/-- `file_body::writer` (`file_body.hpp:49`), with the stream of its body. `fileSize` is the
writer's own `file_size_`, which nothing initialises. -/
structure FileWriter where
  body : FileBody
  file : FileStream
  rangeIndex : Option Nat := none
  pos : Option Nat := none
  step : FileWriter.Step := .header
  fileSize : Nat

namespace FileWriter

/-- The writer of a body; `fileSize` is whatever its `file_size_` happens to hold. -/
def start (body : FileBody) (fileSize : Nat) : FileWriter :=
  { body, file := { content := body.content }, fileSize }

/-- `BOOST_BEAST_FILE_BUFFER_SIZE`. -/
def bufSize : Nat := 4096

/-- The block `if (!pos_)` (`file_body.cpp:31`): the position, and the writer after it. -/
def enter (w : FileWriter) (first : Int) : Nat × FileWriter :=
  match w.pos with
  | some pos => (pos, w)
  | none =>
    let pos := u64 first
    (pos, { w with pos := some pos, file := w.file.seekg (i64 pos) })

/-- The whole file, or a single range of it (`file_body.cpp:22`). -/
def getSingle (w : FileWriter) (range : Int × Int) : Pull FileWriter HttpError UInt8 :=
  let (pos, w) := w.enter range.1
  let n := min bufSize (u64 (range.2 - pos))
  if n = 0 then .done
  else
    let (data, file) := w.file.read n
    if data = [] then .fail .shortRead
    else
      let pos := u64 (pos + data.length)
      .buffer data (pos < u64 range.2) { w with pos := some pos, file }

/-- The header of a part of several (`file_body.cpp:65`). The `strcpy` of it into `buf_` is not bounded here:
the source relies on a header of less than `bufSize` bytes without a NUL. -/
def partHeader (body : FileBody) (fileSize : Nat) (range : Int × Int) : Bytes :=
  bytes "--" ++ body.boundary ++ bytes "\r\n" ++
    (bytes "Content-Type: " ++ body.contentType ++ bytes "\r\n") ++
    (bytes "Content-Range: bytes " ++ bytes (toString range.1) ++ bytes "-" ++
      bytes (toString range.2) ++ bytes "/" ++ bytes (toString fileSize) ++ bytes "\r\n") ++
    bytes "\r\n"

/-- What closes the parts. -/
def closing (body : FileBody) : Bytes := bytes "\r\n" ++ (bytes "--" ++ body.boundary ++ bytes "--\r\n")

/-- The end of a part of several (`file_body.cpp:99`). -/
def getContentEnd (w : FileWriter) (index : Nat) : Pull FileWriter HttpError UInt8 :=
  if index = w.body.ranges.length - 1 then
    .buffer (closing w.body) false { w with step := .eof }
  else
    .buffer (bytes "\r\n") true { w with step := .header, rangeIndex := some (index + 1) }

/-- The content of a part of several (`file_body.cpp:76`). -/
def getContent (w : FileWriter) (index : Nat) (range : Int × Int) :
    Pull FileWriter HttpError UInt8 :=
  let (pos, w) := w.enter range.1
  let n := min bufSize (u64 (range.2 - pos))
  if n = 0 then getContentEnd { w with step := .contentEnd } index
  else
    let (data, file) := w.file.read n
    if data = [] then .fail .shortRead
    else .buffer data true { w with pos := some (u64 (pos + data.length)), file }

/-- `file_body::writer::get` (`file_body.cpp:16`). -/
def get (w : FileWriter) : Pull FileWriter HttpError UInt8 :=
  match w.body.ranges with
  | [] => w.getSingle (0, w.body.fileSize)
  | [range] => w.getSingle (range.1, range.2 + 1)
  | ranges =>
    let index := w.rangeIndex.getD 0
    let step := if w.rangeIndex.isNone then .header else w.step
    match ranges[index]? with
    | none => .done
    | some range =>
      match step with
      | .header =>
        .buffer (partHeader w.body w.fileSize range) true
          { w with rangeIndex := some index, step := .content, pos := none }
      | .content => getContent { w with rangeIndex := some index, step := .content } index range
      | .contentEnd => getContentEnd w index
      | .eof => .done

end FileWriter

end Httplib
