import Httplib.Util.Misc

/-!
# The Range header

`http_ranges` (`lib/html/http_ranges.cpp`): a Range header read into intervals of the file, whose
ends are kept as `std::int64_t` but computed as `int`.
-/

namespace Httplib

/-- The conversion to `int`. -/
def i32 (x : Int) : Int := x.bmod (2 ^ 32)

/-- `std::isdigit`. -/
def isDigit (c : UInt8) : Bool := 48 ≤ c && c ≤ 57

/-- `std::from_chars` to an `int` in base ten: the number the text begins with, or none when there
is none or it does not fit. What follows the digits is not looked at. -/
def fromChars (s : Bytes) : Option Int :=
  let negative := s.head? = some 45
  let digits := (if negative then s.drop 1 else s).takeWhile isDigit
  let n : Int := digits.foldl (fun n c => n * 10 + (c.toNat - 48 : Nat)) 0
  let n := if negative then -n else n
  if digits = [] then none
  else if -2 ^ 31 ≤ n ∧ n < 2 ^ 31 then some n
  else none

namespace HttpRanges

/-- How `http_ranges::parse` fails. -/
inductive ParseError where
  /-- It returns false. -/
  | refused
  /-- It takes the first element of an empty vector. -/
  | undefined
  deriving DecidableEq

/-- One end of a range, where there is a text for it. -/
def number (text : Bytes) : Except ParseError Int :=
  match fromChars text with
  | some n => .ok n
  | none => .error .refused

/-- The body of the loop over the ranges (`http_ranges.cpp:27`). -/
def parseRange (fileSize : Nat) (range : Bytes) : Except ParseError (Int × Int) := do
  match split range (bytes "-") with
  | [] => .error .undefined
  | first :: rest =>
    let first := trimCopy first
    let start ← if first = [] then pure (-1) else number first
    let fin ← match rest with
      | [] => pure (i32 (fileSize - 1))
      | second :: _ =>
        let second := trimCopy second
        if second = [] then pure (i32 (fileSize - 1)) else number second
    if start > 0 ∧ (start ≥ fileSize ∨ start = fin) then .error .refused
    else
      let fin := if fin > 0 ∧ fin ≥ fileSize then i32 (fileSize - 1) else fin
      if start = -1 then .ok (i32 (fileSize - fin), i32 (fileSize - 1)) else .ok (start, fin)

/-- `http_ranges::parse` (`http_ranges.cpp:7`). No range is asked for by a text without characters
other than white space. -/
def parse (rangeStr : Bytes) (fileSize : Nat) : Except ParseError (List (Int × Int)) :=
  let rangeStr := trimCopy rangeStr
  if rangeStr = [] then .ok []
  else if ¬ startsWith rangeStr (bytes "bytes=") then .error .refused
  else
    let rangeStr := rangeStr.drop 6
    if (find rangeStr (bytes "--")).isSome then .error .refused
    else if rangeStr = bytes "-" then .ok [(0, i64 (fileSize - 1))]
    else (split rangeStr (bytes ",")).mapM (parseRange fileSize)

end HttpRanges

end Httplib
