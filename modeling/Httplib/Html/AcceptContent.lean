import Httplib.Util.Misc

/-!
# The Accept-Encoding header

`basic_accept_content` (`lib/html/accept_content.cpp`): a header cut into its elements, and the
coding that the server chooses among them.
-/

namespace Httplib.AcceptContent

/-- `basic_accept_content::header_element` (`accept_content.hpp:12`). -/
structure HeaderElement where
  value : Bytes := []
  params : List (Bytes × Bytes) := []

/-- The assignment to an entry of a map. -/
def assign (params : List (Bytes × Bytes)) (key value : Bytes) : List (Bytes × Bytes) :=
  params.filter (fun entry => entry.1 ≠ key) ++ [(key, value)]

/-- One parameter of an element (`accept_content.cpp:29`). -/
def addParam (params : List (Bytes × Bytes)) (param : Bytes) : List (Bytes × Bytes) :=
  let param := trimCopy param
  match find param (bytes "=") with
  | none => params
  | some eqPos =>
    let key := trimCopy (param.take eqPos)
    let value := trimCopy (param.drop (eqPos + 1))
    let value := if value.head? = some 34 ∧ value.getLast? = some 34 then
      substr value 1 (value.length - 2) else value
    assign params key value

/-- `basic_accept_content::parse_element` (`accept_content.cpp:22`). -/
def parseElement (elementStr : Bytes) : HeaderElement :=
  match split elementStr (bytes ";") with
  | [] => {}
  | value :: params => { value := trimCopy value, params := params.foldl addParam [] }

/-- `basic_accept_content::parse` (`accept_content.cpp:7`), which never fails. -/
def parse (headerValue : Bytes) : List HeaderElement :=
  (((split headerValue (bytes ",")).map trimCopy).filter (· ≠ [])).map parseElement

/-- `accept_encoding_content::server_apply_encoding` (`accept_content.cpp:49`); `supported` is
`compressor_factory::is_supported_encoding`. -/
def serverApplyEncoding (supported : Bytes → Bool) (elements : List HeaderElement) : Bytes :=
  match elements.find? fun elem => supported elem.value with
  | some elem => elem.value
  | none => []

end Httplib.AcceptContent
