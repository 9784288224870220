import Httplib.Html.QueryParams

/-!
# Verbs, fields and requests

What the server code uses of `boost::beast::http`: the request methods with their names, the fields
of a message, and the `request` (`include/httplib/server/request.hpp`) made of a header that was
read.
-/

namespace Httplib

/-- `boost::beast::http::verb`. -/
inductive Verb where
  | unknown | delete | get | head | post | put | connect | options | trace
  | copy | lock | mkcol | move | propfind | proppatch | search | unlock | bind | rebind | unbind
  | acl | report | mkactivity | checkout | merge | msearch | notify | subscribe | unsubscribe
  | patch | purge | mkcalendar | link | unlink
  deriving DecidableEq

/-- `boost::beast::http::to_string`. -/
def Verb.toString : Verb → Bytes
  | .unknown => bytes "<unknown>" | .delete => bytes "DELETE" | .get => bytes "GET"
  | .head => bytes "HEAD" | .post => bytes "POST" | .put => bytes "PUT"
  | .connect => bytes "CONNECT" | .options => bytes "OPTIONS" | .trace => bytes "TRACE"
  | .copy => bytes "COPY" | .lock => bytes "LOCK" | .mkcol => bytes "MKCOL"
  | .move => bytes "MOVE" | .propfind => bytes "PROPFIND" | .proppatch => bytes "PROPPATCH"
  | .search => bytes "SEARCH" | .unlock => bytes "UNLOCK" | .bind => bytes "BIND"
  | .rebind => bytes "REBIND" | .unbind => bytes "UNBIND" | .acl => bytes "ACL"
  | .report => bytes "REPORT" | .mkactivity => bytes "MKACTIVITY"
  | .checkout => bytes "CHECKOUT" | .merge => bytes "MERGE" | .msearch => bytes "M-SEARCH"
  | .notify => bytes "NOTIFY" | .subscribe => bytes "SUBSCRIBE"
  | .unsubscribe => bytes "UNSUBSCRIBE" | .patch => bytes "PATCH" | .purge => bytes "PURGE"
  | .mkcalendar => bytes "MKCALENDAR" | .link => bytes "LINK" | .unlink => bytes "UNLINK"

/-- `boost::beast::http::field`, as far as the server names it. -/
inductive Field where
  | acceptEncoding | acceptRanges | allow | cacheControl | contentEncoding | contentRange
  | contentType | date | etag | expect | ifModifiedSince | ifNoneMatch | lastModified | location
  | range | server
  deriving DecidableEq

/-- `boost::beast::http::fields`: the fields in the order they stand in. -/
abbrev Fields := List (Field × Bytes)

namespace Fields

/-- `fields::find`: the value of the first field of this name. -/
def find? (fields : Fields) (name : Field) : Option Bytes :=
  (List.find? (fun entry => entry.1 = name) fields).map Prod.snd

/-- `fields::operator[]`: the empty text where there is no such field. -/
def get (fields : Fields) (name : Field) : Bytes := (fields.find? name).getD []

/-- `fields::set`: it replaces the fields of this name. -/
def set (fields : Fields) (name : Field) (value : Bytes) : Fields :=
  fields.filter (fun entry => entry.1 ≠ name) ++ [(name, value)]

@[simp] theorem find?_set_self (fields : Fields) (name : Field) (value : Bytes) :
    (fields.set name value).find? name = some value := by
  have hnone : List.find? (fun entry => decide (entry.1 = name))
      (fields.filter fun entry => entry.1 ≠ name) = none := by
    rw [List.find?_eq_none]
    intro entry hentry
    simpa using (List.mem_filter.1 hentry).2
  rw [find?, set, List.find?_append, hnone]
  simp

theorem find?_set_of_ne (fields : Fields) {name name' : Field} (value : Bytes) (h : name ≠ name') :
    (fields.set name value).find? name' = fields.find? name' := by
  have hfilter : List.find? (fun entry => decide (entry.1 = name'))
      (fields.filter fun entry => entry.1 ≠ name) =
      List.find? (fun entry => decide (entry.1 = name')) fields := by
    rw [List.find?_filter]
    congr 1
    funext entry
    rw [Bool.eq_iff_iff]
    simp only [decide_eq_true_eq]
    exact ⟨And.right, fun h' => ⟨fun h'' => h (h''.symm.trans h'), h'⟩⟩
  rw [find?, set, List.find?_append, hfilter]
  simp [h, find?]

end Fields

/-- The parameters of a path (`request.hpp:55`), one entry a name. -/
abbrev Params := List (Bytes × Bytes)

namespace Params

/-- The assignment to an entry of the map. -/
def set (params : Params) (name value : Bytes) : Params :=
  params.filter (fun entry => entry.1 ≠ name) ++ [(name, value)]

/-- `erase`. -/
def erase (params : Params) (name : Bytes) : Params := params.filter fun entry => entry.1 ≠ name

/-- `find`. -/
def find? (params : Params) (name : Bytes) : Option Bytes :=
  (List.find? (fun entry => entry.1 = name) params).map Prod.snd

@[simp] theorem find?_set_self (params : Params) (name value : Bytes) :
    (params.set name value).find? name = some value := by
  have hnone : List.find? (fun entry => decide (entry.1 = name))
      (params.filter fun entry => entry.1 ≠ name) = none := by
    rw [List.find?_eq_none]
    intro entry hentry
    simpa using (List.mem_filter.1 hentry).2
  rw [find?, set, List.find?_append, hnone]
  simp

/-- What is found behind an `erase`. -/
theorem find?_erase (params : Params) (name other : Bytes) :
    (params.erase name).find? other = if other = name then none else params.find? other := by
  rw [find?, erase, List.find?_filter]
  split
  · next h =>
    subst h
    rw [Option.map_eq_none_iff, List.find?_eq_none]
    simp
  · next h =>
    have hsame : (fun entry : Bytes × Bytes => decide (decide (entry.1 ≠ name) = true ∧
        decide (entry.1 = other) = true)) = fun entry => decide (entry.1 = other) := by
      funext entry
      rw [Bool.eq_iff_iff]
      simp only [decide_eq_true_eq]
      exact ⟨And.right, fun heq => ⟨fun heq' => h (heq.symm.trans heq'), heq⟩⟩
    rw [hsame, find?]

/-- What is found behind an assignment. -/
theorem find?_set (params : Params) (name value other : Bytes) :
    (params.set name value).find? other =
      if other = name then some value else params.find? other := by
  split
  · next h =>
    subst h
    exact find?_set_self params other value
  · next h =>
    have herase := find?_erase params name other
    rw [if_neg h, find?, erase] at herase
    rw [find?, set, List.find?_append, Option.map_or, herase]
    simp [Ne.symm h]

end Params

/-- `server::request` (`request.hpp:10`). -/
structure Request where
  method : Verb
  target : Bytes
  version : Nat
  fields : Fields
  decodedPath : Bytes
  queryParams : QueryParams
  pathParams : Params := []

namespace Request

/-- The constructor of `server::request` (`request.cpp:6`). -/
def ofHeader [Platform] (method : Verb) (target : Bytes) (version : Nat) (fields : Fields) : Request :=
  match find target (bytes "?") with
  | none => { method, target, version, fields, decodedPath := urlDecode target, queryParams := {} }
  | some pos =>
    { method, target, version, fields,
      decodedPath := urlDecode (target.take pos),
      queryParams := .decode (target.drop (pos + 1)) }

@[simp] theorem fields_ofHeader [Platform] (method : Verb) (target : Bytes) (version : Nat)
    (fields : Fields) : (ofHeader method target version fields).fields = fields := by
  unfold ofHeader
  split <;> rfl

@[simp] theorem method_ofHeader [Platform] (method : Verb) (target : Bytes) (version : Nat)
    (fields : Fields) : (ofHeader method target version fields).method = method := by
  unfold ofHeader
  split <;> rfl

/-- `request::path` (`request.cpp:48`). -/
def path (req : Request) : Bytes := if req.decodedPath = [] then req.target else req.decodedPath

end Request

end Httplib
