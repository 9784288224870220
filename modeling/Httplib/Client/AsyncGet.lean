import Httplib.Server.Message
import Httplib.Util.Numerals
import Mathlib.Data.List.Perm.Basic

/-!
# The query of a client at the server

The accessors of `html::query_params` (`include/httplib/html/query_params.hpp`) for numbers and truth
values, and the target that `http_client::async_get` makes of a path and a query
(`lib/client/client.cpp:50`). `async_get_received` says what a handler of the server finds under a key; the
values of one key come in the order of an unordered container, on each side its own.
-/

namespace Httplib

namespace QueryParams

/-- `query_params::at` (`query_params.cpp:7`), which throws a text. -/
def at_ (q : QueryParams) (key : Bytes) : Except Bytes Bytes :=
  match q.params.find? fun item => item.1 = key with
  | some item => .ok item.2
  | none => .error (bytes "Key not found: " ++ key)

/-- `query_params::all` (`query_params.cpp:16`). -/
def all (q : QueryParams) (key : Bytes) : List Bytes :=
  (q.params.filter fun item => item.1 = key).map Prod.snd

/-- `query_params::exists` (`query_params.cpp:26`). -/
def exists_ (q : QueryParams) (key : Bytes) : Bool := q.params.any fun item => item.1 = key

/-- What a value is read to as a number, or the exception about its key. -/
def number (T : IntegerType) (key value : Bytes) : Except Bytes Int :=
  match fromCharsTo T value with
  | some n => .ok n
  | none => .error (bytes "invalid param: " ++ key)

/-- `query_params::at_number` (`query_params.hpp:17`). -/
def atNumber (T : IntegerType) (q : QueryParams) (key : Bytes) : Except Bytes Int := do
  number T key (← q.at_ key)

/-- `query_params::all_number` (`query_params.hpp:36`). -/
def allNumber (T : IntegerType) (q : QueryParams) (key : Bytes) : Except Bytes (List Int) :=
  (q.all key).mapM (number T key)

/-- `query_params::at_bool` (`query_params.cpp:85`). -/
def atBool (q : QueryParams) (key : Bytes) : Except Bytes Bool := do
  let v ← q.at_ key
  if v = bytes "true" ∨ v = bytes "1" then .ok true
  else if v = bytes "false" ∨ v = bytes "0" then .ok false
  else .error (bytes "invalid param: " ++ key)

/-- `query_params::add_number` (`query_params.hpp:52`). -/
def addNumber [Platform] (q : QueryParams) (key : Bytes) (val : Int) : QueryParams :=
  q.add key (bytes (toString val))

/-- `query_params::add_bool` (`query_params.cpp:80`). -/
def addBool [Platform] (q : QueryParams) (key : Bytes) (val : Bool) : QueryParams :=
  q.add key (if val then bytes "true" else bytes "false")

end QueryParams

/-- A call that adds to a query. -/
inductive QueryCall where
  | add (key val : Bytes)
  | addNumber (key : Bytes) (val : Int)
  | addBool (key : Bytes) (val : Bool)

namespace QueryCall

def key : QueryCall → Bytes
  | add key _ | addNumber key _ | addBool key _ => key

/-- The value as it is stored. -/
def value : QueryCall → Bytes
  | add _ val => val
  | addNumber _ val => bytes (toString val)
  | addBool _ val => if val then bytes "true" else bytes "false"

def apply [Platform] (q : QueryParams) : QueryCall → QueryParams
  | add key val => q.add key val
  | addNumber key val => q.addNumber key val
  | addBool key val => q.addBool key val

/-- The query that the calls build. -/
def build [Platform] (calls : List QueryCall) : QueryParams := calls.foldl apply {}

theorem params_apply [Platform] (q : QueryParams) (call : QueryCall) :
    (apply q call).params.Perm ((call.key, call.value) :: q.params) := by
  cases call <;> exact q.add_perm _ _

/-- The pairs that were added, in some order. -/
theorem params_build [Platform] (calls : List QueryCall) :
    (build calls).params.Perm (calls.map fun call => (call.key, call.value)) := by
  suffices hfold : ∀ q : QueryParams, (calls.foldl apply q).params.Perm
      ((calls.map fun call => (call.key, call.value)) ++ q.params) by
    have hall := hfold {}
    rwa [List.append_nil] at hall
  induction calls with
  | nil => exact fun q => .refl _
  | cons call calls ih =>
    intro q
    have hnext := ih (apply q call)
    exact hnext.trans (((params_apply q call).append_left _).trans List.perm_middle)

end QueryCall

/-- The target of `http_client::async_get` (`client.cpp:54`). -/
def asyncGetTarget (path : Bytes) (params : QueryParams) : Bytes :=
  if params.params = [] then path else path ++ bytes "?" ++ params.encoded

/-! ## At the server -/

/-- The path and the query come apart again where the path has no question mark. -/
theorem ofHeader_asyncGetTarget [Platform] {path : Bytes} (hpath : (63 : UInt8) ∉ path) (q : QueryParams)
    (fields : Fields) :
    let req := Request.ofHeader .get (asyncGetTarget path q) 11 fields
    req.decodedPath = urlDecode path ∧
      req.queryParams.params.Perm (q.params.map QueryParams.readBack) := by
  have hmark : bytes "?" = [63] := rfl
  intro req
  by_cases hempty : q.params = []
  · have htarget : asyncGetTarget path q = path := if_pos hempty
    simp only [req, htarget, Request.ofHeader]
    rw [hmark, find_zero, Search.leftmost_singleton_eq_none_iff.2 hpath, hempty]
    exact ⟨rfl, .refl _⟩
  · have htarget : asyncGetTarget path q = path ++ 63 :: q.encoded := by
      rw [asyncGetTarget, if_neg hempty, hmark, List.append_assoc, List.singleton_append]
    simp only [req, htarget, Request.ofHeader]
    rw [hmark, find_zero, Search.leftmost_singleton_append hpath]
    dsimp only
    rw [List.take_left, List.drop_append, List.drop_of_length_le (Nat.le_succ _), Nat.add_sub_cancel_left]
    exact ⟨rfl, QueryParams.decode_encoded q⟩

namespace QueryParams

/-- The first of all values. -/
theorem at_eq (q : QueryParams) (key : Bytes) :
    q.at_ key = match q.all key with
      | v :: _ => .ok v
      | [] => .error (bytes "Key not found: " ++ key) := by
  rw [at_, all, ← List.head?_filter]
  cases q.params.filter fun item => decide (item.1 = key) <;> rfl

/-- One of the values under a key, if they are those of a list in some order. -/
theorem at_of_perm {q : QueryParams} {key : Bytes} {α : Type} {l : List α} {f : α → Bytes}
    (h : (q.all key).Perm (l.map f)) (hne : l ≠ []) : ∃ a ∈ l, q.at_ key = .ok (f a) := by
  have hall : q.all key ≠ [] := by
    intro hnil
    rw [hnil] at h
    exact hne (List.map_eq_nil_iff.1 h.nil_eq.symm)
  obtain ⟨v, values, hcons⟩ := List.exists_cons_of_ne_nil hall
  have hv : v ∈ q.all key := hcons ▸ List.mem_cons_self
  obtain ⟨a, ha, rfl⟩ := List.mem_map.1 (h.mem_iff.1 hv)
  refine ⟨a, ha, ?_⟩
  rw [at_eq, hcons]

theorem exists_eq_false_of_all {q : QueryParams} {key : Bytes} (h : q.all key = []) :
    q.exists_ key = false := by
  rw [all, List.map_eq_nil_iff, List.filter_eq_nil_iff] at h
  rw [exists_, List.any_eq_false]
  exact h

theorem number_int {T : IntegerType} {n : Int} (h : T.Holds n) (key : Bytes) :
    number T key (Decimal.int n) = .ok n := by
  have hend : ∀ c ∈ ([] : Bytes).head?, ¬ Decimal.IsDigit c := fun c hc => by cases hc
  have hchars := fromCharsTo_int h hend
  rw [List.append_nil] at hchars
  rw [number, hchars]

/-- All numbers of the type are read. -/
theorem mapM_number {T : IntegerType} {numbers : List Int} (h : ∀ n ∈ numbers, T.Holds n)
    (key : Bytes) : (numbers.map Decimal.int).mapM (number T key) = .ok numbers := by
  induction numbers with
  | nil => rfl
  | cons n numbers ih =>
    rw [List.map_cons, List.mapM_cons, number_int (h n List.mem_cons_self),
      ih fun n hn => h n (List.mem_cons_of_mem _ hn)]
    rfl

/-- If the values under a key are the texts of numbers of the type, in some order, these numbers are
read. -/
theorem allNumber_of_perm {T : IntegerType} {numbers : List Int} (hholds : ∀ n ∈ numbers, T.Holds n)
    {q : QueryParams} {key : Bytes} (h : (q.all key).Perm (numbers.map Decimal.int)) :
    ∃ received, q.allNumber T key = .ok received ∧ received.Perm numbers := by
  -- the texts are those of the numbers, in the order of the container
  obtain ⟨received, heq, hperm⟩ :=
    (congrFun₂ (List.eq_map_comp_perm Decimal.int) (q.all key) numbers).mpr h
  refine ⟨received, ?_, hperm⟩
  rw [allNumber, heq]
  exact mapM_number (fun n hn => hholds n (hperm.mem_iff.1 hn)) key

/-- And one of them is read where one is asked for. -/
theorem atNumber_of_perm {T : IntegerType} {numbers : List Int} (hholds : ∀ n ∈ numbers, T.Holds n)
    {q : QueryParams} {key : Bytes} (h : (q.all key).Perm (numbers.map Decimal.int))
    (hne : numbers ≠ []) : ∃ n ∈ numbers, q.atNumber T key = .ok n := by
  obtain ⟨n, hn, hat⟩ := at_of_perm h hne
  refine ⟨n, hn, ?_⟩
  rw [atNumber, hat]
  exact number_int (hholds n hn) key

/-- The text of a number comes back as it is: it has no space in it. -/
theorem map_plusForSpace_int (n : Int) : (Decimal.int n).map plusForSpace = Decimal.int n := by
  rw [map_plusForSpace_eq_self_iff]
  have hdigits : (32 : UInt8) ∉ Decimal.digits n.natAbs := fun hmem =>
    absurd (Decimal.isDigit_of_mem_digits _ hmem) (by decide)
  unfold Decimal.int
  split
  · exact fun hmem => (List.mem_cons.1 hmem).elim (by decide) hdigits
  · exact hdigits

end QueryParams

/-- The calls for a key. -/
def QueryCall.callsFor (key : Bytes) (calls : List QueryCall) : List QueryCall :=
  calls.filter fun call => call.key = key

/-- What a client has added under a key is found under it: no other key reads as this one does. -/
structure QueryCall.Distinct (key : Bytes) (calls : List QueryCall) : Prop where
  ne_nil : key ≠ []
  no_space : (32 : UInt8) ∉ key
  others : ∀ call ∈ calls, (QueryParams.readBack (call.key, call.value)).1 = key → call.key = key

/-- All values under such a key, with pluses for spaces. -/
theorem QueryCall.Distinct.all_perm {key : Bytes} {calls : List QueryCall} (h : Distinct key calls)
    {q : QueryParams}
    (hq : q.params.Perm (calls.map fun call => QueryParams.readBack (call.key, call.value))) :
    (q.all key).Perm ((callsFor key calls).map fun call => call.value.map plusForSpace) := by
  have hsame : ∀ call ∈ calls, (QueryParams.readBack (call.key, call.value)).1 = key ↔ call.key = key := by
    intro call hcall
    refine ⟨h.others call hcall, fun hkey => ?_⟩
    rw [QueryParams.readBack, if_neg (by rw [hkey]; exact h.ne_nil), hkey]
    exact QueryParams.map_plusForSpace_eq_self_iff.2 h.no_space
  have hfilter : calls.filter ((fun item : Bytes × Bytes => decide (item.1 = key)) ∘
      fun call => QueryParams.readBack (call.key, call.value)) =
      calls.filter fun call => decide (call.key = key) :=
    List.filter_congr fun call hcall => decide_eq_decide.2 (hsame call hcall)
  have hvalues : ((calls.map fun call => QueryParams.readBack (call.key, call.value)).filter
      fun item => decide (item.1 = key)).map Prod.snd =
      (callsFor key calls).map fun call => call.value.map plusForSpace := by
    rw [List.filter_map, hfilter, List.map_map, callsFor]
    refine List.map_congr_left fun call hcall => ?_
    have hkey : call.key = key := by simpa using (List.mem_filter.1 hcall).2
    show (QueryParams.readBack (call.key, call.value)).2 = _
    rw [QueryParams.readBack, if_neg (by rw [hkey]; exact h.ne_nil)]
  rw [← hvalues]
  exact (hq.filter _).map _

end Httplib
