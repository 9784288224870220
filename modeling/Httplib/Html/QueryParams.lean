import Httplib.Util.Url

/-!
# Query parameters

`html::query_params` (`lib/html/query_params.cpp`). The container is a `std::unordered_multimap`;
`params` lists its pairs in the order of iteration, of which nothing is known. `query_params_round_trip_iff`
says which multimaps `decode` reads back from what `encoded` writes.
-/

namespace Httplib

/-- `html::query_params` (`query_params.hpp:9`). -/
structure QueryParams where
  params : List (Bytes × Bytes) := []

namespace QueryParams

/-- `query_params::add` (`query_params.cpp:75`): an `emplace` of the container. -/
def add [Platform] (q : QueryParams) (key val : Bytes) : QueryParams :=
  { params := Platform.emplace q.params (key, val) }

/-- The pairs after an `add`, in some order. -/
theorem add_perm [Platform] (q : QueryParams) (key val : Bytes) :
    (q.add key val).params.Perm ((key, val) :: q.params) :=
  Platform.emplace_perm q.params (key, val)

/-- One piece between two `&` of a query string (`query_params.cpp:38`): its pair, or nothing when
there is more than one `=` in it. -/
def decodePair [Platform] (item : Bytes) : Option (Bytes × Bytes) :=
  match split item (bytes "=") with
  | [key] => some (urlDecode key, [])
  | [key, val] => some (urlDecode key, urlDecode val)
  | _ => none

/-- A turn of the loop of `decode`. -/
def addItem [Platform] (q : QueryParams) (item : Bytes) : QueryParams :=
  match decodePair item with
  | some (key, val) => q.add key val
  | none => q

/-- `query_params::decode` (`query_params.cpp:32`): it always succeeds. -/
def decode [Platform] (content : Bytes) : QueryParams := (split content (bytes "&")).foldl addItem {}

/-- `query_params::encoded` (`query_params.cpp:54`). -/
def encoded (q : QueryParams) : Bytes :=
  join (bytes "&") (q.params.map fun item => urlEncode item.1 ++ bytes "=" ++ urlEncode item.2)

/-- The pairs that the loop finds, behind those that were there, in some order. -/
theorem foldl_addItem_perm [Platform] (items : List Bytes) (q : QueryParams) :
    (items.foldl addItem q).params.Perm (q.params ++ items.filterMap decodePair) := by
  induction items generalizing q with
  | nil =>
    rw [List.filterMap_nil, List.append_nil]
    exact .refl _
  | cons item items ih =>
    have hrest := ih (q.addItem item)
    rw [List.foldl_cons, List.filterMap_cons]
    unfold addItem at hrest ⊢
    cases hpair : decodePair item with
    | none =>
      rw [hpair] at hrest
      exact hrest
    | some pair =>
      rw [hpair] at hrest
      have hadd := (q.add_perm pair.1 pair.2).append_right (items.filterMap decodePair)
      exact hrest.trans (hadd.trans List.perm_middle.symm)

/-- The pairs that `decode` finds, in some order. -/
theorem decode_perm [Platform] (content : Bytes) :
    (decode content).params.Perm ((split content (bytes "&")).filterMap decodePair) :=
  foldl_addItem_perm (split content (bytes "&")) {}

/-! ## Reading back what was encoded -/

/-- What becomes of a pair: a value under the empty key becomes a key, because `split` drops the `=` in
front. -/
def readBack (item : Bytes × Bytes) : Bytes × Bytes :=
  if item.1 = [] then (item.2.map plusForSpace, [])
  else (item.1.map plusForSpace, item.2.map plusForSpace)

theorem not_mem_urlEncode {c : UInt8} (h : isPlain c = false) (value : Bytes) :
    c ∉ urlEncode value := by
  intro hmem
  rw [isPlain_of_mem_urlEncode hmem] at h
  cases h

theorem isSpace_of_mem_urlEncode {value : Bytes} {c : UInt8} (h : c ∈ urlEncode value) :
    isSpace c = false := by
  have hplain := isPlain_of_mem_urlEncode h
  rw [isPlain, Bool.and_eq_true] at hplain
  simpa using hplain.2

/-- A text without white space is its own trim. -/
theorem trimCopy_of_not_isSpace {s : Bytes} (h : ∀ c ∈ s, isSpace c = false) : trimCopy s = s :=
  trimCopy_eq_self (fun c hc => h c (List.mem_of_head? hc)) fun c hc => h c (List.mem_of_getLast? hc)

@[simp] theorem trimCopy_urlEncode (value : Bytes) : trimCopy (urlEncode value) = urlEncode value :=
  trimCopy_of_not_isSpace fun _ => isSpace_of_mem_urlEncode

/-- The pieces of one pair. -/
theorem split_encoded (key val : Bytes) :
    split (urlEncode key ++ bytes "=" ++ urlEncode val) (bytes "=") =
      if key = [] then [urlEncode val]
      else if val = [] then [urlEncode key] else [urlEncode key, urlEncode val] := by
  have heq : ∀ value, (61 : UInt8) ∉ urlEncode value := not_mem_urlEncode (by decide)
  have htext : urlEncode key ++ bytes "=" ++ urlEncode val = urlEncode key ++ 61 :: urlEncode val := by
    simp [bytes]
  rw [htext, show bytes "=" = [61] from rfl, split_singleton (by simp)]
  split
  · next hkey =>
    subst hkey
    have hstrip : stripLeading 61 (urlEncode [] ++ 61 :: urlEncode val) = urlEncode val := rfl
    rw [hstrip, List.splitOn_eq_singleton (heq val), dropLastEmpty_singleton, List.map_singleton,
      trimCopy_urlEncode]
  · next hkey =>
    have hne := urlEncode_eq_nil_iff.not.2 hkey
    have hstrip : stripLeading 61 (urlEncode key ++ 61 :: urlEncode val) =
        urlEncode key ++ 61 :: urlEncode val := by
      refine if_neg fun hhead => heq key ?_
      rw [List.head?_append_of_ne_nil _ hne] at hhead
      exact List.mem_of_head? hhead
    have hcut : (urlEncode key ++ 61 :: urlEncode val).splitOn 61 = [urlEncode key, urlEncode val] := by
      rw [List.splitOn_append_cons_self_of_not_mem (heq key), List.splitOn_eq_singleton (heq val)]
    rw [hstrip, hcut]
    split
    · next hval =>
      subst hval
      exact congrArg (· :: []) (trimCopy_urlEncode key)
    · next hval =>
      have hlast : dropLastEmpty [urlEncode key, urlEncode val] = [urlEncode key, urlEncode val] := by
        simp [dropLastEmpty, hval]
      simp [hlast]

/-- One pair. -/
theorem decodePair_encoded [Platform] (item : Bytes × Bytes) :
    decodePair (urlEncode item.1 ++ bytes "=" ++ urlEncode item.2) = some (readBack item) := by
  obtain ⟨key, val⟩ := item
  rw [decodePair, split_encoded, readBack]
  by_cases hkey : key = []
  · simp [hkey]
  · by_cases hval : val = [] <;> simp [hkey, hval]

/-- The whole query string: no token has a separator of pairs in it, and none is empty. -/
theorem decode_encoded [Platform] (q : QueryParams) :
    (decode q.encoded).params.Perm (q.params.map readBack) := by
  have htokens : split q.encoded (bytes "&") =
      q.params.map fun item => urlEncode item.1 ++ bytes "=" ++ urlEncode item.2 := by
    rw [encoded, show bytes "&" = [38] from rfl]
    refine split_join fun token htoken => ?_
    obtain ⟨⟨key, val⟩, -, rfl⟩ := List.mem_map.1 htoken
    have hamp : ∀ value, (38 : UInt8) ∉ urlEncode value := not_mem_urlEncode (by decide)
    refine ⟨by simp [bytes], by simp [bytes, hamp], trimCopy_of_not_isSpace fun c hc => ?_⟩
    rcases List.mem_append.1 hc with hc | hc
    · rcases List.mem_append.1 hc with hc | hc
      · exact isSpace_of_mem_urlEncode hc
      · cases List.mem_singleton.1 hc
        decide
    · exact isSpace_of_mem_urlEncode hc
  have hpairs : (split q.encoded (bytes "&")).filterMap decodePair = q.params.map readBack := by
    rw [htokens, List.filterMap_map]
    exact List.filterMap_eq_map_iff_forall_eq_some.2 fun item _ => decodePair_encoded item
  rw [← hpairs]
  exact decode_perm q.encoded

theorem map_plusForSpace_eq_self_iff {value : Bytes} :
    value.map plusForSpace = value ↔ (32 : UInt8) ∉ value := by
  induction value with
  | nil => simp
  | cons c value ih =>
    rw [List.map_cons, List.cons.injEq, ih, List.mem_cons, not_or]
    refine and_congr ?_ Iff.rfl
    unfold plusForSpace
    split
    · next hc => simp [hc]
    · next hc => simp [Ne.symm hc]

/-- What was read back once is read back as it is. -/
theorem readBack_readBack (item : Bytes × Bytes) : readBack (readBack item) = readBack item := by
  have hplus : ∀ value : Bytes, (value.map plusForSpace).map plusForSpace = value.map plusForSpace := by
    intro value
    rw [map_plusForSpace_eq_self_iff, List.mem_map]
    rintro ⟨c, -, hc⟩
    unfold plusForSpace at hc
    split at hc
    · cases hc
    · next hne => exact hne hc
  obtain ⟨key, val⟩ := item
  by_cases hkey : key = []
  · by_cases hval : val = [] <;> simp [readBack, hkey, hval, hplus]
  · simp [readBack, hkey, hplus]

/-- A pair is read back as it is if it has no space and no value under the empty key. -/
theorem readBack_eq_self_iff {item : Bytes × Bytes} :
    readBack item = item ↔
      (32 : UInt8) ∉ item.1 ∧ (32 : UInt8) ∉ item.2 ∧ (item.1 = [] → item.2 = []) := by
  obtain ⟨key, val⟩ := item
  by_cases hkey : key = []
  · by_cases hval : val = [] <;> simp [readBack, hkey, hval]
  · simp [readBack, hkey, map_plusForSpace_eq_self_iff]

end QueryParams

open QueryParams in
/-- **The round trip of a query string.** `decode` reads the multimap back from what `encoded` writes
exactly when no key and no value has a space in it, which is written as a plus and read as one, and no
value stands under the empty key. -/
theorem query_params_round_trip_iff [Platform] (q : QueryParams) :
    (decode q.encoded).params.Perm q.params ↔
      ∀ item ∈ q.params,
        (32 : UInt8) ∉ item.1 ∧ (32 : UInt8) ∉ item.2 ∧ (item.1 = [] → item.2 = []) := by
  constructor
  · intro hperm item hitem
    have hback := (decode_encoded q).symm.trans hperm
    obtain ⟨item', -, heq⟩ := List.mem_map.1 (hback.mem_iff.2 hitem)
    rw [← readBack_eq_self_iff, ← heq, readBack_readBack]
  · intro h
    have hsame : q.params.map readBack = q.params :=
      (List.map_congr_left fun item hitem => readBack_eq_self_iff.2 (h item hitem)).trans
        (List.map_id _)
    rw [← hsame]
    exact hsame.symm ▸ decode_encoded q

open scoped Platform.Plain in
/-- A value with a space. -/
theorem query_params_round_trip_space :
    let q : QueryParams := { params := [(bytes "q", bytes "a b")] }
    q.encoded = bytes "q=a+b" ∧ ¬ (QueryParams.decode q.encoded).params.Perm q.params := by
  refine ⟨by decide, fun hperm => ?_⟩
  exact absurd (hperm.mem_iff.2 List.mem_cons_self) (by decide)

end Httplib
