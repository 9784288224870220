import Httplib.Html.HttpRanges

/-!
# What a Range header is read as

`http_ranges_inside_iff` says for which texts whatever `http_ranges::parse` stores lies in the file, and
`http_ranges_defined_iff` for which texts it takes no element of an empty vector. Both rest on the two
numbers that a piece between commas is read as (`ends`) and on what is made of them (`settle`).
-/

namespace Httplib

namespace HttpRanges

/-! ## The vector of the object -/

/-- The loop of `http_ranges::parse` (`http_ranges.cpp:28`) with the vector `ranges_`: what it returns
and leaves in the vector, or none where it takes an element of an empty vector. -/
def parseLoop (fileSize : Nat) : List Bytes → List (Int × Int) → Option (Bool × List (Int × Int))
  | [], stored => some (true, stored)
  | range :: ranges, stored =>
    match parseRange fileSize range with
    | .ok pair => parseLoop fileSize ranges (stored ++ [pair])
    | .error .refused => some (false, [])
    | .error .undefined => none

/-- `http_ranges::parse` (`http_ranges.cpp:7`) with the vector `ranges_` that it finds. -/
def parseInto (stored : List (Int × Int)) (rangeStr : Bytes) (fileSize : Nat) :
    Option (Bool × List (Int × Int)) :=
  let stored := stored.drop stored.length
  let rangeStr := trimCopy rangeStr
  if rangeStr = [] then some (true, stored)
  else if ¬ startsWith rangeStr (bytes "bytes=") then some (false, stored)
  else
    let rangeStr := rangeStr.drop 6
    if (find rangeStr (bytes "--")).isSome then some (false, stored)
    else if rangeStr = bytes "-" then some (true, stored ++ [(0, i64 (fileSize - 1))])
    else parseLoop fileSize (split rangeStr (bytes ",")) stored

/-- What a result says of the vector. -/
def outcome : Except ParseError (List (Int × Int)) → Option (Bool × List (Int × Int))
  | .ok ranges => some (true, ranges)
  | .error .refused => some (false, [])
  | .error .undefined => none

/-- The loop appends the intervals of the pieces, up to the first one that gives none. -/
theorem parseLoop_eq (fileSize : Nat) (ranges : List Bytes) (stored : List (Int × Int)) :
    parseLoop fileSize ranges stored =
      outcome ((ranges.mapM (parseRange fileSize)).map (stored ++ ·)) := by
  induction ranges generalizing stored with
  | nil => simp [parseLoop, outcome, Except.map, pure, Except.pure]
  | cons range ranges ih =>
    rw [parseLoop, List.mapM_cons]
    cases hrange : parseRange fileSize range with
    | error e => cases e <;> rfl
    | ok pair =>
      dsimp only
      rw [ih]
      cases ranges.mapM (parseRange fileSize) with
      | error e => rfl
      | ok pairs => simp [outcome, Except.map, bind, Except.bind, pure, Except.pure]

/-- **The vector holds what `parse` gives, and nothing where it refuses.** -/
theorem parseInto_eq (stored : List (Int × Int)) (rangeStr : Bytes) (fileSize : Nat) :
    parseInto stored rangeStr fileSize = outcome (parse rangeStr fileSize) := by
  simp only [parseInto, parse, List.drop_length]
  split
  · rfl
  · split
    · rfl
    · split
      · rfl
      · split
        · rfl
        · rw [parseLoop_eq]
          cases (split ((trimCopy rangeStr).drop 6) (bytes ",")).mapM (parseRange fileSize) with
          | error e => rfl
          | ok pairs => rfl

/-! ## A piece between commas -/

/-- The number in front of the dash, and `-1` where nothing but white space stands there. -/
def startOf (first : Bytes) : Except ParseError Int :=
  if trimCopy first = [] then .ok (-1) else number (trimCopy first)

/-- The number behind the dash, and the last byte of the file, as an `int`, where there is none. -/
def finOf (fileSize : Nat) : List Bytes → Except ParseError Int
  | [] => .ok (i32 (fileSize - 1))
  | second :: _ =>
    if trimCopy second = [] then .ok (i32 (fileSize - 1)) else number (trimCopy second)

/-- The two numbers that a piece is read as. -/
def ends (fileSize : Nat) (range : Bytes) : Except ParseError (Int × Int) :=
  match split range (bytes "-") with
  | [] => .error .undefined
  | first :: rest =>
    match startOf first, finOf fileSize rest with
    | .error e, _ => .error e
    | .ok _, .error e => .error e
    | .ok start, .ok fin => .ok (start, fin)

/-- A piece with these two numbers is out of range. -/
def OutOfRange (fileSize : Nat) (start fin : Int) : Prop := start > 0 ∧ (start ≥ fileSize ∨ start = fin)

instance (fileSize : Nat) (start fin : Int) : Decidable (OutOfRange fileSize start fin) :=
  inferInstanceAs (Decidable (_ ∧ _))

/-- The interval that two numbers give if they are not out of range. -/
def settle (fileSize : Nat) (start fin : Int) : Int × Int :=
  let fin := if fin > 0 ∧ fin ≥ fileSize then i32 (fileSize - 1) else fin
  if start = -1 then (i32 (fileSize - fin), i32 (fileSize - 1)) else (start, fin)

/-- A piece is read as its two numbers, refused if they are out of range, and settled otherwise. -/
theorem parseRange_eq (fileSize : Nat) (range : Bytes) :
    parseRange fileSize range =
      match ends fileSize range with
      | .error e => .error e
      | .ok (start, fin) =>
        if OutOfRange fileSize start fin then .error .refused else .ok (settle fileSize start fin) := by
  unfold parseRange ends
  cases split range (bytes "-") with
  | nil => rfl
  | cons first rest =>
    have hlast : ∀ start fin : Int,
        (if start > 0 ∧ (start ≥ fileSize ∨ start = fin) then .error .refused
          else
            let fin := if fin > 0 ∧ fin ≥ fileSize then i32 (fileSize - 1) else fin
            if start = -1 then .ok (i32 (fileSize - fin), i32 (fileSize - 1)) else .ok (start, fin) :
          Except ParseError (Int × Int)) =
        if OutOfRange fileSize start fin then .error .refused
        else .ok (settle fileSize start fin) := by
      intro start fin
      refine if_congr Iff.rfl rfl ?_
      unfold settle
      dsimp only
      split <;> rfl
    simp only [hlast]
    unfold startOf
    by_cases hfirst : trimCopy first = []
    · simp only [if_pos hfirst]
      cases rest with
      | nil => rfl
      | cons second rest =>
        by_cases hsecond : trimCopy second = []
        · simp only [finOf, if_pos hsecond]
          rfl
        · simp only [finOf, if_neg hsecond]
          cases number (trimCopy second) <;> rfl
    · simp only [if_neg hfirst]
      cases number (trimCopy first) with
      | error e => rfl
      | ok start =>
        cases rest with
        | nil => rfl
        | cons second rest =>
          by_cases hsecond : trimCopy second = []
          · simp only [finOf, if_pos hsecond]
            rfl
          · simp only [finOf, if_neg hsecond]
            cases number (trimCopy second) <;> rfl

/-! ## The pieces in a row -/

section
variable {α β ε : Type} {f : α → Except ε β} {l : List α}

/-- A traversal that succeeds has a result for each element, and no others. -/
theorem mem_of_mapM_ok {rs : List β} (h : l.mapM f = .ok rs) :
    (∀ r ∈ rs, ∃ a ∈ l, f a = .ok r) ∧ ∀ a ∈ l, ∃ r ∈ rs, f a = .ok r := by
  induction l generalizing rs with
  | nil =>
    cases h
    simp
  | cons a l ih =>
    rw [List.mapM_cons] at h
    cases ha : f a with
    | error e =>
      rw [ha] at h
      cases h
    | ok r =>
      rw [ha] at h
      cases hl : l.mapM f with
      | error e =>
        rw [hl] at h
        cases h
      | ok rs' =>
        rw [hl] at h
        cases h
        obtain ⟨hfrom, hto⟩ := ih hl
        constructor
        · intro x hx
          rcases List.mem_cons.1 hx with rfl | hx
          · exact ⟨a, List.mem_cons_self, ha⟩
          · obtain ⟨b, hb, hfb⟩ := hfrom x hx
            exact ⟨b, List.mem_cons_of_mem _ hb, hfb⟩
        · intro b hb
          rcases List.mem_cons.1 hb with rfl | hb
          · exact ⟨r, List.mem_cons_self, ha⟩
          · obtain ⟨x, hx, hfb⟩ := hto b hb
            exact ⟨x, List.mem_cons_of_mem _ hx, hfb⟩

/-- A traversal fails as the first element does that fails. -/
theorem mapM_eq_error_iff {e : ε} :
    l.mapM f = .error e ↔
      ∃ front a back, l = front ++ a :: back ∧ (∀ b ∈ front, ∃ r, f b = .ok r) ∧ f a = .error e := by
  induction l with
  | nil =>
    constructor
    · intro h
      cases h
    · rintro ⟨front, a, back, h, -⟩
      cases front <;> cases h
  | cons a l ih =>
    rw [List.mapM_cons]
    constructor
    · intro h
      cases ha : f a with
      | error e' =>
        rw [ha] at h
        cases h
        exact ⟨[], a, l, rfl, by simp, ha⟩
      | ok r =>
        rw [ha] at h
        cases hl : l.mapM f with
        | ok rs =>
          rw [hl] at h
          cases h
        | error e' =>
          rw [hl] at h
          cases h
          obtain ⟨front, b, back, rfl, hfront, hb⟩ := ih.1 hl
          refine ⟨a :: front, b, back, rfl, fun c hc => ?_, hb⟩
          rcases List.mem_cons.1 hc with rfl | hc
          · exact ⟨r, ha⟩
          · exact hfront c hc
    · rintro ⟨front, b, back, h, hfront, hb⟩
      cases front with
      | nil =>
        cases h
        rw [hb]
        rfl
      | cons c front =>
        cases h
        obtain ⟨r, hr⟩ := hfront a List.mem_cons_self
        have hrest := ih.2 ⟨front, b, back, rfl, fun c hc => hfront c (List.mem_cons_of_mem _ hc), hb⟩
        rw [hr, hrest]
        rfl

end

/-! ## The numbers of a piece -/

/-- An `int` lies between its bounds. -/
theorem i32_bounds (x : Int) : -2 ^ 31 ≤ i32 x ∧ i32 x < 2 ^ 31 := by
  unfold i32
  rw [Int.bmod_def]
  split <;> omega

/-- The number that decimal digits stand for. -/
def decimal (digits : Bytes) : Nat := digits.foldl (fun n c => n * 10 + (c.toNat - 48)) 0

/-- The conversion to `int` changes a number by a multiple of `2 ^ 32`. -/
theorem exists_i32_eq (x : Int) : ∃ k : Int, i32 x = x + 2 ^ 32 * k := by
  unfold i32
  rw [Int.bmod_def]
  split
  · exact ⟨-(x / 2 ^ 32), by omega⟩
  · exact ⟨-(x / 2 ^ 32) - 1, by omega⟩

/-- Summing up the digits as integers or as naturals gives the same number. -/
theorem foldl_digits (digits : Bytes) (n : Nat) :
    digits.foldl (fun (n : Int) c => n * 10 + (c.toNat - 48 : Nat)) n =
      (digits.foldl (fun n c => n * 10 + (c.toNat - 48)) n : Nat) := by
  induction digits generalizing n with
  | nil => rfl
  | cons c digits ih =>
    rw [List.foldl_cons, List.foldl_cons, ← ih]
    congr 1

/-- A text that does not begin with a dash is read by its digits in front. -/
theorem fromChars_eq {text : Bytes} (h : text.head? ≠ some 45) :
    fromChars text =
      if text.takeWhile isDigit = [] then none
      else if decimal (text.takeWhile isDigit) < 2 ^ 31 then some (decimal (text.takeWhile isDigit) : Int)
      else none := by
  have hfold := foldl_digits (text.takeWhile isDigit) 0
  simp only [fromChars, if_neg h]
  refine if_congr Iff.rfl rfl ?_
  rw [Int.natCast_zero] at hfold
  rw [hfold]
  refine if_congr ?_ rfl rfl
  unfold decimal
  omega

/-- A text without a dash is read as a number that is not negative. -/
theorem number_ok {text : Bytes} {n : Int} (hdash : (45 : UInt8) ∉ text) (h : number text = .ok n) :
    0 ≤ n ∧ n < 2 ^ 31 := by
  have hhead : text.head? ≠ some 45 := fun hhead => hdash (List.mem_of_head? hhead)
  rw [number, fromChars_eq hhead] at h
  split at h
  · next m hm =>
    cases h
    split at hm
    · cases hm
    · split at hm
      · cases hm
        omega
      · cases hm
  · cases h

/-- A number that cannot be read is refused. -/
theorem number_error {text : Bytes} {e : ParseError} (h : number text = .error e) : e = .refused := by
  unfold number at h
  split at h
  · cases h
  · cases h
    rfl

/-- A part between dashes has no dash in it. -/
theorem mem_of_mem_trimCopy_of_split {range p : Bytes} (hp : p ∈ split range (bytes "-")) :
    (45 : UInt8) ∉ trimCopy p :=
  fun h => not_mem_of_mem_split hp (mem_of_mem_trimCopy h)

/-- The number in front of the dash. -/
theorem startOf_ok {range first : Bytes} {start : Int} (hp : first ∈ split range (bytes "-"))
    (h : startOf first = .ok start) : -1 ≤ start ∧ start < 2 ^ 31 := by
  unfold startOf at h
  split at h
  · cases h
    omega
  · have hbounds := number_ok (mem_of_mem_trimCopy_of_split hp) h
    omega

/-- The number behind the dash. -/
theorem finOf_ok {fileSize : Nat} {range : Bytes} {rest : List Bytes} {fin : Int}
    (hp : ∀ p ∈ rest, p ∈ split range (bytes "-")) (h : finOf fileSize rest = .ok fin) :
    0 ≤ fin ∧ fin < 2 ^ 31 ∨ fin = i32 (fileSize - 1) := by
  cases rest with
  | nil =>
    cases h
    exact .inr rfl
  | cons second rest =>
    rw [finOf] at h
    split at h
    · cases h
      exact .inr rfl
    · exact .inl (number_ok (mem_of_mem_trimCopy_of_split (hp second List.mem_cons_self)) h)

/-- The two numbers of a piece. -/
theorem ends_ok {fileSize : Nat} {range : Bytes} {start fin : Int}
    (h : ends fileSize range = .ok (start, fin)) :
    -1 ≤ start ∧ start < 2 ^ 31 ∧ (0 ≤ fin ∧ fin < 2 ^ 31 ∨ fin = i32 (fileSize - 1)) := by
  unfold ends at h
  split at h
  · cases h
  · next first rest hsplit =>
    split at h
    · cases h
    · cases h
    · next hstart hfin =>
      cases h
      have hmem : ∀ p ∈ first :: rest, p ∈ split range (bytes "-") := fun p hp => hsplit ▸ hp
      have hs := startOf_ok (hmem first List.mem_cons_self) hstart
      exact ⟨hs.1, hs.2, finOf_ok (fun p hp => hmem p (List.mem_cons_of_mem _ hp)) hfin⟩

/-- Only the empty piece has no first part to read. -/
theorem ends_eq_undefined_iff {fileSize : Nat} {range : Bytes} :
    ends fileSize range = .error .undefined ↔ range = [] := by
  rw [← split_singleton_eq_nil_iff (c := 45)]
  unfold ends
  constructor
  · intro h
    split at h
    · assumption
    · next first rest _ =>
      split at h
      · next hstart =>
        cases h
        unfold startOf at hstart
        split at hstart
        · cases hstart
        · cases number_error hstart
      · next hfin =>
        cases h
        cases rest with
        | nil => cases hfin
        | cons second rest =>
          rw [finOf] at hfin
          split at hfin
          · cases hfin
          · cases number_error hfin
      · cases h
  · intro h
    rw [show bytes "-" = [45] from rfl, h]

/-! ## Which elements are taken -/

/-- The parser refuses the header at this piece. -/
def Refused (fileSize : Nat) (range : Bytes) : Prop :=
  match ends fileSize range with
  | .error .refused => True
  | .error .undefined => False
  | .ok (start, fin) => OutOfRange fileSize start fin

/-- A piece is refused exactly under `Refused`. -/
theorem parseRange_eq_refused_iff {fileSize : Nat} {range : Bytes} :
    parseRange fileSize range = .error .refused ↔ Refused fileSize range := by
  rw [parseRange_eq, Refused]
  rcases ends fileSize range with (_ | _) | ⟨start, fin⟩
  · simp
  · simp
  · dsimp only
    split
    · next h => simp [h]
    · next h => simp [h]

/-- The read of a missing first part happens exactly for the empty piece. -/
theorem parseRange_eq_undefined_iff {fileSize : Nat} {range : Bytes} :
    parseRange fileSize range = .error .undefined ↔ range = [] := by
  rw [parseRange_eq, ← @ends_eq_undefined_iff fileSize]
  rcases ends fileSize range with (_ | _) | ⟨start, fin⟩
  · simp
  · simp
  · dsimp only
    split <;> simp

/-- The pieces between commas that the loop goes through; none where there is no loop. -/
def listed (rangeStr : Bytes) : List Bytes :=
  let text := trimCopy rangeStr
  if text = [] ∨ ¬ startsWith text (bytes "bytes=") ∨ (find (text.drop 6) (bytes "--")).isSome ∨
      text.drop 6 = bytes "-" then []
  else split (text.drop 6) (bytes ",")

/-- What `parse` does: it answers without a loop, or goes through the pieces. -/
theorem parse_cases (rangeStr : Bytes) (fileSize : Nat) :
    trimCopy rangeStr = bytes "bytes=-" ∧ listed rangeStr = [] ∧
        parse rangeStr fileSize = .ok [(0, i64 (fileSize - 1))] ∨
      trimCopy rangeStr ≠ bytes "bytes=-" ∧ listed rangeStr = [] ∧
        (parse rangeStr fileSize = .ok [] ∨ parse rangeStr fileSize = .error .refused) ∨
      trimCopy rangeStr ≠ bytes "bytes=-" ∧
        parse rangeStr fileSize = (listed rangeStr).mapM (parseRange fileSize) := by
  by_cases hlone : trimCopy rangeStr = bytes "bytes=-"
  · refine .inl ⟨hlone, ?_, ?_⟩
    · simp only [listed, hlone]
      rfl
    · simp only [parse, hlone]
      rfl
  right
  by_cases hblank : trimCopy rangeStr = []
  · exact .inl ⟨hlone, by simp [listed, hblank], .inl (by simp [parse, hblank])⟩
  by_cases hprefix : startsWith (trimCopy rangeStr) (bytes "bytes=") = true
  · by_cases hdashes : (find ((trimCopy rangeStr).drop 6) (bytes "--")).isSome = true
    · refine .inl ⟨hlone, if_pos (.inr (.inr (.inl hdashes))), .inr ?_⟩
      simp only [parse]
      rw [if_neg hblank, if_neg (not_not.2 hprefix), if_pos hdashes]
    · have hdash : (trimCopy rangeStr).drop 6 ≠ bytes "-" := by
        intro hdash
        obtain ⟨rest, hrest⟩ := startsWith_iff.1 hprefix
        rw [← hrest] at hdash hlone
        exact hlone (congrArg (bytes "bytes=" ++ ·) hdash)
      refine .inr ⟨hlone, ?_⟩
      simp only [parse, listed]
      rw [if_neg hblank, if_neg (not_not.2 hprefix), if_neg hdashes, if_neg hdash, if_neg]
      rintro (h | h | h | h)
      · exact hblank h
      · exact h hprefix
      · exact hdashes h
      · exact hdash h
  · refine .inl ⟨hlone, if_pos (.inr (.inl hprefix)), .inr ?_⟩
    simp only [parse]
    rw [if_neg hblank, if_pos hprefix]

/-- Every empty piece stands behind one at which the parser refuses the header. -/
def EmptyBehindRefused (fileSize : Nat) (pieces : List Bytes) : Prop :=
  ∀ front back, pieces = front ++ [] :: back → ∃ range ∈ front, Refused fileSize range

/-- Whether the loop gets to an empty piece. -/
theorem mapM_ne_undefined_iff {fileSize : Nat} {pieces : List Bytes} :
    pieces.mapM (parseRange fileSize) ≠ .error .undefined ↔ EmptyBehindRefused fileSize pieces := by
  constructor
  · rintro hdefined front back rfl
    cases hrun : (front ++ [] :: back).mapM (parseRange fileSize) with
    | ok rs =>
      obtain ⟨r, -, hr⟩ := (mem_of_mapM_ok hrun).2 [] (List.mem_append_right _ List.mem_cons_self)
      rw [parseRange_eq_undefined_iff.2 rfl] at hr
      cases hr
    | error e =>
      cases e with
      | undefined => exact absurd hrun hdefined
      | refused =>
        obtain ⟨front', a, back', heq, hfront', ha⟩ := mapM_eq_error_iff.1 hrun
        -- the piece that is refused stands before the empty one
        have hmem : a ∈ front := by
          rcases List.append_eq_append_iff.1 heq with ⟨more, rfl, htail⟩ | ⟨more, rfl, htail⟩
          · cases more with
            | nil =>
              cases htail
              rw [parseRange_eq_undefined_iff.2 rfl] at ha
              cases ha
            | cons c more =>
              cases htail
              obtain ⟨r, hr⟩ := hfront' [] (List.mem_append_right _ List.mem_cons_self)
              rw [parseRange_eq_undefined_iff.2 rfl] at hr
              cases hr
          · cases more with
            | nil =>
              cases htail
              rw [parseRange_eq_undefined_iff.2 rfl] at ha
              cases ha
            | cons c more =>
              cases htail
              exact List.mem_append_right _ List.mem_cons_self
        exact ⟨a, hmem, parseRange_eq_refused_iff.1 ha⟩
  · intro hbehind hrun
    obtain ⟨front, a, back, rfl, hfront, ha⟩ := mapM_eq_error_iff.1 hrun
    cases parseRange_eq_undefined_iff.1 ha
    obtain ⟨range, hmem, hrefused⟩ := hbehind front back rfl
    obtain ⟨r, hr⟩ := hfront range hmem
    rw [parseRange_eq_refused_iff.2 hrefused] at hr
    cases hr

end HttpRanges

open HttpRanges in
/-- **`parse` takes no element of an empty vector** exactly when each empty piece between commas stands
behind a piece that ends the loop. -/
theorem http_ranges_defined_iff (rangeStr : Bytes) (fileSize : Nat) :
    parse rangeStr fileSize ≠ .error .undefined ↔
      EmptyBehindRefused fileSize (listed rangeStr) := by
  have hnil : EmptyBehindRefused fileSize [] := by
    intro front back h
    cases front <;> cases h
  rcases parse_cases rangeStr fileSize with ⟨-, hlisted, hparse⟩ | ⟨-, hlisted, hparse | hparse⟩ |
    ⟨-, hparse⟩
  · rw [hlisted, hparse]
    simp [hnil]
  · rw [hlisted, hparse]
    simp [hnil]
  · rw [hlisted, hparse]
    simp [hnil]
  · rw [hparse]
    exact mapM_ne_undefined_iff

/-- Two commas with nothing between them. -/
theorem http_ranges_defined_commas :
    HttpRanges.parse (bytes "bytes=0-1,,2-3") 10 = .error .undefined := by
  decide

namespace HttpRanges

/-! ## Which pairs are stored -/

/-- A pair is an interval of the file. -/
def Stored (fileSize : Nat) (pair : Int × Int) : Prop :=
  0 ≤ pair.1 ∧ pair.1 ≤ pair.2 ∧ pair.2 < fileSize

/-- Two numbers that are not out of range give an interval of the file: the first is in the file and not
above the second, or there is none and the second is a length of one at least, which is less than that of
the file, or not, where the file has two bytes at least. The last byte counts as an `int`. -/
def EndsInside (fileSize : Nat) (start fin : Int) : Prop :=
  if start = -1 then
    1 ≤ fin ∧ (fin < fileSize ∧ fin ≤ i32 (fileSize - 1) + 1 ∨ fileSize ≤ fin ∧ 2 ≤ fileSize)
  else start < fileSize ∧ start ≤ fin

/-- What is made of two numbers lies in the file exactly when the numbers say so. -/
theorem stored_settle_iff {fileSize : Nat} {start fin : Int} (hstart : -1 ≤ start)
    (hfin : 0 ≤ fin ∧ fin < 2 ^ 31 ∨ fin = i32 (fileSize - 1)) :
    Stored fileSize (settle fileSize start fin) ↔ EndsInside fileSize start fin := by
  have hlast := i32_bounds (fileSize - 1)
  obtain ⟨k, hk⟩ := exists_i32_eq (fileSize - 1)
  unfold Stored settle EndsInside
  dsimp only
  generalize i32 (fileSize - 1) = last at hfin hlast hk ⊢
  by_cases hnone : start = -1
  · rw [if_pos hnone, if_pos hnone]
    by_cases hclamp : fin > 0 ∧ fin ≥ fileSize
    · -- the length is the size or more: it becomes the last byte, and the first one is the second
      rw [if_pos hclamp]
      have hfirst := i32_bounds (fileSize - last)
      obtain ⟨j, hj⟩ := exists_i32_eq (fileSize - last)
      generalize i32 (fileSize - last) = first at hfirst hj ⊢
      dsimp only
      omega
    · rw [if_neg hclamp]
      have hfirst := i32_bounds (fileSize - fin)
      obtain ⟨j, hj⟩ := exists_i32_eq (fileSize - fin)
      generalize i32 (fileSize - fin) = first at hfirst hj ⊢
      dsimp only
      omega
  · rw [if_neg hnone, if_neg hnone]
    by_cases hclamp : fin > 0 ∧ fin ≥ fileSize
    · rw [if_pos hclamp]
      dsimp only
      omega
    · rw [if_neg hclamp]
      dsimp only
      omega

/-- The piece has no numbers, or numbers that are out of range. -/
def Stops (fileSize : Nat) (range : Bytes) : Prop :=
  ∀ start fin, ends fileSize range = .ok (start, fin) → OutOfRange fileSize start fin

/-- The piece has numbers that give an interval of the file. -/
def Inside (fileSize : Nat) (range : Bytes) : Prop :=
  ∃ start fin, ends fileSize range = .ok (start, fin) ∧ EndsInside fileSize start fin

/-- A piece gives an interval exactly when it has two numbers that are not out of range. -/
theorem parseRange_eq_ok_iff {fileSize : Nat} {range : Bytes} {pair : Int × Int} :
    parseRange fileSize range = .ok pair ↔
      ∃ start fin, ends fileSize range = .ok (start, fin) ∧ ¬ OutOfRange fileSize start fin ∧
        pair = settle fileSize start fin := by
  rw [parseRange_eq]
  rcases ends fileSize range with e | ⟨start, fin⟩
  · simp
  · dsimp only
    split
    · next h => simp [h]
    · next h => simp [h, eq_comm]

/-- A piece stops the loop, or gives a pair. -/
theorem stops_iff {fileSize : Nat} {range : Bytes} :
    Stops fileSize range ↔ ¬ ∃ pair, parseRange fileSize range = .ok pair := by
  constructor
  · rintro hstops ⟨pair, hpair⟩
    obtain ⟨start, fin, hends, hrange, -⟩ := parseRange_eq_ok_iff.1 hpair
    exact hrange (hstops start fin hends)
  · intro hnone start fin hends
    by_contra hrange
    exact hnone ⟨_, parseRange_eq_ok_iff.2 ⟨start, fin, hends, hrange, rfl⟩⟩

/-- The pair that a piece gives lies in the file exactly when the piece says so. -/
theorem stored_iff_inside {fileSize : Nat} {range : Bytes} {pair : Int × Int}
    (h : parseRange fileSize range = .ok pair) : Stored fileSize pair ↔ Inside fileSize range := by
  obtain ⟨start, fin, hends, -, rfl⟩ := parseRange_eq_ok_iff.1 h
  obtain ⟨hstart, -, hfin⟩ := ends_ok hends
  rw [stored_settle_iff hstart hfin, Inside, hends]
  constructor
  · exact fun h => ⟨start, fin, rfl, h⟩
  · rintro ⟨_, _, heq, h⟩
    cases heq
    exact h

/-- What the text is to give: the file is not empty and not too large for a pair if a lone dash asks for
all of it, and otherwise some piece ends the loop, or every piece gives an interval of the file. -/
def AllInside (rangeStr : Bytes) (fileSize : Nat) : Prop :=
  if trimCopy rangeStr = bytes "bytes=-" then 1 ≤ fileSize ∧ fileSize ≤ 2 ^ 63
  else (∃ range ∈ listed rangeStr, Stops fileSize range) ∨
    ∀ range ∈ listed rangeStr, Inside fileSize range

/-- What is asked of the vector after `parse`, in terms of its result. -/
theorem outcome_stored_iff {fileSize : Nat} (result : Except ParseError (List (Int × Int))) :
    (∀ ok ranges, outcome result = some (ok, ranges) →
      if ok then ∀ pair ∈ ranges, Stored fileSize pair else ranges = []) ↔
      ∀ ranges, result = .ok ranges → ∀ pair ∈ ranges, Stored fileSize pair := by
  rcases result with (_ | _) | ranges
  · simp [outcome]
  · simp [outcome]
  · simp [outcome]

/-- The pairs of a loop. -/
theorem mapM_stored_iff {fileSize : Nat} {pieces : List Bytes} :
    (∀ ranges, pieces.mapM (parseRange fileSize) = .ok ranges →
      ∀ pair ∈ ranges, Stored fileSize pair) ↔
      (∃ range ∈ pieces, Stops fileSize range) ∨ ∀ range ∈ pieces, Inside fileSize range := by
  cases hrun : pieces.mapM (parseRange fileSize) with
  | error e =>
    obtain ⟨front, a, back, rfl, -, ha⟩ := mapM_eq_error_iff.1 hrun
    refine iff_of_true (fun ranges h => by cases h) (.inl ⟨a, by simp, stops_iff.2 ?_⟩)
    rintro ⟨pair, hpair⟩
    rw [ha] at hpair
    cases hpair
  | ok rs =>
    obtain ⟨hfrom, hto⟩ := mem_of_mapM_ok hrun
    constructor
    · intro h
      refine .inr fun range hrange => ?_
      obtain ⟨pair, hpair, hread⟩ := hto range hrange
      exact (stored_iff_inside hread).1 (h rs rfl pair hpair)
    · rintro (⟨range, hrange, hstops⟩ | h) ranges heq pair hpair
      · obtain ⟨pair, -, hread⟩ := hto range hrange
        exact absurd ⟨pair, hread⟩ (stops_iff.1 hstops)
      · cases heq
        obtain ⟨range, hrange, hread⟩ := hfrom pair hpair
        exact (stored_iff_inside hread).2 (h range hrange)

end HttpRanges

open HttpRanges in
/-- **What `parse` stores lies in the file, and nothing is stored where it refuses**, exactly for these
texts; `stored` is what the vector held before, and the size is a `std::size_t`. -/
theorem http_ranges_inside_iff (stored : List (Int × Int)) (rangeStr : Bytes) {fileSize : Nat}
    (hsize : fileSize < 2 ^ 64) :
    (∀ ok ranges, parseInto stored rangeStr fileSize = some (ok, ranges) →
      if ok then ∀ pair ∈ ranges, Stored fileSize pair else ranges = []) ↔
      AllInside rangeStr fileSize := by
  rw [parseInto_eq, outcome_stored_iff, AllInside]
  rcases parse_cases rangeStr fileSize with ⟨hlone, -, hparse⟩ | ⟨hlone, hlisted, hparse⟩ |
    ⟨hlone, hparse⟩
  · have hlast : 0 ≤ i64 (fileSize - 1) ∧ i64 (fileSize - 1) < fileSize ↔
        1 ≤ fileSize ∧ fileSize ≤ 2 ^ 63 := by
      unfold i64
      rw [Int.bmod_def]
      split <;> omega
    rw [hparse, if_pos hlone, ← hlast]
    simp [Stored]
  · rw [if_neg hlone, hlisted]
    rcases hparse with hparse | hparse <;> simp [hparse]
  · rw [hparse, if_neg hlone]
    exact mapM_stored_iff

/-- Two ranges of a file of ten bytes. -/
theorem http_ranges_inside_two :
    HttpRanges.parseInto [] (bytes "bytes=0-1, 4-") 10 = some (true, [(0, 1), (4, 9)]) ∧
      HttpRanges.Stored 10 (0, 1) ∧ HttpRanges.Stored 10 (4, 9) := by
  have hparse : HttpRanges.parseInto [] (bytes "bytes=0-1, 4-") 10 = some (true, [(0, 1), (4, 9)]) := by
    decide
  have hlisted : HttpRanges.listed (bytes "bytes=0-1, 4-") = [bytes "0-1", bytes "4-"] := by decide
  have hstored := (http_ranges_inside_iff [] (bytes "bytes=0-1, 4-") (by decide)).2
    (.inr fun range hrange => by
      rw [hlisted] at hrange
      rcases List.mem_cons.1 hrange with rfl | hrange
      · exact ⟨0, 1, rfl, by decide, by decide⟩
      · cases List.mem_singleton.1 hrange
        exact ⟨4, 9, rfl, by decide, by decide⟩) true [(0, 1), (4, 9)] hparse
  rw [if_pos rfl] at hstored
  exact ⟨hparse, hstored _ List.mem_cons_self,
    hstored _ (List.mem_cons_of_mem _ List.mem_cons_self)⟩

/-- A range in the wrong order in a file of ten bytes. -/
theorem http_ranges_inside_reversed :
    HttpRanges.parseInto [] (bytes "bytes=5-3") 10 = some (true, [(5, 3)]) ∧
      ¬ HttpRanges.Stored 10 (5, 3) := by
  refine ⟨by decide, ?_⟩
  rintro ⟨-, h, -⟩
  cases h

end Httplib
