import Httplib.Html.RangeHeader
import Mathlib.Data.List.Chain

/-!
# Range headers of the grammar

`http_ranges_rfc_iff` says for which lists of byte-range specs `http_ranges::parse` comes to the
intervals that RFC 7233 gives them. The specs are the grammar's own (`ByteRange`); `parse_text` reads the
header back spec by spec.
-/

namespace Httplib

/-- A number of a Range header: one digit or more, zeros in front included. -/
structure Numeral where
  text : Bytes
  ne_nil : text ≠ []
  digits : ∀ c ∈ text, isDigit c = true

/-- The number. -/
def Numeral.value (n : Numeral) : Nat := HttpRanges.decimal n.text

/-- A byte-range spec: `first-last`, `first-` or `-suffix`. -/
inductive ByteRange where
  | between (first last : Numeral)
  | from (first : Numeral)
  | suffix (length : Numeral)

namespace ByteRange

/-- How a spec is written. -/
def text : ByteRange → Bytes
  | between first last => first.text ++ 45 :: last.text
  | .from first => first.text ++ [45]
  | suffix length => 45 :: length.text

/-- The spec is one of the grammar: its ends are in order, and a suffix is not empty. -/
def Valid : ByteRange → Prop
  | between first last => first.value ≤ last.value
  | .from _ => True
  | suffix length => 0 < length.value

/-- The file has a byte that the spec asks for. -/
def Satisfiable (fileSize : Nat) : ByteRange → Prop
  | between first _ | .from first => first.value < fileSize
  | suffix _ => True

/-- The interval that a spec stands for in a file. -/
def interval (fileSize : Nat) : ByteRange → Int × Int
  | between first last => (first.value, min last.value (fileSize - 1))
  | .from first => (first.value, fileSize - 1)
  | suffix length => (max 0 (fileSize - length.value), fileSize - 1)

/-- The parser comes to the interval: the numbers fit into an `int`, a single byte is asked for at the
start of the file only, an open interval does not begin at the last byte behind it, and a suffix is half
of the file. -/
def ReadRight (fileSize : Nat) : ByteRange → Prop
  | between first last =>
    first.value < 2 ^ 31 ∧ last.value < 2 ^ 31 ∧ (first.value = last.value → first.value = 0)
  | .from first => fileSize ≤ 2 ^ 31 ∧ (first.value + 1 = fileSize → first.value = 0)
  | suffix length => fileSize ≤ 2 ^ 31 ∧ 2 * length.value = fileSize ∧ length.value ≠ 1

instance : (spec : ByteRange) → Decidable spec.Valid
  | between first last => inferInstanceAs (Decidable (first.value ≤ last.value))
  | .from _ => inferInstanceAs (Decidable True)
  | suffix length => inferInstanceAs (Decidable (0 < length.value))

instance (fileSize : Nat) : (spec : ByteRange) → Decidable (spec.Satisfiable fileSize)
  | between first _ => inferInstanceAs (Decidable (first.value < fileSize))
  | .from first => inferInstanceAs (Decidable (first.value < fileSize))
  | suffix _ => inferInstanceAs (Decidable True)

instance (fileSize : Nat) : (spec : ByteRange) → Decidable (spec.ReadRight fileSize)
  | between first last => inferInstanceAs (Decidable (first.value < 2 ^ 31 ∧ last.value < 2 ^ 31 ∧
      (first.value = last.value → first.value = 0)))
  | .from first => inferInstanceAs (Decidable (fileSize ≤ 2 ^ 31 ∧
      (first.value + 1 = fileSize → first.value = 0)))
  | suffix length => inferInstanceAs (Decidable (fileSize ≤ 2 ^ 31 ∧ 2 * length.value = fileSize ∧
      length.value ≠ 1))

end ByteRange

/-- A Range header: specs with commas between them, and white space on either side of each comma. -/
structure RangeHeader where
  first : ByteRange
  /-- The white space in front of a comma and behind it, and the spec that follows. -/
  others : List (Bytes × Bytes × ByteRange)
  blank : ∀ other ∈ others, ∀ c ∈ other.1 ++ other.2.1, isSpace c = true

namespace RangeHeader

/-- The specs of a header. -/
def specs (header : RangeHeader) : List ByteRange := header.first :: header.others.map (·.2.2)

/-- What follows the first spec. -/
def othersText (others : List (Bytes × Bytes × ByteRange)) : Bytes :=
  others.flatMap fun other => other.1 ++ 44 :: (other.2.1 ++ other.2.2.text)

/-- How a header is written. -/
def text (header : RangeHeader) : Bytes :=
  bytes "bytes=" ++ (header.first.text ++ othersText header.others)

end RangeHeader

namespace HttpRanges

/-! ## One spec -/

/-- A digit is no white space, no comma and no dash. -/
theorem isSpace_of_isDigit {c : UInt8} (h : isDigit c = true) : isSpace c = false ∧ c ≠ 44 ∧ c ≠ 45 := by
  simp [isDigit, isSpace, UInt8.le_iff_toNat_le, ← UInt8.toNat_inj] at h ⊢
  omega

/-- A number is read as it stands, if it fits. -/
theorem number_text (n : Numeral) :
    number n.text = if n.value < 2 ^ 31 then .ok (n.value : Int) else .error .refused := by
  have hall : n.text.takeWhile isDigit = n.text := List.takeWhile_eq_self_iff.2 n.digits
  have hhead : n.text.head? ≠ some 45 := fun h =>
    (isSpace_of_isDigit (n.digits 45 (List.mem_of_head? h))).2.2 rfl
  rw [number, fromChars_eq hhead, hall, if_neg n.ne_nil, Numeral.value]
  split <;> simp_all

/-- There is nothing to trim from a numeral. -/
@[simp] theorem trimCopy_numeral (n : Numeral) : trimCopy n.text = n.text := by
  refine trimCopy_eq_self (fun c hc => ?_) fun c hc => ?_
  · exact (isSpace_of_isDigit (n.digits c (List.mem_of_head? hc))).1
  · exact (isSpace_of_isDigit (n.digits c (List.mem_of_getLast? hc))).1

/-- There is no dash in a numeral. -/
theorem dash_not_mem (n : Numeral) : (45 : UInt8) ∉ n.text := fun h =>
  (isSpace_of_isDigit (n.digits 45 h)).2.2 rfl

/-- No dash is dropped in front of a number. -/
theorem stripLeading_numeral (n : Numeral) (rest : Bytes) :
    stripLeading 45 (n.text ++ rest) = n.text ++ rest := by
  refine if_neg fun h => dash_not_mem n ?_
  rw [List.head?_append_of_ne_nil _ n.ne_nil] at h
  exact List.mem_of_head? h

/-- A number is not blank. -/
theorem startOf_text (n : Numeral) : startOf n.text = number n.text := by
  rw [startOf, trimCopy_numeral, if_neg n.ne_nil]

/-- A numeral behind the dash is read as a number. -/
theorem finOf_text (fileSize : Nat) (n : Numeral) : finOf fileSize [n.text] = number n.text := by
  rw [finOf, trimCopy_numeral, if_neg n.ne_nil]

/-- One number alone is read as a first byte. -/
theorem ends_of_split {range : Bytes} {n : Numeral} (h : split range (bytes "-") = [n.text])
    (fileSize : Nat) :
    ends fileSize range =
      if n.value < 2 ^ 31 then .ok ((n.value : Int), i32 (fileSize - 1)) else .error .refused := by
  rw [ends, h]
  simp only [startOf_text, number_text, finOf]
  by_cases hn : n.value < 2 ^ 31
  · simp only [if_pos hn]
  · simp only [if_neg hn]

/-- The two numbers of a spec; a suffix is read as a first byte. -/
theorem ends_text (fileSize : Nat) (spec : ByteRange) :
    ends fileSize spec.text =
      match spec with
      | .between first last =>
        if first.value < 2 ^ 31 ∧ last.value < 2 ^ 31 then .ok (first.value, last.value)
        else .error .refused
      | .from n | .suffix n =>
        if n.value < 2 ^ 31 then .ok (n.value, i32 (fileSize - 1)) else .error .refused := by
  cases spec with
  | between first last =>
    have hsplit : split (ByteRange.between first last).text (bytes "-") = [first.text, last.text] := by
      have hlast : dropLastEmpty [first.text, last.text] = [first.text, last.text] := by
        simp [dropLastEmpty, last.ne_nil]
      rw [ByteRange.text, show bytes "-" = [45] from rfl, split_singleton (by simp),
        stripLeading_numeral, List.splitOn_append_cons_self_of_not_mem (dash_not_mem first),
        List.splitOn_eq_singleton (dash_not_mem last)]
      simp [hlast]
    rw [ends, hsplit]
    simp only [startOf_text, finOf_text, number_text]
    by_cases hfirst : first.value < 2 ^ 31
    · by_cases hlast : last.value < 2 ^ 31
      · rw [if_pos hfirst, if_pos hlast, if_pos ⟨hfirst, hlast⟩]
      · rw [if_pos hfirst, if_neg hlast, if_neg fun h => hlast h.2]
    · rw [if_neg hfirst,
        if_neg (show ¬ (first.value < 2 ^ 31 ∧ last.value < 2 ^ 31) from fun h => hfirst h.1)]
  | «from» n =>
    have hsplit : split (ByteRange.from n).text (bytes "-") = [n.text] := by
      rw [ByteRange.text, show bytes "-" = [45] from rfl, split_singleton (by simp),
        stripLeading_numeral, List.splitOn_append_cons_self_of_not_mem (dash_not_mem n)]
      exact congrArg (· :: []) (trimCopy_numeral n)
    exact ends_of_split hsplit fileSize
  | suffix n =>
    have hsplit : split (ByteRange.suffix n).text (bytes "-") = [n.text] := by
      have hstrip : stripLeading 45 (45 :: n.text) = n.text := rfl
      rw [ByteRange.text, show bytes "-" = [45] from rfl, split_singleton (by simp), hstrip,
        List.splitOn_eq_singleton (dash_not_mem n)]
      exact congrArg (· :: []) (trimCopy_numeral n)
    exact ends_of_split hsplit fileSize

/-- What is made of a first number, which is not negative. -/
theorem settle_natCast {fileSize : Nat} (hsize : 1 ≤ fileSize) (start : Nat) {fin : Int}
    (hfin : fin < 2 ^ 31) : settle fileSize start fin = ((start : Int), min fin (fileSize - 1)) := by
  have hbounds := i32_bounds (fileSize - 1)
  obtain ⟨k, hk⟩ := exists_i32_eq (fileSize - 1)
  unfold settle
  generalize i32 (fileSize - 1) = last at hbounds hk ⊢
  dsimp only
  rw [if_neg (show ¬ (start : Int) = -1 by omega), Prod.mk.injEq]
  refine ⟨rfl, ?_⟩
  split <;> omega

/-- **One spec that the file has no byte of.** -/
theorem parseRange_unsatisfiable {fileSize : Nat} (hsize : 1 ≤ fileSize) {spec : ByteRange}
    (h : ¬ spec.Satisfiable fileSize) : parseRange fileSize spec.text = .error .refused := by
  rw [parseRange_eq, ends_text]
  cases spec with
  | between first last =>
    rw [ByteRange.Satisfiable, Nat.not_lt] at h
    dsimp only
    split
    · next hends =>
      split at hends <;> cases hends
      rfl
    · next start fin hends =>
      split at hends
      · cases hends
        exact if_pos ⟨by omega, .inl (by omega)⟩
      · cases hends
  | «from» n =>
    rw [ByteRange.Satisfiable, Nat.not_lt] at h
    dsimp only
    split
    · next hends =>
      split at hends <;> cases hends
      rfl
    · next start fin hends =>
      split at hends
      · cases hends
        exact if_pos ⟨by omega, .inl (by omega)⟩
      · cases hends
  | suffix n => exact absurd trivial h

/-- **One spec that the file has a byte of.** -/
theorem parseRange_satisfiable {fileSize : Nat} (hsize : 1 ≤ fileSize ∧ fileSize < 2 ^ 63)
    {spec : ByteRange} (hvalid : spec.Valid) (h : spec.Satisfiable fileSize) :
    parseRange fileSize spec.text = .ok (spec.interval fileSize) ↔ spec.ReadRight fileSize := by
  have hbounds := i32_bounds (fileSize - 1)
  obtain ⟨k, hk⟩ := exists_i32_eq (fileSize - 1)
  rw [parseRange_eq_ok_iff, ends_text]
  generalize i32 (fileSize - 1) = e at hbounds hk ⊢
  cases spec with
  | between first last =>
    simp only [ByteRange.Valid, ByteRange.Satisfiable, ByteRange.interval, ByteRange.ReadRight] at *
    constructor
    · rintro ⟨start, fin, hends, hrange, -⟩
      split at hends
      · next hfit =>
        cases hends
        unfold OutOfRange at hrange
        omega
      · cases hends
    · rintro ⟨hfirst, hlast, hsingle⟩
      refine ⟨first.value, last.value, if_pos ⟨hfirst, hlast⟩, ?_, ?_⟩
      · unfold OutOfRange
        omega
      · rw [settle_natCast hsize.1 _ (show (last.value : Int) < 2 ^ 31 by omega)]
  | «from» n =>
    simp only [ByteRange.Valid, ByteRange.Satisfiable, ByteRange.interval, ByteRange.ReadRight] at *
    constructor
    · rintro ⟨start, fin, hends, hrange, hpair⟩
      split at hends
      · next hfit =>
        cases hends
        rw [settle_natCast hsize.1 _ hbounds.2, Prod.mk.injEq] at hpair
        unfold OutOfRange at hrange
        omega
      · cases hends
    · rintro ⟨hfile, hsingle⟩
      refine ⟨n.value, e, if_pos (by omega), ?_, ?_⟩
      · unfold OutOfRange
        omega
      · rw [settle_natCast hsize.1 _ hbounds.2, Prod.mk.injEq]
        omega
  | suffix n =>
    simp only [ByteRange.Valid, ByteRange.Satisfiable, ByteRange.interval, ByteRange.ReadRight] at *
    constructor
    · rintro ⟨start, fin, hends, hrange, hpair⟩
      split at hends
      · next hfit =>
        cases hends
        rw [settle_natCast hsize.1 _ hbounds.2, Prod.mk.injEq] at hpair
        unfold OutOfRange at hrange
        omega
      · cases hends
    · rintro ⟨hfile, hhalf, hone⟩
      refine ⟨n.value, e, if_pos (by omega), ?_, ?_⟩
      · unfold OutOfRange
        omega
      · rw [settle_natCast hsize.1 _ hbounds.2, Prod.mk.injEq]
        omega

/-! ## The header -/

/-- A byte that neither is white space nor a comma: those of a spec. -/
theorem mem_text {spec : ByteRange} {c : UInt8} (h : c ∈ spec.text) :
    isSpace c = false ∧ c ≠ 44 := by
  have hdigit : ∀ (n : Numeral), c ∈ n.text → isSpace c = false ∧ c ≠ 44 := fun n hc =>
    have hfacts := isSpace_of_isDigit (n.digits c hc)
    ⟨hfacts.1, hfacts.2.1⟩
  have hdash : isSpace 45 = false ∧ (45 : UInt8) ≠ 44 := by decide
  cases spec with
  | between first last =>
    rcases List.mem_append.1 h with h | h
    · exact hdigit first h
    · rcases List.mem_cons.1 h with rfl | h
      · exact hdash
      · exact hdigit last h
  | «from» n =>
    rcases List.mem_append.1 h with h | h
    · exact hdigit n h
    · cases List.mem_singleton.1 h
      exact hdash
  | suffix n =>
    rcases List.mem_cons.1 h with rfl | h
    · exact hdash
    · exact hdigit n h

/-- No spec is written as nothing. -/
theorem text_ne_nil (spec : ByteRange) : spec.text ≠ [] := by
  cases spec <;> simp [ByteRange.text]

/-- A lone dash is no spec. -/
theorem two_le_length_text (spec : ByteRange) : 2 ≤ spec.text.length := by
  cases spec with
  | between first last =>
    have hpos := List.length_pos_of_ne_nil first.ne_nil
    rw [ByteRange.text, List.length_append, List.length_cons]
    omega
  | «from» n =>
    have hpos := List.length_pos_of_ne_nil n.ne_nil
    rw [ByteRange.text, List.length_append, List.length_singleton]
    omega
  | suffix n =>
    have hpos := List.length_pos_of_ne_nil n.ne_nil
    rw [ByteRange.text, List.length_cons]
    omega

/-- There is nothing to trim from a spec. -/
@[simp] theorem trimCopy_text (spec : ByteRange) : trimCopy spec.text = spec.text :=
  trimCopy_eq_self (fun _ hc => (mem_text (List.mem_of_head? hc)).1)
    fun _ hc => (mem_text (List.mem_of_getLast? hc)).1

/-- Not two dashes. -/
def notDashes (a b : UInt8) : Prop := ¬ (a = 45 ∧ b = 45)

/-- A text without a dash has no two of them in a row. -/
theorem isChain_notDashes {l : Bytes} (h : (45 : UInt8) ∉ l) : l.IsChain notDashes := by
  refine List.Pairwise.isChain (List.pairwise_of_forall_mem_list fun a ha b _ hab => ?_)
  exact h (hab.1 ▸ ha)

/-- There are no two dashes in a row in a spec. -/
theorem isChain_text (spec : ByteRange) : spec.text.IsChain notDashes := by
  have hcons : ∀ n : Numeral, (45 :: n.text).IsChain notDashes := by
    intro n
    refine List.isChain_cons.2 ⟨fun c hc hdashes => ?_, isChain_notDashes (dash_not_mem n)⟩
    exact dash_not_mem n (hdashes.2 ▸ List.mem_of_head? hc)
  have happend : ∀ (n : Numeral) (l : Bytes), l.IsChain notDashes →
      (n.text ++ l).IsChain notDashes := by
    intro n l hl
    refine List.isChain_append.2 ⟨isChain_notDashes (dash_not_mem n), hl, fun a ha b _ hdashes => ?_⟩
    exact dash_not_mem n (hdashes.1 ▸ List.mem_of_getLast? ha)
  cases spec with
  | between first last => exact happend first _ (hcons last)
  | «from» n => exact happend n _ (List.isChain_singleton _)
  | suffix n => exact hcons n

open RangeHeader (othersText)

variable {others : List (Bytes × Bytes × ByteRange)}

/-- The specs behind the first stand behind commas, with blanks on both sides. -/
@[simp] theorem othersText_cons (other : Bytes × Bytes × ByteRange) :
    othersText (other :: others) =
      other.1 ++ 44 :: (other.2.1 ++ (other.2.2.text ++ othersText others)) := by
  simp [othersText]

/-- There are no two dashes in a row in a header. -/
theorem isChain_othersText (hblank : ∀ other ∈ others, ∀ c ∈ other.1 ++ other.2.1, isSpace c = true)
    (spec : ByteRange) : (spec.text ++ othersText others).IsChain notDashes := by
  induction others generalizing spec with
  | nil => exact (List.append_nil spec.text).symm ▸ isChain_text spec
  | cons other others ih =>
    have hother := hblank other List.mem_cons_self
    have hspace : ∀ c, isSpace c = true → c ≠ 45 := by
      rintro c hc rfl
      revert hc
      decide
    -- what stands between two specs holds no dash
    have hdash : (45 : UInt8) ∉ other.1 ++ 44 :: other.2.1 := by
      intro h
      rcases List.mem_append.1 h with h | h
      · exact hspace _ (hother _ (List.mem_append_left _ h)) rfl
      · rcases List.mem_cons.1 h with h | h
        · cases h
        · exact hspace _ (hother _ (List.mem_append_right _ h)) rfl
    have hrest := ih (fun o ho => hblank o (List.mem_cons_of_mem _ ho)) other.2.2
    have hregroup : spec.text ++ othersText (other :: others) =
        spec.text ++ ((other.1 ++ 44 :: other.2.1) ++ (other.2.2.text ++ othersText others)) := by
      rw [othersText_cons]
      simp
    rw [hregroup]
    refine (isChain_text spec).append ((isChain_notDashes hdash).append hrest ?_) ?_
    · exact fun a ha b _ hdashes => hdash (hdashes.1 ▸ List.mem_of_getLast? ha)
    · intro a _ b hb hdashes
      rw [List.head?_append_of_ne_nil _ (by simp)] at hb
      exact hdash (hdashes.2 ▸ List.mem_of_head? hb)

/-- The pieces of a header are its specs. -/
theorem splitOn_othersText (hblank : ∀ other ∈ others, ∀ c ∈ other.1 ++ other.2.1, isSpace c = true)
    {front : Bytes} (hfront : ∀ c ∈ front, isSpace c = true) (spec : ByteRange) :
    ((front ++ (spec.text ++ othersText others)).splitOn 44).map trimCopy =
      spec.text :: others.map (·.2.2.text) := by
  have hspace : ∀ c, isSpace c = true → c ≠ 44 := by
    rintro c hc rfl
    revert hc
    decide
  induction others generalizing front spec with
  | nil =>
    have hcomma : (44 : UInt8) ∉ front ++ (spec.text ++ othersText []) := by
      rw [show othersText [] = [] from rfl, List.append_nil, List.mem_append]
      rintro (h | h)
      · exact hspace _ (hfront _ h) rfl
      · exact (mem_text h).2 rfl
    rw [List.splitOn_eq_singleton hcomma, List.map_singleton, List.map_nil,
      show othersText [] = [] from rfl, ← List.append_assoc]
    exact congrArg (· :: []) (trimCopy_blank hfront (by simp) (text_ne_nil spec) (trimCopy_text spec))
  | cons other others ih =>
    have hother := hblank other List.mem_cons_self
    have hcomma : (44 : UInt8) ∉ front ++ spec.text ++ other.1 := by
      rw [List.mem_append, List.mem_append]
      rintro ((h | h) | h)
      · exact hspace _ (hfront _ h) rfl
      · exact (mem_text h).2 rfl
      · exact hspace _ (hother _ (List.mem_append_left _ h)) rfl
    have hregroup : front ++ (spec.text ++ othersText (other :: others)) =
        front ++ spec.text ++ other.1 ++
          44 :: (other.2.1 ++ (other.2.2.text ++ othersText others)) := by
      rw [othersText_cons]
      simp
    rw [hregroup, List.splitOn_append_cons_self_of_not_mem hcomma, List.map_cons, List.map_cons,
      ih (fun o ho => hblank o (List.mem_cons_of_mem _ ho))
        (fun c hc => hother c (List.mem_append_right _ hc)) other.2.2]
    refine congrArg (· :: _) (trimCopy_blank hfront (fun c hc => ?_) (text_ne_nil spec)
      (trimCopy_text spec))
    exact hother c (List.mem_append_left _ hc)

/-- A header does not end in white space. -/
theorem getLast?_othersText (others : List (Bytes × Bytes × ByteRange)) (spec : ByteRange) :
    ∀ c ∈ (spec.text ++ othersText others).getLast?, isSpace c = false := by
  induction others generalizing spec with
  | nil =>
    intro c hc
    rw [show othersText [] = [] from rfl, List.append_nil] at hc
    exact (mem_text (List.mem_of_getLast? hc)).1
  | cons other others ih =>
    have hregroup : spec.text ++ othersText (other :: others) =
        (spec.text ++ other.1 ++ 44 :: other.2.1) ++ (other.2.2.text ++ othersText others) := by
      rw [othersText_cons]
      simp
    rw [hregroup, List.getLast?_append_of_ne_nil _ (by simp [text_ne_nil])]
    exact ih other.2.2

/-- **A header of the grammar is read spec by spec.** -/
theorem parse_text (header : RangeHeader) (fileSize : Nat) :
    parse header.text fileSize =
      (header.specs.map ByteRange.text).mapM (parseRange fileSize) := by
  have hne : ∀ rest, header.first.text ++ rest ≠ [] := by simp [text_ne_nil]
  have htrim : trimCopy header.text = header.text := by
    refine trimCopy_eq_self (fun c hc => ?_) fun c hc => ?_
    · cases hc
      decide
    · rw [RangeHeader.text, List.getLast?_append_of_ne_nil _ (hne _)] at hc
      exact getLast?_othersText header.others header.first c hc
  have hsplit : split (header.first.text ++ othersText header.others) (bytes ",") =
      header.specs.map ByteRange.text := by
    have hnone : ∀ c ∈ ([] : Bytes), isSpace c = true := by simp
    have hpieces := splitOn_othersText header.blank hnone header.first
    rw [List.nil_append] at hpieces
    have hstrip : stripLeading 44 (header.first.text ++ othersText header.others) =
        header.first.text ++ othersText header.others := by
      refine if_neg fun h => ?_
      rw [List.head?_append_of_ne_nil _ (text_ne_nil _)] at h
      exact (mem_text (List.mem_of_head? h)).2 rfl
    -- no piece is empty before it is trimmed either
    have hempty : [] ∉ (header.first.text ++ othersText header.others).splitOn 44 := by
      intro h
      have hmem := List.mem_map_of_mem (f := trimCopy) h
      rw [hpieces, trimCopy_nil] at hmem
      rcases List.mem_cons.1 hmem with h | h
      · exact text_ne_nil _ h.symm
      · obtain ⟨other, -, hother⟩ := List.mem_map.1 h
        exact text_ne_nil _ hother
    rw [show bytes "," = [44] from rfl, split_singleton (hne _), hstrip,
      dropLastEmpty_eq_self hempty, hpieces, RangeHeader.specs, List.map_cons, List.map_map]
    rfl
  have hdrop : header.text.drop 6 = header.first.text ++ othersText header.others := rfl
  have hlisted : listed header.text = header.specs.map ByteRange.text := by
    simp only [listed, htrim, hdrop, hsplit]
    refine if_neg ?_
    rintro (h | h | h | h)
    · cases h
    · exact h (startsWith_iff.2 (List.prefix_append _ _))
    · -- a header has no two dashes in a row
      have hchain := isChain_othersText header.blank header.first
      have hnone : find (header.first.text ++ othersText header.others) (bytes "--") = none := by
        have hleft : Search.leftmost (bytes "--") (header.first.text ++ othersText header.others) =
            none := by
          refine Search.leftmost_eq_none_iff.2 fun hinfix => ?_
          have hpair := hchain.infix hinfix
          rw [show bytes "--" = [45, 45] from rfl, List.isChain_cons_cons] at hpair
          exact hpair.1 ⟨rfl, rfl⟩
        rw [find, if_pos (Nat.zero_le _), List.drop_zero, hleft]
        rfl
      rw [hnone] at h
      cases h
    · have hlen := congrArg List.length h
      have htwo := two_le_length_text header.first
      rw [List.length_append, show (bytes "-").length = 1 from rfl] at hlen
      omega
  rcases parse_cases header.text fileSize with ⟨-, hnil, -⟩ | ⟨-, hnil, -⟩ | ⟨-, hparse⟩
  · rw [hlisted] at hnil
    cases hnil
  · rw [hlisted] at hnil
    cases hnil
  · rw [hparse, hlisted]

/-- Specs are read as their intervals if each one is. -/
theorem mapM_eq_ok_map_iff {fileSize : Nat} (specs : List ByteRange) :
    (specs.map ByteRange.text).mapM (parseRange fileSize) =
        .ok (specs.map (ByteRange.interval fileSize)) ↔
      ∀ spec ∈ specs, parseRange fileSize spec.text = .ok (spec.interval fileSize) := by
  induction specs with
  | nil => exact iff_of_true rfl (by simp)
  | cons spec specs ih =>
    rw [List.map_cons, List.mapM_cons, List.forall_mem_cons, ← ih]
    cases parseRange fileSize spec.text with
    | error e => exact iff_of_false (fun h => by cases h) fun h => by cases h.1
    | ok pair =>
      cases (specs.map ByteRange.text).mapM (parseRange fileSize) with
      | error e => exact iff_of_false (fun h => by cases h) fun h => by cases h.2
      | ok pairs =>
        simp [bind, Except.bind, pure, Except.pure]

/-- Specs are refused if the file has no byte of some. -/
theorem mapM_refused {fileSize : Nat} (hsize : 1 ≤ fileSize) {specs : List ByteRange}
    (h : ∃ spec ∈ specs, ¬ spec.Satisfiable fileSize) :
    (specs.map ByteRange.text).mapM (parseRange fileSize) = .error .refused := by
  obtain ⟨spec, hspec, hunsat⟩ := h
  have hrefused := parseRange_unsatisfiable hsize hunsat
  cases hrun : (specs.map ByteRange.text).mapM (parseRange fileSize) with
  | ok pairs =>
    obtain ⟨pair, -, hpair⟩ := (mem_of_mapM_ok hrun).2 _ (List.mem_map_of_mem hspec)
    rw [hrefused] at hpair
    cases hpair
  | error e =>
    cases e with
    | refused => rfl
    | undefined =>
      -- no spec is an empty piece
      obtain ⟨front, piece, back, heq, -, hpiece⟩ := mapM_eq_error_iff.1 hrun
      have hmem : piece ∈ specs.map ByteRange.text := heq ▸ List.mem_append_right _ List.mem_cons_self
      obtain ⟨other, -, rfl⟩ := List.mem_map.1 hmem
      exact absurd (parseRange_eq_undefined_iff.1 hpiece) (text_ne_nil other)

end HttpRanges

open HttpRanges in
/-- **Which headers are read as the standard says.** A header whose specs the file has bytes of is read
as their intervals, and one with a first byte behind the file is refused, exactly when there is such a
spec or every spec is one that the parser reads right. -/
theorem http_ranges_rfc_iff (header : RangeHeader) {fileSize : Nat}
    (hsize : 1 ≤ fileSize ∧ fileSize < 2 ^ 63) (hvalid : ∀ spec ∈ header.specs, spec.Valid) :
    ((∀ spec ∈ header.specs, spec.Satisfiable fileSize) →
        parse header.text fileSize = .ok (header.specs.map (ByteRange.interval fileSize))) ∧
      ((∃ spec ∈ header.specs, ¬ spec.Satisfiable fileSize) →
        parse header.text fileSize = .error .refused) ↔
      (∃ spec ∈ header.specs, ¬ spec.Satisfiable fileSize) ∨
        ∀ spec ∈ header.specs, spec.ReadRight fileSize := by
  rw [parse_text]
  by_cases hunsat : ∃ spec ∈ header.specs, ¬ spec.Satisfiable fileSize
  · refine iff_of_true ⟨fun hsat => ?_, mapM_refused hsize.1⟩ (.inl hunsat)
    obtain ⟨spec, hspec, hnot⟩ := hunsat
    exact absurd (hsat spec hspec) hnot
  · have hsat : ∀ spec ∈ header.specs, spec.Satisfiable fileSize := by
      intro spec hspec
      by_contra hnot
      exact hunsat ⟨spec, hspec, hnot⟩
    have hread : ∀ spec ∈ header.specs,
        parseRange fileSize spec.text = .ok (spec.interval fileSize) ↔ spec.ReadRight fileSize :=
      fun spec hspec => parseRange_satisfiable hsize (hvalid spec hspec) (hsat spec hspec)
    rw [mapM_eq_ok_map_iff]
    constructor
    · rintro ⟨hok, -⟩
      exact .inr fun spec hspec => (hread spec hspec).1 (hok hsat spec hspec)
    · rintro (h | h)
      · exact absurd h hunsat
      · exact ⟨fun _ spec hspec => (hread spec hspec).2 (h spec hspec), fun h => absurd h hunsat⟩

namespace RangeHeader

/-- The number of a digit. -/
def digit (d : Fin 10) : Numeral where
  text := [48 + UInt8.ofNat d]
  ne_nil := List.cons_ne_nil _ _
  digits := by
    intro c hc
    rw [List.mem_singleton] at hc
    subst hc
    revert d
    decide

/-- `bytes=0-1, 4-`. -/
def two : RangeHeader where
  first := .between (digit 0) (digit 1)
  others := [([], [32], .from (digit 4))]
  blank := by
    intro other hother c hc
    rw [List.mem_singleton.1 hother] at hc
    cases List.mem_singleton.1 hc
    rfl

/-- `bytes=5-5`. -/
def single : RangeHeader where
  first := .between (digit 5) (digit 5)
  others := []
  blank := nofun

end RangeHeader

/-- Two ranges of a file of ten bytes. -/
theorem http_ranges_rfc_two :
    HttpRanges.parse (bytes "bytes=0-1, 4-") 10 = .ok [(0, 1), (4, 9)] := by
  have hspecs : ∀ spec ∈ RangeHeader.two.specs, spec.Valid ∧ spec.Satisfiable 10 ∧ spec.ReadRight 10 := by
    intro spec hspec
    rcases List.mem_cons.1 hspec with rfl | hspec
    · decide
    · cases List.mem_singleton.1 hspec
      decide
  exact ((http_ranges_rfc_iff RangeHeader.two (by decide) fun spec hspec => (hspecs spec hspec).1).2
    (.inr fun spec hspec => (hspecs spec hspec).2.2)).1 fun spec hspec => (hspecs spec hspec).2.1

/-- The sixth byte of a file of ten bytes, and the last byte of all. -/
theorem http_ranges_rfc_single :
    RangeHeader.single.text = bytes "bytes=5-5" ∧
      RangeHeader.single.specs.map (ByteRange.interval 10) = [(5, 5)] ∧
      (∀ spec ∈ RangeHeader.single.specs, spec.Valid ∧ spec.Satisfiable 10) ∧
      HttpRanges.parse RangeHeader.single.text 10 = .error .refused := by
  refine ⟨by decide, by decide, fun spec hspec => ?_, by decide⟩
  cases List.mem_singleton.1 hspec
  decide

end Httplib
