import Httplib.Lib.Search
import Mathlib.Algebra.Group.Int.Defs
import Mathlib.Algebra.Group.Nat.Defs
import Mathlib.Data.List.DropRight

/-!
# Byte strings and `util::split`

The string helpers of `include/httplib/util/misc.hpp` that the router and the body readers use,
over strings as lists of bytes. `split` is the source's scanning loop, and `split_eq` reads it
back as the cut of the text at the successive delimiters.
-/

namespace Httplib

/-- A `std::string` or `std::string_view`: a finite sequence of arbitrary bytes. -/
abbrev Bytes := List UInt8

/-- The bytes of an ASCII literal of the source. -/
def bytes (s : String) : Bytes := s.toList.map fun c => UInt8.ofNat c.toNat

/-- The conversion to `std::uint64_t`. -/
def u64 (x : Int) : Nat := (x % 2 ^ 64).toNat

/-- The conversion to `std::int64_t`. -/
def i64 (x : Int) : Int := x.bmod (2 ^ 64)

/-- `isspace` in the classic locale: horizontal tab to carriage return, and space. -/
def isSpace (c : UInt8) : Bool := (9 ≤ c && c ≤ 13) || c == 32

/-- `boost::trim_copy`: white space is dropped at both ends. -/
def trimCopy (s : Bytes) : Bytes := (s.dropWhile isSpace).rdropWhile isSpace

/-- `std::string_view::find`: the least position from `pos` on at which `pat` occurs; `npos` is
`none`. -/
def find (s pat : Bytes) (pos : Nat := 0) : Option Nat :=
  if pos ≤ s.length then (Search.leftmost pat (s.drop pos)).map (· + pos) else none

/-- `std::string_view::substr(pos, n)`. -/
def substr (s : Bytes) (pos n : Nat) : Bytes := (s.drop pos).take n

/-- `std::string_view::ends_with`. -/
def endsWith (s suf : Bytes) : Bool := suf.isSuffixOf s

/-- `std::string_view::starts_with`. -/
def startsWith (s pre : Bytes) : Bool := pre.isPrefixOf s

/-- `beast::iequals`, on ASCII letters. -/
def iequals (a b : Bytes) : Bool :=
  let lower (c : UInt8) : UInt8 := if 65 ≤ c ∧ c ≤ 90 then c + 32 else c
  a.map lower = b.map lower

@[simp] theorem iequals_refl (a : Bytes) : iequals a a = true := decide_eq_true rfl

/-- `boost::join`. -/
def join (sep : Bytes) (parts : List Bytes) : Bytes := sep.intercalate parts

/-- The loop of `util::split` (`misc.hpp:113`) from position `pos`. Every turn moves `pos` past a
delimiter, so a count of turns above the length of the text never runs out. -/
def splitLoop (str delimiter : Bytes) : Nat → Nat → List Bytes
  | 0, _ => []
  | turns + 1, pos =>
    match find str delimiter pos with
    | some 0 => splitLoop str delimiter turns (pos + delimiter.length)
    | some posFound =>
      trimCopy (substr str pos (posFound - pos)) ::
        if posFound + delimiter.length ≥ str.length then []
        else splitLoop str delimiter turns (posFound + delimiter.length)
    -- `npos + delimiter.size()` wraps around: whether or not it is below `str.size()`, one of the
    -- two `break`s leaves the loop
    | none => [trimCopy (str.drop pos)]

/-- `util::split` (`misc.hpp:100`). -/
def split (str delimiter : Bytes) : List Bytes :=
  if str = [] then []
  else if delimiter = [] then [str]
  else splitLoop str delimiter (str.length + 1) 0

/-! ## Conversions -/

/-- A `size_t` has 64 bits. -/
theorem u64_lt (x : Int) : u64 x < 2 ^ 64 := by
  unfold u64
  omega

@[simp] theorem i64_u64 (x : Int) : i64 (u64 x) = i64 x := by
  unfold i64 u64
  rw [Int.toNat_of_nonneg (by omega)]
  exact Int.emod_bmod x (2 ^ 64)

/-- A 64-bit value is below `2 ^ 63` exactly when it reads as a number that is not negative. -/
theorem i64_nonneg_iff {x : Int} : 0 ≤ i64 x ↔ u64 x < 2 ^ 63 := by
  unfold i64 u64
  rw [Int.bmod_def]
  split <;> omega

/-- A number of 63 bits is the same in both types. -/
theorem i64_eq_u64 {x : Int} (h : u64 x < 2 ^ 63) : i64 x = u64 x := by
  unfold i64 u64 at *
  rw [Int.bmod_def]
  split <;> omega

/-- A difference only depends on the conversions of its terms. -/
theorem u64_sub_u64 (x y : Int) : u64 (x - u64 y) = u64 (x - y) := by
  unfold u64
  omega

/-! ## Searches from the start -/

@[simp] theorem find_zero (s pat : Bytes) : find s pat = Search.leftmost pat s := by
  simp [find]

@[simp] theorem startsWith_iff {s pre : Bytes} : startsWith s pre = true ↔ pre <+: s := by
  simp [startsWith]

/-- A text long enough to decide whether it starts with `pre` decides it for every longer one. -/
theorem startsWith_append {s pre : Bytes} (h : pre.length ≤ s.length) (r : Bytes) :
    startsWith (s ++ r) pre = startsWith s pre := by
  rw [Bool.eq_iff_iff, startsWith_iff, startsWith_iff]
  exact ⟨fun hp => List.prefix_of_prefix_length_le hp (List.prefix_append _ _) h,
    fun hp => hp.trans (List.prefix_append _ _)⟩

/-! ## Bytes the helpers keep -/

/-- What is left behind trimming was there before. -/
theorem mem_of_mem_trimCopy {s : Bytes} {c : UInt8} (h : c ∈ trimCopy s) : c ∈ s :=
  (List.dropWhile_suffix _).subset ((List.rdropWhile_prefix _ _).subset h)

/-- A text stands in itself without its white space. -/
theorem infix_trimCopy (s : Bytes) : trimCopy s <:+: s :=
  (List.rdropWhile_prefix _ _).isInfix.trans (List.dropWhile_suffix _).isInfix

/-- A text that neither begins nor ends with white space is its own trim. -/
theorem trimCopy_eq_self {s : Bytes} (hh : ∀ c ∈ s.head?, isSpace c = false)
    (hl : ∀ c ∈ s.getLast?, isSpace c = false) : trimCopy s = s := by
  have hd : s.dropWhile isSpace = s := by
    cases s with
    | nil => rfl
    | cons a s => simp [hh a (by simp)]
  rw [trimCopy, hd, List.rdropWhile_eq_self_iff]
  intro hne
  simp [hl (s.getLast hne) (by simp [List.getLast?_eq_some_getLast hne])]

@[simp] theorem trimCopy_nil : trimCopy [] = [] := rfl

/-- A trim is its own trim. -/
@[simp] theorem trimCopy_trimCopy (s : Bytes) : trimCopy (trimCopy s) = trimCopy s := by
  refine trimCopy_eq_self (fun c hc => ?_) fun c hc => ?_
  · -- it begins as the text without its white space in front
    obtain ⟨rest, hrest⟩ := List.rdropWhile_prefix isSpace (s.dropWhile isSpace)
    have hhead : ((s.dropWhile isSpace).rdropWhile isSpace).head? = some c := hc
    have hfirst := List.head?_dropWhile_not isSpace s
    rw [← hrest, List.head?_append, hhead] at hfirst
    exact hfirst
  · have hne : trimCopy s ≠ [] := by
      intro hnil
      rw [hnil] at hc
      cases hc
    have hlast := List.rdropWhile_last_not isSpace (s.dropWhile isSpace) hne
    rw [Option.mem_def, List.getLast?_eq_some_getLast hne, Option.some.injEq] at hc
    rw [← hc]
    exact Bool.eq_false_iff.2 hlast

/-- A text that is its own trim neither begins nor ends with white space. -/
theorem isSpace_of_trimCopy_eq_self {s : Bytes} (h : trimCopy s = s) :
    (∀ c ∈ s.head?, isSpace c = false) ∧ ∀ c ∈ s.getLast?, isSpace c = false := by
  have hfront : s.dropWhile isSpace = s := by
    refine List.IsSuffix.eq_of_length_le (List.dropWhile_suffix _) ?_
    have hlength := (List.rdropWhile_prefix isSpace (s.dropWhile isSpace)).length_le
    rwa [← trimCopy, h] at hlength
  refine ⟨fun c hc => ?_, fun c hc => ?_⟩
  · have hfirst := List.head?_dropWhile_not isSpace s
    rw [hfront, hc] at hfirst
    exact hfirst
  · rw [trimCopy, hfront] at h
    obtain ⟨init, rfl⟩ := List.getLast?_eq_some_iff.1 hc
    have hlast := List.rdropWhile_last_not isSpace (init ++ [c]) (by rw [h]; simp)
    simpa [h] using hlast

/-- White space in front is dropped. -/
theorem trimCopy_cons {c : UInt8} {s : Bytes} (h : isSpace c = true) :
    trimCopy (c :: s) = trimCopy s := by
  rw [trimCopy, trimCopy, List.dropWhile_cons, if_pos h]

/-- White space on either side of a text that has none at its own ends is dropped. -/
theorem trimCopy_blank {a s b : Bytes} (ha : ∀ c ∈ a, isSpace c = true)
    (hb : ∀ c ∈ b, isSpace c = true) (hne : s ≠ []) (hs : trimCopy s = s) :
    trimCopy (a ++ s ++ b) = s := by
  have hhead : s.dropWhile isSpace = s := by
    refine List.IsSuffix.eq_of_length_le (List.dropWhile_suffix _) ?_
    have hlen := (List.rdropWhile_prefix isSpace (s.dropWhile isSpace)).length_le
    rwa [← trimCopy, hs] at hlen
  have hlast : s.rdropWhile isSpace = s := by
    rwa [trimCopy, hhead] at hs
  have hfront : (a ++ s ++ b).dropWhile isSpace = s ++ b := by
    rw [List.append_assoc, List.dropWhile_append_of_pos ha, List.dropWhile_append, hhead,
      if_neg (by simpa using hne)]
  rw [trimCopy, hfront, List.rdropWhile, List.reverse_append,
    List.dropWhile_append_of_pos fun c hc => hb c (List.mem_reverse.1 hc)]
  exact hlast

/-- A text is its trim with white space around it. -/
theorem exists_trimCopy (s : Bytes) :
    ∃ a b, a ++ trimCopy s ++ b = s ∧ (∀ c ∈ a, isSpace c = true) ∧ ∀ c ∈ b, isSpace c = true := by
  refine ⟨s.takeWhile isSpace, ((s.dropWhile isSpace).reverse.takeWhile isSpace).reverse, ?_, ?_, ?_⟩
  · rw [trimCopy, List.rdropWhile, List.append_assoc, ← List.reverse_append,
      List.takeWhile_append_dropWhile, List.reverse_reverse, List.takeWhile_append_dropWhile]
  · exact fun c => List.mem_takeWhile_imp
  · exact fun c hc => List.mem_takeWhile_imp (List.mem_reverse.1 hc)

/-- A text that is trimmed away is white space. -/
theorem isSpace_of_trimCopy_eq_nil {s : Bytes} (h : trimCopy s = []) {c : UInt8} (hc : c ∈ s) :
    isSpace c = true := by
  obtain ⟨a, b, hs, ha, hb⟩ := exists_trimCopy s
  rw [h, List.append_nil] at hs
  rw [← hs] at hc
  exact (List.mem_append.1 hc).elim (ha c) (hb c)

/-- White space behind a text is trimmed with it. -/
theorem trimCopy_append_blank {s blank : Bytes} (h : ∀ c ∈ blank, isSpace c = true) :
    trimCopy (s ++ blank) = trimCopy s := by
  have hback : ∀ t : Bytes, (t ++ blank).rdropWhile isSpace = t.rdropWhile isSpace := by
    intro t
    rw [List.rdropWhile, List.reverse_append,
      List.dropWhile_append_of_pos fun c hc => h c (List.mem_reverse.1 hc)]
    rfl
  rw [trimCopy, trimCopy, List.dropWhile_append]
  split
  · next hnil =>
    rw [List.isEmpty_iff.1 hnil, List.dropWhile_eq_nil_iff.2 h]
  · rw [hback]

/-- White space in front of a text is trimmed with it. -/
theorem trimCopy_blank_append {s blank : Bytes} (h : ∀ c ∈ blank, isSpace c = true) :
    trimCopy (blank ++ s) = trimCopy s := by
  rw [trimCopy, trimCopy, List.dropWhile_append_of_pos h]

/-- A text without a byte is passed over by the search for it. -/
theorem takeWhile_append_of_not_mem {c : UInt8} {l r : Bytes} (h : c ∉ l) :
    (l ++ r).takeWhile (· ≠ c) = l ++ r.takeWhile (· ≠ c) :=
  List.takeWhile_append_of_pos fun _ hx => decide_eq_true fun heq => h (heq ▸ hx)

/-- A list without the byte is all in front of it. -/
theorem takeWhile_of_not_mem {c : UInt8} {l : Bytes} (h : c ∉ l) : l.takeWhile (· ≠ c) = l :=
  List.takeWhile_eq_self_iff.2 fun _ hx => decide_eq_true fun heq => h (heq ▸ hx)

/-- Trimming first makes no difference for what stands in front of a byte that is not white space. -/
theorem trimCopy_takeWhile {c : UInt8} (hc : isSpace c = false) (s : Bytes) :
    trimCopy ((trimCopy s).takeWhile (· ≠ c)) = trimCopy (s.takeWhile (· ≠ c)) := by
  obtain ⟨a, b, hs, ha, hb⟩ := exists_trimCopy s
  have hblank : ∀ l : Bytes, (∀ x ∈ l, isSpace x = true) → c ∉ l := by
    intro l hl hmem
    rw [hl c hmem] at hc
    cases hc
  conv_rhs => rw [← hs, List.append_assoc, takeWhile_append_of_not_mem (hblank a ha),
    trimCopy_blank_append ha, List.takeWhile_append]
  split
  · next hall =>
    rw [takeWhile_of_not_mem (hblank b hb), trimCopy_append_blank hb]
    rw [(List.takeWhile_prefix _).eq_of_length hall]
  · rfl

/-! ## `split`, read back -/

/-- The pieces of `l` at the successive leftmost delimiters, each trimmed; an empty piece after a
delimiter that ends the text is not one of them. -/
def pieces (delimiter : Bytes) : Nat → Bytes → List Bytes
  | 0, _ => []
  | turns + 1, l =>
    match Search.leftmost delimiter l with
    | some i =>
      trimCopy (l.take i) ::
        if i + delimiter.length ≥ l.length then []
        else pieces delimiter turns (l.drop (i + delimiter.length))
    | none => [trimCopy l]

/-- Past the first byte, the loop of `split` cuts what is left of the text. -/
theorem splitLoop_eq_pieces {str delimiter : Bytes} (hd : delimiter ≠ []) (turns : Nat) {pos : Nat}
    (hpos : pos ≤ str.length) (h0 : pos = 0 → ¬ delimiter <+: str) :
    splitLoop str delimiter turns pos = pieces delimiter turns (str.drop pos) := by
  induction turns generalizing pos with
  | zero => rfl
  | succ turns ih =>
    rw [splitLoop, pieces, find, if_pos hpos]
    cases hf : Search.leftmost delimiter (str.drop pos) with
    | none => rfl
    | some i =>
      have hle := Search.leftmost_le hf hd
      have hlen : 0 < delimiter.length := List.length_pos_of_ne_nil hd
      rw [List.length_drop] at hle
      have hne : i + pos ≠ 0 := by
        intro h
        obtain ⟨rfl, rfl⟩ : i = 0 ∧ pos = 0 := by omega
        exact h0 rfl (Search.leftmost_eq_some_iff.1 hf).1
      obtain ⟨k, hk⟩ := Nat.exists_eq_succ_of_ne_zero hne
      simp only [Option.map_some, hk, substr]
      rw [show k.succ - pos = i by omega, List.length_drop]
      refine congrArg _ ?_
      by_cases hend : k.succ + delimiter.length ≥ str.length
      · rw [if_pos hend, if_pos (by omega)]
      · rw [if_neg hend, if_neg (by omega), ih (by omega) (by omega), List.drop_drop]
        congr 2
        omega

/-- `split` drops one delimiter the text begins with and cuts the rest. -/
theorem split_eq {str delimiter : Bytes} (hs : str ≠ []) (hd : delimiter ≠ []) :
    split str delimiter =
      if delimiter <+: str then pieces delimiter str.length (str.drop delimiter.length)
      else pieces delimiter (str.length + 1) str := by
  have hlen : 0 < delimiter.length := List.length_pos_of_ne_nil hd
  rw [split, if_neg hs, if_neg hd]
  split
  case isTrue hp =>
    rw [splitLoop, find, if_pos (Nat.zero_le _), List.drop_zero, Search.leftmost_eq_zero hp]
    simp only [Option.map_some, Nat.zero_add]
    exact splitLoop_eq_pieces hd _ hp.length_le (by omega)
  case isFalse hp =>
    rw [splitLoop_eq_pieces hd _ (Nat.zero_le _) (fun _ => hp), List.drop_zero]

/-- What stands in front of the first delimiter is a piece. -/
theorem pieces_of_leftmost {delimiter l r : Bytes} (turns : Nat)
    (hf : Search.leftmost delimiter (l ++ (delimiter ++ r)) = some l.length) :
    pieces delimiter (turns + 1) (l ++ (delimiter ++ r)) =
      trimCopy l :: if r = [] then [] else pieces delimiter turns r := by
  rw [pieces, hf]
  have hdrop : (l ++ (delimiter ++ r)).drop (l.length + delimiter.length) = r := by
    rw [← List.drop_drop, List.drop_left, List.drop_left]
  simp only [List.take_left, hdrop]
  refine congrArg _ ?_
  by_cases hr : r = []
  · simp [hr]
  · have hpos : 0 < r.length := List.length_pos_of_ne_nil hr
    rw [if_neg hr, if_neg]
    simp only [List.length_append]
    omega

/-- A text without the delimiter's first byte is a piece. -/
theorem pieces_append {c : UInt8} {d l r : Bytes} (turns : Nat) (hl : c ∉ l) :
    pieces (c :: d) (turns + 1) (l ++ (c :: d ++ r)) =
      trimCopy l :: if r = [] then [] else pieces (c :: d) turns r := by
  refine pieces_of_leftmost turns ?_
  rw [Search.leftmost_append_of_not_mem hl, Search.leftmost_eq_zero (List.prefix_append _ _),
    Option.map_some, Nat.zero_add]

/-- No piece has the delimiter in it. -/
theorem not_infix_of_mem_pieces {delimiter : Bytes} (hd : delimiter ≠ []) (turns : Nat) {l p : Bytes}
    (h : p ∈ pieces delimiter turns l) : ¬ delimiter <:+: p := by
  induction turns generalizing l with
  | zero => cases h
  | succ turns ih =>
    rw [pieces] at h
    cases hf : Search.leftmost delimiter l with
    | none =>
      rw [hf] at h
      cases List.mem_singleton.1 h
      exact fun hin => Search.leftmost_eq_none_iff.1 hf (hin.trans (infix_trimCopy l))
    | some i =>
      simp only [hf] at h
      rcases List.mem_cons.1 h with rfl | h
      · exact fun hin => Search.not_infix_take_leftmost hf hd (hin.trans (infix_trimCopy _))
      · split at h
        · cases h
        · exact ih h

/-- No part of a split holds the delimiter. -/
theorem not_infix_of_mem_split {str delimiter p : Bytes} (hd : delimiter ≠ [])
    (h : p ∈ split str delimiter) : ¬ delimiter <:+: p := by
  rcases eq_or_ne str [] with rfl | hs
  · cases h
  · rw [split_eq hs hd] at h
    split at h <;> exact not_infix_of_mem_pieces hd _ h

/-- `split` at a single byte leaves no copy of it in the parts. -/
theorem not_mem_of_mem_split {c : UInt8} {str p : Bytes} (h : p ∈ split str [c]) : c ∉ p :=
  fun hmem => not_infix_of_mem_split (List.cons_ne_nil c []) h ((List.singleton_infix_iff c p).2 hmem)

/-! ## `split` at a single byte -/

/-- A text without the delimiter it begins with. -/
def stripLeading (c : UInt8) (str : Bytes) : Bytes := if str.head? = some c then str.tail else str

/-- The pieces of a text without the empty one behind a delimiter that ends it. -/
def dropLastEmpty (ps : List Bytes) : List Bytes :=
  if 2 ≤ ps.length ∧ ps.getLast? = some [] then ps.dropLast else ps

@[simp] theorem dropLastEmpty_singleton (p : Bytes) : dropLastEmpty [p] = [p] := rfl

/-- The first of several parts stays, unless all that follows is one empty part. -/
theorem dropLastEmpty_cons {p q : Bytes} {qs : List Bytes} (h : q :: qs ≠ [[]]) :
    dropLastEmpty (p :: q :: qs) = p :: dropLastEmpty (q :: qs) := by
  unfold dropLastEmpty
  rw [List.getLast?_cons_cons]
  cases qs with
  | nil =>
    have hq : q ≠ [] := fun hq => h (by rw [hq])
    simp [hq]
  | cons r rs => split <;> simp_all

/-- Where no piece is empty, none is dropped. -/
theorem dropLastEmpty_eq_self {ps : List Bytes} (h : [] ∉ ps) : dropLastEmpty ps = ps :=
  if_neg fun hlast => h (List.mem_of_getLast? hlast.2)

/-- The pieces are those of the cut, without the empty one behind a delimiter that ends the text. -/
theorem pieces_eq_cut {delimiter : Bytes} (hd : delimiter ≠ []) {turns : Nat} {l : Bytes}
    (h : l.length < turns) :
    pieces delimiter turns l = (dropLastEmpty (Search.cut delimiter l)).map trimCopy := by
  induction turns generalizing l with
  | zero => exact absurd h (Nat.not_lt_zero _)
  | succ turns ih =>
    rw [pieces]
    cases hf : Search.leftmost delimiter l with
    | none =>
      rw [Search.cut_of_leftmost_eq_none hf]
      rfl
    | some i =>
      have hshorter := Search.length_sub_lt hf hd
      rw [Search.cut_of_leftmost hf hd]
      dsimp only
      generalize hrest : l.drop (i + delimiter.length) = rest
      have hlength := congrArg List.length hrest
      rw [List.length_drop] at hlength
      cases hcut : Search.cut delimiter rest with
      | nil => exact absurd hcut (Search.cut_ne_nil _ _)
      | cons q qs =>
        by_cases hnil : rest = []
        · rw [if_pos (by rw [hnil, List.length_nil] at hlength; omega)]
          rw [(Search.cut_eq_singleton_nil_iff hd).2 hnil] at hcut
          cases hcut
          rfl
        · have hpos := List.length_pos_of_ne_nil hnil
          have hne : q :: qs ≠ [[]] := fun heq =>
            hnil ((Search.cut_eq_singleton_nil_iff hd).1 (hcut.trans heq))
          rw [if_neg (by omega), dropLastEmpty_cons hne, List.map_cons, ih (by omega), hcut]

/-- **`split`**: the cut at the delimiters, without a first piece if the text begins with one, and
without an empty piece at the end; the others are trimmed. -/
theorem split_eq_cut {str delimiter : Bytes} (hs : str ≠ []) (hd : delimiter ≠ []) :
    split str delimiter =
      (dropLastEmpty (if delimiter <+: str then (Search.cut delimiter str).tail
        else Search.cut delimiter str)).map trimCopy := by
  rw [split_eq hs hd]
  split
  · next hpre =>
    have hpos := List.length_pos_of_ne_nil hd
    have hle := hpre.length_le
    rw [Search.cut_of_leftmost (Search.leftmost_eq_zero hpre) hd, List.tail_cons, Nat.zero_add]
    exact pieces_eq_cut hd (by rw [List.length_drop]; omega)
  · exact pieces_eq_cut hd (Nat.lt_succ_self _)

/-- **`split` at a single byte**: one delimiter in front is dropped, and so is the empty piece behind
a last one; the others are trimmed. -/
theorem split_singleton {c : UInt8} {str : Bytes} (h : str ≠ []) :
    split str [c] = (dropLastEmpty ((stripLeading c str).splitOn c)).map trimCopy := by
  rw [split_eq_cut h (List.cons_ne_nil c []), Search.cut_singleton, stripLeading]
  cases str with
  | nil => exact absurd rfl h
  | cons a str =>
    have hhead : [c] <+: a :: str ↔ (a :: str).head? = some c := by
      rw [List.cons_prefix_cons, List.head?_cons, Option.some_inj]
      exact ⟨fun hpre => hpre.1.symm, fun heq => ⟨heq.symm, List.nil_prefix⟩⟩
    rw [if_congr hhead rfl rfl]
    split
    · next heq =>
      cases Option.some.inj heq
      have hcut : (c :: str).splitOn c = [] :: str.splitOn c :=
        List.splitOn_append_cons_self_of_not_mem List.not_mem_nil str
      rw [hcut]
      rfl
    · rfl

/-- An empty piece that is dropped at the end does not count where empty pieces stand for nothing. -/
theorem filterMap_dropLastEmpty {α : Type} {f : Bytes → Option α} (hf : f [] = none)
    (ps : List Bytes) : (dropLastEmpty ps).filterMap f = ps.filterMap f := by
  unfold dropLastEmpty
  split
  · next hlast =>
    obtain ⟨front, rfl⟩ := List.getLast?_eq_some_iff.1 hlast.2
    rw [List.dropLast_concat, List.filterMap_append, List.filterMap_cons_none hf, List.filterMap_nil,
      List.append_nil]
  · rfl

/-- Where an empty piece stands for nothing, `split` at a single byte is the cut at each delimiter. -/
theorem filterMap_split {α : Type} {f : Bytes → Option α} (hf : f [] = none) (str : Bytes) (c : UInt8) :
    (split str [c]).filterMap f = (str.splitOn c).filterMap fun piece => f (trimCopy piece) := by
  cases str with
  | nil => exact (List.filterMap_cons_none hf).symm
  | cons x str =>
    have hdrop : ∀ text : Bytes, ((dropLastEmpty (text.splitOn c)).map trimCopy).filterMap f =
        (text.splitOn c).filterMap fun piece => f (trimCopy piece) := by
      intro text
      rw [List.filterMap_map]
      exact filterMap_dropLastEmpty (f := f ∘ trimCopy) hf _
    rw [split_singleton (List.cons_ne_nil x str), hdrop, stripLeading]
    split
    · next hhead =>
      cases Option.some.inj hhead
      have hcut : (c :: str).splitOn c = [] :: str.splitOn c :=
        List.splitOn_append_cons_self_of_not_mem List.not_mem_nil str
      rw [hcut, List.filterMap_cons_none (by exact hf), List.tail_cons]
    · rfl

/-- There is a piece of every text but the empty one. -/
theorem split_singleton_eq_nil_iff {c : UInt8} {str : Bytes} : split str [c] = [] ↔ str = [] := by
  constructor
  · intro h
    by_contra hne
    rw [split_singleton hne, List.map_eq_nil_iff, dropLastEmpty] at h
    split at h
    · next hlong =>
      have hlen := congrArg List.length h
      rw [List.length_dropLast, List.length_nil] at hlen
      omega
    · exact List.splitOn_ne_nil _ _ h
  · rintro rfl
    rfl

/-- Texts that hold no delimiter, are not empty and do not begin or end with white space come apart as
they were joined. -/
theorem split_join {c : UInt8} {ps : List Bytes} (h : ∀ p ∈ ps, p ≠ [] ∧ c ∉ p ∧ trimCopy p = p) :
    split (join [c] ps) [c] = ps := by
  cases ps with
  | nil => rfl
  | cons p ps =>
    have hp := h p List.mem_cons_self
    have hjoin : join [c] (p :: ps) ≠ [] ∧ stripLeading c (join [c] (p :: ps)) = join [c] (p :: ps) := by
      cases hpc : p with
      | nil => exact absurd hpc hp.1
      | cons a p' =>
        have hhead : ∃ rest, join [c] (p :: ps) = a :: rest := by
          rw [hpc, join]
          cases ps <;> exact ⟨_, rfl⟩
        obtain ⟨rest, hrest⟩ := hhead
        rw [hpc] at hrest hp
        rw [hrest]
        refine ⟨List.cons_ne_nil _ _, if_neg fun hc => hp.2.1 ?_⟩
        rw [List.head?_cons, Option.some_inj] at hc
        exact hc ▸ List.mem_cons_self
    have hempty : [] ∉ p :: ps := fun hmem => (h [] hmem).1 rfl
    rw [split_singleton hjoin.1, hjoin.2, join,
      List.splitOn_intercalate c (fun q hq => (h q hq).2.1) (List.cons_ne_nil _ _),
      dropLastEmpty_eq_self hempty]
    exact (List.map_congr_left fun q hq => (h q hq).2.2).trans (List.map_id _)

/-! ### The pieces of a text -/

/-- The first piece is what stands in front of the first delimiter. -/
theorem splitOn_eq_takeWhile_cons (c : UInt8) (s : Bytes) :
    s.splitOn c = s.takeWhile (· ≠ c) :: (s.splitOn c).tail := by
  by_cases hc : c ∈ s
  · obtain ⟨front, rest, rfl, hfront⟩ := List.eq_append_cons_of_mem hc
    rw [List.splitOn_append_cons_self_of_not_mem hfront, takeWhile_append_of_not_mem hfront,
      List.takeWhile_cons_of_neg (by simp), List.append_nil]
    rfl
  · rw [List.splitOn_eq_singleton hc, takeWhile_of_not_mem hc]
    rfl

/-- White space behind a text makes no difference for its pieces, trimmed. -/
theorem map_trimCopy_splitOn_append {c : UInt8} {s blank : Bytes} (hc : isSpace c = false)
    (hblank : ∀ x ∈ blank, isSpace x = true) :
    ((s ++ blank).splitOn c).map trimCopy = (s.splitOn c).map trimCopy := by
  have hmem : c ∉ blank := fun hmem => by
    rw [hblank c hmem] at hc
    cases hc
  induction hn : s.length using Nat.strong_induction_on generalizing s with
  | h n ih =>
    by_cases hcs : c ∈ s
    · obtain ⟨front, rest, rfl, -⟩ := List.eq_append_cons_of_mem hcs
      have hshorter : rest.length < n := by
        rw [← hn, List.length_append, List.length_cons]
        omega
      rw [List.append_assoc, List.cons_append, List.splitOn_append_cons_self,
        List.splitOn_append_cons_self, List.map_append, List.map_append, ih _ hshorter rfl]
    · have hboth : c ∉ s ++ blank := by
        rw [List.mem_append, not_or]
        exact ⟨hcs, hmem⟩
      rw [List.splitOn_eq_singleton hboth, List.splitOn_eq_singleton hcs, List.map_singleton,
        List.map_singleton, trimCopy_append_blank hblank]

/-- The pieces of joined texts are the pieces of each. -/
theorem splitOn_join {c : UInt8} {ps : List Bytes} (hne : ps ≠ []) :
    (join [c] ps).splitOn c = ps.flatMap fun p => p.splitOn c := by
  induction ps with
  | nil => exact absurd rfl hne
  | cons p ps ih =>
    cases ps with
    | nil => simp [join]
    | cons q ps =>
      rw [List.flatMap_cons, ← ih (List.cons_ne_nil _ _), ← List.splitOn_append_cons_self]
      rfl

/-- No piece has the delimiter in it. -/
theorem not_mem_of_mem_splitOn {c : UInt8} {l piece : Bytes} (h : piece ∈ l.splitOn c) :
    c ∉ piece := by
  induction l generalizing piece with
  | nil =>
    cases List.mem_singleton.1 h
    exact List.not_mem_nil
  | cons x l ih =>
    rw [List.splitOn_cons_eq_if_modifyHead] at h
    cases hsplit : l.splitOn c with
    | nil => exact absurd hsplit (List.splitOn_ne_nil c l)
    | cons q qs =>
      rw [hsplit] at h ih
      split at h
      · rcases List.mem_cons.1 h with rfl | h
        · exact List.not_mem_nil
        · exact ih h
      · next hx =>
        rw [List.modifyHead_cons] at h
        rcases List.mem_cons.1 h with rfl | h
        · rw [List.mem_cons, not_or]
          exact ⟨fun hc => hx (beq_iff_eq.2 hc.symm), ih List.mem_cons_self⟩
        · exact ih (List.mem_cons_of_mem _ h)

/-- A text whose last piece is empty is empty or ends in the delimiter. -/
theorem getLast?_of_splitOn {c : UInt8} {l : Bytes} (h : (l.splitOn c).getLast? = some []) :
    l = [] ∨ l.getLast? = some c := by
  induction l with
  | nil => exact .inl rfl
  | cons x l ih =>
    right
    rw [List.splitOn_cons_eq_if_modifyHead] at h
    cases hsplit : l.splitOn c with
    | nil => exact absurd hsplit (List.splitOn_ne_nil c l)
    | cons q qs =>
      have hbehind : (q :: qs).getLast? = some [] → (x :: l).getLast? = some c ∨ l = [] := by
        intro hlast
        rw [hsplit] at ih
        rcases ih hlast with rfl | hl
        · exact .inr rfl
        · rw [List.getLast?_cons, hl]
          exact .inl rfl
      rw [hsplit] at h
      split at h
      · next hx =>
        rcases hbehind (by rwa [List.getLast?_cons_cons] at h) with hl | rfl
        · exact hl
        · exact congrArg some (beq_iff_eq.1 hx)
      · cases qs with
        | nil => cases h
        | cons r rs =>
          rw [List.modifyHead_cons, List.getLast?_cons_cons] at h
          rcases hbehind (by rwa [List.getLast?_cons_cons]) with hl | rfl
          · exact hl
          · cases hsplit

/-- A text begins with the delimiter exactly if its first piece is empty, and another one follows. -/
theorem head?_eq_some_iff_splitOn {c : UInt8} {l : Bytes} (hl : l ≠ []) :
    l.head? = some c ↔ (l.splitOn c).head? = some [] := by
  cases l with
  | nil => exact absurd rfl hl
  | cons x l =>
    rw [List.splitOn_cons_eq_if_modifyHead, List.head?_cons, Option.some.injEq]
    cases hsplit : l.splitOn c with
    | nil => exact absurd hsplit (List.splitOn_ne_nil c l)
    | cons q qs => by_cases hx : x = c <;> simp [hx]

end Httplib
