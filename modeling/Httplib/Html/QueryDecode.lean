import Httplib.Html.QueryParams
import Httplib.Util.UrlDecode
import Mathlib.Data.Bool.AllAny
import Mathlib.Data.Prod.Lex
import Mathlib.Algebra.GroupWithZero.Nat
import Mathlib.Algebra.Order.Group.Nat
import Mathlib.Algebra.Order.BigOperators.Group.List

/-!
# Decoding any query string

`query_params::decode` (`lib/html/query_params.cpp:31`) against what a query string means: one pair
for each piece between `&` characters that is not empty, with the key in front of its first `=` and the
value behind it. `query_params_decode_iff` says which query strings `decode` reads so on every platform.
The pairs are those of a multimap, and pieces that are read wrongly could make up for one another;
`weighPair` orders pairs such that what `decode` makes of a piece is never above what it stands for, where
NUL lies behind every text.
-/

namespace Httplib

/-! ## Lists with the same weights -/

/-- Where each element of a list weighs at most as much by `f` as by `g`, and the weights are the same
altogether, they are the same element by element. -/
theorem eq_of_perm_map {α β : Type} [LinearOrder β] {f g : α → β} {l : List α}
    (hle : ∀ a ∈ l, f a ≤ g a) (h : (l.map f).Perm (l.map g)) : ∀ a ∈ l, f a = g a := by
  intro a ha
  by_contra hne
  have hlt := lt_of_le_of_ne (hle a ha) hne
  -- the elements that weigh at least what `a` weighs by `g` are counted
  let above (b : β) : Nat := if g a ≤ b then 1 else 0
  have hmono : ∀ b c, b ≤ c → above b ≤ above c := by
    intro b c hbc
    dsimp only [above]
    split
    · next hab => rw [if_pos (hab.trans hbc)]
    · exact Nat.zero_le _
  have hsum : (l.map (above ∘ f)).sum < (l.map (above ∘ g)).sum := by
    refine List.sum_lt_sum _ _ (fun b hb => hmono _ _ (hle b hb)) ⟨a, ha, ?_⟩
    simp [above, hlt]
  have hsame := (h.map above).sum_eq
  rw [List.map_map, List.map_map] at hsame
  omega

/-! ## How texts are ordered -/

/-- The order of decoded texts: by their length, and then by the sum of their bytes. -/
def weight (text : Bytes) : Nat ×ₗ Nat := toLex (text.length, (text.map UInt8.toNat).sum)

/-- Less weight is less length, or the same length and a smaller sum. -/
theorem weight_lt_iff {s t : Bytes} :
    weight s < weight t ↔
      s.length < t.length ∨ s.length = t.length ∧ (s.map UInt8.toNat).sum < (t.map UInt8.toNat).sum :=
  Prod.Lex.toLex_lt_toLex

/-- The same byte in front of two texts keeps their order. -/
theorem weight_cons_lt {c : UInt8} {s t : Bytes} (h : weight s < weight t) :
    weight (c :: s) < weight (c :: t) := by
  rw [weight_lt_iff] at h ⊢
  simp only [List.length_cons, List.map_cons, List.sum_cons]
  omega

/-- A lighter text is not longer. -/
theorem length_le_of_weight_lt {s t : Bytes} (h : weight s < weight t) : s.length ≤ t.length := by
  rcases weight_lt_iff.1 h with hlt | heq
  · exact hlt.le
  · exact heq.1.le

/-- A shorter text is lighter. -/
theorem weight_lt_of_length_lt {s t : Bytes} (h : s.length < t.length) : weight s < weight t :=
  weight_lt_iff.2 (.inl h)

/-- One byte against one that is not smaller, and what follows. -/
theorem weight_singleton_le {a b : UInt8} (h : a ≤ b) (t : Bytes) :
    [a] = b :: t ∨ weight [a] < weight (b :: t) := by
  cases t with
  | nil =>
    rcases Nat.lt_or_eq_of_le (UInt8.le_iff_toNat_le.1 h) with hlt | heq
    · right
      rw [weight_lt_iff]
      simp [hlt]
    · exact .inl (by rw [UInt8.toNat_inj.1 heq])
  | cons c t =>
    right
    exact weight_lt_of_length_lt (by simp)

/-- A byte with more bits set is not smaller. -/
theorem le_or_byte (a b : UInt8) : a ≤ a ||| b := by
  rw [UInt8.le_iff_toNat_le, UInt8.toNat_or]
  exact Nat.left_le_or

/-- An escape where NUL lies behind the text. -/
theorem unescape_zero_percent (rest : Bytes) :
    unescape 0 (37 :: rest) =
      (hex2dec (rest.getD 0 0) <<< 4 ||| hex2dec (rest.getD 1 0)) :: unescape 0 (rest.drop 2) := by
  have hat : ∀ i, charAt 0 rest i = rest.getD i 0 := by
    intro i
    rw [charAt, List.getD_eq_getElem?_getD, List.getD_eq_getElem?_getD, List.getElem?_append]
    split
    · rfl
    · next hi =>
      rw [List.getElem?_eq_none (Nat.not_lt.1 hi)]
      rcases i - rest.length with _ | _ | k <;> rfl
  rw [unescape_percent, hat, hat]

/-- A text that goes on weighs more than its beginning when the escapes are undone, unless it is read
as the same. -/
theorem unescape_append (s t : Bytes) :
    unescape 0 s = unescape 0 (s ++ t) ∨ weight (unescape 0 s) < weight (unescape 0 (s ++ t)) := by
  induction s using unescape.induct with
  | case1 =>
    rw [List.nil_append, unescape_nil]
    cases t with
    | nil => exact .inl unescape_nil.symm
    | cons c t =>
      right
      refine weight_lt_of_length_lt ?_
      rw [unescape]
      split <;> exact Nat.zero_lt_succ _
  | case2 rest ih =>
    rw [List.cons_append, unescape_zero_percent, unescape_zero_percent]
    -- an escape that is whole takes the same bytes; one that is not takes bytes of what follows
    cases rest with
    | nil =>
      rw [List.drop_nil, unescape_nil]
      exact weight_singleton_le (UInt8.le_iff_toNat_le.2 (Nat.zero_le _)) _
    | cons a rest =>
      cases rest with
      | nil =>
        rw [List.drop_succ_cons, List.drop_nil, unescape_nil]
        have hlow : hex2dec (([a] : Bytes).getD 1 0) = 0 := rfl
        rw [hlow, UInt8.or_zero]
        exact weight_singleton_le (le_or_byte _ _) _
      | cons b rest => exact ih.imp (congrArg (List.cons _)) weight_cons_lt
  | case3 c rest hc ih =>
    rw [List.cons_append, unescape_cons hc, unescape_cons hc]
    exact ih.imp (congrArg (c :: ·)) weight_cons_lt

/-- A text that goes on is not read as fewer bytes. -/
theorem length_unescape_le (s t : Bytes) :
    (unescape 0 s).length ≤ (unescape 0 (s ++ t)).length := by
  rcases unescape_append s t with heq | hlt
  · rw [heq]
  · rcases weight_lt_iff.1 hlt with hlt | heq
    · exact hlt.le
    · exact heq.1.le

/-- An escape takes two bytes at most, so a byte more or less in front changes the number of those read
by one at most, and two bytes less never add to it. -/
theorem length_unescape_drop (s : Bytes) :
    (unescape 0 s).length ≤ (unescape 0 (s.drop 1)).length + 1 ∧
      (unescape 0 (s.drop 2)).length ≤ (unescape 0 s).length := by
  induction hlength : s.length using Nat.strong_induction_on generalizing s with
  | _ n ih =>
    subst hlength
    match s with
    | [] => simp
    | [c] => by_cases hc : c = 37 <;> simp [hc, unescape_zero_percent, unescape_cons]
    | c :: d :: s =>
      have hbehind := (ih s.length (by rw [List.length_cons, List.length_cons]; omega) s rfl).1
      have hlast := (ih (s.drop 1).length
        (by rw [List.length_drop, List.length_cons, List.length_cons]; omega) (s.drop 1) rfl).1
      have hfirst := ih (d :: s).length (by simp) (d :: s) rfl
      rw [List.drop_drop] at hlast
      by_cases hc : c = 37
      · subst hc
        simp only [unescape_zero_percent, List.drop_succ_cons, List.drop_zero, List.length_cons] at *
        omega
      · by_cases hd : d = 37
        · subst hd
          simp only [unescape_cons hc, unescape_zero_percent, List.drop_succ_cons, List.drop_zero,
            List.length_cons] at *
          omega
        · simp only [unescape_cons hc, unescape_cons hd, List.drop_succ_cons, List.drop_zero,
            List.length_cons] at *
          omega

/-- Behind a `=` at least one byte less is read than with what stands in front of it, unless the `=` is
taken by an escape right before it. -/
theorem length_unescape_behind (a r : Bytes) :
    (unescape 0 r).length < (unescape 0 (a ++ 61 :: r)).length ∨
      a = [37] ∧ (unescape 0 r).length ≤ (unescape 0 (a ++ 61 :: r)).length := by
  have hle : ∀ a : Bytes, (unescape 0 r).length ≤ (unescape 0 (a ++ 61 :: r)).length := by
    intro a
    induction a using unescape.induct with
    | case1 => simp [unescape_cons (show (61 : UInt8) ≠ 37 by decide)]
    | case2 rest ih =>
      rcases rest with _ | ⟨b, _ | ⟨c, rest⟩⟩
      · have hdrop := (length_unescape_drop r).1
        simpa [unescape_zero_percent] using hdrop
      · simp [unescape_zero_percent]
      · rw [List.cons_append, unescape_zero_percent]
        exact Nat.le_succ_of_le ih
    | case3 c rest hc ih =>
      rw [List.cons_append, unescape_cons hc]
      exact Nat.le_succ_of_le ih
  cases a with
  | nil => simp [unescape_cons (show (61 : UInt8) ≠ 37 by decide)]
  | cons c rest =>
    by_cases hc : c = 37
    · subst hc
      rcases rest with _ | ⟨b, _ | ⟨c, rest⟩⟩
      · exact .inr ⟨rfl, hle _⟩
      · simp [unescape_zero_percent]
      · left
        rw [List.cons_append, unescape_zero_percent]
        exact Nat.lt_succ_of_le (hle rest)
    · left
      rw [List.cons_append, unescape_cons hc]
      exact Nat.lt_succ_of_le (hle rest)

/-- A text that is cut completely, up to an escape that lacks one or both of its bytes. -/
theorem wellCut_or (s : Bytes) :
    WellCut s ∨ ∃ front, WellCut front ∧ (s = front ++ [37] ∨ ∃ c, s = front ++ [37, c]) := by
  induction s using unescape.induct with
  | case1 => exact .inl .nil
  | case2 rest ih =>
    rcases rest with _ | ⟨a, _ | ⟨b, rest⟩⟩
    · exact .inr ⟨[], .nil, .inl rfl⟩
    · exact .inr ⟨[], .nil, .inr ⟨a, rfl⟩⟩
    · rcases ih with hcut | ⟨front, hcut, heq | ⟨c, heq⟩⟩
      · exact .inl (.escape a b hcut)
      · exact .inr ⟨37 :: a :: b :: front, .escape a b hcut, .inl (congrArg (37 :: a :: b :: ·) heq)⟩
      · exact .inr ⟨37 :: a :: b :: front, .escape a b hcut,
          .inr ⟨c, congrArg (37 :: a :: b :: ·) heq⟩⟩
  | case3 c rest hc ih =>
    rcases ih with hcut | ⟨front, hcut, heq | ⟨d, heq⟩⟩
    · exact .inl (.byte hc hcut)
    · exact .inr ⟨c :: front, .byte hc hcut, .inl (congrArg (c :: ·) heq)⟩
    · exact .inr ⟨c :: front, .byte hc hcut, .inr ⟨d, congrArg (c :: ·) heq⟩⟩

/-- No escape reaches over the end of a text that is cut completely. -/
theorem WellCut.unescape_append {front : Bytes} (h : WellCut front) (behind : UInt8) (s : Bytes) :
    unescape behind (front ++ s) = unescape behind front ++ unescape behind s := by
  induction h with
  | nil => rw [List.nil_append, unescape_nil, List.nil_append]
  | byte hc _ ih => rw [List.cons_append, unescape_cons hc, unescape_cons hc, ih, List.cons_append]
  | escape a b _ ih =>
    rw [List.cons_append, unescape_percent, unescape_percent]
    exact congrArg (List.cons _) ih

/-- What lies behind a text that is cut completely does not matter. -/
theorem WellCut.unescape_eq {front : Bytes} (h : WellCut front) (behind behind' : UInt8) :
    unescape behind front = unescape behind' front := by
  induction h with
  | nil => rw [unescape_nil, unescape_nil]
  | byte hc _ ih => rw [unescape_cons hc, unescape_cons hc, ih]
  | escape a b _ ih =>
    rw [unescape_percent, unescape_percent]
    exact congrArg (List.cons _) ih

/-- A `=` that follows shows, also where an escape takes it. -/
theorem weight_unescape_equals (s t : Bytes) :
    weight (unescape 0 s) < weight (unescape 0 (s ++ 61 :: t)) := by
  refine (unescape_append s (61 :: t)).resolve_left fun h => ?_
  rcases wellCut_or s with hcut | ⟨front, hcut, rfl | ⟨c, rfl⟩⟩
  · rw [hcut.unescape_append 0, unescape_cons (by decide)] at h
    exact absurd (List.append_right_eq_self.1 h.symm) (List.cons_ne_nil _ _)
  · rw [List.append_assoc, hcut.unescape_append 0, hcut.unescape_append 0, List.append_cancel_left_eq,
      List.singleton_append, unescape_zero_percent, unescape_zero_percent, List.cons.injEq] at h
    have hvalue : (0 : UInt8) = hex2dec 61 <<< 4 ||| hex2dec (t.getD 0 0) := h.1
    have hle : hex2dec 61 <<< 4 ≤ 0 := hvalue ▸ le_or_byte (hex2dec 61 <<< 4) _
    exact absurd hle (by decide)
  · rw [List.append_assoc, hcut.unescape_append 0, hcut.unescape_append 0, List.append_cancel_left_eq,
      List.cons_append, unescape_zero_percent, unescape_zero_percent, List.cons.injEq] at h
    have hvalue : hex2dec c <<< 4 ||| (0 : UInt8) = hex2dec c <<< 4 ||| (61 : UInt8) := h.1
    have hodd : ∀ k : Fin 256,
        UInt8.ofNat k <<< 4 ||| (0 : UInt8) ≠ UInt8.ofNat k <<< 4 ||| (61 : UInt8) := by
      decide +kernel
    have hk := hodd ⟨(hex2dec c).toNat, (hex2dec c).toNat_lt⟩
    rw [UInt8.ofNat_toNat] at hk
    exact hk hvalue

/-- Only of nothing nothing is read. -/
theorem unescape_eq_nil_iff {behind : UInt8} {s : Bytes} : unescape behind s = [] ↔ s = [] := by
  constructor
  · intro h
    cases s with
    | nil => rfl
    | cons c s =>
      rw [unescape] at h
      split at h <;> cases h
  · rintro rfl
    exact unescape_nil

/-! ### White space around a text -/

/-- White space in front of a text is read as it is. -/
theorem unescape_blank {blank : Bytes} (h : ∀ c ∈ blank, isSpace c = true) (s : Bytes) :
    unescape 0 (blank ++ s) = blank ++ unescape 0 s := by
  induction blank with
  | nil => rfl
  | cons c blank ih =>
    have hc : c ≠ 37 := by
      rintro rfl
      exact absurd (h 37 List.mem_cons_self) (by decide)
    rw [List.cons_append, unescape_cons hc, ih fun d hd => h d (List.mem_cons_of_mem _ hd)]
    rfl

/-- Trimming a text never adds to its weight. -/
theorem unescape_trimCopy (s : Bytes) :
    unescape 0 (trimCopy s) = unescape 0 s ∨ weight (unescape 0 (trimCopy s)) < weight (unescape 0 s) := by
  obtain ⟨a, b, hs, ha, -⟩ := exists_trimCopy s
  have happend := unescape_append (trimCopy s) b
  rw [List.append_assoc] at hs
  rw [← hs, unescape_blank ha, hs]
  cases a with
  | nil => exact happend
  | cons c a =>
    right
    refine weight_lt_of_length_lt ?_
    have hle := length_unescape_le (trimCopy s) b
    simp
    omega

/-- White space around the text does not show when its escapes are undone: there is none, or there is
one space, at the end, which is the second digit of the last escape and changes nothing in its value. -/
def TrimUnseen (text : Bytes) : Prop :=
  trimCopy text = text ∨
    (∀ c ∈ text.head?, isSpace c = false) ∧ ∃ front c, WellCut front ∧
      isSpace c = false ∧ hex2dec c &&& 2 = 2 ∧ text = front ++ [37, c, 32]

/-- White space as the second digit of an escape shows, unless it is a space behind a digit with the
bit that a space sets. -/
theorem shiftLeft_or_space : ∀ k : Fin 256, ∀ w ∈ ([9, 10, 11, 12, 13, 32] : Bytes),
    (UInt8.ofNat k <<< 4 ||| w = UInt8.ofNat k <<< 4 ↔ w = 32 ∧ UInt8.ofNat k &&& 2 = 2) := by
  decide +kernel

/-- The white space, all of which `hex2dec` leaves as it is. -/
theorem mem_of_isSpace {w : UInt8} (hw : isSpace w = true) :
    w ∈ ([9, 10, 11, 12, 13, 32] : Bytes) ∧ hex2dec w = w := by
  have hall : ∀ k : Fin 256, isSpace (UInt8.ofNat k) = true →
      UInt8.ofNat k ∈ ([9, 10, 11, 12, 13, 32] : Bytes) ∧ hex2dec (UInt8.ofNat k) = UInt8.ofNat k := by
    decide +kernel
  have hk := hall ⟨w.toNat, w.toNat_lt⟩
  rw [UInt8.ofNat_toNat] at hk
  exact hk hw

/-- White space changes nothing in an escape only as `shiftLeft_or_space` says. -/
theorem escape_space_iff (v : UInt8) {w : UInt8} (hw : isSpace w = true) :
    v <<< 4 ||| hex2dec w = v <<< 4 ↔ w = 32 ∧ v &&& 2 = 2 := by
  have hall := shiftLeft_or_space ⟨v.toNat, v.toNat_lt⟩ w (mem_of_isSpace hw).1
  rw [UInt8.ofNat_toNat] at hall
  rw [(mem_of_isSpace hw).2]
  exact hall

/-- White space is read as it is. -/
theorem unescape_blank_eq {blank : Bytes} (h : ∀ c ∈ blank, isSpace c = true) :
    unescape 0 blank = blank := by
  have hall := unescape_blank h []
  rwa [List.append_nil, unescape_nil, List.append_nil] at hall

/-- White space behind a text does not show exactly where an escape takes it without effect. -/
theorem unescape_append_blank_iff {s b : Bytes} (hb : ∀ c ∈ b, isSpace c = true) :
    unescape 0 (s ++ b) = unescape 0 s ↔
      b = [] ∨ b = [32] ∧ ∃ front, WellCut front ∧
        (s = front ++ [37] ∨ ∃ c, hex2dec c &&& 2 = 2 ∧ s = front ++ [37, c]) := by
  constructor
  · intro h
    cases b with
    | nil => exact .inl rfl
    | cons w b =>
      have hw := hb w List.mem_cons_self
      rcases wellCut_or s with hcut | ⟨front, hcut, rfl | ⟨c, rfl⟩⟩
      · rw [hcut.unescape_append 0, unescape_blank_eq hb] at h
        exact absurd (List.append_right_eq_self.1 h) (List.cons_ne_nil _ _)
      · -- the white space is both digits of the escape
        rw [List.append_assoc, hcut.unescape_append 0, hcut.unescape_append 0, List.append_cancel_left_eq,
          List.singleton_append, unescape_zero_percent, unescape_zero_percent, List.cons.injEq] at h
        have hvalue : hex2dec w <<< 4 ||| hex2dec (b.getD 0 0) = 0 := h.1
        rw [(mem_of_isSpace hw).2] at hvalue
        cases b with
        | nil =>
          have hspace : ∀ d ∈ ([9, 10, 11, 12, 13, 32] : Bytes),
              d <<< 4 ||| hex2dec 0 = 0 → d = 32 := List.all_iff_forall_prop.1 (by decide)
          cases hspace w (mem_of_isSpace hw).1 hvalue
          exact .inr ⟨rfl, front, hcut, .inl rfl⟩
        | cons d b =>
          have hd := mem_of_isSpace (hb d (List.mem_cons_of_mem _ List.mem_cons_self))
          have hle : d ≤ 0 := by
            rw [List.getD_cons_zero, hd.2, UInt8.or_comm] at hvalue
            exact hvalue ▸ le_or_byte d (w <<< 4)
          have hpos : ∀ d ∈ ([9, 10, 11, 12, 13, 32] : Bytes), ¬ d ≤ 0 :=
            List.all_iff_forall_prop.1 (by decide)
          exact absurd hle (hpos d hd.1)
      · rw [List.append_assoc, hcut.unescape_append 0, hcut.unescape_append 0, List.append_cancel_left_eq,
          List.cons_append, unescape_zero_percent, unescape_zero_percent, List.cons.injEq] at h
        have hvalue : hex2dec c <<< 4 ||| hex2dec w = hex2dec c <<< 4 ||| hex2dec 0 := h.1
        have hrest : unescape 0 b = [] := h.2.trans unescape_nil
        rw [unescape_blank_eq fun d hd => hb d (List.mem_cons_of_mem _ hd)] at hrest
        rw [show hex2dec 0 = 0 from rfl, UInt8.or_zero, escape_space_iff _ hw] at hvalue
        rw [hrest, hvalue.1]
        exact .inr ⟨rfl, front, hcut, .inr ⟨c, hvalue.2, rfl⟩⟩
  · rintro (rfl | ⟨rfl, front, hcut, rfl | ⟨c, hc, rfl⟩⟩)
    · rw [List.append_nil]
    · rw [List.append_assoc, hcut.unescape_append 0, hcut.unescape_append 0, List.append_cancel_left_eq]
      rw [List.singleton_append, unescape_zero_percent, unescape_zero_percent]
      rfl
    · rw [List.append_assoc, hcut.unescape_append 0, hcut.unescape_append 0, List.append_cancel_left_eq]
      rw [List.cons_append, unescape_zero_percent, unescape_zero_percent]
      have hvalue : hex2dec c <<< 4 ||| hex2dec 32 = hex2dec c <<< 4 ||| hex2dec 0 := by
        rw [show hex2dec 0 = 0 from rfl, UInt8.or_zero]
        exact (escape_space_iff _ rfl).2 ⟨rfl, hc⟩
      exact congrArg (· :: unescape 0 []) hvalue

/-- A space that is the second digit of an escape without effect on its value, whatever lies behind the
text. -/
theorem unescape_append_space {front : Bytes} (hcut : WellCut front) {c : UInt8}
    (hc : hex2dec c &&& 2 = 2) (behind behind' : UInt8) :
    unescape behind (front ++ [37, c]) = unescape behind' (front ++ [37, c, 32]) := by
  have hvalue : hex2dec c <<< 4 ||| hex2dec 0 = hex2dec c <<< 4 ||| hex2dec 32 := by
    rw [show hex2dec 0 = 0 from rfl, UInt8.or_zero]
    exact ((escape_space_iff _ rfl).2 ⟨rfl, hc⟩).symm
  have hescape : unescape behind [37, c] = unescape behind' [37, c, 32] := by
    rw [unescape_percent, unescape_percent, List.drop_succ_cons, List.drop_nil, List.drop_succ_cons,
      List.drop_succ_cons, List.drop_nil, unescape_nil, unescape_nil]
    exact congrArg (· :: []) hvalue
  rw [hcut.unescape_append, hcut.unescape_append, hcut.unescape_eq behind behind', hescape]

/-- Where trimming does not show, it shows on no platform. -/
theorem TrimUnseen.urlDecode_trimCopy [Platform] {s : Bytes} (h : TrimUnseen s) :
    urlDecode (trimCopy s) = urlDecode s := by
  rcases h with heq | ⟨hhead, front, c, hcut, hc, hbit, rfl⟩
  · rw [heq]
  · have htext : front ++ [37, c, 32] = front ++ [37, c] ++ [32] := by
      rw [List.append_assoc]
      rfl
    have hhead' : ∀ d ∈ (front ++ [37, c]).head?, isSpace d = false := by
      rwa [htext, List.head?_append_of_ne_nil _ (by simp)] at hhead
    have htrim : trimCopy (front ++ [37, c, 32]) = front ++ [37, c] := by
      rw [htext]
      exact trimCopy_blank (List.forall_mem_nil _) (List.forall_mem_singleton.2 rfl) (by simp)
        (trimCopy_eq_self hhead' (by simp [hc]))
    rw [htrim, urlDecode_eq_unescape, urlDecode_eq_unescape]
    exact unescape_append_space hcut hbit _ _

/-- The sum of the bytes. -/
def sumBytes (text : Bytes) : Nat := (text.map UInt8.toNat).sum

/-- Trimming that does not show where NUL lies behind the text does not show at all, or it shows where
another byte lies there: a `%` that lost the space behind it takes that byte. -/
theorem trimUnseen_or_lt {s : Bytes} (h : unescape 0 (trimCopy s) = unescape 0 s) :
    TrimUnseen s ∨ sumBytes (unescape 1 s) < sumBytes (unescape 1 (trimCopy s)) := by
  obtain ⟨a, b, hs, ha, hb⟩ := exists_trimCopy s
  have htrim := isSpace_of_trimCopy_eq_self (trimCopy_trimCopy s)
  have hfront : a = [] := by
    rw [List.append_assoc] at hs
    rw [← hs, unescape_blank ha, hs] at h
    have hlength := congrArg List.length h
    rw [List.length_append] at hlength
    exact List.eq_nil_of_length_eq_zero (by have := length_unescape_le (trimCopy s) b; omega)
  subst hfront
  rw [List.nil_append] at hs
  have hblank : unescape 0 (trimCopy s ++ b) = unescape 0 (trimCopy s) := by rw [hs, h]
  rcases (unescape_append_blank_iff hb).1 hblank with rfl | ⟨rfl, front, hcut, heq | ⟨c, hbit, heq⟩⟩
  · rw [List.append_nil] at hs
    exact .inl (.inl hs)
  · right
    have htext : s = front ++ [37, 32] := by
      rw [← hs, heq, List.append_assoc]
      rfl
    rw [heq, htext, hcut.unescape_append, hcut.unescape_append, unescape_percent, unescape_percent]
    simp only [List.drop_nil, List.drop_succ_cons, unescape_nil, sumBytes, List.map_append,
      List.sum_append]
    exact Nat.add_lt_add_left (by decide) _
  · left
    have hne : trimCopy s ≠ [] := by simp [heq]
    refine .inr ⟨?_, front, c, hcut, htrim.2 c ?_, hbit, ?_⟩
    · rw [← hs, List.head?_append_of_ne_nil _ hne]
      exact htrim.1
    · rw [heq]
      simp
    · rw [← hs, heq, List.append_assoc]
      rfl

namespace QueryParams

/-! ## What a query string means -/

/-- The key of a piece: what stands in front of its first `=`. -/
def keyText (piece : Bytes) : Bytes := piece.takeWhile (· != 61)

/-- The value of a piece: what stands behind its first `=`, or nothing. -/
def valueText (piece : Bytes) : Bytes := (piece.dropWhile (· != 61)).tail

/-- The pair that a piece stands for. -/
def pairOf [Platform] (piece : Bytes) : Bytes × Bytes :=
  (urlDecode (keyText piece), urlDecode (valueText piece))

/-- The pieces between `&` characters that are not empty. -/
def nonEmptyPieces (content : Bytes) : List Bytes := (content.splitOn 38).filter (· ≠ [])

/-- A piece whose pair `decode` finds: no further `=` in the value, no value behind an empty key, and no
white space that trimming takes away from the key or the value so that it shows. -/
def Faithful (piece : Bytes) : Prop :=
  (61 : UInt8) ∉ valueText piece ∧ (keyText piece = [] → valueText piece = []) ∧
    TrimUnseen (keyText piece) ∧ TrimUnseen (valueText piece)

/-- A piece is cut at its first `=`. -/
theorem keyText_valueText_append {a : Bytes} (h : (61 : UInt8) ∉ a) (r : Bytes) :
    keyText (a ++ 61 :: r) = a ∧ valueText (a ++ 61 :: r) = r := by
  have ha : ∀ c ∈ a, (c != 61) = true := by
    intro c hc
    exact bne_iff_ne.2 fun heq => h (heq ▸ hc)
  rw [keyText, valueText, List.takeWhile_append_of_pos ha, List.dropWhile_append_of_pos ha]
  simp

/-- A piece without `=` is a key. -/
theorem keyText_valueText_eq {p : Bytes} (h : (61 : UInt8) ∉ p) :
    keyText p = p ∧ valueText p = [] := by
  have hp : ∀ c ∈ p, (c != 61) = true := by
    intro c hc
    exact bne_iff_ne.2 fun heq => h (heq ▸ hc)
  rw [keyText, valueText, List.takeWhile_eq_self_iff.2 hp, List.dropWhile_eq_nil_iff.2 hp]
  exact ⟨rfl, rfl⟩

/-- White space is no `=`. -/
theorem not_mem_blank {blank : Bytes} (h : ∀ c ∈ blank, isSpace c = true) : (61 : UInt8) ∉ blank := by
  intro hmem
  exact absurd (h 61 hmem) (by decide)

/-! ## What `decode` makes of a piece -/

/-- The pair of one or two pieces, trimmed. -/
def pairOfPieces [Platform] : List Bytes → Option (Bytes × Bytes)
  | [key] => some (urlDecode (trimCopy key), [])
  | [key, val] => some (urlDecode (trimCopy key), urlDecode (trimCopy val))
  | _ => none

@[simp] theorem urlDecode_nil [Platform] : urlDecode [] = [] := rfl

/-- What `decode` makes of a text, by its pieces between `=` characters. -/
theorem decodePair_eq [Platform] {t : Bytes} (h : t ≠ []) :
    decodePair t = pairOfPieces (dropLastEmpty ((stripLeading 61 t).splitOn 61)) := by
  rw [decodePair, show bytes "=" = [61] from rfl, split_singleton h]
  rcases dropLastEmpty ((stripLeading 61 t).splitOn 61) with _ | ⟨k, _ | ⟨v, _ | ⟨x, rest⟩⟩⟩ <;>
    simp [pairOfPieces]

/-- The text in front of the first `=` is not empty. -/
theorem decodePair_append [Platform] {a r : Bytes} (hne : a ≠ []) (ha : (61 : UInt8) ∉ a) :
    decodePair (a ++ 61 :: r) = pairOfPieces (dropLastEmpty (a :: r.splitOn 61)) := by
  have hstrip : stripLeading 61 (a ++ 61 :: r) = a ++ 61 :: r := by
    refine if_neg fun hhead => ha ?_
    rw [List.head?_append_of_ne_nil _ hne] at hhead
    exact List.mem_of_head? hhead
  rw [decodePair_eq (by simp), hstrip, List.splitOn_append_cons_self_of_not_mem ha]

/-- The text begins with the `=`, which is dropped. -/
theorem decodePair_cons [Platform] (r : Bytes) :
    decodePair (61 :: r) = pairOfPieces (dropLastEmpty (r.splitOn 61)) := by
  rw [decodePair_eq (List.cons_ne_nil _ _)]
  rfl

/-- The pieces that give a pair: one, or two, and perhaps an empty one behind them. -/
theorem pairOfPieces_dropLastEmpty [Platform] {ps : List Bytes} {q : Bytes × Bytes}
    (h : pairOfPieces (dropLastEmpty ps) = some q) :
    (∃ k, (ps = [k] ∨ ps = [k, []]) ∧ q = (urlDecode (trimCopy k), [])) ∨
      ∃ k v, (ps = [k, v] ∧ v ≠ [] ∨ ps = [k, v, []]) ∧
        q = (urlDecode (trimCopy k), urlDecode (trimCopy v)) := by
  rcases ps with _ | ⟨k, _ | ⟨v, _ | ⟨x, _ | ⟨y, rest⟩⟩⟩⟩
  · cases h
  · exact .inl ⟨k, .inl rfl, (Option.some.inj h).symm⟩
  · by_cases hv : v = []
    · subst hv
      exact .inl ⟨k, .inr rfl, (Option.some.inj h).symm⟩
    · have hkeep : dropLastEmpty [k, v] = [k, v] := if_neg fun hlast => hv (by simpa using hlast.2)
      rw [hkeep] at h
      exact .inr ⟨k, v, .inl ⟨rfl, hv⟩, (Option.some.inj h).symm⟩
  · by_cases hx : x = []
    · subst hx
      exact .inr ⟨k, v, .inr rfl, (Option.some.inj h).symm⟩
    · have hkeep : dropLastEmpty [k, v, x] = [k, v, x] :=
        if_neg fun hlast => hx (by simpa using hlast.2)
      rw [hkeep] at h
      cases h
  · rw [dropLastEmpty] at h
    split at h <;> simp [pairOfPieces] at h

/-! ## Pairs by their weight -/

/-- Pairs are ordered by the length of their value; among those of the same length, a value under the
empty key comes last; then by the key, and by the value. -/
def weighPair (pair : Bytes × Bytes) : Nat ×ₗ Nat ×ₗ (Nat ×ₗ Nat) ×ₗ (Nat ×ₗ Nat) :=
  toLex (pair.2.length, toLex (if pair.1 = [] ∧ pair.2 ≠ [] then 1 else 0,
    toLex (weight pair.1, weight pair.2)))

/-- A pair with a shorter value is lighter. -/
theorem weighPair_lt_of_length_lt {q r : Bytes × Bytes} (h : q.2.length < r.2.length) :
    weighPair q < weighPair r := Prod.Lex.toLex_lt_toLex.2 (.inl h)

/-- Where the values are of the same length and both keys stand for themselves. -/
theorem weighPair_lt {q r : Bytes × Bytes} (hq : q.1 ≠ [] ∨ q.2 = []) (hr : r.1 ≠ [] ∨ r.2 = [])
    (hlength : q.2.length ≤ r.2.length)
    (h : weight q.1 < weight r.1 ∨ weight q.1 = weight r.1 ∧ weight q.2 < weight r.2) :
    weighPair q < weighPair r := by
  rcases Nat.lt_or_eq_of_le hlength with hlt | heq
  · exact weighPair_lt_of_length_lt hlt
  · have hmark : ∀ s : Bytes × Bytes, s.1 ≠ [] ∨ s.2 = [] → ¬ (s.1 = [] ∧ s.2 ≠ []) := by
      rintro s (hs | hs) ⟨hkey, hval⟩
      · exact hs hkey
      · exact hval hs
    rw [weighPair, weighPair, if_neg (hmark q hq), if_neg (hmark r hr)]
    exact Prod.Lex.toLex_lt_toLex.2 (.inr ⟨heq, Prod.Lex.toLex_lt_toLex.2
      (.inr ⟨rfl, Prod.Lex.toLex_lt_toLex.2 h⟩)⟩)

/-- A text without the white space around it is not read as more bytes. -/
theorem length_unescape_trimCopy_le (s : Bytes) :
    (unescape 0 (trimCopy s)).length ≤ (unescape 0 s).length := by
  rcases unescape_trimCopy s with heq | hlt
  · rw [heq]
  · exact length_le_of_weight_lt hlt

/-- A key and a value that are only trimmed: the pair is the same, or weighs less. -/
theorem trimmed_eq_or_lt {key val : Bytes} (hkey : trimCopy key ≠ []) :
    unescape 0 (trimCopy key) = unescape 0 key ∧ unescape 0 (trimCopy val) = unescape 0 val ∨
      weighPair (unescape 0 (trimCopy key), unescape 0 (trimCopy val)) <
        weighPair (unescape 0 key, unescape 0 val) := by
  have hne : key ≠ [] := by
    rintro rfl
    exact hkey rfl
  have hkeys : unescape 0 (trimCopy key) ≠ [] := unescape_eq_nil_iff.not.2 hkey
  have hkeys' : unescape 0 key ≠ [] := unescape_eq_nil_iff.not.2 hne
  rcases unescape_trimCopy key with hk | hk
  · rcases unescape_trimCopy val with hv | hv
    · exact .inl ⟨hk, hv⟩
    · exact .inr (weighPair_lt (.inl hkeys) (.inl hkeys') (length_unescape_trimCopy_le val)
        (.inr ⟨congrArg weight hk, hv⟩))
  · exact .inr (weighPair_lt (.inl hkeys) (.inl hkeys') (length_unescape_trimCopy_le val) (.inl hk))

/-- A text that is one piece has no `=`. -/
theorem of_splitOn_eq_singleton {r v : Bytes} (h : r.splitOn 61 = [v]) : (61 : UInt8) ∉ r ∧ r = v := by
  have hr : [(61 : UInt8)].intercalate (r.splitOn 61) = r := List.intercalate_splitOn 61
  have hv : v = r := by simpa [h] using hr
  have hin : v ∈ r.splitOn 61 := by
    rw [h]
    exact List.mem_singleton_self v
  exact ⟨hv ▸ not_mem_of_mem_splitOn hin, hv.symm⟩

/-- A text of several pieces begins with two of them. -/
theorem eq_of_splitOn_eq_cons_cons {r k v : Bytes} {rest : List Bytes} (h : r.splitOn 61 = k :: v :: rest) :
    r = k ++ 61 :: [(61 : UInt8)].intercalate (v :: rest) := by
  have hr : [(61 : UInt8)].intercalate (r.splitOn 61) = r := List.intercalate_splitOn 61
  rw [h] at hr
  rw [← hr]
  simp [List.intercalate]

/-- A pair whose key is not empty: its value has no further `=`, or one at its end that is dropped. -/
theorem decodePair_append_cases [Platform] {a r : Bytes} {q : Bytes × Bytes} (hne : a ≠ [])
    (ha : (61 : UInt8) ∉ a) (h : decodePair (a ++ 61 :: r) = some q) :
    (61 : UInt8) ∉ r ∧ q = (urlDecode (trimCopy a), urlDecode (trimCopy r)) ∨
      ∃ v, r = v ++ [61] ∧ q = (urlDecode (trimCopy a), urlDecode (trimCopy v)) := by
  rw [decodePair_append hne ha] at h
  rcases pairOfPieces_dropLastEmpty h with ⟨k, hps | hps, rfl⟩ | ⟨k, v, ⟨hps, -⟩ | hps, rfl⟩ <;>
    obtain ⟨rfl, hrest⟩ := List.cons.inj hps
  · exact absurd hrest (List.splitOn_ne_nil _ _)
  · obtain ⟨hmem, rfl⟩ := of_splitOn_eq_singleton hrest
    exact .inl ⟨hmem, by simp⟩
  · obtain ⟨hmem, rfl⟩ := of_splitOn_eq_singleton hrest
    exact .inl ⟨hmem, rfl⟩
  · exact .inr ⟨v, by simpa [List.intercalate] using eq_of_splitOn_eq_cons_cons hrest, rfl⟩

/-- A piece and its trim, by the first `=`. A key that is not empty in the trim begins there. -/
theorem piece_cases (p : Bytes) :
    ((61 : UInt8) ∉ trimCopy p ∧ keyText p = p ∧ valueText p = []) ∨
      ∃ a key r b, (∀ c ∈ a, isSpace c = true) ∧ (∀ c ∈ b, isSpace c = true) ∧
        trimCopy p = key ++ 61 :: r ∧ (61 : UInt8) ∉ key ∧ keyText p = a ++ key ∧
        valueText p = r ++ b ∧ (trimCopy key = [] → key = []) := by
  obtain ⟨a, b, hp, ha, hb⟩ := exists_trimCopy p
  by_cases hmem : (61 : UInt8) ∈ trimCopy p
  · right
    obtain ⟨key, r, heq, hkey⟩ := List.eq_append_cons_of_mem hmem
    have hkeyval := keyText_valueText_append (a := a ++ key)
      (by rw [List.mem_append, not_or]; exact ⟨not_mem_blank ha, hkey⟩) (r ++ b)
    have hpiece : a ++ key ++ 61 :: (r ++ b) = p := by
      rw [← hp, heq]
      simp
    rw [hpiece] at hkeyval
    refine ⟨a, key, r, b, ha, hb, heq, hkey, hkeyval.1, hkeyval.2, fun hnil => ?_⟩
    cases key with
    | nil => rfl
    | cons c key =>
      have hhead := (isSpace_of_trimCopy_eq_self (trimCopy_trimCopy p)).1
      rw [heq] at hhead
      have hc := hhead c rfl
      rw [isSpace_of_trimCopy_eq_nil hnil List.mem_cons_self] at hc
      cases hc
  · left
    have hmemp : (61 : UInt8) ∉ p := by
      rw [← hp, List.mem_append, List.mem_append, not_or, not_or]
      exact ⟨⟨not_mem_blank ha, hmem⟩, not_mem_blank hb⟩
    exact ⟨hmem, keyText_valueText_eq hmemp⟩

/-- A trimmed piece without `=`. -/
theorem decodePair_of_not_mem [Platform] {t : Bytes} (hne : t ≠ []) (hmem : (61 : UInt8) ∉ t) :
    decodePair t = some (urlDecode (trimCopy t), []) := by
  have hstrip : stripLeading 61 t = t := if_neg fun hhead => hmem (List.mem_of_head? hhead)
  rw [decodePair_eq hne, hstrip, List.splitOn_eq_singleton hmem, dropLastEmpty_singleton, pairOfPieces]

/-- A piece that is read as it stands: no further `=` in the value, no value behind an empty key, and
nothing that trimming takes away from the key or the value shows where NUL lies behind them. -/
structure ReadsAlike (piece : Bytes) : Prop where
  single : (61 : UInt8) ∉ valueText piece
  empty : keyText piece = [] → valueText piece = []
  key : unescape 0 (trimCopy (keyText piece)) = unescape 0 (keyText piece)
  value : unescape 0 (trimCopy (valueText piece)) = unescape 0 (valueText piece)

section Plain

open scoped Platform.Plain

/-- The decoder where NUL lies behind every text. -/
theorem urlDecode_plain (text : Bytes) : urlDecode text = unescape 0 text := urlDecode_eq_unescape text

/-- A piece with something in front of its first `=`. -/
theorem readsAlike_or_lt_append {p a r : Bytes} {q : Bytes × Bytes} (ha : (61 : UInt8) ∉ a)
    (htrim : trimCopy a ≠ []) (hkey : trimCopy (keyText p) = trimCopy a)
    (hval : ∃ b, valueText p = r ++ b ∧ ∀ c ∈ b, isSpace c = true)
    (h : decodePair (a ++ 61 :: r) = some q) :
    ReadsAlike p ∨ weighPair q < weighPair (pairOf p) := by
  have hne : a ≠ [] := by
    rintro rfl
    exact htrim rfl
  have hne' : keyText p ≠ [] := by
    intro hnil
    rw [hnil, trimCopy_nil] at hkey
    exact htrim hkey.symm
  obtain ⟨b, hval, hb⟩ := hval
  have hcases := decodePair_append_cases hne ha h
  simp only [urlDecode_plain] at hcases
  rw [pairOf, urlDecode_plain, urlDecode_plain]
  rcases hcases with ⟨hmem, rfl⟩ | ⟨v, rfl, rfl⟩
  · have hr : trimCopy (valueText p) = trimCopy r := by rw [hval, trimCopy_append_blank hb]
    rw [← hkey, ← hr]
    refine (trimmed_eq_or_lt (by rwa [hkey])).imp_left fun hsame => ⟨?_, ?_, hsame.1, hsame.2⟩
    · rw [hval, List.mem_append, not_or]
      exact ⟨hmem, not_mem_blank hb⟩
    · exact fun hnil => absurd hnil hne'
  · -- a `=` at the end of the value is dropped
    right
    have hlt : weight (unescape 0 (trimCopy v)) < weight (unescape 0 (valueText p)) := by
      rw [hval, List.append_assoc]
      rcases unescape_trimCopy v with heq | hlt
      · rw [heq]
        exact weight_unescape_equals v b
      · exact hlt.trans (weight_unescape_equals v b)
    refine weighPair_lt (.inl (unescape_eq_nil_iff.not.2 htrim)) (.inl (unescape_eq_nil_iff.not.2 hne'))
      (length_le_of_weight_lt hlt) ?_
    rw [← hkey]
    rcases unescape_trimCopy (keyText p) with hk | hk
    · exact .inr ⟨congrArg weight hk, hlt⟩
    · exact .inl hk

/-- White space weighs more than the NUL that an escape at the end stands for. -/
theorem weight_nul_lt {c : UInt8} {a : Bytes} (hc : isSpace c = true) : weight [0] < weight (c :: a) := by
  have hpos : ∀ d ∈ ([9, 10, 11, 12, 13, 32] : Bytes), 0 < d.toNat :=
    List.all_iff_forall_prop.1 (by decide)
  have hlt := hpos c (mem_of_isSpace hc).1
  rw [weight_lt_iff]
  cases a with
  | nil =>
    simp
    omega
  | cons d a => simp

/-- The `=` behind the first text is taken for the first one: the key `k` in front of it is dropped from
the value, or is a single `%`, which then stands in front of the value as NUL. -/
theorem weighPair_lt_behind {a k v r : Bytes} (ha : ∀ c ∈ a, isSpace c = true)
    (hle : (unescape 0 (trimCopy v)).length ≤ (unescape 0 r).length) :
    weighPair (unescape 0 (trimCopy k), unescape 0 (trimCopy v)) <
      weighPair (a, unescape 0 (k ++ 61 :: r)) := by
  rcases length_unescape_behind k r with hlt | ⟨rfl, hle'⟩
  · exact weighPair_lt_of_length_lt (hle.trans_lt hlt)
  · have hzero : unescape 0 (trimCopy [37]) = [0] := by
      rw [show trimCopy [37] = [37] from rfl, unescape_zero_percent, List.drop_nil, unescape_nil]
      rfl
    have hne : unescape 0 ([37] ++ 61 :: r) ≠ [] := unescape_eq_nil_iff.not.2 (List.cons_ne_nil _ _)
    rw [hzero]
    cases a with
    | nil =>
      rcases Nat.lt_or_eq_of_le (hle.trans hle') with hlt | heq
      · exact weighPair_lt_of_length_lt hlt
      · refine Prod.Lex.toLex_lt_toLex.2 (.inr ⟨heq, Prod.Lex.toLex_lt_toLex.2 (.inl ?_)⟩)
        rw [if_neg fun hkey => List.cons_ne_nil _ _ hkey.1, if_pos ⟨rfl, hne⟩]
        exact Nat.zero_lt_one
    | cons c a =>
      exact weighPair_lt (.inl (List.cons_ne_nil _ _)) (.inl (List.cons_ne_nil _ _)) (hle.trans hle')
        (.inl (weight_nul_lt (ha c List.mem_cons_self)))

/-- A piece with nothing but white space `a` in front of its first `=`. -/
theorem readsAlike_or_lt_cons {p a r b : Bytes} {q : Bytes × Bytes} (ha : ∀ c ∈ a, isSpace c = true)
    (hkey : keyText p = a) (hval : valueText p = r ++ b)
    (h : decodePair (61 :: r) = some q) : ReadsAlike p ∨ weighPair q < weighPair (pairOf p) := by
  have hpair : pairOf p = (a, unescape 0 (r ++ b)) := by
    rw [pairOf, hkey, hval, urlDecode_plain, urlDecode_plain, unescape_blank_eq ha]
  rw [decodePair_cons] at h
  rw [hpair]
  rcases pairOfPieces_dropLastEmpty h with ⟨k, hps, rfl⟩ | ⟨k, v, hps, rfl⟩
  · -- what follows is no value, so it only fits where there is none
    rcases List.eq_nil_or_concat' (r ++ b) with hnil | ⟨init, last, hne⟩
    · have hk : k = [] := by
        obtain ⟨rfl, -⟩ := List.append_eq_nil_iff.1 hnil
        rcases hps with hps | hps
        · exact (List.cons.inj hps).1.symm
        · cases hps
      subst hk
      rw [hnil]
      cases a with
      | nil =>
        left
        have hvalue : valueText p = [] := hval.trans hnil
        refine ⟨?_, fun _ => hvalue, ?_, ?_⟩
        · rw [hvalue]
          exact List.not_mem_nil
        · rw [hkey]
          rfl
        · rw [hvalue]
          rfl
      | cons c a =>
        right
        refine weighPair_lt (.inr rfl) (.inr unescape_nil) (by simp) (.inl ?_)
        exact weight_lt_of_length_lt (by simp)
    · right
      refine weighPair_lt_of_length_lt (List.length_pos_of_ne_nil ?_)
      exact unescape_eq_nil_iff.not.2 (by rw [hne]; simp)
  · right
    obtain ⟨rest, hrest⟩ : ∃ rest, r = k ++ 61 :: (v ++ rest) := by
      rcases hps with ⟨hps, -⟩ | hps
      · exact ⟨[], by simpa [List.intercalate] using eq_of_splitOn_eq_cons_cons hps⟩
      · exact ⟨[61], by simpa [List.intercalate] using eq_of_splitOn_eq_cons_cons hps⟩
    have htext : r ++ b = k ++ 61 :: (v ++ (rest ++ b)) := by simp [hrest]
    rw [htext, urlDecode_plain, urlDecode_plain]
    exact weighPair_lt_behind ha ((length_unescape_trimCopy_le v).trans (length_unescape_le v _))

/-- **A piece that `decode` makes a pair of**: it is the pair the piece stands for, or weighs less. -/
theorem readsAlike_or_lt {p : Bytes} {q : Bytes × Bytes} (h : decodePair (trimCopy p) = some q) :
    ReadsAlike p ∨ weighPair q < weighPair (pairOf p) := by
  rcases piece_cases p with ⟨hmem, hkey, hval⟩ | ⟨a, key, r, b, ha, hb, heq, hmem, hkey, hval, hnil⟩
  · have hne : trimCopy p ≠ [] := by
      intro hnil
      rw [hnil] at h
      cases h
    rw [decodePair_of_not_mem hne hmem, trimCopy_trimCopy, urlDecode_plain] at h
    cases h
    have hcases := @trimmed_eq_or_lt p [] hne
    rw [trimCopy_nil, unescape_nil] at hcases
    rw [pairOf, hkey, hval, urlDecode_plain, urlDecode_plain, unescape_nil]
    refine hcases.imp_left fun hsame => ⟨?_, fun _ => hval, ?_, ?_⟩
    · rw [hval]
      exact List.not_mem_nil
    · rw [hkey]
      exact hsame.1
    · rw [hval, trimCopy_nil]
  · rw [heq] at h
    by_cases htrim : trimCopy key = []
    · rw [hnil htrim] at h hkey
      rw [List.append_nil] at hkey
      exact readsAlike_or_lt_cons ha hkey hval h
    · refine readsAlike_or_lt_append hmem htrim ?_ ⟨b, hval, hb⟩ h
      rw [hkey, trimCopy_blank_append ha]

end Plain

/-- **What `decode` makes of a piece** that has one value, and a key where it has one. -/
theorem decodePair_trimmed [Platform] {p : Bytes} (hne : p ≠ []) (hsingle : (61 : UInt8) ∉ valueText p)
    (hempty : keyText p = [] → valueText p = []) (hblank : trimCopy (keyText p) = [] → keyText p = []) :
    decodePair (trimCopy p) =
      some (urlDecode (trimCopy (keyText p)), urlDecode (trimCopy (valueText p))) := by
  rcases piece_cases p with ⟨hmem, hkey, hval⟩ | ⟨a, key, r, b, ha, hb, heq, hmem, hkey, hval, hnil⟩
  · rw [hkey] at hblank ⊢
    rw [decodePair_of_not_mem (mt hblank hne) hmem, hval, trimCopy_trimCopy, trimCopy_nil, urlDecode_nil]
  · have hr : trimCopy (valueText p) = trimCopy r := by rw [hval, trimCopy_append_blank hb]
    have hk : trimCopy (keyText p) = trimCopy key := by rw [hkey, trimCopy_blank_append ha]
    rw [hk] at hblank
    rw [hr, hk, heq]
    by_cases htrim : trimCopy key = []
    · -- nothing in front of the `=`, so nothing behind it
      have hvalnil := hempty (hblank htrim)
      rw [hval] at hvalnil
      rw [hnil htrim, (List.append_eq_nil_iff.1 hvalnil).1, trimCopy_nil, urlDecode_nil]
      rfl
    · have hkeyne : key ≠ [] := by
        rintro rfl
        exact htrim rfl
      have hmemr : (61 : UInt8) ∉ r := by
        rw [hval, List.mem_append, not_or] at hsingle
        exact hsingle.1
      rw [decodePair_append hkeyne hmem, List.splitOn_eq_singleton hmemr]
      by_cases hrnil : r = []
      · subst hrnil
        rw [trimCopy_nil, urlDecode_nil]
        rfl
      · rw [dropLastEmpty, if_neg fun hlast => hrnil (by simpa using hlast.2), pairOfPieces]

/-- Such a piece has its trimmed key and value on every platform. -/
theorem ReadsAlike.decodePair_eq [Platform] {p : Bytes} (h : ReadsAlike p) (hne : p ≠ []) :
    decodePair (trimCopy p) =
      some (urlDecode (trimCopy (keyText p)), urlDecode (trimCopy (valueText p))) := by
  refine decodePair_trimmed hne h.single h.empty fun hblank => ?_
  have hkey := h.key
  rw [hblank, unescape_nil] at hkey
  exact unescape_eq_nil_iff.1 hkey.symm

/-- **A piece that `decode` reads as it stands**, on every platform. -/
theorem decodePair_of_faithful [Platform] {p : Bytes} (hne : p ≠ []) (h : Faithful p) :
    decodePair (trimCopy p) = some (pairOf p) := by
  obtain ⟨hsingle, hempty, hkey, hval⟩ := h
  rw [decodePair_trimmed hne hsingle hempty ?_, hkey.urlDecode_trimCopy, hval.urlDecode_trimCopy, pairOf]
  intro hblank
  have hdecode := hkey.urlDecode_trimCopy
  rw [hblank, urlDecode_nil, urlDecode_eq_unescape] at hdecode
  exact unescape_eq_nil_iff.1 hdecode.symm

/-- What `decode` makes of a query string, piece by piece. -/
theorem decode_perm_filterMap [Platform] (content : Bytes) :
    (decode content).params.Perm
      ((nonEmptyPieces content).filterMap fun piece => decodePair (trimCopy piece)) := by
  have hpieces : (split content (bytes "&")).filterMap decodePair =
      (nonEmptyPieces content).filterMap fun piece => decodePair (trimCopy piece) := by
    rw [show bytes "&" = [38] from rfl, nonEmptyPieces, List.filterMap_filter]
    refine (filterMap_split rfl content 38).trans (List.filterMap_congr fun piece _ => ?_)
    by_cases hpiece : piece = []
    · subst hpiece
      rfl
    · simp [hpiece]
  rw [← hpieces]
  exact decode_perm content

theorem ne_nil_of_mem_nonEmptyPieces {content piece : Bytes} (h : piece ∈ nonEmptyPieces content) :
    piece ≠ [] := by
  simpa using (List.mem_filter.1 h).2

open scoped Platform.Plain in
/-- Where NUL lies behind every text, all pieces are read as they stand if the pairs are the right ones:
each pair that is not the one of its piece weighs less. -/
theorem readsAlike_of_perm {content : Bytes}
    (h : (decode content).params.Perm ((nonEmptyPieces content).map pairOf)) :
    ∀ piece ∈ nonEmptyPieces content, ReadsAlike piece := by
  replace h := (decode_perm_filterMap content).symm.trans h
  have hall : ∀ piece ∈ nonEmptyPieces content, (decodePair (trimCopy piece)).isSome := by
    have hlength := h.length_eq
    rw [List.length_map, List.length_filterMap_eq_countP, List.countP_eq_length] at hlength
    exact hlength
  have hmap : (nonEmptyPieces content).filterMap (fun piece => decodePair (trimCopy piece)) =
      (nonEmptyPieces content).map fun piece => (decodePair (trimCopy piece)).getD ([], []) := by
    rw [List.filterMap_eq_map_iff_forall_eq_some]
    intro piece hpiece
    obtain ⟨q, hq⟩ := Option.isSome_iff_exists.1 (hall piece hpiece)
    rw [hq]
    rfl
  have hweight : ∀ piece ∈ nonEmptyPieces content, ReadsAlike piece ∨
      weighPair ((decodePair (trimCopy piece)).getD ([], [])) < weighPair (pairOf piece) := by
    intro piece hpiece
    obtain ⟨q, hq⟩ := Option.isSome_iff_exists.1 (hall piece hpiece)
    rw [hq]
    exact readsAlike_or_lt hq
  have hread : ∀ piece ∈ nonEmptyPieces content, ReadsAlike piece →
      (decodePair (trimCopy piece)).getD ([], []) = pairOf piece := by
    intro piece hpiece halike
    rw [halike.decodePair_eq (ne_nil_of_mem_nonEmptyPieces hpiece), Option.getD_some, pairOf]
    simp only [urlDecode_plain, halike.key, halike.value]
  rw [hmap] at h
  have hsame := eq_of_perm_map (l := nonEmptyPieces content)
    (f := weighPair ∘ fun piece => (decodePair (trimCopy piece)).getD ([], []))
    (g := weighPair ∘ pairOf)
    (fun piece hpiece => (hweight piece hpiece).elim
      (fun halike => (congrArg weighPair (hread piece hpiece halike)).le) le_of_lt)
    (by rw [← List.map_map, ← List.map_map]; exact h.map weighPair)
  intro piece hpiece
  exact (hweight piece hpiece).resolve_right fun hlt => hlt.ne (hsame piece hpiece)

/-- A piece that is read as it stands where NUL lies behind its texts: it is so on every platform, or
another byte there adds to its pair. -/
theorem ReadsAlike.faithful_or_lt {piece : Bytes} (h : ReadsAlike piece) :
    Faithful piece ∨
      sumBytes (unescape 1 (keyText piece)) + sumBytes (unescape 1 (valueText piece)) <
        sumBytes (unescape 1 (trimCopy (keyText piece))) +
          sumBytes (unescape 1 (trimCopy (valueText piece))) := by
  have hle : ∀ {text : Bytes}, TrimUnseen text →
      sumBytes (unescape 1 text) ≤ sumBytes (unescape 1 (trimCopy text)) := by
    let := Platform.constant 1
    intro text hunseen
    have hdecode := hunseen.urlDecode_trimCopy
    rw [urlDecode_eq_unescape, urlDecode_eq_unescape] at hdecode
    exact (congrArg sumBytes hdecode).ge
  rcases trimUnseen_or_lt h.key with hkey | hkey <;> rcases trimUnseen_or_lt h.value with hval | hval
  · exact .inl ⟨h.single, h.empty, hkey, hval⟩
  · exact .inr (Nat.add_lt_add_of_le_of_lt (hle hkey) hval)
  · exact .inr (Nat.add_lt_add_of_lt_of_le hkey (hle hval))
  · exact .inr (Nat.add_lt_add hkey hval)

/-- Where 1 lies behind every text, such pieces have the right pairs only if no piece takes that byte. -/
theorem faithful_of_perm {content : Bytes}
    (halike : ∀ piece ∈ nonEmptyPieces content, ReadsAlike piece)
    (h : ∀ [Platform], (decode content).params.Perm ((nonEmptyPieces content).map pairOf)) :
    ∀ piece ∈ nonEmptyPieces content, Faithful piece := by
  let := Platform.constant 1
  let sumPair (pair : Bytes × Bytes) : Nat := sumBytes pair.1 + sumBytes pair.2
  let trimmed (piece : Bytes) : Bytes × Bytes :=
    (urlDecode (trimCopy (keyText piece)), urlDecode (trimCopy (valueText piece)))
  have hmap : (nonEmptyPieces content).filterMap (fun piece => decodePair (trimCopy piece)) =
      (nonEmptyPieces content).map trimmed := by
    rw [List.filterMap_eq_map_iff_forall_eq_some]
    intro piece hpiece
    exact (halike piece hpiece).decodePair_eq (ne_nil_of_mem_nonEmptyPieces hpiece)
  have hperm : ((nonEmptyPieces content).map pairOf).Perm ((nonEmptyPieces content).map trimmed) := by
    rw [← hmap]
    exact h.symm.trans (decode_perm_filterMap content)
  have hcases : ∀ piece ∈ nonEmptyPieces content,
      Faithful piece ∨ sumPair (pairOf piece) < sumPair (trimmed piece) := by
    intro piece hpiece
    have hsum := (halike piece hpiece).faithful_or_lt
    simp only [sumPair, trimmed, pairOf, urlDecode_eq_unescape]
    exact hsum
  have hsame := eq_of_perm_map (l := nonEmptyPieces content) (f := sumPair ∘ pairOf)
    (g := sumPair ∘ trimmed) (fun piece hpiece => (hcases piece hpiece).elim ?_ le_of_lt)
    (by rw [← List.map_map, ← List.map_map]; exact hperm.map sumPair)
  · intro piece hpiece
    exact (hcases piece hpiece).resolve_right fun hlt => hlt.ne (hsame piece hpiece)
  · rintro ⟨-, -, hkey, hval⟩
    exact (congrArg₂ (fun key val => sumPair (key, val)) hkey.urlDecode_trimCopy
      hval.urlDecode_trimCopy).ge

end QueryParams

open QueryParams in
/-- **Decoding any query string.** Whatever the platform is, `decode` yields one pair for each piece that
is not empty, with its key and its value, exactly if every such piece is `Faithful`. -/
theorem query_params_decode_iff (content : Bytes) :
    (∀ [Platform], (decode content).params.Perm ((nonEmptyPieces content).map pairOf)) ↔
      ∀ piece ∈ nonEmptyPieces content, Faithful piece := by
  constructor
  · intro h
    exact faithful_of_perm (readsAlike_of_perm (@h (.constant 0))) h
  · intro h _
    have hmap : (nonEmptyPieces content).filterMap (fun piece => decodePair (trimCopy piece)) =
        (nonEmptyPieces content).map pairOf := by
      rw [List.filterMap_eq_map_iff_forall_eq_some]
      intro piece hpiece
      exact decodePair_of_faithful (ne_nil_of_mem_nonEmptyPieces hpiece) (h piece hpiece)
    rw [← hmap]
    exact decode_perm_filterMap content

open scoped Platform.Plain in
/-- A value with `=` at its end, as base64 has them: the pair is dropped. -/
theorem query_params_decode_base64 :
    let content := bytes "token=YQ==&n=1"
    (QueryParams.decode content).params = [(bytes "n", bytes "1")] ∧
      ¬ (QueryParams.decode content).params.Perm
        ((QueryParams.nonEmptyPieces content).map QueryParams.pairOf) := by
  refine ⟨by decide, fun hperm => ?_⟩
  exact absurd hperm.length_eq (by decide)

end Httplib
