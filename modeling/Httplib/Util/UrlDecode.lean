import Httplib.Util.Url

/-!
# The decoder on any string

`util::url_decode` (`misc.hpp:61`) on strings that nobody encoded. The loop moves its reading index
over the two bytes behind a `%` without a look at the length. `UrlDecoder` is the loop with the
accesses it makes; `url_decode_in_bounds_iff` says which strings keep them in bounds. `unescape` is what
the loop computes, by the structure of the string.
-/

namespace Httplib

/-- An access of the decoder to the string: `str[i]` read or written. -/
inductive Access where
  | read (i : Nat)
  | write (i : Nat)
deriving DecidableEq

/-- The index of an access. -/
def Access.index : Access → Nat
  | .read i | .write i => i

/-- The decoder between two turns of its loop. -/
structure UrlDecoder where
  behind : UInt8
  str : Bytes
  r : Nat := 0
  w : Nat := 0
  accesses : List Access := []

namespace UrlDecoder

/-- One turn of the loop (`misc.hpp:64`), with its accesses in order. -/
def turn (d : UrlDecoder) : UrlDecoder :=
  let at_ (i : Nat) := charAt d.behind d.str i
  if at_ d.r = 37 then
    let v := hex2dec (at_ (d.r + 1)) <<< 4 ||| hex2dec (at_ (d.r + 2))
    { d with
      str := d.str.set d.w v, r := d.r + 3, w := d.w + 1,
      accesses := d.accesses ++
        [.read d.r, .read d.r, .read (d.r + 1), .read (d.r + 2), .write d.w] }
  else
    { d with
      str := d.str.set d.w (at_ d.r), r := d.r + 1, w := d.w + 1,
      accesses := d.accesses ++ [.read d.r, .read d.r, .write d.w] }

/-- The loop. -/
def run : Nat → UrlDecoder → UrlDecoder
  | 0, d => d
  | turns + 1, d => if d.r < d.str.length then run turns d.turn else d

end UrlDecoder

/-- The decoder in front of its loop. -/
def urlDecodeStart [Platform] (str : Bytes) : UrlDecoder := { behind := Platform.behind str, str }

/-- The decoder when its loop has ended. -/
def urlDecodeRun [Platform] (str : Bytes) : UrlDecoder := .run str.length (urlDecodeStart str)

/-! ## What the loop computes -/

/-- A string with its escapes undone. An escape at the end takes the NUL, and the byte behind it where it
lacks both of its digits. -/
def unescape (behind : UInt8) : Bytes → Bytes
  | [] => []
  | c :: rest =>
    if c = 37 then
      (hex2dec (charAt behind rest 0) <<< 4 ||| hex2dec (charAt behind rest 1)) ::
        unescape behind (rest.drop 2)
    else c :: unescape behind rest
termination_by s => s.length

section Unescape

variable {behind : UInt8}

/-- Nothing is unescaped from the empty text. -/
@[simp] theorem unescape_nil : unescape behind [] = [] := by rw [unescape]

/-- An escape. -/
theorem unescape_percent (rest : Bytes) :
    unescape behind (37 :: rest) =
      (hex2dec (charAt behind rest 0) <<< 4 ||| hex2dec (charAt behind rest 1)) ::
        unescape behind (rest.drop 2) := by
  rw [unescape, if_pos rfl]

/-- Any other byte. -/
theorem unescape_cons {c : UInt8} (h : c ≠ 37) (rest : Bytes) :
    unescape behind (c :: rest) = c :: unescape behind rest := by
  rw [unescape, if_neg h]

end Unescape

namespace UrlDecoder

/-- The loop is the one of `url_decode`. -/
theorem urlDecodeLoop_eq_run (turns : Nat) (d : UrlDecoder) :
    urlDecodeLoop d.behind turns d.str d.r d.w = (run turns d).str.take (run turns d).w := by
  induction turns generalizing d with
  | zero => rfl
  | succ turns ih =>
    rw [urlDecodeLoop, run]
    split
    · have hturn := ih d.turn
      rw [← hturn]
      by_cases hc : charAt d.behind d.str d.r = 37
      · simp only [turn, hc, if_true]
      · simp only [turn, hc, if_false]
    · rfl

/-- What the loop keeps: `rest` is what it has not read yet, and it writes where it has read. -/
structure Reading (d : UrlDecoder) (rest : Bytes) : Prop where
  rest_eq : d.str.drop d.r = rest
  w_le : d.w ≤ d.r

/-- A byte read from the string is the one that stands as far behind in the rest of the text. -/
theorem Reading.at_eq {d : UrlDecoder} {rest : Bytes} (h : Reading d rest) (hr : d.r ≤ d.str.length)
    (k : Nat) : charAt d.behind d.str (d.r + k) = charAt d.behind rest k := by
  rw [← h.rest_eq, charAt, charAt, ← List.drop_append_of_le_length hr, List.getD_eq_getElem?_getD,
    List.getD_eq_getElem?_getD, List.getElem?_drop]

/-- The loop goes on exactly while there is a rest. -/
theorem Reading.lt_iff {d : UrlDecoder} {rest : Bytes} (h : Reading d rest) :
    d.r < d.str.length ↔ rest ≠ [] := by
  rw [← h.rest_eq, Ne, List.drop_eq_nil_iff, Nat.not_le]

/-- The string reaches as far as the rest of the text. -/
theorem Reading.length_eq {d : UrlDecoder} {c : UInt8} {rest : Bytes} (h : Reading d (c :: rest)) :
    d.str.length = d.r + rest.length + 1 := by
  have hlt := h.lt_iff.2 (List.cons_ne_nil _ _)
  have hlength := congrArg List.length h.rest_eq
  rw [List.length_drop, List.length_cons] at hlength
  omega

/-- A turn in front of an escape. -/
theorem Reading.turn_percent {d : UrlDecoder} {rest : Bytes} (h : Reading d (37 :: rest)) :
    d.turn = { d with
      str := d.str.set d.w (hex2dec (charAt d.behind rest 0) <<< 4 ||| hex2dec (charAt d.behind rest 1)),
      r := d.r + 3, w := d.w + 1,
      accesses := d.accesses ++
        [.read d.r, .read d.r, .read (d.r + 1), .read (d.r + 2), .write d.w] } := by
  have hr := (h.lt_iff.2 (List.cons_ne_nil _ _)).le
  have hc : charAt d.behind d.str d.r = 37 := h.at_eq hr 0
  have hhigh : charAt d.behind d.str (d.r + 1) = charAt d.behind rest 0 := h.at_eq hr 1
  have hlow : charAt d.behind d.str (d.r + 2) = charAt d.behind rest 1 := h.at_eq hr 2
  simp only [turn, hc, hhigh, hlow, if_true]

/-- A turn in front of any other byte. -/
theorem Reading.turn_cons {d : UrlDecoder} {c : UInt8} {rest : Bytes} (h : Reading d (c :: rest))
    (hne : c ≠ 37) :
    d.turn = { d with
      str := d.str.set d.w c, r := d.r + 1, w := d.w + 1,
      accesses := d.accesses ++ [.read d.r, .read d.r, .write d.w] } := by
  have hc : charAt d.behind d.str d.r = c := h.at_eq (h.lt_iff.2 (List.cons_ne_nil _ _)).le 0
  simp only [turn, hc, if_neg hne]

/-- What is written does not reach what is still to be read. -/
theorem Reading.set {d : UrlDecoder} {c : UInt8} {rest : Bytes} (h : Reading d (c :: rest))
    (v : UInt8) (k : Nat) (accesses : List Access) :
    Reading { d with str := d.str.set d.w v, r := d.r + (k + 1), w := d.w + 1, accesses }
      (rest.drop k) := by
  refine ⟨?_, by have := h.w_le; dsimp only; omega⟩
  have := h.w_le
  rw [List.drop_set_of_lt (by dsimp only; omega)]
  dsimp only
  rw [← List.drop_drop, h.rest_eq, List.drop_succ_cons]

/-- The induction over the loop, along `unescape`: what holds of a decoder at the end of its string, and
of a decoder if it does after its next turn, holds of every decoder and what its loop makes of it. -/
theorem Reading.run_induct {motive : UrlDecoder → Bytes → UrlDecoder → Prop}
    (ended : ∀ d, Reading d [] → motive d [] d)
    (percent : ∀ d rest d', Reading d (37 :: rest) → motive d.turn (rest.drop 2) d' →
      motive d (37 :: rest) d')
    (cons : ∀ d c rest d', Reading d (c :: rest) → c ≠ 37 → motive d.turn rest d' →
      motive d (c :: rest) d')
    {d : UrlDecoder} {rest : Bytes} {turns : Nat} (h : Reading d rest) (hturns : rest.length ≤ turns) :
    motive d rest (run turns d) := by
  induction rest using unescape.induct generalizing turns d with
  | case1 =>
    have hend : ¬ d.r < d.str.length := fun hlt => h.lt_iff.1 hlt rfl
    cases turns with
    | zero => exact ended d h
    | succ turns =>
      rw [run, if_neg hend]
      exact ended d h
  | case2 rest ih =>
    obtain ⟨turns, rfl⟩ := Nat.exists_eq_succ_of_ne_zero (show turns ≠ 0 by rintro rfl; cases hturns)
    have hnext : Reading d.turn (rest.drop 2) := by
      rw [h.turn_percent]
      exact h.set _ 2 _
    rw [run, if_pos (h.lt_iff.2 (List.cons_ne_nil _ _))]
    refine percent d rest _ h (ih hnext ?_)
    rw [List.length_cons] at hturns
    rw [List.length_drop]
    omega
  | case3 c rest hc ih =>
    obtain ⟨turns, rfl⟩ := Nat.exists_eq_succ_of_ne_zero (show turns ≠ 0 by rintro rfl; cases hturns)
    have hnext : Reading d.turn rest := by
      rw [h.turn_cons hc]
      exact h.set _ 0 _
    rw [run, if_pos (h.lt_iff.2 (List.cons_ne_nil _ _))]
    exact cons d c rest _ h hc (ih hnext (Nat.le_of_succ_le_succ hturns))

/-- The byte a turn writes is the next one behind those that were written. -/
theorem Reading.take_set {d : UrlDecoder} {c : UInt8} {rest : Bytes} (h : Reading d (c :: rest))
    (v : UInt8) : (d.str.set d.w v).take (d.w + 1) = d.str.take d.w ++ [v] := by
  have hlt := h.lt_iff.2 (List.cons_ne_nil _ _)
  have hw := h.w_le
  rw [List.take_add_one, List.take_set_of_le (Nat.le_refl _), List.getElem?_set_self (by omega)]
  rfl

/-- **What the loop leaves**: in front of the writing index stand what it had written and the rest
with its escapes undone. -/
theorem Reading.run_eq {d : UrlDecoder} {rest : Bytes} {turns : Nat} (h : Reading d rest)
    (hturns : rest.length ≤ turns) :
    (run turns d).str.take (run turns d).w = d.str.take d.w ++ unescape d.behind rest := by
  refine h.run_induct
    (motive := fun d rest d' => d'.str.take d'.w = d.str.take d.w ++ unescape d.behind rest) ?_ ?_ ?_ hturns
  · intro d _
    rw [unescape_nil, List.append_nil]
  · intro d rest d' h ih
    rw [ih, h.turn_percent, h.take_set, unescape_percent, List.append_assoc]
    rfl
  · intro d c rest d' h hc ih
    rw [ih, h.turn_cons hc, h.take_set, unescape_cons hc, List.append_assoc]
    rfl

/-- The loop ends at the end of the string and has not written behind it. -/
theorem Reading.run_ends {d : UrlDecoder} {rest : Bytes} {turns : Nat} (h : Reading d rest)
    (hw : d.w ≤ d.str.length) (hturns : rest.length ≤ turns) :
    d.str.length ≤ (run turns d).r ∧ (run turns d).w ≤ d.str.length := by
  revert hw
  refine h.run_induct
    (motive := fun d _ d' => d.w ≤ d.str.length → d.str.length ≤ d'.r ∧ d'.w ≤ d.str.length)
    ?_ ?_ ?_ hturns
  · intro d h hw
    exact ⟨Nat.not_lt.1 fun hlt => h.lt_iff.1 hlt rfl, hw⟩
  · intro d rest d' h ih _
    have hlt := h.lt_iff.2 (List.cons_ne_nil _ _)
    have hle := h.w_le
    rw [h.turn_percent, List.length_set] at ih
    exact ih (by dsimp only; omega)
  · intro d c rest d' h hc ih _
    have hlt := h.lt_iff.2 (List.cons_ne_nil _ _)
    have hle := h.w_le
    rw [h.turn_cons hc, List.length_set] at ih
    exact ih (by dsimp only; omega)

end UrlDecoder

section

variable [Platform]

/-- The loop begins with all of the string before it. -/
theorem reading_urlDecodeStart (str : Bytes) : UrlDecoder.Reading (urlDecodeStart str) str :=
  ⟨rfl, Nat.le_refl 0⟩

/-- `url_decode` undoes the escapes. -/
theorem urlDecode_eq_unescape (str : Bytes) : urlDecode str = unescape (Platform.behind str) str := by
  have hloop := UrlDecoder.urlDecodeLoop_eq_run str.length (urlDecodeStart str)
  exact hloop.trans ((reading_urlDecodeStart str).run_eq (Nat.le_refl _))

end

/-! ## Its accesses -/

/-- A string of single bytes and of escapes with the two bytes they take. -/
inductive WellCut : Bytes → Prop
  | nil : WellCut []
  | byte {c : UInt8} {rest : Bytes} : c ≠ 37 → WellCut rest → WellCut (c :: rest)
  | escape (a b : UInt8) {rest : Bytes} : WellCut rest → WellCut (37 :: a :: b :: rest)

/-- A string that ends in a `%` which opens an escape. -/
def EndsInPercent (str : Bytes) : Prop := ∃ front, WellCut front ∧ str = front ++ bytes "%"

/-- The empty text does not end in a percent sign. -/
theorem not_endsInPercent_nil : ¬ EndsInPercent [] := by
  rintro ⟨front, -, heq⟩
  exact List.append_ne_nil_of_right_ne_nil _ (by decide) heq.symm

/-- A byte that escapes nothing does not matter. -/
theorem endsInPercent_cons {c : UInt8} {rest : Bytes} (hc : c ≠ 37) :
    EndsInPercent (c :: rest) ↔ EndsInPercent rest := by
  constructor
  · rintro ⟨front, hcut, heq⟩
    cases hcut with
    | nil => cases heq; exact absurd rfl hc
    | byte _ hcut => exact ⟨_, hcut, (List.cons.inj heq).2⟩
    | escape => exact absurd (List.cons.inj heq).1 hc
  · rintro ⟨front, hcut, rfl⟩
    exact ⟨c :: front, .byte hc hcut, rfl⟩

/-- An escape takes two bytes with it, if they are there. -/
theorem endsInPercent_percent {rest : Bytes} :
    EndsInPercent (37 :: rest) ↔ rest = [] ∨ EndsInPercent (rest.drop 2) ∧ 2 ≤ rest.length := by
  constructor
  · rintro ⟨front, hcut, heq⟩
    cases hcut with
    | nil => exact .inl (List.cons.inj heq).2
    | byte hc => exact absurd (List.cons.inj heq).1.symm hc
    | escape a b hcut =>
      cases (List.cons.inj heq).2
      exact .inr ⟨⟨_, hcut, rfl⟩, by simp⟩
  · rintro (rfl | ⟨⟨front, hcut, heq⟩, hlength⟩)
    · exact ⟨[], .nil, rfl⟩
    · obtain ⟨a, b, rest, rfl⟩ : ∃ a b s, rest = a :: b :: s := by
        match rest, hlength with
        | a :: b :: s, _ => exact ⟨a, b, s, rfl⟩
      exact ⟨37 :: a :: b :: front, .escape a b hcut, congrArg (37 :: a :: b :: ·) heq⟩

namespace UrlDecoder

/-- **The accesses of the loop.** They stay in bounds exactly if the rest does not end in a `%`. -/
theorem Reading.run_inBounds_iff {d : UrlDecoder} {rest : Bytes} {turns : Nat} (h : Reading d rest)
    (hturns : rest.length ≤ turns) :
    (∀ a ∈ (run turns d).accesses, a.index ≤ d.str.length) ↔
      (∀ a ∈ d.accesses, a.index ≤ d.str.length) ∧ ¬ EndsInPercent rest := by
  refine h.run_induct
    (motive := fun d rest d' => (∀ a ∈ d'.accesses, a.index ≤ d.str.length) ↔
      (∀ a ∈ d.accesses, a.index ≤ d.str.length) ∧ ¬ EndsInPercent rest) ?_ ?_ ?_ hturns
  · intro d _
    rw [and_iff_left not_endsInPercent_nil]
  · intro d rest d' h ih
    have hlength := h.length_eq
    have hw := h.w_le
    rw [h.turn_percent, List.length_set] at ih
    rw [ih, endsInPercent_percent]
    simp only [List.forall_mem_append, List.forall_mem_cons, List.not_mem_nil, false_imp_iff,
      implies_true, and_true, Access.index]
    -- the second byte behind the `%` is the one that may lie behind the end
    cases rest with
    | nil =>
      rw [List.length_nil] at hlength
      simp
      omega
    | cons a rest =>
      cases rest with
      | nil =>
        rw [List.length_singleton] at hlength
        simp [not_endsInPercent_nil]
        omega
      | cons b rest =>
        rw [List.length_cons, List.length_cons] at hlength
        simp
        omega
  · intro d c rest d' h hc ih
    have hlength := h.length_eq
    have hw := h.w_le
    rw [h.turn_cons hc, List.length_set] at ih
    rw [ih, endsInPercent_cons hc]
    simp only [List.forall_mem_append, List.forall_mem_cons, List.not_mem_nil, false_imp_iff,
      implies_true, and_true, Access.index]
    refine and_congr_left fun _ => ⟨And.left, fun hd => ⟨hd, ?_⟩⟩
    omega

end UrlDecoder

/-- **The bounds of the decoder.** `url_decode` makes no access behind the end of the string, where the
NUL stands, exactly if the string does not end in a `%` that opens an escape; what it writes ends in the
string in any case. -/
theorem url_decode_in_bounds_iff [Platform] (str : Bytes) :
    ((urlDecodeRun str).w ≤ str.length ∧ ∀ a ∈ (urlDecodeRun str).accesses, a.index ≤ str.length) ↔
      ¬ ∃ front, WellCut front ∧ str = front ++ bytes "%" := by
  have hstart := reading_urlDecodeStart str
  have hw : (urlDecodeRun str).w ≤ str.length := (hstart.run_ends (Nat.zero_le _) (Nat.le_refl _)).2
  have haccesses : (∀ a ∈ (urlDecodeRun str).accesses, a.index ≤ str.length) ↔
      (∀ a ∈ ([] : List Access), a.index ≤ str.length) ∧ ¬ EndsInPercent str :=
    hstart.run_inBounds_iff (Nat.le_refl _)
  rw [and_iff_right hw, haccesses]
  exact and_iff_right (List.forall_mem_nil _)

open scoped Platform.Plain in
/-- A single `%` at the end: its second byte is read at the index behind the NUL. -/
theorem url_decode_out_of_bounds :
    let str := bytes "%"
    Access.read 2 ∈ (urlDecodeRun str).accesses ∧
      ¬ ((urlDecodeRun str).w ≤ str.length ∧
        ∀ a ∈ (urlDecodeRun str).accesses, a.index ≤ str.length) := by
  refine ⟨by decide, fun ⟨_, h⟩ => ?_⟩
  exact absurd (h (.read 2) (by decide)) (by decide)

end Httplib
