import Httplib.Util.Misc

/-!
# The loop of `util::split`

`util::split` (`misc.hpp:100`) with the positions it computes as a `size_t`: `npos` is a number that
sums wrap around at, and `substr` throws at a start behind the end. `split_cuts` says that the loop ends,
that no call of `substr` throws, and what is returned.
-/

namespace Httplib

/-- `std::string_view::npos`. -/
def npos : Nat := 2 ^ 64 - 1

/-- `std::string_view`, whose size is below `npos`. -/
structure StringView where
  text : Bytes
  size_lt : text.length < npos := by decide

namespace StringView

/-- `size()`. -/
def size (s : StringView) : Nat := s.text.length

/-- `find(delimiter, pos)`, which may be `npos`. -/
def find (s delimiter : StringView) (pos : Nat) : Nat :=
  (Httplib.find s.text delimiter.text pos).getD npos

/-- `substr(pos, n)`; none is the exception that it throws. -/
def substr (s : StringView) (pos n : Nat) : Option Bytes :=
  if s.size < pos then none else some (Httplib.substr s.text pos n)

end StringView

/-- The loop between two turns, with the starts of the calls of `substr` so far. -/
structure Splitter where
  pos : Nat := 0
  parts : List Bytes := []
  starts : List Nat := []

/-- How the loop is left, if it is. -/
inductive SplitTurn where
  | goesOn (s : Splitter)
  | returns (s : Splitter)
  | throws (s : Splitter)

namespace Splitter

/-- One turn of the loop (`misc.hpp:113`), its condition included. -/
def turn (str delimiter : StringView) (s : Splitter) : SplitTurn :=
  if s.pos = npos then .returns s
  else
    let posFound := str.find delimiter s.pos
    if posFound = 0 then .goesOn { s with pos := u64 (s.pos + delimiter.size) }
    else
      let s := { s with starts := s.starts ++ [s.pos] }
      match str.substr s.pos (u64 (posFound - s.pos)) with
      | none => .throws s
      | some part =>
        let s := { s with parts := s.parts ++ [trimCopy part] }
        if u64 (posFound + delimiter.size) ≥ str.size then .returns s
        else if posFound = npos then .returns s
        else .goesOn { s with pos := u64 (posFound + delimiter.size) }

/-- The loop. -/
def run (str delimiter : StringView) : Nat → Splitter → SplitTurn
  | 0, s => .goesOn s
  | turns + 1, s =>
    match s.turn str delimiter with
    | .goesOn s => run str delimiter turns s
    | left => left

end Splitter

/-- `util::split` (`misc.hpp:100`), for a number of turns. -/
def splitRun (str delimiter : StringView) (turns : Nat) : SplitTurn :=
  if str.text = [] then .returns {}
  else if delimiter.text = [] then .returns { parts := [str.text] }
  else Splitter.run str delimiter turns {}

/-- What a text is split into: it is cut at the delimiters; the first piece is dropped if the text begins
with one, and the last piece if it is empty and not the only one; the others are trimmed. -/
def splitPieces (str delimiter : Bytes) : List Bytes :=
  if str = [] then []
  else
    let cuts := Search.cut delimiter str
    let behind := if delimiter <+: str then cuts.tail else cuts
    (dropLastEmpty behind).map trimCopy

/-! ## The turns -/

/-- What is found lies in the text, and not in front of the start. -/
theorem find_bounds {s pat : Bytes} (hpat : pat ≠ []) {pos i : Nat} (h : find s pat pos = some i) :
    pos ≤ i ∧ i + pat.length ≤ s.length := by
  rw [find] at h
  split at h
  · obtain ⟨j, hj, rfl⟩ := Option.map_eq_some_iff.1 h
    have hle := Search.leftmost_le hj hpat
    rw [List.length_drop] at hle
    omega
  · cases h

/-- What `splitLoop` makes of a delimiter behind a part. -/
theorem splitLoop_of_some {str delimiter : Bytes} {turns pos i : Nat} (hi : i ≠ 0)
    (h : find str delimiter pos = some i) :
    splitLoop str delimiter (turns + 1) pos =
      trimCopy (substr str pos (i - pos)) ::
        if i + delimiter.length ≥ str.length then []
        else splitLoop str delimiter turns (i + delimiter.length) := by
  obtain ⟨k, rfl⟩ := Nat.exists_eq_succ_of_ne_zero hi
  rw [splitLoop, h]
  rfl

namespace StringView

/-- A match that is found is at its index. -/
theorem find_of_some {str delimiter : StringView} {pos i : Nat}
    (h : Httplib.find str.text delimiter.text pos = some i) : str.find delimiter pos = i := by
  rw [find, h, Option.getD_some]

/-- `substr` does not throw within the text. -/
theorem substr_of_le {str : StringView} {pos : Nat} (h : pos ≤ str.size) (n : Nat) :
    str.substr pos n = some (Httplib.substr str.text pos n) := if_neg (Nat.not_lt.2 h)

/-- No position in the text is `npos`. -/
theorem ne_npos {str : StringView} {pos : Nat} (h : pos ≤ str.size) : pos ≠ npos :=
  Nat.ne_of_lt (Nat.lt_of_le_of_lt h str.size_lt)

end StringView

/-- A size of a text is no `npos`. -/
theorem u64_of_lt_npos {n : Nat} (h : n ≤ npos) : u64 n = n := by
  unfold npos at h
  unfold u64
  omega

namespace Splitter

section
variable {str delimiter : StringView} {s : Splitter} (hpos : s.pos ≤ str.size)
include hpos

/-- A turn that finds no delimiter: the rest of the text is the last part. -/
theorem turn_of_none (h : find str.text delimiter.text s.pos = none) :
    s.turn str delimiter = .returns { s with
      parts := s.parts ++ [trimCopy (str.text.drop s.pos)], starts := s.starts ++ [s.pos] } := by
  have hfind : str.find delimiter s.pos = npos := by rw [StringView.find, h, Option.getD_none]
  have hcount : u64 ((npos : Int) - s.pos) = npos - s.pos := by
    have hlt := str.size_lt
    rw [← Int.ofNat_sub (hpos.trans hlt.le)]
    exact u64_of_lt_npos (Nat.sub_le _ _)
  have hrest : Httplib.substr str.text s.pos (npos - s.pos) = str.text.drop s.pos := by
    have hlt := str.size_lt
    refine List.take_of_length_le ?_
    rw [List.length_drop]
    omega
  rw [turn, if_neg (StringView.ne_npos hpos), hfind]
  dsimp only
  rw [if_neg (by decide), StringView.substr_of_le hpos, hcount, hrest]
  dsimp only
  split
  · rfl
  · rw [if_pos rfl]

/-- A turn in front of a text that begins with the delimiter. -/
theorem turn_of_zero (hd : delimiter.text ≠ []) (h : find str.text delimiter.text s.pos = some 0) :
    s.turn str delimiter = .goesOn { s with pos := s.pos + delimiter.size } := by
  have hbounds := find_bounds hd h
  have hsum : u64 (s.pos + delimiter.size : Nat) = s.pos + delimiter.size := by
    have hlt := str.size_lt
    refine u64_of_lt_npos ?_
    unfold StringView.size
    omega
  rw [turn, if_neg (StringView.ne_npos hpos), StringView.find_of_some h]
  dsimp only
  rw [if_pos rfl, ← Int.natCast_add, hsum]

/-- A turn that finds a delimiter behind a part. -/
theorem turn_of_some (hd : delimiter.text ≠ []) {i : Nat} (hi : i ≠ 0)
    (h : find str.text delimiter.text s.pos = some i) :
    s.turn str delimiter =
      let s := { s with
        parts := s.parts ++ [trimCopy (substr str.text s.pos (i - s.pos))],
        starts := s.starts ++ [s.pos] }
      if i + delimiter.size ≥ str.size then .returns s
      else .goesOn { s with pos := i + delimiter.size } := by
  have hbounds := find_bounds hd h
  have hlt := str.size_lt
  have hcount : u64 ((i : Int) - s.pos) = i - s.pos := by
    rw [← Int.ofNat_sub hbounds.1]
    exact u64_of_lt_npos (by omega)
  have hsum : u64 (i + delimiter.size : Nat) = i + delimiter.size := by
    refine u64_of_lt_npos ?_
    unfold StringView.size
    omega
  have hin : i ≤ str.size := by
    unfold StringView.size
    omega
  have hne : i ≠ npos := StringView.ne_npos hin
  rw [turn, if_neg (StringView.ne_npos hpos), StringView.find_of_some h]
  dsimp only
  rw [if_neg hi, StringView.substr_of_le hpos, hcount, ← Int.natCast_add, hsum]
  dsimp only
  rw [if_neg hne]

end

/-! ## The loop -/

/-- More turns do not change what a loop has returned. -/
theorem run_of_le {str delimiter : StringView} {m n : Nat} {s s' : Splitter}
    (h : run str delimiter m s = .returns s') (hle : m ≤ n) :
    run str delimiter n s = .returns s' := by
  induction m generalizing n s with
  | zero => cases h
  | succ m ih =>
    obtain ⟨n, rfl⟩ := Nat.exists_eq_succ_of_ne_zero (Nat.ne_zero_of_lt hle)
    rw [run] at h ⊢
    cases hturn : s.turn str delimiter with
    | goesOn t =>
      rw [hturn] at h
      exact ih h (Nat.le_of_succ_le_succ hle)
    | returns t => rwa [hturn] at h
    | throws t =>
      rw [hturn] at h
      cases h

/-- **The loop ends**: from a position in the text it returns what `splitLoop` computes, and every
`substr` starts in the text. -/
theorem run_eq {str delimiter : StringView} (hd : delimiter.text ≠ []) {turns : Nat} {s : Splitter}
    (hpos : s.pos ≤ str.size) (hturns : str.size - s.pos < turns)
    (hstarts : ∀ start ∈ s.starts, start ≤ str.size) :
    ∃ s', run str delimiter turns s = .returns s' ∧
      s'.parts = s.parts ++ splitLoop str.text delimiter.text turns s.pos ∧
      ∀ start ∈ s'.starts, start ≤ str.size := by
  have hlength := List.length_pos_of_ne_nil hd
  induction turns generalizing s with
  | zero => exact absurd hturns (Nat.not_lt_zero _)
  | succ turns ih =>
    have hstarts' : ∀ start ∈ s.starts ++ [s.pos], start ≤ str.size := by
      rw [List.forall_mem_append, List.forall_mem_singleton]
      exact ⟨hstarts, hpos⟩
    rw [run]
    cases hfind : find str.text delimiter.text s.pos with
    | none =>
      rw [turn_of_none hpos hfind, splitLoop, hfind]
      exact ⟨_, rfl, rfl, hstarts'⟩
    | some i =>
      have hbounds := find_bounds hd hfind
      by_cases hi : i = 0
      · subst hi
        rw [turn_of_zero hpos hd hfind, splitLoop, hfind]
        refine ih ?_ ?_ hstarts <;> dsimp only [StringView.size] at hturns ⊢ <;> omega
      · rw [turn_of_some hpos hd hi hfind, splitLoop_of_some hi hfind]
        dsimp only
        rcases Nat.lt_or_ge (i + delimiter.size) str.size with hnext | hlast
        · have hnext' : ¬ i + delimiter.text.length ≥ str.text.length := Nat.not_le.2 hnext
          rw [if_neg (Nat.not_le.2 hnext), if_neg hnext']
          have hturns' : str.size - (i + delimiter.size) < turns := by
            have hle := hbounds.1
            unfold StringView.size at hturns ⊢
            omega
          obtain ⟨s', hrun, hparts, hin⟩ := ih (s := ⟨i + delimiter.size,
            s.parts ++ [trimCopy (substr str.text s.pos (i - s.pos))], s.starts ++ [s.pos]⟩)
            hnext.le hturns' hstarts'
          refine ⟨s', hrun, ?_, hin⟩
          rw [hparts, List.append_assoc]
          rfl
        · have hlast' : i + delimiter.text.length ≥ str.text.length := hlast
          rw [if_pos hlast, if_pos hlast']
          exact ⟨_, rfl, rfl, hstarts'⟩

end Splitter

/-- **What `split` returns**: for every text and every delimiter that is not empty, the loop ends, no
`substr` starts behind the end, and the parts are the pieces between the delimiters. -/
theorem split_cuts (str delimiter : StringView) (h : delimiter.text ≠ []) :
    ∃ s, (∀ turns, str.size < turns → splitRun str delimiter turns = .returns s) ∧
      (∀ start ∈ s.starts, start ≤ str.size) ∧ s.parts = splitPieces str.text delimiter.text := by
  by_cases hs : str.text = []
  · refine ⟨{}, fun _ _ => if_pos hs, List.forall_mem_nil _, ?_⟩
    rw [splitPieces, if_pos hs]
  · obtain ⟨s, hrun, hparts, hstarts⟩ := Splitter.run_eq (s := {}) h (Nat.zero_le _)
      (Nat.lt_succ_self str.size) (List.forall_mem_nil _)
    refine ⟨s, fun turns hturns => ?_, hstarts, ?_⟩
    · rw [splitRun, if_neg hs, if_neg h]
      exact Splitter.run_of_le hrun hturns
    · have hsplit : s.parts = split str.text delimiter.text := by
        rw [hparts, split, if_neg hs, if_neg h]
        rfl
      rw [hsplit, split_eq_cut hs h, splitPieces, if_neg hs]

/-- Delimiters in front, at the end and with one of their bytes once more behind them. -/
theorem split_cuts_dashes :
    let str : StringView := { text := bytes "--a---b--" }
    let delimiter : StringView := { text := bytes "--" }
    ∃ s, (∀ turns, str.size < turns → splitRun str delimiter turns = .returns s) ∧
      (∀ start ∈ s.starts, start ≤ str.size) ∧ s.parts = [bytes "a", bytes "-b"] := by
  intro str delimiter
  have hfound : ∀ {l : Bytes} (i : Nat), Search.leftmost delimiter.text l = some i →
      Search.cut delimiter.text l =
        l.take i :: Search.cut delimiter.text (l.drop (i + delimiter.text.length)) :=
    fun i hi => Search.cut_of_leftmost hi (by decide)
  have hpieces : splitPieces str.text delimiter.text = [bytes "a", bytes "-b"] := by
    rw [splitPieces, hfound 0 (by decide), hfound 1 (by decide), hfound 2 (by decide),
      Search.cut_of_leftmost_eq_none (by decide)]
    decide
  rw [← hpieces]
  exact split_cuts str delimiter (by decide)

end Httplib
