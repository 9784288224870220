import Mathlib.Data.List.Basic
import Mathlib.Data.Nat.Basic
import Mathlib.Tactic.IntervalCases

/-!
# Decimal numerals

Natural numbers and integers as texts in base ten, and how a text is read back. `value_digits` and
`readInt_int` are the round trips, `value_pad` the one of a numeral with zeros in front, and
`takeWhile_digits_append` finds the end of a numeral in a text that goes on behind it.
-/

namespace Decimal

/-- A byte that is a digit. -/
def IsDigit (c : UInt8) : Prop := 48 ≤ c.toNat ∧ c.toNat ≤ 57

instance : DecidablePred IsDigit := fun c =>
  inferInstanceAs (Decidable (48 ≤ c.toNat ∧ c.toNat ≤ 57))

/-- The digits of a number. -/
def digits (n : Nat) : List UInt8 := (Nat.toDigits 10 n).map fun c => UInt8.ofNat c.toNat

/-- The number that a text of digits stands for. -/
def value (s : List UInt8) : Nat := s.foldl (fun n c => 10 * n + (c.toNat - 48)) 0

/-- A numeral with zeros in front, up to a width. -/
def pad (width n : Nat) : List UInt8 := List.replicate (width - (digits n).length) 48 ++ digits n

/-- An integer, with a dash in front of a negative one. -/
def int (n : Int) : List UInt8 := if n < 0 then 45 :: digits n.natAbs else digits n.natAbs

/-- The integer that a text stands for. -/
def readInt (s : List UInt8) : Int :=
  match s with
  | 45 :: s => -(value s : Int)
  | s => (value s : Int)

/-! ## Digits -/

/-- A number below ten is one digit. -/
theorem digits_of_lt {n : Nat} (h : n < 10) : digits n = [UInt8.ofNat (48 + n)] := by
  rw [digits, Nat.toDigits_of_lt_base h]
  interval_cases n <;> rfl

/-- From ten on the last digit is the remainder, and the ones before it are the quotient. -/
theorem digits_of_le {n : Nat} (h : 10 ≤ n) : digits n = digits (n / 10) ++ digits (n % 10) := by
  have hlast : n % 10 < 10 := Nat.mod_lt n (by decide)
  rw [digits, Nat.toDigits_of_base_le (by decide) h, List.map_append, digits, digits,
    Nat.toDigits_of_lt_base hlast, List.map_singleton]

/-- The digits of a number, last digit first. -/
theorem digits_induction {p : Nat → List UInt8 → Prop}
    (hone : ∀ n < 10, p n [UInt8.ofNat (48 + n)])
    (hmore : ∀ n, 10 ≤ n → p (n / 10) (digits (n / 10)) →
      p n (digits (n / 10) ++ [UInt8.ofNat (48 + n % 10)])) (n : Nat) : p n (digits n) := by
  induction n using Nat.strongRecOn with
  | ind n ih =>
    rcases Nat.lt_or_ge n 10 with hlt | hge
    · rw [digits_of_lt hlt]
      exact hone n hlt
    · rw [digits_of_le hge, digits_of_lt (Nat.mod_lt n (by decide))]
      exact hmore n hge (ih (n / 10) (Nat.div_lt_self (by omega) (by decide)))

/-- The code of the digit of `n` is `48 + n`. -/
theorem toNat_digit {n : Nat} (h : n < 10) : (UInt8.ofNat (48 + n)).toNat = 48 + n := by
  rw [UInt8.toNat_ofNat']
  omega

/-- The digit of a number below ten is a digit. -/
theorem isDigit_digit {n : Nat} (h : n < 10) : IsDigit (UInt8.ofNat (48 + n)) := by
  rw [IsDigit, toNat_digit h]
  omega

/-- The decimal text of a number holds digits only. -/
theorem isDigit_of_mem_digits {n : Nat} : ∀ c ∈ digits n, IsDigit c := by
  refine digits_induction (p := fun _ s => ∀ c ∈ s, IsDigit c) (fun n hn c hc => ?_)
    (fun n _ ih c hc => ?_) n
  · cases List.mem_singleton.1 hc
    exact isDigit_digit hn
  · rcases List.mem_append.1 hc with hc | hc
    · exact ih c hc
    · cases List.mem_singleton.1 hc
      exact isDigit_digit (Nat.mod_lt n (by decide))

/-- No number has an empty text. -/
theorem digits_ne_nil (n : Nat) : digits n ≠ [] := by
  rw [digits, ne_eq, List.map_eq_nil_iff]
  exact Nat.toDigits_ne_nil

/-- A number below `10 ^ k` has at most `k` digits. -/
theorem length_digits_le {n k : Nat} (hk : 0 < k) (h : n < 10 ^ k) : (digits n).length ≤ k := by
  rw [digits, List.length_map]
  exact (Nat.length_toDigits_le_iff (by decide) hk).2 h

/-! ## Reading back -/

/-- One digit more makes the value ten times as large and adds the digit. -/
theorem value_append_digit (s : List UInt8) {n : Nat} (h : n < 10) :
    value (s ++ [UInt8.ofNat (48 + n)]) = 10 * value s + n := by
  rw [value, List.foldl_append, List.foldl_cons, List.foldl_nil, toNat_digit h,
    Nat.add_sub_cancel_left]
  rfl

/-- **A number is read back from its digits.** -/
@[simp] theorem value_digits (n : Nat) : value (digits n) = n := by
  refine digits_induction (p := fun n s => value s = n) (fun n hn => ?_) (fun n _ ih => ?_) n
  · have hread := value_append_digit [] hn
    rw [List.nil_append] at hread
    rw [hread]
    simp [value]
  · rw [value_append_digit _ (Nat.mod_lt n (by decide)), ih, Nat.div_add_mod]

/-- Different numbers have different texts. -/
theorem digits_injective : Function.Injective digits := fun m n h => by
  rw [← value_digits m, h, value_digits]

/-- Zeros in front do not change the value. -/
theorem value_replicate_zero (k : Nat) (s : List UInt8) :
    value (List.replicate k 48 ++ s) = value s := by
  induction k with
  | zero => rfl
  | succ k ih =>
    rw [← ih, List.replicate_succ, List.cons_append, value, value, List.foldl_cons]
    rfl

/-- Zeros in front make no difference. -/
@[simp] theorem value_pad (width n : Nat) : value (pad width n) = n := by
  rw [pad, value_replicate_zero, value_digits]

/-- A padded number holds digits only. -/
theorem isDigit_of_mem_pad {width n : Nat} : ∀ c ∈ pad width n, IsDigit c := by
  intro c hc
  rcases List.mem_append.1 hc with hc | hc
  · rw [List.eq_of_mem_replicate hc]
    decide
  · exact isDigit_of_mem_digits c hc

/-- A number that fits into the width is padded to exactly the width. -/
theorem length_pad {width n : Nat} (hwidth : 0 < width) (h : n < 10 ^ width) :
    (pad width n).length = width := by
  have hle := length_digits_le hwidth h
  rw [pad, List.length_append, List.length_replicate]
  omega

/-- The end of a numeral in a text that goes on with something that is no digit. -/
theorem takeWhile_digits_append {s : List UInt8} (hs : ∀ c ∈ s, IsDigit c) {rest : List UInt8}
    (hrest : ∀ c ∈ rest.head?, ¬ IsDigit c) :
    (s ++ rest).takeWhile (fun c => decide (IsDigit c)) = s := by
  rw [List.takeWhile_append_of_pos fun c hc => by simpa using hs c hc]
  cases rest with
  | nil => rw [List.takeWhile_nil, List.append_nil]
  | cons c rest =>
    have hc := hrest c rfl
    rw [List.takeWhile_cons_of_neg (by simpa using hc), List.append_nil]

/-- **An integer is read back.** -/
theorem readInt_int (n : Int) : readInt (int n) = n := by
  unfold int
  split
  · next hneg =>
    rw [readInt, value_digits]
    omega
  · next hpos =>
    have hhead : ∀ s, digits n.natAbs ≠ 45 :: s := by
      intro s hs
      have hdigit := isDigit_of_mem_digits (n := n.natAbs) 45 (hs ▸ List.mem_cons_self)
      exact absurd hdigit (by decide)
    have hread : readInt (digits n.natAbs) = (value (digits n.natAbs) : Int) := by
      unfold readInt
      split
      · next s hs => exact absurd hs (hhead s)
      · rfl
    rw [hread, value_digits]
    omega

/-- Different integers have different texts. -/
theorem int_injective : Function.Injective int := fun m n h => by
  rw [← readInt_int m, h, readInt_int]

end Decimal
