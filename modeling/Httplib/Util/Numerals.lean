import Httplib.Lib.Decimal
import Httplib.Util.Misc

/-!
# Numbers in a text

`std::to_string` of an integer, and `std::from_chars` to an integer type. `fromCharsTo_int` is the round
trip, with anything behind the digits.
-/

namespace Httplib

theorem bytes_toString_nat (n : Nat) : bytes (toString n) = Decimal.digits n := by
  rw [bytes, Decimal.digits, show toString n = n.repr from rfl, Nat.toList_repr]

theorem bytes_toString_int (n : Int) : bytes (toString n) = Decimal.int n := by
  unfold Decimal.int
  cases n with
  | ofNat m =>
    rw [if_neg (show ¬ Int.ofNat m < 0 from Int.not_lt.2 (Int.natCast_nonneg m))]
    exact bytes_toString_nat m
  | negSucc m =>
    rw [if_pos (Int.negSucc_lt_zero m)]
    have htext : toString (Int.negSucc m) = "-" ++ (m + 1).repr := rfl
    rw [htext, bytes, String.toList_append, List.map_append]
    exact congrArg (45 :: ·) (bytes_toString_nat (m + 1))

/-- The numbers of an integer type. -/
structure IntegerType where
  min : Int
  max : Int

namespace IntegerType

/-- `std::int64_t`. -/
def int64 : IntegerType := { min := -2 ^ 63, max := 2 ^ 63 - 1 }

/-- A number of the type. -/
def Holds (T : IntegerType) (n : Int) : Prop := T.min ≤ n ∧ n ≤ T.max

instance (T : IntegerType) : DecidablePred T.Holds := fun _ => inferInstanceAs (Decidable (_ ∧ _))

end IntegerType

/-- `std::from_chars` to an integer type in base ten: the number the text begins with, with a dash in
front only if the type is signed; none if there is no digit, or the number is none of the type. -/
def fromCharsTo (T : IntegerType) (text : Bytes) : Option Int :=
  let negative := T.min < 0 ∧ text.head? = some 45
  let digits := (if negative then text.drop 1 else text).takeWhile fun c => decide (Decimal.IsDigit c)
  let n : Int := if negative then -(Decimal.value digits : Int) else Decimal.value digits
  if digits = [] then none else if T.Holds n then some n else none

/-- **A number of the type is read back**, with anything behind it but a digit. -/
theorem fromCharsTo_int {T : IntegerType} {n : Int} (h : T.Holds n) {rest : Bytes}
    (hrest : ∀ c ∈ rest.head?, ¬ Decimal.IsDigit c) :
    fromCharsTo T (Decimal.int n ++ rest) = some n := by
  have hdigits := Decimal.takeWhile_digits_append (Decimal.isDigit_of_mem_digits (n := n.natAbs)) hrest
  unfold Decimal.int
  split
  · next hneg =>
    have hsigned : T.min < 0 ∧ (45 :: (Decimal.digits n.natAbs ++ rest)).head? = some 45 :=
      ⟨Int.lt_of_le_of_lt h.1 hneg, rfl⟩
    rw [List.cons_append, fromCharsTo]
    simp only [if_pos hsigned, List.drop_succ_cons, List.drop_zero, hdigits, Decimal.value_digits]
    rw [if_neg (Decimal.digits_ne_nil _), show -(n.natAbs : Int) = n by omega, if_pos h]
  · next hpos =>
    have hplain : ¬ (T.min < 0 ∧ (Decimal.digits n.natAbs ++ rest).head? = some 45) := by
      rintro ⟨-, hhead⟩
      rw [List.head?_append_of_ne_nil _ (Decimal.digits_ne_nil _)] at hhead
      exact absurd (Decimal.isDigit_of_mem_digits _ (List.mem_of_head? hhead)) (by decide)
    rw [fromCharsTo]
    simp only [if_neg hplain, hdigits, Decimal.value_digits]
    rw [if_neg (Decimal.digits_ne_nil _), show (n.natAbs : Int) = n by omega, if_pos h]

end Httplib
