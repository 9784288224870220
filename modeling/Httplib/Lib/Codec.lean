import Mathlib.Data.List.Basic

/-!
# Stream codecs

A codec is given a text in pieces and puts out a text of its own, some of it after each piece and the
rest when it is closed. `Codec.Encodes` is what makes it an encoder: only the whole output stands for
the text, and closing puts something out.
-/

/-- What a codec puts out when it is given a piece, and when it is closed. -/
structure Codec (κ α : Type*) where
  init : κ
  write : κ → List α → List α × κ
  close : κ → List α

namespace Codec

variable {κ α : Type*} {s : κ} {x : List α} {xs : List (List α)}

/-- What is put out after each of some pieces. -/
def outputs (c : Codec κ α) : κ → List (List α) → List (List α)
  | _, [] => []
  | s, x :: xs => (c.write s x).1 :: c.outputs (c.write s x).2 xs

/-- The state after some pieces. -/
def after (c : Codec κ α) : κ → List (List α) → κ
  | s, [] => s
  | s, x :: xs => c.after (c.write s x).2 xs

/-- All that is put out for some pieces and for closing after them. -/
def whole (c : Codec κ α) (s : κ) (xs : List (List α)) : List α :=
  (c.outputs s xs).flatten ++ c.close (c.after s xs)

@[simp] theorem whole_nil (c : Codec κ α) : c.whole s [] = c.close s := rfl

@[simp] theorem whole_cons (c : Codec κ α) :
    c.whole s (x :: xs) = (c.write s x).1 ++ c.whole (c.write s x).2 xs := by
  simp [whole, outputs, after]

/-- The codec encodes: the whole output is decoded to the text, whatever its pieces were; closing
puts something out; and nothing at all is not the output for any text. -/
structure Encodes (c : Codec κ α) (decode : List α → Option (List α)) : Prop where
  complete : ∀ xs, decode (c.whole c.init xs) = some xs.flatten
  close_ne_nil : ∀ s, c.close s ≠ []
  decode_nil : decode [] = none

/-- Two codecs pair: the first puts something out when it is closed, and the second, given the whole
output of the first in any pieces, puts out the text. -/
structure Pairs {κ' : Type*} (e : Codec κ α) (d : Codec κ' α) : Prop where
  close_ne_nil : ∀ s, e.close s ≠ []
  whole_eq : ∀ xs ys, ys.flatten = e.whole e.init xs → d.whole d.init ys = xs.flatten

end Codec
