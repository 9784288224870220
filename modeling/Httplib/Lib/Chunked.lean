import Mathlib.Data.List.Basic
import Mathlib.Data.Nat.Basic
import Mathlib.Tactic.IntervalCases

/-!
# The chunked transfer coding

A text is sent as chunks, each with its length in hexadecimal digits before it, and the last chunk,
which is empty, ends it. `decode` is the receiver, without chunk extensions and trailers: it returns
the text, and what follows the last chunk. `decode_chunks` reads any run of chunks back.
-/

namespace Chunked

/-- The end of a line. -/
def crlf : List UInt8 := [13, 10]

/-- The hexadecimal digits of a number. -/
def hex (n : Nat) : List UInt8 := (Nat.toDigits 16 n).map fun c => UInt8.ofNat c.toNat

/-- A chunk with its length before it. -/
def chunk (data : List UInt8) : List UInt8 := hex data.length ++ crlf ++ data ++ crlf

/-- The last chunk, without trailers. -/
def lastChunk : List UInt8 := [48] ++ crlf ++ crlf

/-! ## The receiver -/

/-- The value of a hexadecimal digit. -/
def digitValue (c : UInt8) : Option Nat :=
  if 48 ≤ c ∧ c ≤ 57 then some (c.toNat - 48)
  else if 97 ≤ c ∧ c ≤ 102 then some (c.toNat - 87)
  else if 65 ≤ c ∧ c ≤ 70 then some (c.toNat - 55)
  else none

/-- The digits up to the end of the line, after a part of the number that was read. -/
def readDigits (n : Nat) : List UInt8 → Option (Nat × List UInt8)
  | [] => none
  | c :: s =>
    match digitValue c with
    | some d => readDigits (16 * n + d) s
    | none => if c = 13 ∧ s.head? = some 10 then some (n, s.tail) else none

/-- The length before a chunk, of one digit at least. -/
def readLength (s : List UInt8) : Option (Nat × List UInt8) :=
  if (s.head?.bind digitValue).isSome then readDigits 0 s else none

/-- The receiver, with a bound on the number of chunks. -/
def decodeChunks : Nat → List UInt8 → Option (List UInt8 × List UInt8)
  | 0, _ => none
  | chunks + 1, s =>
    match readLength s with
    | none => none
    | some (n, s) =>
      if ¬ (n ≤ s.length ∧ crlf <+: s.drop n) then none
      else if n = 0 then some ([], s.drop 2)
      else (decodeChunks chunks (s.drop (n + 2))).map fun (text, rest) => (s.take n ++ text, rest)

/-- The receiver: the text, and what follows its last chunk. Each chunk takes a byte at least. -/
def decode (s : List UInt8) : Option (List UInt8 × List UInt8) := decodeChunks s.length s

/-! ## What is sent is read back -/

/-- The value of a hexadecimal digit is the number it was written for. -/
theorem digitValue_digitChar {d : Nat} (h : d < 16) :
    digitValue (UInt8.ofNat d.digitChar.toNat) = some d := by
  interval_cases d <;> rfl

/-- A number below sixteen is one digit. -/
theorem hex_of_lt {n : Nat} (h : n < 16) : hex n = [UInt8.ofNat n.digitChar.toNat] := by
  rw [hex, Nat.toDigits_of_lt_base h, List.map_singleton]

/-- From sixteen on the last digit is the remainder. -/
theorem hex_of_le {n : Nat} (h : 16 ≤ n) : hex n = hex (n / 16) ++ hex (n % 16) := by
  rw [hex, Nat.toDigits_of_base_le (by decide) h, List.map_append, hex,
    hex_of_lt (Nat.mod_lt n (by decide)), List.map_singleton]

/-- The digits of a number are read back to it. The induction takes the last digit off. -/
theorem readDigits_hex (n : Nat) (s : List UInt8) :
    readDigits 0 (hex n ++ s) = readDigits n s := by
  induction n using Nat.strongRecOn generalizing s with
  | ind n ih =>
    have hdigit : ∀ {d m : Nat} (s : List UInt8), d < 16 →
        readDigits m (hex d ++ s) = readDigits (16 * m + d) s := by
      intro d m s hd
      rw [hex_of_lt hd, List.singleton_append, readDigits, digitValue_digitChar hd]
    rcases Nat.lt_or_ge n 16 with hlt | hge
    · rw [hdigit s hlt, Nat.mul_zero, Nat.zero_add]
    · rw [hex_of_le hge, List.append_assoc, ih (n / 16) (Nat.div_lt_self (by omega) (by decide)),
        hdigit s (Nat.mod_lt n (by decide)), Nat.div_add_mod]

/-- A hexadecimal number begins with a digit. -/
theorem head_hex (n : Nat) (s : List UInt8) : ((hex n ++ s).head?.bind digitValue).isSome := by
  induction n using Nat.strongRecOn generalizing s with
  | ind n ih =>
    rcases Nat.lt_or_ge n 16 with hlt | hge
    · simp [hex_of_lt hlt, digitValue_digitChar hlt]
    · rw [hex_of_le hge, List.append_assoc]
      exact ih (n / 16) (Nat.div_lt_self (by omega) (by decide)) _

/-- The length in front of a chunk is read back. -/
@[simp] theorem readLength_hex (n : Nat) (s : List UInt8) :
    readLength (hex n ++ (crlf ++ s)) = some (n, s) := by
  rw [readLength, if_pos (head_hex n _), readDigits_hex]
  rfl

/-- A chunk is read back before the chunks that follow it. -/
theorem decodeChunks_chunk {data : List UInt8} (hdata : data ≠ []) (chunks : Nat)
    (s : List UInt8) :
    decodeChunks (chunks + 1) (chunk data ++ s) =
      (decodeChunks chunks s).map fun (text, rest) => (data ++ text, rest) := by
  have hsend : chunk data ++ s = hex data.length ++ (crlf ++ (data ++ (crlf ++ s))) := by
    simp only [chunk, List.append_assoc]
  have hread := readLength_hex data.length (data ++ (crlf ++ s))
  have hdrop : (data ++ (crlf ++ s)).drop (data.length + 2) = s := by
    rw [List.drop_append, List.drop_of_length_le (by omega), List.nil_append, Nat.add_sub_cancel_left]
    rfl
  rw [hsend, decodeChunks, hread]
  dsimp only
  rw [if_neg (not_not.2 ⟨by simp, by simp⟩), if_neg (List.length_pos_iff.2 hdata).ne', hdrop,
    List.take_left]

/-- The last chunk ends the text. -/
theorem decodeChunks_lastChunk (chunks : Nat) (s : List UInt8) :
    decodeChunks (chunks + 1) (lastChunk ++ s) = some ([], s) := by
  have hread := readLength_hex 0 (crlf ++ s)
  have hsend : lastChunk ++ s = hex 0 ++ (crlf ++ (crlf ++ s)) := rfl
  rw [hsend, decodeChunks, hread]
  dsimp only
  rw [if_neg (not_not.2 ⟨Nat.zero_le _, List.prefix_append _ _⟩), if_pos rfl]
  rfl

/-- **Chunks are read back**: the text is what they hold, and what follows the last chunk is left. -/
theorem decode_chunks (pieces : List (List UInt8)) (hpieces : ∀ data ∈ pieces, data ≠ [])
    (s : List UInt8) :
    decode ((pieces.map chunk).flatten ++ lastChunk ++ s) = some (pieces.flatten, s) := by
  have hrun : ∀ {chunks : Nat}, pieces.length < chunks →
      decodeChunks chunks ((pieces.map chunk).flatten ++ lastChunk ++ s) =
        some (pieces.flatten, s) := by
    induction pieces with
    | nil =>
      intro chunks hchunks
      obtain ⟨chunks, rfl⟩ := Nat.exists_eq_succ_of_ne_zero (Nat.ne_zero_of_lt hchunks)
      exact decodeChunks_lastChunk chunks s
    | cons data pieces ih =>
      intro chunks hchunks
      obtain ⟨chunks, rfl⟩ := Nat.exists_eq_succ_of_ne_zero (Nat.ne_zero_of_lt hchunks)
      rw [List.length_cons] at hchunks
      rw [List.map_cons, List.flatten_cons, List.append_assoc, List.append_assoc,
        decodeChunks_chunk (hpieces _ List.mem_cons_self), ← List.append_assoc,
        ih (fun data h => hpieces data (List.mem_cons_of_mem _ h)) (by omega)]
      rfl
  have hlength : pieces.length ≤ (pieces.map chunk).flatten.length := by
    clear hrun hpieces
    induction pieces with
    | nil => exact Nat.le_refl 0
    | cons data pieces ih =>
      simp only [List.map_cons, List.flatten_cons, List.length_append, List.length_cons, chunk, crlf]
      omega
  refine hrun ?_
  simp only [List.length_append, lastChunk, List.length_cons]
  omega

/-- The last chunk alone is an empty text. -/
@[simp] theorem decode_lastChunk (s : List UInt8) : decode (lastChunk ++ s) = some ([], s) :=
  decode_chunks [] (fun _ hdata => absurd hdata List.not_mem_nil) s

end Chunked
