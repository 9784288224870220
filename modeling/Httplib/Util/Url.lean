import Httplib.Util.Misc

/-!
# Percent encoding

`util::url_decode` and `util::url_encode` (`misc.hpp:61`). The decoder works in place: `r` is the
index it reads at and `w` the index it writes at. A string that ends in `%` makes it read the byte behind
the NUL, whatever that is: what the source leaves open is a parameter, `Platform`.
-/

namespace Httplib

/-- What the source leaves open: the byte that lies behind the NUL of a copy of a text, and where a
`std::unordered_multimap` puts a pair among those that it has. -/
class Platform where
  behind : Bytes → UInt8
  emplace : List (Bytes × Bytes) → Bytes × Bytes → List (Bytes × Bytes)
  emplace_perm : ∀ params item, (emplace params item).Perm (item :: params)

namespace Platform

/-- The same byte lies behind every text, and each pair goes to the end. -/
abbrev constant (behind : UInt8) : Platform where
  behind _ := behind
  emplace params item := params ++ [item]
  emplace_perm params item := List.perm_append_singleton item params

namespace Plain

/-- The byte behind every text is NUL. -/
scoped instance plain : Platform := constant 0

end Plain

end Platform

/-- `util::hex2dec` (`misc.hpp:35`), on bytes: a byte that is no hexadecimal digit is its own
value. -/
def hex2dec (c : UInt8) : UInt8 :=
  if 48 ≤ c ∧ c ≤ 57 then c - 48
  else if 97 ≤ c ∧ c ≤ 102 then c - (97 - 10)
  else if 65 ≤ c ∧ c ≤ 70 then c - (65 - 10)
  else c

/-- `str[i]`: a byte of the string, the NUL that ends it, or the byte behind that. The decoder never reads
further. -/
def charAt (behind : UInt8) (str : Bytes) (i : Nat) : UInt8 := (str ++ [0, behind]).getD i 0

/-- The loop of `url_decode` with the string, the reading and the writing index. Every turn moves `r`, so a
turn for every byte never runs out. -/
def urlDecodeLoop (behind : UInt8) : Nat → Bytes → Nat → Nat → Bytes
  | 0, str, _, w => str.take w
  | turns + 1, str, r, w =>
    if r < str.length then
      let at_ (i : Nat) := charAt behind str i
      if at_ r = 37 then
        let v := hex2dec (at_ (r + 1)) <<< 4 ||| hex2dec (at_ (r + 2))
        urlDecodeLoop behind turns (str.set w v) (r + 3) (w + 1)
      else urlDecodeLoop behind turns (str.set w (at_ r)) (r + 1) (w + 1)
    else str.take w

/-- `util::url_decode` (`misc.hpp:61`). -/
def urlDecode [Platform] (str : Bytes) : Bytes :=
  urlDecodeLoop (Platform.behind str) str.length str 0 0

/-- A hexadecimal digit, in lower case. -/
def hexDigit (n : UInt8) : UInt8 := if n < 10 then 48 + n else 97 + (n - 10)

/-- `isalnum` in the classic locale. -/
def isAlnum (c : UInt8) : Bool :=
  (48 ≤ c && c ≤ 57) || (65 ≤ c && c ≤ 90) || (97 ≤ c && c ≤ 122)

/-- `util::url_encode` (`misc.hpp:80`). -/
def urlEncode (value : Bytes) : Bytes :=
  value.flatMap fun c =>
    if isAlnum c || c == 45 || c == 95 || c == 46 || c == 126 then [c]
    else if c == 32 then [43]
    else [37, hexDigit (c / 16), hexDigit (c % 16)]

/-! ## What the encoder writes -/

/-- How a byte is encoded. -/
def urlEncodeByte (c : UInt8) : Bytes :=
  if isAlnum c || c == 45 || c == 95 || c == 46 || c == 126 then [c]
  else if c == 32 then [43]
  else [37, hexDigit (c / 16), hexDigit (c % 16)]

/-- The text of a value is that of its bytes, one after another. -/
@[simp] theorem urlEncode_cons (c : UInt8) (value : Bytes) :
    urlEncode (c :: value) = urlEncodeByte c ++ urlEncode value := rfl

/-- A byte that is neither a separator of a query string nor white space. -/
def isPlain (c : UInt8) : Bool := c != 38 && c != 61 && !isSpace c

/-- A hexadecimal digit is read back, and is plain. -/
theorem hex2dec_hexDigit {n : UInt8} (h : n.toNat < 16) :
    hex2dec (hexDigit n) = n ∧ isPlain (hexDigit n) = true := by
  have hall : ∀ k : Fin 16, hex2dec (hexDigit (UInt8.ofNat k)) = UInt8.ofNat k ∧
      isPlain (hexDigit (UInt8.ofNat k)) = true := by decide
  have hn := hall ⟨n.toNat, h⟩
  rwa [UInt8.ofNat_toNat] at hn

/-- The high half of a byte is a hexadecimal digit. -/
theorem toNat_div_sixteen (c : UInt8) : (c / 16).toNat < 16 := by
  have := c.toNat_lt
  rw [UInt8.toNat_div]
  simp
  omega

/-- So is the low half. -/
theorem toNat_mod_sixteen (c : UInt8) : (c % 16).toNat < 16 := by
  rw [UInt8.toNat_mod]
  exact Nat.mod_lt _ (by decide)

/-- The values of two digits, put together by the decoder. -/
theorem shiftLeft_or {high low : UInt8} (hhigh : high.toNat < 16) (hlow : low.toNat < 16) :
    high <<< 4 ||| low = UInt8.ofNat (16 * high.toNat + low.toNat) := by
  apply UInt8.toNat_inj.1
  have hsplit := Nat.shiftLeft_add_eq_or_of_lt (i := 4) (b := low.toNat) hlow high.toNat
  have hshift : high.toNat <<< 4 = high.toNat * 16 := Nat.shiftLeft_eq _ _
  rw [UInt8.toNat_or, UInt8.toNat_shiftLeft, UInt8.toNat_ofNat']
  simp only [UInt8.reduceToNat, Nat.reduceMod]
  rw [Nat.mod_eq_of_lt (by omega), Nat.mod_eq_of_lt (by omega), ← hsplit]
  omega

/-- The two digits of an escape are the byte. -/
theorem hex2dec_escape (c : UInt8) :
    hex2dec (hexDigit (c / 16)) <<< 4 ||| hex2dec (hexDigit (c % 16)) = c := by
  rw [(hex2dec_hexDigit (toNat_div_sixteen c)).1, (hex2dec_hexDigit (toNat_mod_sixteen c)).1,
    shiftLeft_or (toNat_div_sixteen c) (toNat_mod_sixteen c), UInt8.toNat_div, UInt8.toNat_mod]
  simp only [UInt8.reduceToNat]
  rw [Nat.div_add_mod, UInt8.ofNat_toNat]

/-- The text of a byte is plain. -/
theorem isPlain_urlEncodeByte {c d : UInt8} (h : d ∈ urlEncodeByte c) : isPlain d = true := by
  unfold urlEncodeByte at h
  split at h
  · next hkeep =>
    cases List.mem_singleton.1 h
    simp [isAlnum, isPlain, isSpace, ← UInt8.toNat_inj, UInt8.le_iff_toNat_le] at hkeep ⊢
    omega
  · split at h
    · cases List.mem_singleton.1 h
      decide
    · simp only [List.mem_cons, List.not_mem_nil, or_false] at h
      rcases h with rfl | rfl | rfl
      · decide
      · exact (hex2dec_hexDigit (toNat_div_sixteen c)).2
      · exact (hex2dec_hexDigit (toNat_mod_sixteen c)).2

/-- An encoded text holds no separator and no white space. -/
theorem isPlain_of_mem_urlEncode {value : Bytes} {c : UInt8} (h : c ∈ urlEncode value) :
    isPlain c = true := by
  obtain ⟨a, -, hc⟩ := List.mem_flatMap.1 h
  exact isPlain_urlEncodeByte hc

/-- And never empty. -/
theorem urlEncodeByte_ne_nil (c : UInt8) : urlEncodeByte c ≠ [] := by
  unfold urlEncodeByte
  split
  · exact List.cons_ne_nil _ _
  · split <;> exact List.cons_ne_nil _ _

/-- Only the empty value has the empty text. -/
@[simp] theorem urlEncode_eq_nil_iff {value : Bytes} : urlEncode value = [] ↔ value = [] := by
  cases value with
  | nil => simp [urlEncode]
  | cons c value => simp [urlEncodeByte_ne_nil]

/-! ## Reading it back -/

/-- What becomes of a byte: a space comes back as a plus, because the decoder does not undo that. -/
def plusForSpace (c : UInt8) : UInt8 := if c = 32 then 43 else c

/-- One turn of the decoder in front of an encoded byte. -/
theorem urlDecodeLoop_urlEncodeByte (behind : UInt8) (turns : Nat) (front rest : Bytes) (c : UInt8)
    (w : Nat) :
    urlDecodeLoop behind (turns + 1) (front ++ (urlEncodeByte c ++ rest)) front.length w =
      urlDecodeLoop behind turns ((front ++ (urlEncodeByte c ++ rest)).set w (plusForSpace c))
        (front.length + (urlEncodeByte c).length) (w + 1) := by
  rw [urlDecodeLoop]
  unfold urlEncodeByte
  split
  · next hkeep =>
    have hc : c ≠ 37 ∧ c ≠ 32 := by
      constructor <;>
        · rintro rfl
          revert hkeep
          decide
    rw [if_pos (by simp)]
    simp [charAt, plusForSpace, hc]
  · split
    · next hspace =>
      rw [if_pos (by simp)]
      cases beq_iff_eq.1 hspace
      simp [charAt, plusForSpace]
    · next hspace =>
      rw [if_pos (by simp)]
      have hne : c ≠ 32 := fun h => hspace (beq_iff_eq.2 h)
      have hescape := hex2dec_escape c
      simp [charAt, plusForSpace, hne, hescape]

/-- **The decoder reads an encoded text back**, but for spaces. The induction is on the text; `front`
is what the decoder has gone through, and the first `w` bytes of it are what it has written. -/
theorem urlDecodeLoop_urlEncode (behind : UInt8) (value front : Bytes) {turns w : Nat}
    (hw : w ≤ front.length) (hturns : (urlEncode value).length ≤ turns) :
    urlDecodeLoop behind turns (front ++ urlEncode value) front.length w =
      front.take w ++ value.map plusForSpace := by
  induction value generalizing front turns w with
  | nil =>
    rw [show urlEncode [] = [] from rfl, List.append_nil, List.map_nil, List.append_nil]
    cases turns with
    | zero => rfl
    | succ turns => rw [urlDecodeLoop, if_neg (Nat.lt_irrefl _)]
  | cons c value ih =>
    have hpos := List.length_pos_of_ne_nil (urlEncodeByte_ne_nil c)
    rw [urlEncode_cons, List.length_append] at hturns
    obtain ⟨turns, rfl⟩ := Nat.exists_eq_succ_of_ne_zero (show turns ≠ 0 by omega)
    rw [urlEncode_cons, urlDecodeLoop_urlEncodeByte, ← List.append_assoc,
      List.set_append_left _ _ (by simp; omega), ← List.length_append,
      ← List.length_set (i := w) (a := plusForSpace c)]
    rw [ih _ (by simp; omega) (by omega), List.map_cons]
    -- the byte written is the next one behind those that were
    have hwritten : ((front ++ urlEncodeByte c).set w (plusForSpace c)).take (w + 1) =
        front.take w ++ [plusForSpace c] := by
      rw [List.take_add_one, List.take_set_of_le (Nat.le_refl w), List.take_append_of_le_length hw,
        List.getElem?_set_self (by simp; omega)]
      rfl
    rw [hwritten, List.append_assoc]
    rfl

/-- Decoding an encoded value gives it back, with a plus for each space. -/
@[simp] theorem urlDecode_urlEncode [Platform] (value : Bytes) :
    urlDecode (urlEncode value) = value.map plusForSpace :=
  urlDecodeLoop_urlEncode _ value [] (Nat.le_refl 0) (Nat.le_refl _)

end Httplib
