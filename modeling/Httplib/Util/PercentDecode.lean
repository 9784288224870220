import Httplib.Util.UrlDecode

/-!
# The decoder in place

`util::url_decode` (`misc.hpp:61`) on strings in which two hexadecimal digits follow each `%`, against
the decoder that reads from one string and writes to another. `url_decode_in_place` says that they
agree: the loop writes where it has read, so it never reads what it has written.
-/

namespace Httplib

/-- The value of a hexadecimal digit, in either case. -/
def hexValue (c : UInt8) : Option Nat :=
  if 48 ≤ c ∧ c ≤ 57 then some (c.toNat - 48)
  else if 97 ≤ c ∧ c ≤ 102 then some (c.toNat - 97 + 10)
  else if 65 ≤ c ∧ c ≤ 70 then some (c.toNat - 65 + 10)
  else none

/-- The byte that a `%` with two digits stands for. -/
def escapedByte (a b : UInt8) : Option UInt8 :=
  match hexValue a, hexValue b with
  | some high, some low => some (UInt8.ofNat (16 * high + low))
  | _, _ => none

/-- The functional decoder: an escape becomes the byte with its value, and every other byte is kept. -/
def percentDecode : Bytes → Bytes
  | c :: a :: b :: rest =>
    match if c = 37 then escapedByte a b else none with
    | some v => v :: percentDecode rest
    | none => c :: percentDecode (a :: b :: rest)
  | short => short

/-- Each `%` is followed by two hexadecimal digits. -/
def WellEscaped (str : Bytes) : Prop :=
  ∀ front rest, str = front ++ 37 :: rest →
    ∃ a b behind, rest = a :: b :: behind ∧ (hexValue a).isSome ∧ (hexValue b).isSome

/-- An access that writes, by its index. -/
def Access.written : Access → Option Nat
  | .read _ => none
  | .write i => some i

/-- No byte is read after it was overwritten. -/
def NeverRereads (accesses : List Access) : Prop :=
  accesses.Pairwise fun earlier later => ∀ i, earlier = .write i → later ≠ .read i

/-! ## What is decoded -/

/-- On a hexadecimal digit `hex2dec` is the value of the digit. -/
theorem hex2dec_of_hexValue {c : UInt8} {n : Nat} (h : hexValue c = some n) :
    hex2dec c = UInt8.ofNat n ∧ n < 16 := by
  have hall : ∀ k : Fin 256, ∀ n ∈ hexValue (UInt8.ofNat k),
      hex2dec (UInt8.ofNat k) = UInt8.ofNat n ∧ n < 16 := by decide +kernel
  have hc := hall ⟨c.toNat, c.toNat_lt⟩ n
  rw [UInt8.ofNat_toNat] at hc
  exact hc h

/-- The loop computes the byte that two digits stand for. -/
theorem escapedByte_eq {a b : UInt8} (ha : (hexValue a).isSome) (hb : (hexValue b).isSome) :
    escapedByte a b = some (hex2dec a <<< 4 ||| hex2dec b) := by
  obtain ⟨high, hhigh⟩ := Option.isSome_iff_exists.1 ha
  obtain ⟨low, hlow⟩ := Option.isSome_iff_exists.1 hb
  obtain ⟨hval, hlt⟩ := hex2dec_of_hexValue hhigh
  obtain ⟨hval', hlt'⟩ := hex2dec_of_hexValue hlow
  have hnat : ∀ {n : Nat}, n < 16 → (UInt8.ofNat n).toNat = n := fun hn =>
    UInt8.toNat_ofNat_of_lt' (hn.trans (by decide))
  rw [escapedByte, hhigh, hlow, hval, hval', shiftLeft_or (by rwa [hnat hlt]) (by rwa [hnat hlt']),
    hnat hlt, hnat hlt']

/-- A byte other than the percent sign stands for itself. -/
theorem percentDecode_cons {c : UInt8} (h : c ≠ 37) (rest : Bytes) :
    percentDecode (c :: rest) = c :: percentDecode rest := by
  rcases rest with _ | ⟨a, _ | ⟨b, rest⟩⟩
  · rfl
  · rfl
  · rw [percentDecode, if_neg h]

/-- An escape stands for the byte it spells. -/
theorem percentDecode_percent {a b v : UInt8} (h : escapedByte a b = some v) (rest : Bytes) :
    percentDecode (37 :: a :: b :: rest) = v :: percentDecode rest := by
  rw [percentDecode, if_pos rfl, h]

/-- Two hexadecimal digits stand in front. -/
def digitsAhead : Bytes → Bool
  | a :: b :: _ => (hexValue a).isSome && (hexValue b).isSome
  | _ => false

/-- Two hexadecimal digits are ahead exactly when the text begins with them. -/
theorem digitsAhead_iff {rest : Bytes} :
    digitsAhead rest = true ↔
      ∃ a b behind, rest = a :: b :: behind ∧ (hexValue a).isSome ∧ (hexValue b).isSome := by
  constructor
  · intro h
    rcases rest with _ | ⟨a, _ | ⟨b, behind⟩⟩
    · cases h
    · cases h
    · exact ⟨a, b, behind, rfl, Bool.and_eq_true_iff.1 h⟩
  · rintro ⟨a, b, behind, rfl, h⟩
    exact Bool.and_eq_true_iff.2 h

/-- The empty text is well escaped. -/
theorem wellEscaped_nil : WellEscaped [] := fun _ _ heq =>
  absurd heq.symm (List.append_ne_nil_of_right_ne_nil _ (List.cons_ne_nil _ _))

/-- A text is well escaped exactly when its rest is and a percent sign at its head has two digits behind it.
-/
theorem wellEscaped_cons {c : UInt8} {rest : Bytes} :
    WellEscaped (c :: rest) ↔ (c = 37 → digitsAhead rest = true) ∧ WellEscaped rest := by
  constructor
  · refine fun h => ⟨fun hc => digitsAhead_iff.2 (h [] rest (by rw [hc]; rfl)), ?_⟩
    exact fun front behind heq => h (c :: front) behind (by rw [heq]; rfl)
  · rintro ⟨hc, h⟩ front behind heq
    cases front with
    | nil =>
      cases heq
      exact digitsAhead_iff.1 (hc rfl)
    | cons d front => exact h front behind (List.cons.inj heq).2

instance decidableWellEscaped : (str : Bytes) → Decidable (WellEscaped str)
  | [] => .isTrue wellEscaped_nil
  | _ :: rest =>
    have := decidableWellEscaped rest
    decidable_of_iff _ wellEscaped_cons.symm

/-- **What is decoded**: the functional decoder computes what the loop computes. -/
theorem unescape_eq_percentDecode (behind : UInt8) {str : Bytes} (h : WellEscaped str) :
    unescape behind str = percentDecode str := by
  induction str using unescape.induct with
  | case1 => exact unescape_nil
  | case2 rest ih =>
    obtain ⟨a, b, behind, rfl, ha, hb⟩ := h [] rest rfl
    have hbehind := (wellEscaped_cons.1 (wellEscaped_cons.1 (wellEscaped_cons.1 h).2).2).2
    rw [unescape_percent, percentDecode_percent (escapedByte_eq ha hb)]
    exact congrArg _ (ih hbehind)
  | case3 c rest hc ih =>
    rw [unescape_cons hc, percentDecode_cons hc, ih (wellEscaped_cons.1 h).2]

/-! ## What is read and written -/

/-- Reads at indices that are not written yet, and a write behind those before. -/
theorem NeverRereads.append {accesses : List Access} {w : Nat} (h : NeverRereads accesses)
    (hwritten : accesses.filterMap Access.written = List.range w) {reads : List Nat}
    (hreads : ∀ i ∈ reads, w ≤ i) :
    NeverRereads (accesses ++ (reads.map .read ++ [.write w])) := by
  refine List.pairwise_append.2 ⟨h, List.pairwise_append.2 ⟨?_, List.pairwise_singleton _ _, ?_⟩, ?_⟩
  · exact List.pairwise_map.2 (List.pairwise_of_forall fun _ _ _ => nofun)
  · intro a ha _ _ i hi
    obtain ⟨j, -, rfl⟩ := List.mem_map.1 ha
    cases hi
  · rintro a ha b hb i rfl rfl
    have hlt : i < w := by
      rw [← List.mem_range, ← hwritten]
      exact List.mem_filterMap.2 ⟨_, ha, rfl⟩
    rcases List.mem_append.1 hb with hb | hb
    · obtain ⟨j, hj, heq⟩ := List.mem_map.1 hb
      cases heq
      exact absurd (hreads i hj) (by omega)
    · cases List.mem_singleton.1 hb

namespace UrlDecoder

/-- What holds of the decoder in every turn: it writes where it has read, byte by byte from the start,
and has read nothing that it has written. -/
structure InPlace (d : UrlDecoder) : Prop where
  w_le : d.w ≤ d.r
  written : d.accesses.filterMap Access.written = List.range d.w
  reads : NeverRereads d.accesses

/-- A turn that reads from `r` on and writes one byte keeps the write index behind the read index. -/
theorem InPlace.access {d : UrlDecoder} (h : InPlace d) (reads : List Nat)
    (hreads : ∀ i ∈ reads, d.r ≤ i) (str : Bytes) {r : Nat} (hr : d.r < r) :
    InPlace { d with str, r, w := d.w + 1,
                     accesses := d.accesses ++ (reads.map .read ++ [.write d.w]) } := by
  refine ⟨Nat.succ_le_of_lt (h.w_le.trans_lt hr), ?_,
    h.reads.append h.written fun i hi => h.w_le.trans (hreads i hi)⟩
  have hnone : (reads.map Access.read).filterMap Access.written = [] := by
    rw [List.filterMap_map, List.filterMap_eq_nil_iff]
    exact fun _ _ => rfl
  rw [List.filterMap_append, List.filterMap_append, hnone, h.written, List.range_succ]
  rfl

/-- So every turn of the loop keeps it. -/
theorem InPlace.turn {d : UrlDecoder} (h : InPlace d) : InPlace d.turn := by
  unfold UrlDecoder.turn
  dsimp only
  split
  · exact h.access [d.r, d.r, d.r + 1, d.r + 2] (by simp) _ (by omega)
  · exact h.access [d.r, d.r] (by simp) _ (by omega)

/-- And with it every number of turns. -/
theorem InPlace.run {d : UrlDecoder} (h : InPlace d) (turns : Nat) : InPlace (run turns d) := by
  induction turns generalizing d with
  | zero => exact h
  | succ turns ih =>
    rw [UrlDecoder.run]
    split
    · exact ih h.turn
    · exact h

/-- A turn overwrites bytes and neither adds nor removes one. -/
@[simp] theorem length_turn (d : UrlDecoder) : d.turn.str.length = d.str.length := by
  unfold turn
  dsimp only
  split <;> exact List.length_set

/-- Nor does a whole run of the loop. -/
@[simp] theorem length_run (turns : Nat) (d : UrlDecoder) : (run turns d).str.length = d.str.length := by
  induction turns generalizing d with
  | zero => rfl
  | succ turns ih =>
    rw [run]
    split
    · rw [ih, length_turn]
    · rfl

end UrlDecoder

/-- The string is cut to what was written. -/
theorem urlDecode_eq_take [Platform] (str : Bytes) :
    urlDecode str = (urlDecodeRun str).str.take (urlDecodeRun str).w :=
  UrlDecoder.urlDecodeLoop_eq_run str.length (urlDecodeStart str)

/-- The decoded string has as many bytes as the loop has written. -/
@[simp] theorem length_urlDecode [Platform] (str : Bytes) :
    (urlDecode str).length = (urlDecodeRun str).w := by
  have hle : (urlDecodeRun str).w ≤ str.length :=
    ((reading_urlDecodeStart str).run_ends (Nat.zero_le _) (Nat.le_refl _)).2
  rw [urlDecode_eq_take, List.length_take, urlDecodeRun, UrlDecoder.length_run]
  exact Nat.min_eq_left hle

/-- **The decoder in place**: where two hexadecimal digits follow each `%`, it decodes as the functional
decoder does. It never writes ahead of where it reads, reads no byte that it has overwritten, and cuts
the string to the bytes it has written, one after the other. -/
theorem url_decode_in_place [Platform] {str : Bytes} (h : WellEscaped str) :
    urlDecode str = percentDecode str ∧
      (∀ turns, (UrlDecoder.run turns (urlDecodeStart str)).w ≤
        (UrlDecoder.run turns (urlDecodeStart str)).r) ∧
      NeverRereads (urlDecodeRun str).accesses ∧
      urlDecode str = (urlDecodeRun str).str.take (urlDecodeRun str).w ∧
      (urlDecodeRun str).accesses.filterMap Access.written = List.range (urlDecode str).length := by
  have hstart : UrlDecoder.InPlace (urlDecodeStart str) := ⟨Nat.le_refl 0, rfl, .nil⟩
  have hend : UrlDecoder.InPlace (urlDecodeRun str) := hstart.run str.length
  refine ⟨?_, fun turns => (hstart.run turns).w_le, hend.reads, urlDecode_eq_take str, ?_⟩
  · rw [urlDecode_eq_unescape, unescape_eq_percentDecode _ h]
  · rw [hend.written, length_urlDecode]

open scoped Platform.Plain in
/-- A space between two letters, and a byte from the upper half in digits of either case. -/
theorem url_decode_in_place_twice :
    let str := bytes "a%20b%C3%a9"
    urlDecode str = bytes "a b" ++ [195, 169] ∧
      urlDecode str = percentDecode str := by
  exact ⟨by decide, (url_decode_in_place (by decide)).1⟩

end Httplib
