import Httplib.Body.FileBody

/-!
# What the file writer returns

`FileWriter.emits_single` and `FileWriter.emits_parts` give the buffers of a whole run of
`file_body::writer`, for every list of ranges and every file: the bytes asked for, cut into pieces
of at most `bufSize`, and `error::short_read` after the last byte of the file when more were asked
for. `FileBody.EndsWithBuffer` is the condition under which a run ends with a buffer.
-/

namespace Httplib

open Producer (Pull Emits)

namespace FileStream

variable {file : FileStream} {n : Nat}

/-- Up to `n` bytes that reading will give. -/
def ahead (file : FileStream) (n : Nat) : Bytes :=
  if file.failed then [] else (file.content.drop file.pos).take n

/-- Reading `n` bytes will give all of them. -/
def Available (file : FileStream) (n : Nat) : Prop :=
  n = 0 ∨ (file.failed = false ∧ file.pos + n ≤ file.content.length)

instance : Decidable (Available file n) := inferInstanceAs (Decidable (_ ∨ _))

/-- The stream after `n` bytes were read. -/
def skip (file : FileStream) (n : Nat) : FileStream := { file with pos := file.pos + n }

/-- What a read gives is what lies ahead of the file position. -/
theorem read_fst : (file.read n).1 = file.ahead n := by
  unfold read ahead
  split <;> rfl

/-- A read that is served in full moves the position. -/
theorem read_snd (h : (file.ahead n).length = n) (hn : n ≠ 0) : (file.read n).2 = file.skip n := by
  unfold ahead at h
  unfold read skip
  split at h
  · exact absurd h.symm hn
  · next hf =>
    rw [if_neg hf]
    simp [h, hf]

/-- A read gives no more than it is asked for. -/
theorem length_ahead_le : (file.ahead n).length ≤ n := by
  unfold ahead
  split
  · exact Nat.zero_le n
  · exact List.length_take_le n _

/-- The bytes asked for are there exactly when the read is not short. -/
theorem available_iff : file.Available n ↔ (file.ahead n).length = n := by
  unfold Available ahead
  split
  · next hf => simp [hf, eq_comm]
  · next hf =>
    simp only [hf, List.length_take, List.length_drop, true_and]
    omega

end FileStream

namespace FileWriter

/-- The buffers a text is returned in. -/
def chunks (text : Bytes) : List Bytes :=
  if _h : text = [] then []
  else text.take bufSize :: chunks (text.drop bufSize)
termination_by text.length
decreasing_by
  have := List.length_pos_of_ne_nil _h
  simp only [List.length_drop, bufSize]
  omega

/-- An empty text has no chunks. -/
@[simp] theorem chunks_nil : chunks [] = [] := by
  rw [chunks, dif_pos rfl]

/-- Another text is a first chunk of at most `bufSize` bytes and the chunks of the rest. -/
theorem chunks_of_ne_nil {text : Bytes} (h : text ≠ []) :
    chunks text = text.take bufSize :: chunks (text.drop bufSize) := by
  rw [chunks, dif_neg h]

/-- A text that fits is returned in one buffer. -/
theorem chunks_of_le {text : Bytes} (h : text ≠ []) (hle : text.length ≤ bufSize) :
    chunks text = [text] := by
  rw [chunks_of_ne_nil h, List.take_of_length_le hle, List.drop_of_length_le hle, chunks_nil]

/-- The buffers put together are the text. -/
@[simp] theorem flatten_chunks (text : Bytes) : (chunks text).flatten = text := by
  fun_induction chunks text with
  | case1 => rfl
  | case2 text h ih => rw [List.flatten_cons, ih, List.take_append_drop]

variable {w : FileWriter} {file : FileStream} {range : Int × Int} {pos n : Nat}

/-! ## One read of a range -/

/-- What a buffer takes of the bytes ahead. -/
theorem ahead_min_bufSize (file : FileStream) (n : Nat) :
    file.ahead (min bufSize n) = (file.ahead n).take bufSize := by
  unfold FileStream.ahead
  split
  · rfl
  · rw [List.take_take]

/-- What is ahead after a read: the rest of what was ahead. -/
theorem ahead_after_read (file : FileStream) (n : Nat) :
    (file.read (min bufSize n)).2.ahead (n - ((file.ahead n).take bufSize).length) =
      (file.ahead n).drop bufSize := by
  rw [← ahead_min_bufSize]
  unfold FileStream.ahead FileStream.read
  by_cases hf : file.failed = true
  · simp [hf]
  · simp only [hf, if_false, Bool.false_eq_true]
    by_cases hshort : ((file.content.drop file.pos).take (min bufSize n)).length < min bufSize n
    · rw [if_pos (decide_eq_true hshort), List.drop_of_length_le]
      rw [List.length_take] at hshort ⊢
      omega
    · rw [if_neg (mt of_decide_eq_true hshort), List.drop_take, List.drop_drop]
      rw [List.length_take] at hshort ⊢
      by_cases hn : bufSize ≤ n
      · rw [show min (min bufSize n) (file.content.drop file.pos).length = bufSize by omega]
      · rw [show n - min (min bufSize n) (file.content.drop file.pos).length = 0 by omega,
          show n - bufSize = 0 by omega, List.take_zero, List.take_zero]

/-- The bytes of a range to come, before and after a read. -/
theorem available_after_read (file : FileStream) (n : Nat) :
    (file.read (min bufSize n)).2.Available (n - ((file.ahead n).take bufSize).length) ↔
      file.Available n := by
  have hle := file.length_ahead_le (n := n)
  rw [FileStream.available_iff, FileStream.available_iff, ahead_after_read, List.length_drop,
    List.length_take]
  omega

/-- Where all bytes are there, reading a buffer and the rest is reading them all. -/
theorem skip_after_read {file : FileStream} (h : file.Available n) (hn : n ≠ 0) :
    (file.read (min bufSize n)).2.skip (n - ((file.ahead n).take bufSize).length) = file.skip n := by
  have hlen := FileStream.available_iff.1 h
  have htake : (file.ahead (min bufSize n)).length = min bufSize n := by
    rw [ahead_min_bufSize, List.length_take, hlen]
  rw [FileStream.read_snd htake (by simp only [bufSize]; omega), List.length_take, hlen]
  simp only [FileStream.skip, FileStream.mk.injEq, true_and, and_true]
  omega

/-- The position after a read inside a range, when the range does not wrap around. -/
theorem u64_pos {second : Int} (hn : pos + n = u64 second) {k : Nat} (hk : k ≤ n) :
    u64 (pos + k) = pos + k ∧ u64 (second - (pos + k : Nat)) = n - k := by
  have hlt := u64_lt second
  unfold u64 at *
  omega

/-! ## The whole file, or one range -/

/-- The writer returns the file, or its only range, as a half-open interval. -/
def Single (w : FileWriter) (range : Int × Int) : Prop :=
  w.body.ranges = [] ∧ range = (0, (w.body.fileSize : Int)) ∨
    ∃ r, w.body.ranges = [r] ∧ range = (r.1, r.2 + 1)

/-- With one range set, `get` is `getSingle` of that range. -/
theorem get_of_single (h : Single w range) : w.get = w.getSingle range := by
  rcases h with ⟨hr, rfl⟩ | ⟨r, hr, rfl⟩ <;> rw [get, hr]

/-- One call, with `n` bytes of the range to come. -/
theorem getSingle_eq (hpos : w.pos = some pos) (hn : pos + n = u64 range.2) (hn₀ : n ≠ 0) :
    w.getSingle range =
      if (w.file.ahead n).take bufSize = [] then .fail .shortRead
      else .buffer ((w.file.ahead n).take bufSize)
        (((w.file.ahead n).take bufSize).length < n)
        { w with pos := some (pos + ((w.file.ahead n).take bufSize).length),
                 file := (w.file.read (min bufSize n)).2 } := by
  have hu := (u64_pos hn (Nat.zero_le n)).2
  have hle : ((w.file.ahead n).take bufSize).length ≤ n := by
    rw [List.length_take]
    exact (Nat.min_le_right _ _).trans w.file.length_ahead_le
  have hmin : min bufSize n ≠ 0 := by
    simp only [bufSize]
    omega
  rw [Nat.add_zero, Nat.sub_zero] at hu
  simp only [getSingle, enter, hpos]
  rw [hu, if_neg hmin]
  simp only [FileStream.read_fst, ahead_min_bufSize, (u64_pos hn hle).1]
  have hmore : (pos + ((w.file.ahead n).take bufSize).length < u64 range.2) ↔
      ((w.file.ahead n).take bufSize).length < n := by omega
  rw [decide_eq_decide.2 hmore]

/-- **The buffers of a range that is being read.** With `n` bytes of it to come, the writer returns
the bytes ahead; it ends with a buffer if these are all, and with `error::short_read` otherwise. The
induction is on the number of bytes to come. -/
theorem emits_single_from (h : Single w range) (hpos : w.pos = some pos)
    (hn : pos + n = u64 range.2) (hn₀ : n ≠ 0) :
    Emits get w (chunks (w.file.ahead n))
      (if w.file.Available n then .last else .failed .shortRead) := by
  induction n using Nat.strong_induction_on generalizing w pos with
  | _ n ih =>
  have hget := (get_of_single h).trans (getSingle_eq hpos hn hn₀)
  have hle := w.file.length_ahead_le (n := n)
  by_cases hnil : w.file.ahead n = []
  · rw [hnil, List.take_nil, if_pos rfl] at hget
    have hshort : ¬ w.file.Available n := by
      rw [FileStream.available_iff, hnil]
      exact fun hz => hn₀ hz.symm
    rw [hnil, chunks_nil, if_neg hshort]
    exact .fail hget
  · have hdata : (w.file.ahead n).take bufSize ≠ [] := by simp [hnil, bufSize]
    have hpos' := List.length_pos_of_ne_nil hdata
    rw [if_neg hdata] at hget
    rw [chunks_of_ne_nil hnil]
    by_cases hmore : ((w.file.ahead n).take bufSize).length < n
    · rw [decide_eq_true hmore] at hget
      refine .more hget ?_
      rw [← ahead_after_read, ← if_congr (available_after_read w.file n) rfl rfl]
      exact ih _ (by omega) h rfl (by omega) (by omega)
    · rw [decide_eq_false hmore] at hget
      rw [List.length_take] at hmore
      have hall : w.file.Available n := FileStream.available_iff.2 (by omega)
      rw [List.drop_of_length_le (by omega), chunks_nil, if_pos hall]
      exact .last hget

/-- The bytes a fresh writer returns of the interval from `first` to `second`: those of the file
inside it, or, where the two ends are the wrong way round, one buffer from `first` on. -/
def singleText (file : FileStream) (first second : Int) : Bytes :=
  if u64 first ≤ u64 second then (file.seekg (i64 first)).ahead (u64 second - u64 first)
  else ((file.seekg (i64 first)).ahead (u64 (second - first))).take bufSize

/-- How a fresh writer ends on the interval from `first` to `second`. -/
def singleEnding (file : FileStream) (first second : Int) : Producer.Ending HttpError :=
  if u64 first = u64 second then .done
  else if u64 first < u64 second then
    if (file.seekg (i64 first)).Available (u64 second - u64 first) then .last
    else .failed .shortRead
  else if singleText file first second ≠ [] then .last
  else .failed .shortRead

/-- The first call seeks to the start of the interval and goes on as a later one. -/
theorem getSingle_enter (hpos : w.pos = none) :
    w.getSingle range = getSingle
      { w with pos := some (u64 range.1), file := w.file.seekg (i64 range.1) } range := by
  simp only [getSingle, enter, hpos, i64_u64]
  rfl

/-- Where the two ends are the wrong way round, the one buffer read ends the run: its end is past
the end of the interval. -/
theorem emits_single_reversed (h : Single w range) (hfile : w.file.pos = 0 ∧ w.file.failed = false)
    (hpos : w.pos = none) (hlt : u64 range.2 < u64 range.1) :
    Emits get w (chunks (singleText w.file range.1 range.2))
      (if singleText w.file range.1 range.2 ≠ [] then .last else .failed .shortRead) := by
  have hget := (get_of_single h).trans (getSingle_enter hpos)
  have htext : singleText w.file range.1 range.2 =
      ((w.file.seekg (i64 range.1)).ahead (u64 (range.2 - range.1))).take bufSize :=
    if_neg (by omega)
  have hn : min bufSize (u64 (range.2 - range.1)) ≠ 0 := by
    simp only [bufSize]
    unfold u64 at *
    omega
  simp only [getSingle, enter] at hget
  simp only [u64_sub_u64, FileStream.read_fst, ahead_min_bufSize, ← htext] at hget
  rw [if_neg hn] at hget
  by_cases hnil : singleText w.file range.1 range.2 = []
  · rw [if_pos hnil] at hget
    rw [hnil, chunks_nil, if_neg (not_not.2 rfl)]
    exact .fail hget
  · -- a position before the start of the file is refused, so `first` is not past `2 ^ 63`
    have hnonneg : 0 ≤ i64 range.1 := by
      by_contra hneg
      refine hnil ?_
      rw [htext]
      simp [FileStream.seekg, FileStream.ahead, hfile, hneg]
    have hle : (singleText w.file range.1 range.2).length ≤ bufSize := by
      rw [htext]
      exact List.length_take_le _ _
    have hmore : ¬ u64 ((u64 range.1 : Int) + (singleText w.file range.1 range.2).length) <
        u64 range.2 := by
      rw [i64_nonneg_iff] at hnonneg
      simp only [bufSize] at hle
      unfold u64 at *
      omega
    rw [if_neg hnil, decide_eq_false hmore] at hget
    rw [chunks_of_le hnil hle, if_pos hnil]
    exact .last hget

/-- **The buffers of the whole file, or of one range**, for a fresh writer. -/
theorem emits_single (h : Single w range) (hfile : w.file.pos = 0 ∧ w.file.failed = false)
    (hpos : w.pos = none) :
    Emits get w (chunks (singleText w.file range.1 range.2))
      (singleEnding w.file range.1 range.2) := by
  have hget := (get_of_single h).trans (getSingle_enter hpos)
  rcases Nat.lt_trichotomy (u64 range.1) (u64 range.2) with hlt | heq | hgt
  · have hsingle : Single { w with pos := some (u64 range.1),
                                   file := w.file.seekg (i64 range.1) } range := h
    have hrun := emits_single_from hsingle rfl (n := u64 range.2 - u64 range.1) (by omega) (by omega)
    rw [singleText, if_pos hlt.le, singleEnding, if_neg hlt.ne, if_pos hlt]
    exact hrun.congr (hget.trans (get_of_single hsingle).symm)
  · have hzero : u64 (range.2 - u64 range.1) = 0 := by
      unfold u64 at *
      omega
    simp only [getSingle, enter, hzero, Nat.min_zero, if_true] at hget
    have htext : singleText w.file range.1 range.2 = [] := by
      rw [singleText, if_pos heq.le, heq, Nat.sub_self]
      unfold FileStream.ahead
      split <;> rfl
    rw [htext, chunks_nil, singleEnding, if_pos heq]
    exact .done hget
  · rw [singleEnding, if_neg hgt.ne', if_neg (by omega)]
    exact emits_single_reversed h hfile hpos hgt

/-! ## Several ranges -/

/-- The buffers a part and those after it are returned in, from its header on. -/
def partsBuffers (body : FileBody) (fileSize : Nat) (file : FileStream) :
    List (Int × Int) → List Bytes
  | [] => []
  | range :: ranges =>
    let n := u64 (range.2 - range.1)
    let file := file.seekg (i64 range.1)
    partHeader body fileSize range :: (chunks (file.ahead n) ++
      if file.Available n then
        if ranges = [] then [closing body]
        else bytes "\r\n" :: partsBuffers body fileSize (file.skip n) ranges
      else [])

/-- Every part of several can be read, each from where the part before it left the stream. -/
def PartsAvailable (file : FileStream) : List (Int × Int) → Prop
  | [] => True
  | range :: ranges =>
    let n := u64 (range.2 - range.1)
    let file := file.seekg (i64 range.1)
    file.Available n ∧ PartsAvailable (file.skip n) ranges

instance decidablePartsAvailable (file : FileStream) :
    ∀ ranges : List (Int × Int), Decidable (PartsAvailable file ranges)
  | [] => isTrue trivial
  | range :: ranges =>
    have := decidablePartsAvailable
      ((file.seekg (i64 range.1)).skip (u64 (range.2 - range.1))) ranges
    inferInstanceAs (Decidable (_ ∧ _))

/-- The writer is at one of several ranges. -/
structure InPart (w : FileWriter) (index : Nat) (range : Int × Int) : Prop where
  several : 2 ≤ w.body.ranges.length
  rangeIndex : w.rangeIndex = some index
  range : w.body.ranges[index]? = some range

variable {index : Nat} {tail : List Bytes} {e : Producer.Ending HttpError}

/-- Inside a part, `get` gives the header of the part or goes on with its content. -/
theorem get_of_inPart (h : InPart w index range) :
    w.get = match w.step with
      | .header => .buffer (partHeader w.body w.fileSize range) true
          { w with rangeIndex := some index, step := .content, pos := none }
      | .content => getContent { w with rangeIndex := some index, step := .content } index range
      | .contentEnd => getContentEnd w index
      | .eof => .done := by
  obtain ⟨hlen, hi, hrange⟩ := h
  obtain ⟨a, b, rs, hr⟩ : ∃ a b rs, w.body.ranges = a :: b :: rs := by
    match hr : w.body.ranges, hlen with
    | a :: b :: rs, _ => exact ⟨a, b, rs, rfl⟩
  rw [hr] at hrange
  simp only [get, hr, hi, Option.getD_some, Option.isNone_some, hrange]
  rfl

/-- The first call in the content of a part seeks to the start of its interval. -/
theorem getContent_enter (hpos : w.pos = none) :
    w.getContent index range = getContent
      { w with pos := some (u64 range.1), file := w.file.seekg (i64 range.1) } index range := by
  simp only [getContent, enter, hpos, i64_u64]
  rfl

/-- One call, with `n` bytes of the part to come. -/
theorem getContent_eq (index : Nat) (hpos : w.pos = some pos) (hn : u64 (range.2 - pos) = n)
    (hn₀ : n ≠ 0) :
    w.getContent index range =
      if (w.file.ahead n).take bufSize = [] then .fail .shortRead
      else .buffer ((w.file.ahead n).take bufSize) true
        { w with pos := some (u64 (pos + ((w.file.ahead n).take bufSize).length)),
                 file := (w.file.read (min bufSize n)).2 } := by
  have hmin : min bufSize n ≠ 0 := by
    simp only [bufSize]
    omega
  simp only [getContent, enter, hpos]
  rw [hn, if_neg hmin]
  simp only [FileStream.read_fst, ahead_min_bufSize]

/-- **The buffers of a part that is being read.** With `n` bytes of it to come, the writer returns
the bytes ahead and, if these are all, goes on with what follows the part. -/
theorem emits_content (h : InPart w index range) (hstep : w.step = .content)
    (hpos : w.pos = some pos) (hn : u64 (range.2 - pos) = n)
    (hend : w.file.Available n → ∀ p, u64 (range.2 - (p : Nat)) = 0 →
      Emits get { w with pos := some p, file := w.file.skip n } tail e) :
    Emits get w (chunks (w.file.ahead n) ++ if w.file.Available n then tail else [])
      (if w.file.Available n then e else .failed .shortRead) := by
  induction n using Nat.strong_induction_on generalizing w pos with
  | _ n ih =>
  obtain ⟨body, file, rangeIndex, wpos, step, fileSize⟩ := w
  cases hpos
  cases hstep
  have hrange : rangeIndex = some index := h.rangeIndex
  subst hrange
  by_cases hn₀ : n = 0
  · subst hn₀
    have hall : file.Available 0 := .inl rfl
    have hnil : file.ahead 0 = [] := List.eq_nil_of_length_eq_zero (Nat.le_zero.1 file.length_ahead_le)
    rw [if_pos hall, if_pos hall, hnil, chunks_nil, List.nil_append]
    exact hend hall pos hn
  have hget := (get_of_inPart h).trans (getContent_eq (w := ⟨body, file, some index, some pos,
    .content, fileSize⟩) index rfl hn hn₀)
  have hle := file.length_ahead_le (n := n)
  by_cases hnil : file.ahead n = []
  · simp only [hnil, List.take_nil, if_true] at hget
    have hshort : ¬ file.Available n := by
      rw [FileStream.available_iff, hnil]
      exact fun hz => hn₀ hz.symm
    rw [hnil, chunks_nil, if_neg hshort, if_neg hshort]
    exact .fail hget
  · have hdata : (file.ahead n).take bufSize ≠ [] := by simp [hnil, bufSize]
    have hpos' := List.length_pos_of_ne_nil hdata
    simp only at hget
    rw [if_neg hdata] at hget
    rw [chunks_of_ne_nil hnil, List.cons_append]
    refine .more hget ?_
    have hsome := available_after_read file n
    rw [← ahead_after_read]
    simp only [← hsome]
    refine ih _ (by omega) ⟨h.several, rfl, h.range⟩ rfl rfl ?_ fun hall p hp => ?_
    · have hlen : ((file.ahead n).take bufSize).length ≤ n := by
        rw [List.length_take]
        omega
      rw [u64_sub_u64]
      unfold u64 at *
      omega
    · have hend' := hend (hsome.1 hall) p hp
      rw [← skip_after_read (hsome.1 hall) hn₀] at hend'
      exact hend'

/-- After the content of a part, its end. -/
theorem get_of_content_end (h : InPart w index range) (hstep : w.step = .content)
    (hpos : w.pos = some pos) (hzero : u64 (range.2 - pos) = 0) :
    w.get = getContentEnd { w with rangeIndex := some index, step := .contentEnd } index := by
  rw [get_of_inPart h, hstep]
  simp only [getContent, enter, hpos, hzero, Nat.min_zero, if_true]

/-- The buffers of a part, from its header on. -/
theorem emits_part (h : InPart w index range) (hstep : w.step = .header)
    (hn : u64 (range.2 - range.1) = n) (hfile : w.file.seekg (i64 range.1) = file)
    (hend : file.Available n → ∀ p, u64 (range.2 - (p : Nat)) = 0 →
      Emits get { w with rangeIndex := some index, step := .content, pos := some p,
                         file := file.skip n } tail e) :
    Emits get w (partHeader w.body w.fileSize range ::
        (chunks (file.ahead n) ++ if file.Available n then tail else []))
      (if file.Available n then e else .failed .shortRead) := by
  have hget := get_of_inPart h
  rw [hstep] at hget
  refine .more hget ?_
  have h' : InPart { w with rangeIndex := some index, step := .content, pos := none } index range :=
    ⟨h.several, rfl, h.range⟩
  have hentered : InPart { w with rangeIndex := some index, step := .content,
                                  pos := some (u64 range.1), file } index range :=
    ⟨h.several, rfl, h.range⟩
  have hrun := emits_content hentered rfl rfl (by rw [u64_sub_u64, hn]) hend
  refine hrun.congr ?_
  rw [get_of_inPart h', get_of_inPart hentered]
  refine (getContent_enter rfl).trans ?_
  rw [hfile]

/-- **The buffers of several ranges**, from the header of one of them on: a header, the bytes of the
file from where the stream stands, and a line break or the closing boundary. The induction is on the
ranges to come. -/
theorem emits_parts (ranges : List (Int × Int)) (h : InPart w index range)
    (hdrop : w.body.ranges.drop index = range :: ranges) (hstep : w.step = .header) :
    Emits get w (partsBuffers w.body w.fileSize w.file (range :: ranges))
      (if PartsAvailable w.file (range :: ranges) then .last else .failed .shortRead) := by
  have hlen := congrArg List.length hdrop
  rw [List.length_drop, List.length_cons] at hlen
  induction ranges generalizing w index range with
  | nil =>
    have hlast : index = w.body.ranges.length - 1 := by
      simp only [List.length_nil] at hlen
      omega
    simp only [partsBuffers, PartsAvailable, and_true, if_true]
    refine emits_part h hstep rfl rfl fun _ p hp => ?_
    have hend := get_of_content_end (w := { w with
      rangeIndex := some index, step := .content, pos := some p,
      file := (w.file.seekg (i64 range.1)).skip (u64 (range.2 - range.1)) })
      ⟨h.several, rfl, h.range⟩ rfl rfl hp
    rw [getContentEnd, if_pos hlast] at hend
    exact .last hend
  | cons next ranges ih =>
    rw [List.length_cons] at hlen
    have hnext : w.body.ranges.drop (index + 1) = next :: ranges := by
      rw [← List.drop_drop, hdrop, List.drop_one, List.tail_cons]
    have hget : w.body.ranges[index + 1]? = some next := by
      rw [← List.head?_drop, hnext, List.head?_cons]
    have havail : PartsAvailable w.file (range :: next :: ranges) ↔
        (w.file.seekg (i64 range.1)).Available (u64 (range.2 - range.1)) ∧
          PartsAvailable ((w.file.seekg (i64 range.1)).skip (u64 (range.2 - range.1)))
            (next :: ranges) := Iff.rfl
    rw [partsBuffers, if_neg (List.cons_ne_nil _ _), if_congr havail rfl rfl, ite_and]
    refine emits_part h hstep rfl rfl fun _ p hp => ?_
    have hend := get_of_content_end (w := { w with
      rangeIndex := some index, step := .content, pos := some p,
      file := (w.file.seekg (i64 range.1)).skip (u64 (range.2 - range.1)) })
      ⟨h.several, rfl, h.range⟩ rfl rfl hp
    rw [getContentEnd, if_neg (show ¬ index = w.body.ranges.length - 1 by omega)] at hend
    refine .more hend (ih ⟨h.several, rfl, hget⟩ hnext rfl ?_)
    rw [← List.length_drop, hnext, List.length_cons]

end FileWriter

/-! ## A whole run -/

namespace FileBody

open FileWriter

/-- The stream of a body as its writer finds it. -/
def stream (body : FileBody) : FileStream := { content := body.content }

/-- The buffers the writer of a body returns. -/
def buffers (body : FileBody) (fileSize : Nat) : List Bytes :=
  match body.ranges with
  | [] => chunks (singleText body.stream 0 body.fileSize)
  | [range] => chunks (singleText body.stream range.1 (range.2 + 1))
  | ranges => partsBuffers body fileSize body.stream ranges

/-- How the writer of a body ends. -/
def ending (body : FileBody) : Producer.Ending HttpError :=
  match body.ranges with
  | [] => singleEnding body.stream 0 body.fileSize
  | [range] => singleEnding body.stream range.1 (range.2 + 1)
  | ranges => if PartsAvailable body.stream ranges then .last else .failed .shortRead

/-- **Every run of the file writer ends**, with these buffers and in this way. -/
theorem emits_start (body : FileBody) (fileSize : Nat) :
    Emits FileWriter.get (start body fileSize) (body.buffers fileSize) body.ending := by
  unfold buffers ending
  split
  · next hr => exact emits_single (.inl ⟨hr, rfl⟩) ⟨rfl, rfl⟩ rfl
  · next range hr => exact emits_single (.inr ⟨range, hr, rfl⟩) ⟨rfl, rfl⟩ rfl
  · next hnil hone =>
    obtain ⟨a, b, rs, hr⟩ : ∃ a b rs, body.ranges = a :: b :: rs := by
      match hr : body.ranges with
      | [] => exact absurd hr hnil
      | [range] => exact absurd hr (hone range)
      | a :: b :: rs => exact ⟨a, b, rs, rfl⟩
    have hin : InPart { start body fileSize with rangeIndex := some 0 } 0 a :=
      ⟨by simp [start, hr], rfl, by simp [start, hr]⟩
    have hrun := emits_parts (b :: rs) hin (by simp [start, hr]) rfl
    rw [hr]
    refine hrun.congr ?_
    rw [get_of_inPart hin]
    simp [FileWriter.get, start, hr]

/-- The interval from `first` to `second` lies in the file and holds a byte; or its two ends are
the wrong way round, and `first` lies in the file. -/
def IntervalReadable (body : FileBody) (first second : Int) : Prop :=
  u64 first < 2 ^ 63 ∧
    (u64 first < u64 second ∧ u64 second ≤ body.content.length ∨
      u64 second < u64 first ∧ u64 first < body.content.length)

/-- The writer of the body returns a last buffer: the interval asked for can be read and is not
empty, or there are several parts and all of them can be read. -/
def EndsWithBuffer (body : FileBody) : Prop :=
  match body.ranges with
  | [] => body.IntervalReadable 0 body.fileSize
  | [range] => body.IntervalReadable range.1 (range.2 + 1)
  | ranges => PartsAvailable body.stream ranges

/-- The first seek moves to the start of the interval, or fails for good. -/
theorem seekg_stream (body : FileBody) (first : Int) :
    body.stream.seekg (i64 first) =
      if u64 first < 2 ^ 63 then { content := body.content, pos := u64 first }
      else { content := body.content, failed := true } := by
  have hseek : body.stream.seekg (i64 first) =
      if 0 ≤ i64 first then { content := body.content, pos := (i64 first).toNat }
      else { content := body.content, failed := true } := by
    simp only [FileStream.seekg, stream, Bool.false_eq_true, if_false, Int.natCast_zero, Int.zero_add]
  rw [hseek]
  split
  · next h => rw [if_pos (i64_nonneg_iff.1 h), i64_eq_u64 (i64_nonneg_iff.1 h), Int.toNat_natCast]
  · next h => rw [if_neg fun hlt => h (i64_nonneg_iff.2 hlt)]

/-- A single range ends with a buffer exactly when the file has the bytes of its interval. -/
theorem singleEnding_eq_last_iff (body : FileBody) (first second : Int) :
    singleEnding body.stream first second = .last ↔ body.IntervalReadable first second := by
  unfold singleEnding singleText IntervalReadable
  rw [seekg_stream]
  rcases Nat.lt_trichotomy (u64 first) (u64 second) with hlt | heq | hgt
  · rw [if_neg hlt.ne, if_pos hlt]
    split
    · next h => simp [FileStream.Available]; omega
    · next h => simp [FileStream.Available]; omega
  · rw [if_pos heq]
    simp [heq]
  · have hn : u64 (second - first) ≠ 0 := by
      unfold u64 at *
      omega
    rw [if_neg hgt.ne', if_neg (show ¬ u64 first < u64 second by omega),
      if_neg (show ¬ u64 first ≤ u64 second by omega)]
    split
    · next h => simp [FileStream.ahead, bufSize, hn]; omega
    · next h => simp [FileStream.ahead]; omega

/-- The writer of a file body ends with a buffer exactly under `EndsWithBuffer`. -/
theorem ending_eq_last_iff (body : FileBody) : body.ending = .last ↔ body.EndsWithBuffer := by
  unfold ending EndsWithBuffer
  split
  · exact body.singleEnding_eq_last_iff _ _
  · exact body.singleEnding_eq_last_iff _ _
  · split <;> simp_all

/-- A range that ends without a buffer has written nothing. -/
theorem singleText_eq_nil_of_done {file : FileStream} {first second : Int}
    (h : singleEnding file first second = .done) : singleText file first second = [] := by
  unfold singleEnding at h
  split at h
  · next heq =>
    rw [singleText, if_pos heq.le, heq, Nat.sub_self]
    exact List.eq_nil_of_length_eq_zero (Nat.le_zero.1 (FileStream.length_ahead_le))
  · split at h <;> split at h <;> cases h

/-- A run that ends without a last buffer returned none. -/
theorem buffers_eq_nil_of_done {body : FileBody} (fileSize : Nat) (h : body.ending = .done) :
    body.buffers fileSize = [] := by
  unfold ending at h
  unfold buffers
  split at h
  · rw [singleText_eq_nil_of_done h, chunks_nil]
  · rw [singleText_eq_nil_of_done h, chunks_nil]
  · split at h <;> cases h

end FileBody

end Httplib
