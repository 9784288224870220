import Httplib.Body.AnyBodyWriter
import Httplib.Body.FormDataElements

/-!
# Compressed input

Behind a compressor `any_body::reader::impl` calls the reader it has selected once for each piece
that the codec puts out, on that piece and what was left of those before it, and once more when the
codec is closed; and it forgets the error of the last call. `compressed_input_iff` says when that comes to the
same as reading the decoded body plainly: the multipart reader takes one element at each call, so for
it one call for each piece has to be enough; the other readers take all they are offered.
-/

namespace Httplib

open Incremental

/-- What is relied on of the JSON parser: it takes text in any pieces, and never looks ahead. Its
first piece taken whole, a text in two pieces is read as in one; what it leaves or refuses, it leaves
or refuses when more text follows; and it is not done before a text is complete. -/
structure JsonLib.Streams (Json : Type) [JsonLib Json] : Prop where
  le : ∀ {p p₁ : JsonLib.Parser Json} {x n e}, JsonLib.writeSome p x = (p₁, n, e) → n ≤ x.length
  whole : ∀ {p p₁ p₂ : JsonLib.Parser Json} {x y n e},
    JsonLib.writeSome p x = (p₁, x.length, false) → JsonLib.writeSome p₁ y = (p₂, n, e) →
    JsonLib.writeSome p (x ++ y) = (p₂, x.length + n, e)
  left : ∀ {p p₁ : JsonLib.Parser Json} {x y n}, JsonLib.writeSome p x = (p₁, n, false) →
    n < x.length → JsonLib.writeSome p (x ++ y) = (p₁, n, false)
  refused : ∀ {p p₁ : JsonLib.Parser Json} {x y n}, JsonLib.writeSome p x = (p₁, n, true) →
    JsonLib.writeSome p (x ++ y) = (p₁, n, true)
  not_done : JsonLib.done (JsonLib.parser : JsonLib.Parser Json) = false
  not_done_of_refused : ∀ {p p₁ : JsonLib.Parser Json} {x n}, JsonLib.done p = false →
    JsonLib.writeSome p x = (p₁, n, true) → JsonLib.done p₁ = false

namespace ProxyReader

open FormDataReader (FormText exists_formText)

variable {Json : Type} [JsonLib Json] {κ : Type}

/-! ## One call for each piece -/

/-- One call for each piece that is not empty, on the piece behind what was left; `none` when a call
reports an error. -/
def callEach (proxy : ProxyReader Json) (left : Bytes) :
    List Bytes → Option (ProxyReader Json × Bytes)
  | [] => some (proxy, left)
  | piece :: pieces =>
    if left ++ piece = [] then callEach proxy [] pieces
    else match proxy.put (left ++ piece) with
      | (proxy, n, none) => callEach proxy ((left ++ piece).drop n) pieces
      | (_, _, some _) => none

/-- The call at the end, whatever error it reports. -/
def callLast (proxy : ProxyReader Json) (data : Bytes) : ProxyReader Json :=
  if data ≠ [] then (proxy.put data).1 else proxy

/-- **The compressed way to read, seen from the reader behind it.** -/
theorem readChunks_eq [Platform] (codec : Codec κ UInt8) (proxy : ProxyReader Json) (left : Bytes) (s : κ)
    (chunks : List Bytes) :
    AnyBodyReader.readChunks
      { proxy, compressor := some { codec, state := some s, buffer := left } } chunks =
    (proxy.callEach left (codec.outputs s chunks)).bind fun r =>
      (r.1.callLast (r.2 ++ codec.close (codec.after s chunks))).finish.toOption := by
  induction chunks generalizing proxy left s with
  | nil =>
    show Except.toOption (if left ++ codec.close s ≠ [] then
        (proxy.put (left ++ codec.close s)).1.finish else proxy.finish) =
      Except.toOption (callLast proxy (left ++ codec.close s)).finish
    unfold callLast
    split <;> rfl
  | cons chunk chunks ih =>
    simp only [AnyBodyReader.readChunks, AnyBodyReader.put, Compressor.write, if_true,
      Codec.outputs, callEach, Codec.after]
    by_cases hnil : left ++ (codec.write s chunk).1 = []
    · rw [if_neg (not_not.2 hnil), if_pos hnil]
      simp only [hnil]
      exact ih proxy [] _
    · rw [if_pos hnil, if_neg hnil]
      rcases proxy.put (left ++ (codec.write s chunk).1) with ⟨proxy', n, _ | e⟩
      · exact ih proxy' _ _
      · rfl

/-! ## The plain way, by its first call -/

variable {proxy proxy' : ProxyReader Json} {data : Bytes}

/-- The plain reader behind no compressor. -/
abbrev plain (κ : Type) (proxy : ProxyReader Json) : AnyBodyReader Json κ :=
  { proxy, compressor := none }

@[simp] theorem readWhole_nil [Platform] : (plain κ proxy).readWhole [] = proxy.finish.toOption := rfl

/-- A body that the first call takes whole. -/
theorem readWhole_of_all [Platform] (hne : data ≠ []) (h : proxy.put data = (proxy', data.length, none)) :
    (plain κ proxy).readWhole data = proxy'.finish.toOption := by
  have hlen := List.length_pos_of_ne_nil hne
  obtain ⟨n, hn⟩ := Nat.exists_eq_succ_of_ne_zero hlen.ne'
  rw [AnyBodyReader.readWhole, hn, AnyBodyReader.drain, if_neg hne]
  simp only [AnyBodyReader.put, h]
  rw [if_neg hlen.ne', List.drop_length]
  cases n <;> rfl

/-- A body that the first call refuses. -/
theorem readWhole_of_error [Platform] {n : Nat} {e : BodyError} (hne : data ≠ [])
    (h : proxy.put data = (proxy', n, some e)) : (plain κ proxy).readWhole data = none := by
  obtain ⟨k, hk⟩ := Nat.exists_eq_succ_of_ne_zero (List.length_pos_of_ne_nil hne).ne'
  rw [AnyBodyReader.readWhole, hk, AnyBodyReader.drain, if_neg hne]
  simp only [AnyBodyReader.put, h, Option.bind_none]

/-! ## The query string -/

/-- The reader of a query string takes every piece. -/
theorem callEach_queryParams (buffer : Bytes) (pieces : List Bytes) :
    callEach (.queryParams buffer : ProxyReader Json) [] pieces =
      some (.queryParams (buffer ++ pieces.flatten), []) := by
  induction pieces generalizing buffer with
  | nil => simp [callEach]
  | cons piece pieces ih =>
    rw [callEach, List.nil_append, List.flatten_cons]
    split
    · next hnil => rw [hnil, ih, List.nil_append]
    · simp only [put, List.drop_length]
      rw [ih, List.append_assoc]

@[simp] theorem callLast_queryParams (buffer data : Bytes) :
    callLast (.queryParams buffer : ProxyReader Json) data = .queryParams (buffer ++ data) := by
  unfold callLast
  split
  · rfl
  · next h => rw [not_not.1 h, List.append_nil]

theorem readWhole_queryParams [Platform] (buffer data : Bytes) :
    (plain κ (.queryParams buffer : ProxyReader Json)).readWhole data =
      (finish (.queryParams (buffer ++ data) : ProxyReader Json)).toOption := by
  by_cases hnil : data = []
  · rw [hnil, readWhole_nil, List.append_nil]
  · exact readWhole_of_all hnil rfl

/-! ## The string -/

/-- The reader of a string takes every piece, up to the greatest length of a string. -/
theorem callEach_string (body : Bytes) (hbody : body.length ≤ stringMaxSize) (pieces : List Bytes) :
    callEach (.string body : ProxyReader Json) [] pieces =
      if body.length + pieces.flatten.length ≤ stringMaxSize then
        some (.string (body ++ pieces.flatten), [])
      else none := by
  induction pieces generalizing body with
  | nil => simp [callEach, hbody]
  | cons piece pieces ih =>
    rw [callEach, List.nil_append, List.flatten_cons, List.length_append]
    split
    · next hnil => rw [hnil, ih body hbody, List.nil_append, List.length_nil, Nat.zero_add]
    · by_cases hlen : piece.length > stringMaxSize - body.length
      · simp only [put, hlen, if_true]
        rw [if_neg (by omega)]
      · simp only [put, hlen, if_false, List.drop_length]
        rw [ih _ (by rw [List.length_append]; omega), List.append_assoc, List.length_append,
          Nat.add_assoc]

theorem callLast_string (body data : Bytes) (hbody : body.length ≤ stringMaxSize) :
    callLast (.string body : ProxyReader Json) data =
      .string (if body.length + data.length ≤ stringMaxSize then body ++ data else body) := by
  unfold callLast
  split
  · simp only [put]
    split
    · rw [if_neg (by omega)]
    · rw [if_pos (by omega)]
  · next h =>
    rw [not_not.1 h, List.append_nil, ite_self]

theorem readWhole_string [Platform] (body data : Bytes) (hbody : body.length ≤ stringMaxSize) :
    (plain κ (.string body : ProxyReader Json)).readWhole data =
      if body.length + data.length ≤ stringMaxSize then some (.string (body ++ data)) else none := by
  by_cases hnil : data = []
  · simp [hnil, hbody, finish, Except.toOption]
  · by_cases hlen : data.length > stringMaxSize - body.length
    · have hput : put (.string body : ProxyReader Json) data =
          (.string body, 0, some (.http .bufferOverflow)) := by simp [put, hlen]
      rw [readWhole_of_error hnil hput, if_neg (by omega)]
    · have hput : put (.string body : ProxyReader Json) data =
          (.string (body ++ data), data.length, none) := by simp [put, hlen]
      rw [readWhole_of_all hnil hput, if_pos (by omega)]
      rfl

/-- **When a string is read alike** in pieces and at once: an overflow in the last piece is the one
that is not noticed. -/
theorem read_string_iff [Platform] (pieces : List Bytes) (last : Bytes) :
    ((callEach (.string [] : ProxyReader Json) [] pieces).bind fun r =>
        (r.1.callLast (r.2 ++ last)).finish.toOption) =
      (plain κ (.string [] : ProxyReader Json)).readWhole (pieces.flatten ++ last) ↔
    (pieces.flatten ++ last).length ≤ stringMaxSize ∨ stringMaxSize < pieces.flatten.length := by
  rw [callEach_string [] (Nat.zero_le _), readWhole_string [] _ (Nat.zero_le _), List.length_nil,
    Nat.zero_add, Nat.zero_add, List.nil_append, List.nil_append]
  by_cases hpieces : pieces.flatten.length ≤ stringMaxSize
  · rw [if_pos hpieces, Option.bind_some, List.nil_append, callLast_string _ _ hpieces,
      ← List.length_append]
    by_cases hall : (pieces.flatten ++ last).length ≤ stringMaxSize
    · rw [if_pos hall, if_pos hall]
      exact ⟨fun _ => .inl hall, fun _ => rfl⟩
    · rw [if_neg hall, if_neg hall]
      simp only [finish, Except.toOption, reduceCtorEq, hall, false_or, false_iff]
      omega
  · rw [if_neg hpieces, Option.bind_none, if_neg (by rw [List.length_append]; omega)]
    simp only [true_iff]
    omega

/-! ## The JSON text -/

/-- The parser, given a text at once, takes all of it or refuses it; or there is no text. -/
def TakesOrRefuses (Json : Type) [JsonLib Json] (text : Bytes) : Prop :=
  let r := JsonLib.writeSome (JsonLib.parser : JsonLib.Parser Json) text
  text = [] ∨ r.2.2 = true ∨ r.2.1 = text.length

/-- The parser has taken a text, from the start. -/
def HasRead (p : JsonLib.Parser Json) (text : Bytes) : Prop :=
  text = [] ∧ p = JsonLib.parser ∨
    text ≠ [] ∧ JsonLib.writeSome JsonLib.parser text = (p, text.length, false)

variable (hlib : JsonLib.Streams Json) {p p' : JsonLib.Parser Json} {text piece : Bytes} {n : Nat}
include hlib

/-- The next piece is read as if it had come with the text before it. -/
theorem HasRead.write {refused : Bool} (h : HasRead p text)
    (hw : JsonLib.writeSome p piece = (p', n, refused)) :
    JsonLib.writeSome JsonLib.parser (text ++ piece) = (p', text.length + n, refused) := by
  rcases h with ⟨rfl, rfl⟩ | ⟨-, h⟩
  · simpa using hw
  · exact hlib.whole h hw

/-- A text that the parser does not stop in is taken piece by piece, up to the first piece that is
refused. -/
theorem HasRead.next {rest : Bytes} (h : HasRead p text) (hne : piece ≠ [])
    (hall : TakesOrRefuses Json (text ++ (piece ++ rest))) :
    (∃ p' n, JsonLib.writeSome p piece = (p', n, true) ∧
      JsonLib.writeSome JsonLib.parser (text ++ (piece ++ rest)) = (p', text.length + n, true)) ∨
    ∃ p', JsonLib.writeSome p piece = (p', piece.length, false) ∧ HasRead p' (text ++ piece) := by
  obtain ⟨p', n, refused, hw⟩ : ∃ p' n refused, JsonLib.writeSome p piece = (p', n, refused) :=
    ⟨_, _, _, rfl⟩
  have hwhole := h.write hlib hw
  have hle := hlib.le hw
  rw [← List.append_assoc] at hall ⊢
  cases refused with
  | true => exact .inl ⟨p', n, hw, hlib.refused hwhole⟩
  | false =>
    right
    by_cases hn : n = piece.length
    · subst hn
      refine ⟨p', hw, .inr ⟨by simp [hne], ?_⟩⟩
      rw [hwhole, List.length_append]
    · have hstop := hlib.left (y := rest) hwhole (by rw [List.length_append]; omega)
      have hpos := List.length_pos_of_ne_nil hne
      rw [TakesOrRefuses, hstop] at hall
      rcases hall with hnil | hfalse | hlen
      · simp [hne] at hnil
      · cases hfalse
      · simp only [List.length_append] at hlen
        omega

/-- One call for each piece of such a text: all are taken, or one and with it the text is
refused. -/
theorem callEach_json (pieces : List Bytes) (last : Bytes) (h : HasRead p text)
    (hall : TakesOrRefuses Json (text ++ (pieces.flatten ++ last))) :
    (callEach (.json p) [] pieces = none ∧ ∃ (p' : JsonLib.Parser Json) (n : Nat),
      JsonLib.writeSome JsonLib.parser (text ++ (pieces.flatten ++ last)) = (p', n, true)) ∨
    ∃ p', callEach (.json p) [] pieces = some (.json p', []) ∧
      HasRead p' (text ++ pieces.flatten) := by
  induction pieces generalizing p text with
  | nil => exact .inr ⟨p, rfl, by simpa using h⟩
  | cons piece pieces ih =>
    simp only [callEach, List.nil_append, List.flatten_cons]
    rw [List.flatten_cons, List.append_assoc] at hall
    by_cases hne : piece = []
    · simp only [hne, if_true, List.nil_append] at hall ⊢
      exact ih h hall
    · rw [if_neg hne]
      rcases h.next hlib hne hall with ⟨p', n, hw, hrefused⟩ | ⟨p', hw, hread⟩
      · left
        simp only [put, hw, if_true]
        rw [List.append_assoc]
        exact ⟨trivial, p', _, hrefused⟩
      · simp only [put, hw, Bool.false_eq_true, if_false, List.drop_length]
        rw [← List.append_assoc] at hall
        have := ih hread hall
        simpa only [List.append_assoc] using this

/-- **A text that the parser takes whole or refuses is read alike** in pieces and at once. -/
theorem read_json [Platform] {pieces : List Bytes} {last : Bytes}
    (hall : TakesOrRefuses Json (pieces.flatten ++ last)) :
    ((callEach (.json JsonLib.parser : ProxyReader Json) [] pieces).bind fun r =>
        (r.1.callLast (r.2 ++ last)).finish.toOption) =
      (plain κ (.json JsonLib.parser : ProxyReader Json)).readWhole (pieces.flatten ++ last) := by
  have hstart : HasRead (JsonLib.parser : JsonLib.Parser Json) [] := .inl ⟨rfl, rfl⟩
  rcases callEach_json hlib pieces last hstart hall with
    ⟨hnone, p', n, hrefused⟩ | ⟨p, hsome, hread⟩
  · rw [hnone, Option.bind_none]
    by_cases hnil : pieces.flatten ++ last = []
    · rw [hnil, readWhole_nil, finish, hlib.not_done]
      rfl
    · exact (readWhole_of_error (e := .json) hnil (by
        rw [List.nil_append] at hrefused
        simp only [put, hrefused, if_true]
        rfl)).symm
  · rw [hsome, Option.bind_some]
    simp only [List.nil_append] at hread hall ⊢
    by_cases hlast : last = []
    · rw [hlast, List.append_nil, callLast, if_neg (not_not.2 rfl)]
      rcases hread with ⟨hnil, rfl⟩ | ⟨hne, hread⟩
      · rw [hnil, readWhole_nil]
      · exact (readWhole_of_all hne (by simp only [put, hread, Bool.false_eq_true, if_false])).symm
    · have hne : pieces.flatten ++ last ≠ [] := by simp [hlast]
      rw [callLast, if_pos hlast]
      rw [← List.append_nil last] at hall
      rcases hread.next hlib hlast hall with ⟨p', n, hw, hrefused⟩ | ⟨p', hw, hread⟩
      · rw [List.append_nil] at hrefused
        have hdone := hlib.not_done_of_refused hlib.not_done hrefused
        rw [readWhole_of_error (e := .json) hne (by
          simp only [put, hrefused, if_true]
          rfl)]
        simp only [put, hw, finish, hdone]
        rfl
      · rcases hread with ⟨hnil, -⟩ | ⟨-, hread⟩
        · exact absurd hnil hne
        · rw [readWhole_of_all hne (by
            simp only [put, hread, Bool.false_eq_true, if_false]
            rfl)]
          simp only [put, hw, finish]

omit hlib

/-! ## The multipart form -/

variable {r s : FormDataReader} {rest : Bytes}

/-- The calls for the pieces are a run of the reader over them. -/
theorem callEach_formData {left : Bytes} {pieces : List Bytes} {x : ProxyReader Json × Bytes}
    (h : callEach (.formData r : ProxyReader Json) left pieces = some x) :
    ∃ s, x.1 = .formData s ∧
      Steps FormDataReader.advance r (left ++ pieces.flatten) s x.2 := by
  induction pieces generalizing r left with
  | nil =>
    cases h
    exact ⟨r, rfl, by simpa using Steps.refl⟩
  | cons piece pieces ih =>
    rw [callEach] at h
    rw [List.flatten_cons, ← List.append_assoc]
    split at h
    · next hnil =>
      rw [hnil]
      exact ih h
    · next hne =>
      simp only [put] at h
      cases hput : r.put (left ++ piece) with
      | took n r' =>
        rw [hput] at h
        obtain ⟨s, hs, hsteps⟩ := ih h
        obtain ⟨_, _, hfirst⟩ := FormDataReader.put_refines.took hne hput
        exact ⟨s, hs, (hfirst.append FormDataReader.advance_stable _).trans hsteps⟩
      | more => simp [hput] at h
      | fail e => simp [hput] at h

/-- The call at the end is a run of the reader, or leaves it as it is. -/
theorem callLast_formData (r : FormDataReader) (data : Bytes) :
    ∃ s rest, callLast (.formData r : ProxyReader Json) data = .formData s ∧
      Steps FormDataReader.advance r data s rest := by
  unfold callLast
  split
  · next hne =>
    simp only [put]
    cases hput : r.put data with
    | took n s => exact ⟨s, _, rfl, (FormDataReader.put_refines.took hne hput).2.2⟩
    | more | fail e => exact ⟨r, _, rfl, .refl⟩
  · exact ⟨r, _, rfl, .refl⟩

/-- The plain way to read a form is a run that takes all of it. -/
theorem drain_formData (turns : Nat) (r : FormDataReader) (data : Bytes) :
    AnyBodyReader.drain turns (plain κ (.formData r : ProxyReader Json)) data =
      match drive FormDataReader.put turns r data with
      | (s, [], none) => some (plain κ (.formData s))
      | _ => none := by
  induction turns generalizing r data with
  | zero => cases data <;> simp [AnyBodyReader.drain, drive]
  | succ turns ih =>
    cases data with
    | nil => simp [AnyBodyReader.drain, drive]
    | cons c data =>
      simp only [AnyBodyReader.drain, drive, List.isEmpty_cons, AnyBodyReader.put, put]
      rw [if_neg (List.cons_ne_nil c data)]
      cases hput : r.put (c :: data) with
      | took n s =>
        have hpos := (FormDataReader.put_took_le hput (List.cons_ne_nil c data)).1
        simp only [if_neg hpos.ne']
        exact ih s _
      | more | fail e => simp

/-- A form that a run takes whole, to its end, is the value. -/
theorem readWhole_formData_eq_some [Platform] {data : Bytes}
    (h : Steps FormDataReader.advance r data s []) (hs : s.step = .eof) :
    (plain κ (.formData r : ProxyReader Json)).readWhole data =
      some (.formData { fields := s.fields }) := by
  have hdrive := (drive_eq_nil_iff FormDataReader.advance_stable FormDataReader.put_refines).2 h
  rw [AnyBodyReader.readWhole, drain_formData, hdrive]
  simp [AnyBodyReader.finish, finish, FormDataReader.finish, hs, Except.toOption]

/-- Any other text is refused. -/
theorem readWhole_formData_eq_none [Platform] {data : Bytes}
    (h : ¬ ∃ s, Steps FormDataReader.advance r data s [] ∧ s.step = .eof) :
    (plain κ (.formData r : ProxyReader Json)).readWhole data = none := by
  rw [AnyBodyReader.readWhole, drain_formData]
  split
  · next s hdrive =>
    have hsteps :=
      (drive_eq_nil_iff FormDataReader.advance_stable FormDataReader.put_refines).1 hdrive
    have hs : s.step ≠ .eof := fun hs => h ⟨s, hsteps, hs⟩
    simp [AnyBodyReader.finish, finish, FormDataReader.finish, hs, Except.toOption]
  · rfl

/-- One call for each piece and one at the end bring the multipart reader to the end of a form. -/
def OneCallEach (Json : Type) [JsonLib Json] (r : FormDataReader) (pieces : List Bytes)
    (last : Bytes) : Prop :=
  ∃ s, ((callEach (.formData r : ProxyReader Json) [] pieces).map fun x =>
    x.1.callLast (x.2 ++ last)) = some (.formData s) ∧ s.step = .eof

/-- Where one call for each piece is enough, the form read is the one that the text begins with. -/
theorem OneCallEach.read [Platform] {pieces : List Bytes} {last : Bytes}
    (h : OneCallEach Json r pieces last) :
    ∃ s rest, Steps FormDataReader.advance r (pieces.flatten ++ last) s rest ∧ s.step = .eof ∧
      ((callEach (.formData r : ProxyReader Json) [] pieces).bind fun x =>
        (x.1.callLast (x.2 ++ last)).finish.toOption) = some (.formData { fields := s.fields }) := by
  obtain ⟨s, hmap, hs⟩ := h
  obtain ⟨⟨proxy, left⟩, hcalls, hlast⟩ := Option.map_eq_some_iff.1 hmap
  obtain ⟨s₁, rfl, hsteps⟩ := callEach_formData hcalls
  obtain ⟨s₂, rest, hlast₂, hsteps₂⟩ : ∃ s rest,
      callLast (.formData s₁ : ProxyReader Json) (left ++ last) = .formData s ∧
        Steps FormDataReader.advance s₁ (left ++ last) s rest := callLast_formData s₁ _
  rw [hlast₂] at hlast
  cases hlast
  refine ⟨s, rest, ?_, hs, ?_⟩
  · exact (hsteps.append FormDataReader.advance_stable last).trans hsteps₂
  · rw [hcalls, Option.bind_some, hlast₂]
    simp [finish, FormDataReader.finish, hs, Except.toOption]

/-- Where it is not, the form is refused. -/
theorem eq_none_of_not_oneCallEach [Platform] {pieces : List Bytes} {last : Bytes}
    (h : ¬ OneCallEach Json r pieces last) :
    ((callEach (.formData r : ProxyReader Json) [] pieces).bind fun x =>
      (x.1.callLast (x.2 ++ last)).finish.toOption) = none := by
  cases hcalls : callEach (.formData r : ProxyReader Json) [] pieces with
  | none => rfl
  | some x =>
    obtain ⟨s₁, hx, -⟩ := callEach_formData hcalls
    obtain ⟨s, rest, hlast, -⟩ : ∃ s rest,
        callLast (.formData s₁ : ProxyReader Json) (x.2 ++ last) = .formData s ∧
          Steps FormDataReader.advance s₁ (x.2 ++ last) s rest := callLast_formData s₁ _
    have hs : s.step ≠ .eof := fun hs => h ⟨s, by rw [hcalls, Option.map_some, hx, hlast], hs⟩
    rw [Option.bind_some, hx, hlast]
    simp [finish, FormDataReader.finish, hs, Except.toOption]

/-- The call at the end brings the reader to the end of a form if this is where it is, or if the last
element is there. -/
theorem callLast_formData_iff {data : Bytes} {es : List FormElement}
    (h : FormText r.boundary r.step es data rest) :
    (∃ s, callLast (.formData r : ProxyReader Json) data = .formData s ∧ s.step = .eof) ↔
      es = [] ∨ ∃ length needs, es = [.whole length needs] ∧ needs ≤ data.length := by
  rw [← h.eof_iff, callLast]
  have hstays : (∃ s, (.formData r : ProxyReader Json) = .formData s ∧ s.step = .eof) ↔
      r.step = .eof := by
    constructor
    · rintro ⟨_, ⟨⟩, hs⟩
      exact hs
    · exact fun hs => ⟨r, rfl, hs⟩
  by_cases hne : data = []
  · rw [if_neg (not_not.2 hne), hstays, iff_self_or]
    rintro ⟨length, needs, rfl, hneeds⟩
    rw [hne] at hneeds
    exact absurd hneeds (Nat.not_le.2 h.needs_pos)
  · rw [if_pos hne]
    rw [← List.append_nil data] at h
    cases es with
    | nil =>
      have hs := h.eof_iff.2 rfl
      simp only [put, FormDataReader.put_of_eof hs, hstays, hs, true_or]
    | cons e es =>
      have hout : r.step ≠ .eof := fun hs => List.cons_ne_nil _ _ (h.eof_iff.1 hs)
      cases e with
      | contentByte =>
        obtain ⟨n, es', s, -, -, -, -, hput, -, hs, -⟩ := FormDataReader.put_content h hne
        simp [put, hput, hs, hout]
      | whole length needs =>
        by_cases hneeds : needs ≤ data.length
        · obtain ⟨s, hput, -, hrest⟩ := FormDataReader.put_of_needs h hneeds
          simp [put, hput, hout, hrest.eof_iff, hneeds]
        · have hput := FormDataReader.put_of_lacks h (Nat.not_le.1 hneeds) hne
          simp [put, hput, hout, hneeds]

/-- The calls for the pieces and the one at the end go through the elements of a form if each of them
finds one that is there. -/
theorem oneCallEach_iff {left last : Bytes} {es : List FormElement} {pieces : List Bytes}
    (h : FormText r.boundary r.step es (left ++ (pieces.flatten ++ last)) rest) :
    (∃ s, ((callEach (.formData r : ProxyReader Json) left pieces).map fun x =>
        x.1.callLast (x.2 ++ last)) = some (.formData s) ∧ s.step = .eof) ↔
      OneEach last.length es left.length (pieces.map List.length) := by
  induction pieces generalizing r left es with
  | nil =>
    rw [List.flatten_nil, List.nil_append] at h
    simp only [callEach, Option.map_some, Option.some.injEq, List.map_nil]
    rw [callLast_formData_iff h, List.length_append, OneEach.nil_iff]
  | cons piece pieces ih =>
    rw [List.flatten_cons, List.append_assoc, ← List.append_assoc] at h
    rw [callEach, List.map_cons]
    by_cases hnil : left ++ piece = []
    · rw [hnil] at h
      obtain ⟨rfl, rfl⟩ := List.append_eq_nil_iff.1 hnil
      rw [if_pos hnil, ih h]
      refine (OneEach.nothing_iff fun length needs es' hes => ?_).symm
      subst hes
      exact h.needs_pos
    · have hpos : 0 < left.length + piece.length := by
        rw [← List.length_append]
        exact List.length_pos_of_ne_nil hnil
      rw [if_neg hnil]
      cases es with
      | nil =>
        have hput : r.put (left ++ piece) = .fail .unexpectedBody :=
          FormDataReader.put_of_eof (h.eof_iff.2 rfl)
        simp [put, hput, OneEach.not_nil hpos]
      | cons e es =>
        cases e with
        | contentByte =>
          obtain ⟨n, es', s, heq, hn, hle, hstop, hput, -, -, hrest⟩ :=
            FormDataReader.put_content h hnil
          rw [List.length_append] at hle hstop
          simp only [put, hput]
          rw [ih hrest, List.length_drop, List.length_append, OneEach.content_iff heq hn hle hstop]
        | whole length needs =>
          rw [OneEach.element_iff hpos, ← List.length_append]
          by_cases hneeds : needs ≤ (left ++ piece).length
          · obtain ⟨s, hput, -, hrest⟩ := FormDataReader.put_of_needs h hneeds
            simp only [put, hput, and_iff_right hneeds]
            rw [ih hrest, List.length_drop]
          · have hput := FormDataReader.put_of_lacks h (Nat.not_le.1 hneeds) hnil
            simp only [put, hput, hneeds, false_and, Option.map_none, reduceCtorEq, exists_false]

/-- **The calls a form needs** behind a compressor: it is read only if there is a piece for each of its
elements but the last. -/
theorem calls_le_of_read [Platform] {pieces : List Bytes} {last : Bytes} {es : List FormElement}
    {body : AnyBody Json}
    (h : FormText r.boundary r.step es (pieces.flatten ++ last) rest)
    (hread : ((callEach (.formData r : ProxyReader Json) [] pieces).bind fun x =>
      (x.1.callLast (x.2 ++ last)).finish.toOption) = some body) :
    FormElement.calls es ≤ pieces.length + 1 := by
  have hcalls : OneCallEach Json r pieces last := by
    by_contra hnot
    rw [eq_none_of_not_oneCallEach hnot] at hread
    cases hread
  have heach : OneCallEach Json r pieces last ↔
      OneEach last.length es ([] : Bytes).length (pieces.map List.length) := oneCallEach_iff h
  have hle := (heach.1 hcalls).calls_le
  rwa [List.length_map] at hle

/-- **When a form is read alike** in pieces and at once: if the text begins with a complete form,
then either this is all of the text, and one call for each piece is enough, or neither. -/
theorem read_formData_iff [Platform] {pieces : List Bytes} {last : Bytes} :
    ((callEach (.formData r : ProxyReader Json) [] pieces).bind fun x =>
        (x.1.callLast (x.2 ++ last)).finish.toOption) =
      (plain κ (.formData r : ProxyReader Json)).readWhole (pieces.flatten ++ last) ↔
    ∀ es rest, FormText r.boundary r.step es (pieces.flatten ++ last) rest →
      (rest = [] ↔ OneEach last.length es 0 (pieces.map List.length)) := by
  constructor
  · intro h es rest hform
    obtain ⟨s, hsteps, hs⟩ := hform.steps rfl rfl
    have heach : OneCallEach Json r pieces last ↔
        OneEach last.length es ([] : Bytes).length (pieces.map List.length) := oneCallEach_iff hform
    rw [List.length_nil] at heach
    rw [← heach]
    constructor
    · rintro rfl
      by_contra hcalls
      rw [eq_none_of_not_oneCallEach hcalls, readWhole_formData_eq_some hsteps hs] at h
      cases h
    · intro hcalls
      obtain ⟨s', rest', hsteps', hs', hread⟩ := hcalls.read
      by_contra hrest
      have hnone : ¬ ∃ s, Steps FormDataReader.advance r (pieces.flatten ++ last) s [] ∧
          s.step = .eof := by
        rintro ⟨s₂, hsteps₂, hs₂⟩
        exact hrest (hsteps.unique (FormDataReader.settled_eof hs rest) hsteps₂
          (FormDataReader.settled_eof hs₂ [])).2
      rw [hread, readWhole_formData_eq_none hnone] at h
      cases h
  · intro h
    have heach : ∀ {s rest}, Steps FormDataReader.advance r (pieces.flatten ++ last) s rest →
        s.step = .eof → (rest = [] ↔ OneCallEach Json r pieces last) := by
      intro s rest hsteps hs
      obtain ⟨es, hform⟩ := exists_formText hsteps hs
      have heach : OneCallEach Json r pieces last ↔
          OneEach last.length es ([] : Bytes).length (pieces.map List.length) := oneCallEach_iff hform
      rw [heach]
      exact h es rest hform
    by_cases hcalls : OneCallEach Json r pieces last
    · obtain ⟨s, rest, hsteps, hs, hread⟩ := hcalls.read
      obtain rfl := (heach hsteps hs).2 hcalls
      rw [hread, readWhole_formData_eq_some hsteps hs]
    · rw [eq_none_of_not_oneCallEach hcalls, readWhole_formData_eq_none]
      rintro ⟨s, hsteps, hs⟩
      exact hcalls ((heach hsteps hs).1 rfl)

/-! ## All readers -/

/-- The pieces of a body are such that reading them one call each comes to the same as reading the
body plainly. -/
def DecodesAlike : ProxyReader Json → List Bytes → Bytes → Prop
  | .formData r, pieces, last =>
    ∀ es rest, FormText r.boundary r.step es (pieces.flatten ++ last) rest →
      (rest = [] ↔ OneEach last.length es 0 (pieces.map List.length))
  | .json _, pieces, last => TakesOrRefuses Json (pieces.flatten ++ last)
  | .queryParams _, _, _ => True
  | .string _, pieces, last =>
    (pieces.flatten ++ last).length ≤ stringMaxSize ∨ stringMaxSize < pieces.flatten.length

/-- The readers that are selected, as they start. -/
theorem create_cases {contentType : Bytes} {contentLength : Option Nat}
    (h : create contentType contentLength = .ok proxy) :
    (∃ r, proxy = .formData r) ∨ proxy = .json JsonLib.parser ∨ proxy = .queryParams [] ∨
      proxy = .string [] := by
  unfold create at h
  split at h
  · split at h
    · cases h
      exact .inl ⟨_, rfl⟩
    · cases h
  · split at h
    · cases h
      exact .inr (.inl rfl)
    · split at h
      · cases h
        exact .inr (.inr (.inl rfl))
      · split at h <;> cases h
        exact .inr (.inr (.inr rfl))

end ProxyReader

theorem nullJson_streams : letI := nullJson; JsonLib.Streams Unit := by
  let _ := nullJson
  refine ⟨?_, ?_, ?_, ?_, rfl, ?_⟩
  · rintro p p₁ x n e ⟨⟩
    exact Nat.le_refl _
  · rintro p p₁ p₂ x y n e ⟨⟩ ⟨⟩
    simp [JsonLib.writeSome]
  · rintro p p₁ x y n ⟨⟩ h
    exact absurd h (Nat.lt_irrefl _)
  · rintro p p₁ x y n ⟨⟩
  · rintro p p₁ x n - ⟨⟩

/-- A decoder that puts out what it is given. -/
def identityCodec : Codec Unit UInt8 where
  init := ()
  write _ b := (b, ())
  close _ := []

end Httplib
