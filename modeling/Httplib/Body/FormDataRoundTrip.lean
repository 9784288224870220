import Httplib.Body.FormDataDelivery
import Httplib.Body.FormDataHeader

/-!
# What the multipart writer writes, the reader reads

`formData_round_trip`: the buffers of `form_data_body::writer`, put together, bring
`form_data_body::reader` to the step `eof` with the fields that were written. The writer's side is
`emits_buffers`, which lists its buffers; the reader's side is `steps_encode`, an induction over the
fields whose content case (`steps_content_delimiter`) is an induction over the bytes: a CR of the
content is never taken for the delimiter, because the delimiter begins with its only CR.
-/

namespace Httplib

open Incremental
open Producer (Emits)

/-! ## The reader, element by element -/

namespace FormDataReader

variable {r : FormDataReader} {data rest : Bytes}

@[simp] theorem push_push (r : FormDataReader) (s t : Bytes) :
    (r.push s).push t = r.push (s ++ t) := by
  simp [push]

@[simp] theorem push_boundary (r : FormDataReader) (s : Bytes) :
    (r.push s).boundary = r.boundary := rfl

@[simp] theorem push_step (r : FormDataReader) (s : Bytes) : (r.push s).step = r.step := rfl

@[simp] theorem length_boundaryLine (boundary : Bytes) :
    (boundaryLine boundary).length = boundary.length + 4 := by
  simp [boundaryLine, bytes]

@[simp] theorem length_boundaryLineLast (boundary : Bytes) :
    (boundaryLineLast boundary).length = boundary.length + 4 := by
  simp [boundaryLineLast, bytes]

@[simp] theorem length_eofBoundaryLine (boundary : Bytes) :
    (eofBoundaryLine boundary).length = boundary.length + 4 := by
  simp [eofBoundaryLine, bytes]

/-- The line that opens a part is taken whole. -/
theorem advance_boundaryLine (hs : r.step = .boundaryLine) :
    advance r (boundaryLine r.boundary ++ rest) =
      .took (boundaryLine r.boundary).length { r with step := .boundaryHeader } := by
  have hne : boundaryLine r.boundary ++ rest ≠ [] := by simp [boundaryLine, bytes]
  have hstart : startsWith (boundaryLine r.boundary ++ rest) (boundaryLine r.boundary) = true :=
    startsWith_iff.2 (List.prefix_append _ _)
  rw [advance_eq_put (by simp [hs]) hne]
  simp only [put, hs, length_boundaryLine, length_boundaryLineLast, hstart]
  rw [if_neg (by simp), if_pos trivial]

/-- The boundary that closes the body is taken whole. -/
theorem advance_boundaryLineLast (hs : r.step = .boundaryLine) (rest : Bytes) :
    advance r (boundaryLineLast r.boundary ++ rest) =
      .took (boundaryLineLast r.boundary).length { r with step := .finshed } := by
  have hne : boundaryLineLast r.boundary ++ rest ≠ [] := by simp [boundaryLineLast, bytes]
  have hopen : ¬ startsWith (boundaryLineLast r.boundary ++ rest) (boundaryLine r.boundary) := by
    simp [boundaryLine, boundaryLineLast, bytes]
  have hstart :
      startsWith (boundaryLineLast r.boundary ++ rest) (boundaryLineLast r.boundary) = true :=
    startsWith_iff.2 (List.prefix_append _ _)
  rw [advance_eq_put (by simp [hs]) hne]
  simp only [put, hs, length_boundaryLine, length_boundaryLineLast]
  rw [if_neg (by simp), if_neg hopen, hstart, if_pos rfl]

/-- The line break after the closing boundary is the end. -/
theorem advance_finshed (hs : r.step = .finshed) (rest : Bytes) :
    advance r (bytes "\r\n" ++ rest) = .took 2 { r with step := .eof } := by
  have hne : bytes "\r\n" ++ rest ≠ [] := by simp [bytes]
  rw [advance_eq_put (by simp [hs]) hne]
  simp [put, hs, bytes]

/-- A complete part header is taken whole, and its field kept. -/
theorem advance_header {block : Bytes} {field : FormData.Field} (hs : r.step = .boundaryHeader)
    (hblock : IsHeaderBlock block field) :
    advance r (block ++ rest) =
      .took block.length { r with fieldData := field, step := .boundaryContent } := by
  obtain ⟨n, hn, hfind⟩ := hblock.blank
  have hne : block ++ rest ≠ [] := by
    intro h
    simp [(List.append_eq_nil_iff.1 h).1] at hn
  rw [advance_eq_put (by simp [hs]) hne]
  simp only [put, hs, find_zero, Search.leftmost_append hfind (by decide : bytes "\r\n\r\n" ≠ [])]
  rw [← hn, List.take_left, hblock.accepted]

/-- A CR that does not begin the delimiter is a byte of the content. -/
theorem advance_cr (hs : r.step = .boundaryContent)
    (hlen : (eofBoundaryLine r.boundary).length ≤ (13 :: data).length)
    (hnot : ¬ eofBoundaryLine r.boundary <+: 13 :: data) :
    advance r (13 :: data) = .took 1 (r.push [13]) := by
  have hcr : startsWith (13 :: data) (bytes "\r") = true := by simp [bytes]
  rw [advance_eq_put (fun _ => hcr) (List.cons_ne_nil _ _)]
  simp only [put, hs, hcr, if_true]
  rw [if_neg (by omega), if_neg (by simpa using hnot)]
  rfl

/-- The delimiter ends the content, and its line break is taken. -/
theorem advance_delimiter (hs : r.step = .boundaryContent) (rest : Bytes) :
    advance r (eofBoundaryLine r.boundary ++ rest) =
      .took 2 { r with step := .boundaryLine, fields := r.fields ++ [r.fieldData],
                       fieldData := {} } := by
  have hcr : startsWith (eofBoundaryLine r.boundary ++ rest) (bytes "\r") = true := by
    simp [eofBoundaryLine, bytes]
  have hstart : startsWith (eofBoundaryLine r.boundary ++ rest) (eofBoundaryLine r.boundary) =
      true := startsWith_iff.2 (List.prefix_append _ _)
  rw [advance_eq_put (fun _ => hcr) (by simp [eofBoundaryLine, bytes])]
  simp only [put, hs, hcr, hstart, if_true]
  rw [if_neg (by simp)]

/-- The delimiter holds one CR, its first byte, if the boundary holds none. -/
theorem eofBoundaryLine_eq {boundary : Bytes} (hb : (13 : UInt8) ∉ boundary) :
    ∃ p, eofBoundaryLine boundary = 13 :: p ∧ (13 : UInt8) ∉ p :=
  ⟨bytes "\n--" ++ boundary, rfl, by simp [bytes, hb]⟩

/-- **The content of a part is taken byte by byte up to the delimiter.** The induction is on the
content; at a CR the data left is long enough to decide, since the delimiter is still to come. -/
theorem steps_content_delimiter (hs : r.step = .boundaryContent) (hb : (13 : UInt8) ∉ r.boundary)
    {content : Bytes} (hfree : ¬ eofBoundaryLine r.boundary <:+: content) (rest : Bytes) :
    Steps advance r (content ++ (eofBoundaryLine r.boundary ++ rest)) (r.push content)
      (eofBoundaryLine r.boundary ++ rest) := by
  induction content generalizing r with
  | nil => simpa [push] using Steps.refl
  | cons c content ih =>
    have htail : ¬ eofBoundaryLine r.boundary <:+: content :=
      fun h => hfree (h.trans (List.suffix_cons c content).isInfix)
    have hstep : advance r (c :: (content ++ (eofBoundaryLine r.boundary ++ rest))) =
        .took 1 (r.push [c]) := by
      by_cases hc : c = 13
      · subst hc
        refine advance_cr hs (by simp; omega) fun hp => ?_
        obtain ⟨p, hp₁, hp₂⟩ := eofBoundaryLine_eq hb
        have hfind := Search.leftmost_append_self (r := rest) hp₂ (hp₁ ▸ hfree)
        rw [← hp₁, List.cons_append, Search.leftmost_eq_zero hp] at hfind
        cases hfind
      · exact advance_content hs hc
    refine .head hstep ?_
    simpa using ih (r := r.push [c]) hs hb htail

/-- The boundary line and the header of a part bring the reader into its content. -/
theorem steps_opened {block : Bytes} {field : FormData.Field} (hs : r.step = .boundaryLine)
    (hblock : IsHeaderBlock block field) (rest : Bytes) :
    Steps advance r (boundaryLine r.boundary ++ (block ++ rest))
      { r with fieldData := field, step := .boundaryContent } rest :=
  (Steps.front (advance_boundaryLine hs)).trans
    (Steps.front (advance_header (r := { r with step := .boundaryHeader }) rfl hblock))

/-- **A whole part is taken up to the boundary line after it**, and its field kept. -/
theorem steps_part {block content : Bytes} {field : FormData.Field} (hs : r.step = .boundaryLine)
    (hb : (13 : UInt8) ∉ r.boundary) (hblock : IsHeaderBlock block field)
    (hfree : ¬ eofBoundaryLine r.boundary <:+: content) (rest : Bytes) :
    Steps advance r
      (boundaryLine r.boundary ++ (block ++ (content ++ (eofBoundaryLine r.boundary ++ rest))))
      { r with fields := r.fields ++ [{ field with content := field.content ++ content }],
               fieldData := {} }
      (bytes "--" ++ r.boundary ++ rest) := by
  let opened : FormDataReader := { r with fieldData := field, step := .boundaryContent }
  have hopen : Steps advance r _ opened (content ++ (eofBoundaryLine r.boundary ++ rest)) :=
    steps_opened hs hblock _
  have hcontent := steps_content_delimiter (r := opened) rfl hb hfree rest
  have hend := Steps.single (advance_delimiter (r := opened.push content) rfl rest)
  have hdrop : (eofBoundaryLine r.boundary ++ rest).drop 2 = bytes "--" ++ r.boundary ++ rest := rfl
  rw [push_boundary, hdrop] at hend
  rw [hs]
  exact hopen.trans (hcontent.trans hend)

/-- The closing boundary and its line break are taken whole. -/
theorem steps_last (hs : r.step = .boundaryLine) :
    Steps advance r (boundaryLineLast r.boundary ++ bytes "\r\n") { r with step := .eof } [] := by
  have hlast := Steps.front (advance_boundaryLineLast hs (bytes "\r\n"))
  have hend := Steps.single (advance_finshed (r := { r with step := .finshed }) rfl [])
  exact hlast.trans hend

end FormDataReader

/-! ## The writer, buffer by buffer -/

namespace FormDataWriter

variable {boundary : Bytes}

/-- The buffers of a form from one of its fields on. -/
def buffers (boundary : Bytes) : List FormData.Field → List Bytes
  | [] => []
  | f :: fs =>
    (bytes "--" ++ boundary ++ bytes "\r\n" ++ partHeader f) :: f.content ::
      match fs with
      | [] => [bytes "\r\n" ++ (bytes "--" ++ boundary ++ bytes "--\r\n")]
      | _ :: _ => bytes "\r\n" :: buffers boundary fs

/-- The bytes of a form from one of its fields on, and the closing boundary. -/
def encode (boundary : Bytes) : List FormData.Field → Bytes
  | [] => FormDataReader.boundaryLineLast boundary ++ bytes "\r\n"
  | f :: fs =>
    FormDataReader.boundaryLine boundary ++
      (partHeader f ++ (f.content ++ (bytes "\r\n" ++ encode boundary fs)))

/-- What follows a part begins with two dashes and the boundary. -/
theorem encode_eq (fs : List FormData.Field) :
    ∃ t, encode boundary fs = bytes "--" ++ boundary ++ t := by
  cases fs with
  | nil => exact ⟨bytes "--" ++ bytes "\r\n", by
      simp [encode, FormDataReader.boundaryLineLast]⟩
  | cons f fs => exact ⟨bytes "\r\n" ++ _, by
      rw [encode, FormDataReader.boundaryLine, List.append_assoc]⟩

/-- The buffers of a form put together. -/
theorem flatten_buffers {fs : List FormData.Field} (hne : fs ≠ []) :
    (buffers boundary fs).flatten = encode boundary fs := by
  induction fs with
  | nil => exact absurd rfl hne
  | cons f fs ih =>
    cases fs with
    | nil =>
      simp [buffers, encode, FormDataReader.boundaryLine, FormDataReader.boundaryLineLast, bytes]
    | cons g fs =>
      have := ih (List.cons_ne_nil g fs)
      rw [buffers, encode, ← this]
      simp [FormDataReader.boundaryLine]

/-- A field's first two buffers are its header and its content. -/
theorem emits_part {body : FormData} {i : Nat} {f : FormData.Field} {bs : List Bytes}
    {e : Producer.Ending HttpError} (hget : body.fields[i]? = some f)
    (h : Emits get { body, fieldDataIndex := i, step := .contentEnd } bs e) :
    Emits get { body, fieldDataIndex := i }
      ((bytes "--" ++ body.boundary ++ bytes "\r\n" ++ partHeader f) :: f.content :: bs) e := by
  refine .more (t := { body, fieldDataIndex := i, step := .content }) ?_ (.more ?_ h)
  · simp [get, hget]
  · simp [get, hget]

/-- From the header step of a field on, the writer returns the buffers of the fields left. -/
theorem emits_buffers_from {body : FormData} (f : FormData.Field) (fs : List FormData.Field)
    (i : Nat) (h : body.fields.drop i = f :: fs) :
    Emits get { body, fieldDataIndex := i } (buffers body.boundary (f :: fs)) .last := by
  induction fs generalizing f i with
  | nil =>
    have hget : body.fields[i]? = some f := by rw [← List.head?_drop, h, List.head?_cons]
    have hlen := congrArg List.length h
    refine emits_part hget (.last (t := { body, fieldDataIndex := i, step := .eof }) ?_)
    simp only [List.length_drop, List.length_singleton] at hlen
    simp only [get, hget]
    rw [if_pos (by omega)]
  | cons g fs ih =>
    have hget : body.fields[i]? = some f := by rw [← List.head?_drop, h, List.head?_cons]
    have hlen := congrArg List.length h
    have hdrop : body.fields.drop (i + 1) = g :: fs := by
      rw [← List.drop_drop, h, List.drop_one, List.tail_cons]
    refine emits_part hget (.more (t := { body, fieldDataIndex := i + 1 }) ?_ (ih g (i + 1) hdrop))
    simp only [List.length_drop, List.length_cons] at hlen
    simp only [get, hget]
    rw [if_neg (by omega)]

/-- The buffers the writer of a form returns. -/
theorem emits_buffers {body : FormData} (hne : body.fields ≠ []) :
    Emits get { body } (buffers body.boundary body.fields) .last := by
  obtain ⟨f, fs, hfs⟩ := List.exists_cons_of_ne_nil hne
  have := emits_buffers_from f fs 0 (by rw [List.drop_zero, hfs])
  rwa [← hfs] at this

end FormDataWriter

/-! ## The round trip -/

/-- A form field that a body with this boundary carries as it is. -/
structure Sendable (boundary : Bytes) (f : FormData.Field) : Prop where
  header : FormDataWriter.HeaderClean f
  content : ¬ FormDataReader.eofBoundaryLine boundary <:+: f.content

/-- A byte of the boundaries that `generate_boundary` makes: a dash or a digit. -/
def IsBoundaryByte (c : UInt8) : Prop := c = 45 ∨ (48 ≤ c ∧ c ≤ 57)

/-- The boundaries that `generate_boundary` makes hold no CR. -/
theorem not_mem_of_isBoundaryByte {boundary : Bytes} (hb : ∀ c ∈ boundary, IsBoundaryByte c) :
    (13 : UInt8) ∉ boundary := by
  intro h
  rcases hb 13 h with h | ⟨h, -⟩
  · exact absurd h (by decide)
  · exact absurd h (by decide)

/-- The reader goes through parts with complete headers one after the other. -/
theorem FormDataReader.steps_parts {boundary : Bytes} (hb : (13 : UInt8) ∉ boundary)
    (read : FormData.Field → FormData.Field) (acc fs : List FormData.Field)
    (hfs : ∀ f ∈ fs, IsHeaderBlock (FormDataWriter.partHeader f) (read f) ∧
      ¬ eofBoundaryLine boundary <:+: f.content) :
    Steps advance { boundary, fields := acc } (FormDataWriter.encode boundary fs)
      { boundary, step := .eof,
        fields := acc ++ fs.map fun f => { read f with content := (read f).content ++ f.content } }
      [] := by
  induction fs generalizing acc with
  | nil =>
    have hlast := steps_last (r := { boundary, fields := acc }) rfl
    rwa [List.map_nil, List.append_nil]
  | cons f fs ih =>
    obtain ⟨hheader, hfree⟩ := hfs f List.mem_cons_self
    obtain ⟨t, ht⟩ : ∃ t, FormDataWriter.encode boundary fs = bytes "--" ++ boundary ++ t :=
      FormDataWriter.encode_eq fs
    -- what follows the content is the delimiter, then the rest of the next boundary line
    have hpart := steps_part (r := { boundary, fields := acc }) rfl hb hheader hfree t
    have hdelim : bytes "\r\n" ++ FormDataWriter.encode boundary fs =
        eofBoundaryLine boundary ++ t := by
      rw [ht]
      simp [eofBoundaryLine, bytes]
    rw [← ht, ← hdelim] at hpart
    have hrest := ih (acc ++ [{ read f with content := (read f).content ++ f.content }])
      fun g hg => hfs g (List.mem_cons_of_mem f hg)
    rw [List.append_assoc, List.singleton_append] at hrest
    exact hpart.trans hrest

/-- The reader goes through the parts of a form one after the other. -/
theorem FormDataReader.steps_encode {boundary : Bytes} (hb : (13 : UInt8) ∉ boundary)
    (acc fs : List FormData.Field) (hfs : ∀ f ∈ fs, Sendable boundary f) :
    Steps advance { boundary, fields := acc } (FormDataWriter.encode boundary fs)
      { boundary, step := .eof, fields := acc ++ fs } [] := by
  have hparts : Steps advance { boundary, fields := acc } (FormDataWriter.encode boundary fs)
      { boundary, step := .eof, fields := acc ++ fs.map id } [] :=
    steps_parts hb (fun f => { f with content := [] }) acc fs fun f hf =>
      ⟨FormDataWriter.isHeaderBlock (hfs f hf).header, (hfs f hf).content⟩
  rwa [List.map_id] at hparts

/-- **The multipart round trip.** The buffers that the writer returns for a non-empty list of
sendable fields, fed to the reader as one block, are taken whole; the reader ends in step `eof`,
`finish` reports no error, and the fields are those that were written, in order. -/
theorem formData_round_trip (body : FormData) (hb : ∀ c ∈ body.boundary, IsBoundaryByte c)
    (hne : body.fields ≠ []) (hfs : ∀ f ∈ body.fields, Sendable body.boundary f) :
    ∃ bufs r, Emits FormDataWriter.get { body } bufs .last ∧
      drive FormDataReader.put bufs.flatten.length { boundary := body.boundary } bufs.flatten =
        (r, [], none) ∧
      r.step = .eof ∧ r.finish = .ok () ∧ r.fields = body.fields := by
  have hsteps := FormDataReader.steps_encode (not_mem_of_isBoundaryByte hb) [] body.fields hfs
  rw [← FormDataWriter.flatten_buffers hne] at hsteps
  exact ⟨_, _, FormDataWriter.emits_buffers hne,
    (drive_eq_nil_iff FormDataReader.advance_stable FormDataReader.put_refines).2 hsteps,
    rfl, rfl, rfl⟩

/-- A field with a filename and a content that holds a CR and half a delimiter. -/
theorem formData_round_trip_upload :
    let f : FormData.Field :=
      { name := bytes "a", filename := bytes "x;y", contentType := bytes "text/plain",
        content := bytes "1\r\n--\r" }
    ∃ bufs r, Emits FormDataWriter.get { body := { fields := [f], boundary := bytes "-7" } }
        bufs .last ∧
      drive FormDataReader.put bufs.flatten.length { boundary := bytes "-7" } bufs.flatten =
        (r, [], none) ∧
      r.step = .eof ∧ r.finish = .ok () ∧ r.fields = [f] := by
  intro f
  refine formData_round_trip { fields := [f], boundary := bytes "-7" } ?_ (by simp) ?_
  · simp [bytes, IsBoundaryByte]
  · intro g hg
    cases List.mem_singleton.1 hg
    refine ⟨⟨?_, ?_, ?_, ?_, ?_⟩, by decide⟩ <;> simp [f, bytes, IsQuotable, isSpace]

end Httplib
