import Httplib.Body.FormDataRoundTrip

/-!
# A multipart body sent one chunk per buffer

A response without a Content-Length is sent chunked, one chunk for each buffer of the writer, and
the client's parser offers a chunk to the reader without ever joining it to the next one
(`Incremental.driveChunks`). `form_data_body::reader` asks for `boundary.size() + 4` bytes before it
decides on a CR or on a boundary line, so it waits for ever at a chunk that ends too early:
`formData_chunked_iff` says for which forms it does not. The analysis is by `Move`, which lists the
elements a decision of the reader can take.
-/

namespace Httplib

open Incremental
open Producer (Emits)

namespace FormDataReader

/-! ## The elements a decision can take -/

/-- `Move r block r' rest`: on the data `block ++ rest`, the reader takes the element `block`. -/
inductive Move : FormDataReader → Bytes → FormDataReader → Bytes → Prop
  | opened {r rest} : r.step = .boundaryLine →
      Move r (boundaryLine r.boundary) { r with step := .boundaryHeader } rest
  | closed {r rest} : r.step = .boundaryLine →
      Move r (boundaryLineLast r.boundary) { r with step := .finshed } rest
  | header {r rest block field} : r.step = .boundaryHeader → IsHeaderBlock block field →
      Move r block { r with fieldData := field, step := .boundaryContent } rest
  | byte {r rest c} : r.step = .boundaryContent → c ≠ 13 → Move r [c] (r.push [c]) rest
  | cr {r rest} : r.step = .boundaryContent → r.boundary.length + 3 ≤ rest.length →
      ¬ eofBoundaryLine r.boundary <+: 13 :: rest → Move r [13] (r.push [13]) rest
  | delimiter {r rest} : r.step = .boundaryContent → bytes "--" ++ r.boundary <+: rest →
      Move r (bytes "\r\n") { r with step := .boundaryLine, fields := r.fields ++ [r.fieldData],
                                     fieldData := {} } rest
  | finshed {r rest} : r.step = .finshed → Move r (bytes "\r\n") { r with step := .eof } rest

variable {r r' s : FormDataReader} {data rest block l : Bytes} {n : Nat}

/-- A blank line found in the data ends a header block. -/
theorem isHeaderBlock_take {pos : Nat} {field : FormData.Field}
    (hf : Search.leftmost (bytes "\r\n\r\n") data = some pos)
    (hp : parseHeader (data.take (pos + 4)) = .ok field) :
    IsHeaderBlock (data.take (pos + 4)) field := by
  have hle : pos + 4 ≤ data.length := Search.leftmost_le hf (by decide)
  refine ⟨⟨pos, by rw [List.length_take]; omega, ?_⟩, hp⟩
  obtain ⟨hpre, hmin⟩ := Search.leftmost_eq_some_iff.1 hf
  refine Search.leftmost_eq_some_iff.2 ⟨?_, fun j hj h => hmin j hj ?_⟩
  · rw [List.drop_take, show pos + 4 - pos = 4 by omega]
    exact List.prefix_take_iff.2 ⟨hpre, by decide⟩
  · exact h.trans ((List.take_prefix _ _).drop j)

/-- **What a decision takes is one of the elements of a multipart body.** -/
theorem advance_inv (h : advance r data = .took n r') : Move r (data.take n) r' (data.drop n) := by
  cases data with
  | nil => cases h
  | cons c data =>
    rw [advance] at h
    split at h
    · next hc =>
      cases h
      exact .byte hc.1 hc.2
    · next hc =>
      cases hs : r.step with
      | boundaryLine =>
        simp only [put, hs] at h
        split at h
        · cases h
        · split at h
          · next hp =>
            cases h
            obtain ⟨t, ht⟩ := startsWith_iff.1 hp
            rw [← ht, List.take_left, List.drop_left]
            exact .opened hs
          · split at h
            · next hp =>
              cases h
              obtain ⟨t, ht⟩ := startsWith_iff.1 hp
              rw [← ht, List.take_left, List.drop_left]
              exact .closed hs
            · cases h
      | boundaryHeader =>
        simp only [put, hs, find_zero] at h
        split at h
        · cases h
        · next pos hf =>
          have hle : pos + 4 ≤ (c :: data).length := Search.leftmost_le hf (by decide)
          split at h
          · cases h
          · next field hp =>
            cases h
            rw [List.length_take, Nat.min_eq_left hle]
            exact .header hs (isHeaderBlock_take hf hp)
      | boundaryContent =>
        have hc13 : c = 13 := by
          rw [hs] at hc
          exact not_not.1 fun hne => hc ⟨rfl, hne⟩
        subst hc13
        simp only [put, hs] at h
        rw [if_pos (by simp [bytes])] at h
        split at h
        · cases h
        · next hlen =>
          rw [length_eofBoundaryLine, List.length_cons] at hlen
          split at h
          · next hp =>
            cases h
            obtain ⟨t, ht⟩ := startsWith_iff.1 hp
            rw [← ht]
            exact .delimiter hs ⟨t, by simp [eofBoundaryLine, bytes]⟩
          · next hp =>
            cases h
            exact .cr hs (by simp; omega) (by simpa using hp)
      | finshed =>
        simp only [put, hs] at h
        split at h
        · cases h
        · split at h
          · cases h
          · next hp =>
            cases h
            obtain ⟨t, ht⟩ := startsWith_iff.1 (not_not.1 hp)
            rw [← ht, show (2 : Nat) = (bytes "\r\n").length from rfl, List.take_left,
              List.drop_left]
            exact .finshed hs
      | eof =>
        simp only [put, hs] at h
        cases h

/-- A run over data is empty, or takes an element and goes on. -/
theorem steps_inv (h : Steps advance r data s rest) :
    (r = s ∧ data = rest) ∨
      ∃ block r₁ l, data = block ++ l ∧ Move r block r₁ l ∧ Steps advance r₁ l s rest := by
  cases h with
  | refl => exact .inl ⟨rfl, rfl⟩
  | head h h' => exact .inr ⟨_, _, _, (List.take_append_drop _ _).symm, advance_inv h, h'⟩

/-- A run that takes all of some data takes an element first. -/
theorem steps_cons_inv (h : Steps advance r data s []) (hne : data ≠ []) :
    ∃ block r₁ l, data = block ++ l ∧ Move r block r₁ l ∧ Steps advance r₁ l s [] := by
  rcases steps_inv h with ⟨-, rfl⟩ | h
  · exact absurd rfl hne
  · exact h

/-- No move changes the boundary. -/
theorem Move.boundary_eq (h : Move r block r' rest) : r'.boundary = r.boundary := by
  cases h <;> rfl

/-- Nor does a run. -/
theorem boundary_eq_of_steps (h : Steps advance r data s rest) : s.boundary = r.boundary := by
  induction h with
  | refl => rfl
  | head h _ ih => rw [ih, (advance_inv h).boundary_eq]

/-- Nothing is taken after the end. -/
theorem settled_eof (hs : r.step = .eof) (data : Bytes) : Settled advance r data := by
  intro n r' h
  have hm := advance_inv h
  generalize data.take n = block, data.drop n = rest at hm
  cases hm <;> simp_all

/-- A run from the end takes nothing. -/
theorem eq_nil_of_steps_eof (hs : r.step = .eof) (h : Steps advance r data s []) :
    data = [] ∧ s = r := by
  cases h with
  | refl => exact ⟨rfl, rfl⟩
  | head h _ => exact absurd h (settled_eof hs _ _ _)

/-! ## The first chunk of a part: its boundary line and its header -/

/-- The text is taken whole by a reader that begins a part, and leaves it inside a content: a
boundary line and a header block, or, where the header holds a blank line before its last, parts
that are complete and then such a text. -/
inductive HeaderChain (boundary : Bytes) : Bytes → Prop
  | last {block field} : IsHeaderBlock block field →
      HeaderChain boundary (boundaryLine boundary ++ block)
  | part {block field content rest} : IsHeaderBlock block field →
      ¬ eofBoundaryLine boundary <:+: content → HeaderChain boundary rest →
      HeaderChain boundary (boundaryLine boundary ++ (block ++ (content ++ (bytes "\r\n" ++ rest))))

/-- A chain begins with a boundary line. -/
theorem HeaderChain.exists_eq {boundary : Bytes} (h : HeaderChain boundary l) :
    ∃ t, l = boundaryLine boundary ++ t := by
  cases h <;> exact ⟨_, rfl⟩

/-- The reader takes a chain whole. -/
theorem HeaderChain.steps (h : HeaderChain r.boundary l) (hs : r.step = .boundaryLine)
    (hb : (13 : UInt8) ∉ r.boundary) :
    ∃ s, Steps advance r l s [] ∧ s.step = .boundaryContent ∧ s.boundary = r.boundary := by
  generalize hbd : r.boundary = boundary at h
  induction h generalizing r with
  | last hblock =>
    subst hbd
    have hopen := steps_opened hs hblock []
    rw [List.append_nil] at hopen
    exact ⟨_, hopen, rfl, rfl⟩
  | @part block field content rest hblock hfree hchain ih =>
    subst hbd
    obtain ⟨t, rfl⟩ := hchain.exists_eq
    have hpart := steps_part hs hb hblock hfree (bytes "\r\n" ++ t)
    obtain ⟨s, hsteps, hstep, hbd⟩ := ih (r := { r with
      fields := r.fields ++ [{ field with content := field.content ++ content }],
      fieldData := {} }) hs hb rfl
    refine ⟨s, ?_, hstep, hbd⟩
    have hdelim : eofBoundaryLine r.boundary ++ (bytes "\r\n" ++ t) =
        bytes "\r\n" ++ (boundaryLine r.boundary ++ t) := by
      simp [eofBoundaryLine, boundaryLine, bytes]
    have hline : bytes "--" ++ r.boundary ++ (bytes "\r\n" ++ t) = boundaryLine r.boundary ++ t := by
      simp [boundaryLine]
    rw [hdelim, hline] at hpart
    exact hpart.trans hsteps

/-- Where a run over a text that ends in a blank line can stand: a tail of the text is left, which
is never its last byte alone, and nothing is left only inside a content or at the end. -/
structure InHeader (header : Bytes) (r : FormDataReader) (l : Bytes) : Prop where
  tail : l <:+ header
  ne_one : l.length ≠ 1
  ended : l = [] → r.step = .boundaryContent ∨ r.step = .eof

/-- A text that ends in a blank line does not end in a boundary line. -/
theorem boundaryLine_ne_suffix {boundary header : Bytes} (hb : (13 : UInt8) ∉ boundary)
    (hheader : bytes "\r\n\r\n" <:+ header) (h : boundaryLine boundary <:+ header) : False := by
  have hsuf := List.suffix_of_suffix_length_le hheader h (by simp [bytes])
  obtain ⟨t, ht⟩ := hsuf
  have hcut : t ++ bytes "\r\n" = bytes "--" ++ boundary := by
    have : (t ++ bytes "\r\n") ++ bytes "\r\n" = (bytes "--" ++ boundary) ++ bytes "\r\n" := by
      rw [List.append_assoc]
      exact ht
    exact List.append_cancel_right this
  have hmem : (13 : UInt8) ∈ bytes "--" ++ boundary := by
    rw [← hcut]
    simp [bytes]
  simp [bytes, hb] at hmem

/-- A tail of a text that ends in a line break, when a part of it in front is taken that does not
end in a CR, is not left with its last byte alone. -/
theorem length_ne_one_of_taken {header : Bytes} (hheader : bytes "\r\n" <:+ header)
    (htail : block ++ l <:+ header) (hne : block ≠ []) (hlast : block.getLast? ≠ some 13) :
    l.length ≠ 1 := by
  intro hlen
  obtain ⟨x, rfl⟩ := List.length_eq_one_iff.1 hlen
  obtain ⟨b, y, rfl⟩ := List.eq_nil_or_concat block |>.resolve_left hne
  have hsuf : bytes "\r\n" <:+ b.concat y ++ [x] :=
    List.suffix_of_suffix_length_le hheader htail (by simp [bytes])
  obtain ⟨t, ht⟩ := hsuf
  have hyx : bytes "\r\n" = [y, x] := by
    rw [List.concat_eq_append, List.append_assoc] at ht
    exact (List.append_inj' ht rfl).2
  have hy : y = 13 := by simpa [bytes] using congrArg List.head? hyx.symm
  exact hlast (by simp [hy])

/-- A boundary line ends in a line feed. -/
@[simp] theorem getLast?_boundaryLine (boundary : Bytes) : (boundaryLine boundary).getLast? = some 10 := by
  rw [boundaryLine, List.getLast?_append]
  rfl

/-- The last boundary line ends in a dash. -/
@[simp] theorem getLast?_boundaryLineLast (boundary : Bytes) :
    (boundaryLineLast boundary).getLast? = some 45 := by
  rw [boundaryLineLast, List.getLast?_append]
  rfl

/-- A header block ends in a line feed. -/
theorem getLast?_header {field : FormData.Field} (hblock : IsHeaderBlock block field) :
    block.getLast? = some 10 := by
  obtain ⟨n, hn, hf⟩ := hblock.blank
  rw [Search.leftmost_decomp hf, List.getLast?_append, List.getLast?_append]
  have hdrop : block.drop (n + (bytes "\r\n\r\n").length) = [] := List.drop_eq_nil_of_le (by
    rw [hn]; exact Nat.le_refl _)
  rw [hdrop]
  rfl

/-- Every element the reader takes leaves it where a run over such a text can stand. -/
theorem InHeader.move {header : Bytes} (hheader : bytes "\r\n\r\n" <:+ header)
    (hb : (13 : UInt8) ∉ r.boundary) (h : InHeader header r (block ++ l))
    (hm : Move r block r' l) : InHeader header r' l := by
  have htail : l <:+ header := (List.suffix_append block l).trans h.tail
  have hend : bytes "\r\n" <:+ header := List.IsSuffix.trans ⟨bytes "\r\n", rfl⟩ hheader
  have hone := length_ne_one_of_taken hend h.tail
  cases hm with
  | opened hs =>
    refine ⟨htail, hone (by simp [boundaryLine, bytes]) ?_, ?_⟩
    · rw [getLast?_boundaryLine]
      decide
    · rintro rfl
      exact (boundaryLine_ne_suffix hb hheader (by simpa using h.tail)).elim
  | closed hs =>
    refine ⟨htail, hone (by simp [boundaryLineLast, bytes]) ?_, ?_⟩
    · rw [getLast?_boundaryLineLast]
      decide
    · rintro rfl
      obtain ⟨t, ht⟩ : bytes "\r\n" <:+ boundaryLineLast r.boundary :=
        List.suffix_of_suffix_length_le hend (by simpa using h.tail)
          (by simp [bytes])
      have hlast := getLast?_boundaryLineLast r.boundary
      rw [← ht, List.getLast?_append] at hlast
      simp [bytes] at hlast
  | header hs hblock =>
    have hlast := getLast?_header hblock
    exact ⟨htail, hone (by rintro rfl; simp at hlast) (by rw [hlast]; decide), fun _ => .inl rfl⟩
  | byte hs hc =>
    exact ⟨htail, hone (by simp) (by simpa using hc), fun _ => .inl hs⟩
  | cr hs hlen _ =>
    exact ⟨htail, by omega, fun _ => .inl hs⟩
  | delimiter hs hpre =>
    refine ⟨htail, hone (by simp [bytes]) (by simp [bytes]), ?_⟩
    rintro rfl
    simp [bytes] at hpre
  | finshed hs =>
    exact ⟨htail, hone (by simp [bytes]) (by simp [bytes]), fun _ => .inr rfl⟩

/-- What is left of a header's chunk, read off the step of the reader. -/
def Leads (boundary : Bytes) : Step → Bytes → Prop
  | .boundaryLine, l => HeaderChain boundary l
  | .boundaryHeader, l => HeaderChain boundary (boundaryLine boundary ++ l)
  | .boundaryContent, l => l = [] ∨ ∃ content rest, ¬ eofBoundaryLine boundary <:+: content ∧
      HeaderChain boundary rest ∧ l = content ++ (bytes "\r\n" ++ rest)
  | .finshed, _ => False
  | .eof, _ => False

/-- An element taken in front of what leads into a content. -/
theorem Leads.move {header : Bytes} (h : Leads r.boundary r'.step l)
    (hin : InHeader header r (block ++ l)) (hm : Move r block r' l) :
    Leads r.boundary r.step (block ++ l) := by
  cases hm with
  | opened hs =>
    rw [hs]
    exact h
  | closed | finshed => exact h.elim
  | header hs hblock =>
    rw [hs]
    rcases h with rfl | ⟨content, rest, hfree, hchain, rfl⟩
    · rw [List.append_nil]
      exact .last hblock
    · exact .part hblock hfree hchain
  | byte hs hc =>
    rw [push_step, hs] at h
    rw [hs]
    rcases h with rfl | ⟨content, rest, hfree, hchain, rfl⟩
    · exact absurd rfl hin.ne_one
    · refine .inr ⟨_ :: content, rest, fun hinf => ?_, hchain, rfl⟩
      rcases List.infix_cons_iff.1 hinf with hp | hp
      · exact hc (List.cons_prefix_cons.1 hp).1.symm
      · exact hfree hp
  | cr hs _ hnot =>
    rw [push_step, hs] at h
    rw [hs]
    rcases h with rfl | ⟨content, rest, hfree, hchain, rfl⟩
    · exact absurd rfl hin.ne_one
    · refine .inr ⟨13 :: content, rest, fun hinf => ?_, hchain, rfl⟩
      rcases List.infix_cons_iff.1 hinf with hp | hp
      · exact hnot (hp.trans (List.prefix_append (13 :: content) _))
      · exact hfree hp
  | delimiter hs _ =>
    rw [hs]
    exact .inr ⟨[], l, by simp [eofBoundaryLine, bytes], h, rfl⟩

/-- **A run that takes a whole text ending in a blank line has ended the body, or is inside a
content and the text was a chain.** -/
theorem leads_of_steps {header : Bytes} (hheader : bytes "\r\n\r\n" <:+ header)
    (hb : (13 : UInt8) ∉ r.boundary) (hin : InHeader header r l) (h : Steps advance r l s [])
    (hs : s.step ≠ .eof) : s.step = .boundaryContent ∧ Leads r.boundary r.step l := by
  generalize hnil : ([] : Bytes) = rest at h
  induction h with
  | refl =>
    subst hnil
    have hstep := (hin.ended rfl).resolve_right hs
    exact ⟨hstep, by rw [hstep]; exact .inl rfl⟩
  | @head r l n r₁ s rest hm _ ih =>
    have hmove := advance_inv hm
    rw [← List.take_append_drop n l] at hin ⊢
    have hin₁ := hin.move hheader hb hmove
    obtain ⟨hstep, hleads⟩ := ih (hmove.boundary_eq ▸ hb) hin₁ hs hnil
    rw [hmove.boundary_eq] at hleads
    exact ⟨hstep, hleads.move hin hmove⟩

/-! ## The other chunks of a part: its content and what separates it from the next -/

/-- No CR stands in the last `boundary.size() + 3` bytes: after each there is room for a
delimiter. -/
def NoLateCr (boundary content : Bytes) : Prop :=
  (13 : UInt8) ∉ content.drop (content.length - (boundary.length + 3))

instance (boundary content : Bytes) : Decidable (NoLateCr boundary content) :=
  inferInstanceAs (Decidable (¬ _))

/-- No CR is late in a content exactly when none is in its rest and the first byte is no late one. -/
theorem noLateCr_cons {boundary content : Bytes} {c : UInt8} :
    NoLateCr boundary (c :: content) ↔
      (c = 13 → boundary.length + 3 ≤ content.length) ∧ NoLateCr boundary content := by
  unfold NoLateCr
  rw [List.length_cons]
  by_cases hlen : boundary.length + 3 ≤ content.length
  · rw [Nat.sub_add_comm hlen, List.drop_succ_cons]
    simp [hlen]
  · rw [Nat.sub_eq_zero_of_le (by omega), Nat.sub_eq_zero_of_le (by omega)]
    simp [hlen, eq_comm]

/-- A content without a late CR is taken whole, with nothing after it. -/
theorem steps_of_noLateCr (hs : r.step = .boundaryContent) {content : Bytes}
    (hfree : ¬ eofBoundaryLine r.boundary <:+: content) (h : NoLateCr r.boundary content) :
    Steps advance r content (r.push content) [] := by
  induction content generalizing r with
  | nil => simpa [push] using Steps.refl
  | cons c content ih =>
    obtain ⟨hlen, htail⟩ := noLateCr_cons.1 h
    have hfree' : ¬ eofBoundaryLine r.boundary <:+: content :=
      fun hp => hfree (hp.trans (List.suffix_cons c content).isInfix)
    have hstep : advance r (c :: content) = .took 1 (r.push [c]) := by
      by_cases hc : c = 13
      · subst hc
        have := hlen rfl
        exact advance_cr hs (by rw [length_eofBoundaryLine, List.length_cons]; omega)
          fun hp => hfree hp.isInfix
      · exact advance_content hs hc
    refine .head hstep ?_
    simpa using ih (r := r.push [c]) hs hfree' htail

/-- A content that is taken whole, with nothing after it, has no late CR. -/
theorem noLateCr_of_steps (hs : r.step = .boundaryContent) {content : Bytes}
    (hfree : ¬ eofBoundaryLine r.boundary <:+: content) (h : Steps advance r content s []) :
    NoLateCr r.boundary content := by
  induction content generalizing r with
  | nil => simp [NoLateCr]
  | cons c content ih =>
    have hfree' : ¬ eofBoundaryLine r.boundary <:+: content :=
      fun hp => hfree (hp.trans (List.suffix_cons c content).isInfix)
    obtain ⟨block, r₁, l, hl, hm, h'⟩ := steps_cons_inv h (List.cons_ne_nil c content)
    cases hm with
    | opened hs' | closed hs' | finshed hs' => simp [hs] at hs'
    | header hs' _ => simp [hs] at hs'
    | byte _ hc =>
      obtain ⟨rfl, rfl⟩ := List.cons.inj hl
      exact noLateCr_cons.2 ⟨fun h => absurd h hc, ih (r := r.push _) hs hfree' h'⟩
    | cr _ hlen _ =>
      obtain ⟨rfl, rfl⟩ := List.cons.inj hl
      exact noLateCr_cons.2 ⟨fun _ => hlen, ih (r := r.push _) hs hfree' h'⟩
    | delimiter _ hpre =>
      obtain ⟨t, rfl⟩ := hpre
      refine absurd ⟨[], t, ?_⟩ hfree
      rw [hl]
      simp [eofBoundaryLine, bytes]

/-- What the writer sends after the last content. -/
def closing (boundary : Bytes) : Bytes :=
  bytes "\r\n" ++ (bytes "--" ++ boundary ++ bytes "--\r\n")

/-- Inside a content, the closing chunk is taken whole and ends the body. -/
theorem steps_closing (hs : r.step = .boundaryContent) :
    ∃ s, Steps advance r (closing r.boundary) s [] ∧ s.step = .eof := by
  have hdelim := Steps.single (advance_delimiter hs (bytes "--\r\n"))
  have hlast := steps_last (r := { r with
    step := .boundaryLine, fields := r.fields ++ [r.fieldData], fieldData := {} }) rfl
  have hclosing : closing r.boundary = eofBoundaryLine r.boundary ++ bytes "--\r\n" := by
    simp [closing, eofBoundaryLine, bytes]
  have hdrop : (eofBoundaryLine r.boundary ++ bytes "--\r\n").drop 2 =
      boundaryLineLast r.boundary ++ bytes "\r\n" := by
    simp [eofBoundaryLine, boundaryLineLast, bytes]
  rw [hdrop] at hdelim
  rw [hclosing]
  exact ⟨_, hdelim.trans hlast, rfl⟩

/-- There is no blank line in the closing chunk. -/
theorem not_infix_closing {boundary : Bytes} (hb : (13 : UInt8) ∉ boundary) :
    ¬ bytes "\r\n\r\n" <:+: closing boundary := by
  have hmem : (13 : UInt8) ∉ bytes "\n--" ++ boundary ++ bytes "--" := by simp [bytes, hb]
  have heq : closing boundary = 13 :: ((bytes "\n--" ++ boundary ++ bytes "--") ++ [13, 10]) := by
    simp [closing, bytes]
  have hpat : bytes "\r\n\r\n" = 13 :: [10, 13, 10] := rfl
  rw [← Search.leftmost_eq_none_iff, heq, hpat, Search.leftmost_cons (by simp [bytes]),
    Search.leftmost_append_of_not_mem hmem]
  rfl

/-- The closing chunk is taken whole inside a content only. -/
theorem step_of_closing (hb : (13 : UInt8) ∉ r.boundary)
    (h : Steps advance r (closing r.boundary) s []) : r.step = .boundaryContent := by
  obtain ⟨block, r₁, l, hl, hm, h'⟩ := steps_cons_inv h (by simp [closing, bytes])
  cases hm with
  | opened => simp [closing, boundaryLine, bytes] at hl
  | closed => simp [closing, boundaryLineLast, bytes] at hl
  | header _ hblock =>
    obtain ⟨n, _, hf⟩ := hblock.blank
    have hinf : bytes "\r\n\r\n" <:+: closing r.boundary := by
      rw [hl]
      exact (Search.infix_of_leftmost hf).trans (List.prefix_append block l).isInfix
    exact absurd hinf (not_infix_closing hb)
  | finshed =>
    obtain ⟨rfl, -⟩ := eq_nil_of_steps_eof rfl h'
    simp [closing, bytes] at hl
  | byte hs | cr hs | delimiter hs => exact hs

/-- A line break alone is taken whole after the closing boundary only. -/
theorem eof_of_separator (h : Steps advance r (bytes "\r\n") s []) : s.step = .eof := by
  obtain ⟨block, r₁, l, hl, hm, h'⟩ := steps_cons_inv h (by simp [bytes])
  have hlen : block.length + l.length = 2 := by
    rw [← List.length_append, ← hl]
    rfl
  cases hm with
  | opened => rw [length_boundaryLine] at hlen; omega
  | closed => rw [length_boundaryLineLast] at hlen; omega
  | header _ hblock =>
    obtain ⟨n, hn, _⟩ := hblock.blank
    omega
  | byte _ hc => exact absurd (List.cons.inj hl).1.symm hc
  | cr _ hlen' => rw [List.length_singleton] at hlen; omega
  | delimiter _ hpre =>
    have hpos := hpre.length_le
    have h₁ : (bytes "\r\n").length = 2 := rfl
    have h₂ : (bytes "--").length = 2 := rfl
    rw [List.length_append] at hpos
    omega
  | finshed => rw [(eq_nil_of_steps_eof rfl h').2]

end FormDataReader

/-! ## A form sent chunk by chunk -/

open FormDataReader

/-- The first buffer of a field: the boundary line and the header. -/
def FormDataWriter.headerChunk (boundary : Bytes) (f : FormData.Field) : Bytes :=
  boundaryLine boundary ++ partHeader f

/-- A clean header makes the first buffer a chain of its own. -/
theorem FormDataWriter.headerChain {f : FormData.Field} (boundary : Bytes)
    (hf : FormDataWriter.HeaderClean f) : HeaderChain boundary (headerChunk boundary f) :=
  .last (isHeaderBlock hf)

/-- The first buffer of a field ends in a blank line. -/
theorem FormDataWriter.suffix_headerChunk (boundary : Bytes) (f : FormData.Field) :
    bytes "\r\n\r\n" <:+ headerChunk boundary f := by
  refine List.IsSuffix.trans ?_ (List.suffix_append (boundaryLine boundary) (partHeader f))
  rw [show bytes "\r\n\r\n" = bytes "\r\n" ++ bytes "\r\n" from rfl, partHeader]
  by_cases hct : f.contentType = []
  · rw [if_neg (not_not.2 hct), List.append_nil, List.append_assoc _ (bytes "\r\n") (bytes "\r\n")]
    exact List.suffix_append _ _
  · rw [if_pos hct, ← List.append_assoc, List.append_assoc _ (bytes "\r\n") (bytes "\r\n")]
    exact List.suffix_append _ _

/-- The reader in front of a header's chunk. -/
theorem inHeader_headerChunk (boundary : Bytes) (f : FormData.Field) :
    InHeader (FormDataWriter.headerChunk boundary f) { boundary }
      (FormDataWriter.headerChunk boundary f) := by
  have hlen : (FormDataWriter.headerChunk boundary f).length ≠ 0 := by
    simp [FormDataWriter.headerChunk, boundaryLine, bytes]
  refine ⟨List.suffix_rfl, ?_, fun h => absurd (by rw [h]; rfl) hlen⟩
  simp [FormDataWriter.headerChunk, boundaryLine, bytes]

section

variable {boundary : Bytes} (hb : (13 : UInt8) ∉ boundary)
include hb

/-- The chunks of a form with one field. -/
theorem driveChunks_single {f : FormData.Field} (hfree : ¬ eofBoundaryLine boundary <:+: f.content) :
    (∃ s, driveChunks put { boundary } (FormDataWriter.buffers boundary [f]) = some s ∧
      s.step = .eof) ↔
    HeaderChain boundary (FormDataWriter.headerChunk boundary f) ∧ NoLateCr boundary f.content := by
  have hbuffers : FormDataWriter.buffers boundary [f] =
      [FormDataWriter.headerChunk boundary f, f.content, closing boundary] := by
    simp [FormDataWriter.buffers, FormDataWriter.headerChunk, boundaryLine, closing]
  rw [hbuffers]
  simp only [driveChunks_cons_eq_some_iff advance_stable put_refines]
  constructor
  · rintro ⟨s, ⟨s₁, hheader, s₂, hcontent, s₃, hclosing, -⟩, -⟩
    have hb₁ : s₁.boundary = boundary := boundary_eq_of_steps hheader
    have hb₂ : s₂.boundary = boundary := (boundary_eq_of_steps hcontent).trans hb₁
    have hs₂ : s₂.step = .boundaryContent := step_of_closing (by rwa [hb₂]) (by rwa [hb₂])
    have hs₁ : s₁.step ≠ .eof := by
      intro hs₁
      rw [(eq_nil_of_steps_eof hs₁ hcontent).2, hs₁] at hs₂
      cases hs₂
    obtain ⟨hs₁, hchain⟩ := leads_of_steps (FormDataWriter.suffix_headerChunk boundary f) hb
      (inHeader_headerChunk boundary f) hheader hs₁
    have hcr := noLateCr_of_steps hs₁ (by rwa [hb₁]) hcontent
    rw [hb₁] at hcr
    exact ⟨hchain, hcr⟩
  · rintro ⟨hchain, hcr⟩
    obtain ⟨s₁, hheader, hs₁, hb₁⟩ := hchain.steps (r := { boundary }) rfl hb
    have hcontent : Steps advance s₁ f.content (s₁.push f.content) [] :=
      steps_of_noLateCr hs₁ (by rwa [hb₁]) (by rwa [hb₁])
    obtain ⟨s₃, hclosing, hs₃⟩ := steps_closing (r := s₁.push f.content) hs₁
    rw [push_boundary, hb₁] at hclosing
    exact ⟨s₃, ⟨s₁, hheader, _, hcontent, s₃, hclosing, rfl⟩, hs₃⟩

omit hb in
/-- The chunks of a form with more than one field are never all taken: after the line break alone
that separates the first two, nothing more is taken. -/
theorem driveChunks_separated {f g : FormData.Field} {fs : List FormData.Field}
    {r s : FormDataReader} :
    driveChunks put r (FormDataWriter.buffers boundary (f :: g :: fs)) ≠ some s := by
  intro h
  simp only [FormDataWriter.buffers, driveChunks_cons_eq_some_iff advance_stable put_refines] at h
  obtain ⟨s₁, -, s₂, -, s₃, hsep, s₄, hheader, -⟩ := h
  obtain ⟨hnil, -⟩ := eq_nil_of_steps_eof (eof_of_separator hsep) hheader
  simp [bytes] at hnil

end

/-- **When a form survives being sent one chunk per buffer.** The reader, offered the buffers of
the writer as chunks, ends in step `eof` with the fields it obtains from their concatenation
exactly when the form has one field, the field's header is a chain of its own, and no CR of the
content comes too late. Without a late CR the content is taken whole; the line break between two
fields is too short a chunk for any step but `finshed`. -/
theorem formData_chunked_iff {body : FormData} (hb : ∀ c ∈ body.boundary, IsBoundaryByte c)
    (hne : body.fields ≠ [])
    (hfs : ∀ f ∈ body.fields, ¬ eofBoundaryLine body.boundary <:+: f.content)
    {bufs : List Bytes} {e : Producer.Ending HttpError}
    (hw : Emits FormDataWriter.get { body } bufs e) :
    (∃ r, driveChunks put { boundary := body.boundary } bufs = some r ∧ r.step = .eof ∧
      r.fields =
        (drive put bufs.flatten.length { boundary := body.boundary } bufs.flatten).1.fields) ↔
    ∃ f, body.fields = [f] ∧
      HeaderChain body.boundary (FormDataWriter.headerChunk body.boundary f) ∧
      NoLateCr body.boundary f.content := by
  have hcr := not_mem_of_isBoundaryByte hb
  obtain ⟨rfl, rfl⟩ := hw.unique (FormDataWriter.emits_buffers hne)
  obtain ⟨f, fs, hf⟩ := List.exists_cons_of_ne_nil hne
  rw [hf] at hfs ⊢
  cases fs with
  | nil =>
    have hsingle := driveChunks_single hcr (hfs f List.mem_cons_self)
    constructor
    · rintro ⟨r, hr, hstep, -⟩
      exact ⟨f, rfl, hsingle.1 ⟨r, hr, hstep⟩⟩
    · rintro ⟨g, hg, hcond⟩
      cases hg
      obtain ⟨r, hr, hstep⟩ := hsingle.2 hcond
      have hwhole := (drive_eq_nil_iff advance_stable put_refines).2
        (driveChunks_steps advance_stable put_refines hr)
      exact ⟨r, hr, hstep, by rw [hwhole]⟩
  | cons g fs =>
    constructor
    · rintro ⟨r, hr, -⟩
      exact absurd hr driveChunks_separated
    · rintro ⟨_, h, -⟩
      cases h

/-- One upload whose content ends in a byte other than CR. -/
theorem formData_chunked_iff_upload :
    let f : FormData.Field := { name := bytes "a", contentType := bytes "text/plain",
                                content := bytes "1\r\n2\r34567" }
    ∃ bufs r, Emits FormDataWriter.get { body := { fields := [f], boundary := bytes "-7" } }
        bufs .last ∧
      driveChunks put { boundary := bytes "-7" } bufs = some r ∧ r.step = .eof := by
  intro f
  have hclean : FormDataWriter.HeaderClean f := by
    refine ⟨?_, ?_, ?_, ?_, ?_⟩ <;> simp [f, bytes, IsQuotable, isSpace]
  have hw : Emits FormDataWriter.get { body := { fields := [f], boundary := bytes "-7" } } _ .last :=
    FormDataWriter.emits_buffers (by simp)
  obtain ⟨r, hr, hstep, -⟩ := (formData_chunked_iff (by simp [bytes, IsBoundaryByte]) (by simp)
    (by simpa using by decide) hw).2 ⟨f, rfl, FormDataWriter.headerChain _ hclean, by decide⟩
  exact ⟨_, r, hw, hr, hstep⟩

/-- Two fields `a=1` and `b=2` are not read back from their chunks. -/
theorem formData_chunked_two_fields :
    ¬ ∀ (body : FormData) (bufs : List Bytes), (∀ c ∈ body.boundary, IsBoundaryByte c) →
      body.fields ≠ [] → (∀ f ∈ body.fields, Sendable body.boundary f ∧ f.content ≠ []) →
      Emits FormDataWriter.get { body } bufs .last →
      ∃ r, driveChunks put { boundary := body.boundary } bufs = some r ∧ r.step = .eof ∧
        r.fields =
          (drive put bufs.flatten.length { boundary := body.boundary } bufs.flatten).1.fields := by
  intro h
  let a : FormData.Field := { name := bytes "a", content := bytes "1" }
  let b : FormData.Field := { name := bytes "b", content := bytes "2" }
  obtain ⟨r, hr, -⟩ := h { fields := [a, b], boundary := bytes "-7" } _
    (by simp [bytes, IsBoundaryByte]) (by simp) (by
      intro f hf
      simp only [List.mem_cons, List.not_mem_nil, or_false] at hf
      rcases hf with rfl | rfl
      · refine ⟨⟨⟨?_, ?_, ?_, ?_, ?_⟩, by decide⟩, by decide⟩ <;> simp [a, bytes, IsQuotable, isSpace]
      · refine ⟨⟨⟨?_, ?_, ?_, ?_, ?_⟩, by decide⟩, by decide⟩ <;> simp [b, bytes, IsQuotable, isSpace])
    (FormDataWriter.emits_buffers (by simp))
  exact driveChunks_separated hr

end Httplib
