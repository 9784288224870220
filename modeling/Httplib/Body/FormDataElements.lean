import Httplib.Body.FormDataChunked

/-!
# One call of the reader for each piece

A reader that is called once for each piece of a form, and not again before the next piece comes, gets
through the form only if the pieces fall right. `FormText` lists the elements of a form, without their
bytes: which length each has, and how many bytes have to be there before the reader decides on it.
`OneEach` counts with these numbers alone. `put_of_needs`, `put_of_lacks` and `put_stretch` say what a
call makes of the next element.
-/

namespace Httplib

open Incremental

/-- An element of the text of a form: a byte of a content other than CR, or one of which `length` bytes
are taken once `needs` bytes are there. -/
inductive FormElement where
  | contentByte
  | whole (length needs : Nat)

/-- **One call for each piece is enough** for the elements of a form, behind `left` bytes that were left
and in front of pieces of the given lengths; `last` bytes come in the end. Each piece that leaves something
to take has to bring the next element to its end, or some of a content, which is taken up to the next CR or
to the end of the piece; the call in the end is for the last element, if that is still to come. -/
inductive OneEach (last : Nat) : List FormElement → (left : Nat) → List Nat → Prop
  | complete {left} : OneEach last [] left []
  | final {length needs left} : needs ≤ left + last → OneEach last [.whole length needs] left []
  | nothing {es pieces} : OneEach last es 0 pieces → OneEach last es 0 (0 :: pieces)
  | element {length needs es left piece pieces} : needs ≤ left + piece →
      OneEach last es (left + piece - length) pieces →
      OneEach last (.whole length needs :: es) left (piece :: pieces)
  | content {n es es' left piece pieces} : es = List.replicate n .contentByte ++ es' →
      0 < n → n ≤ left + piece → (n = left + piece ∨ es'.head? ≠ some .contentByte) →
      OneEach last es' (left + piece - n) pieces → OneEach last es left (piece :: pieces)

/-- The number of elements that need a call of their own. -/
def FormElement.calls : List FormElement → Nat
  | [] => 0
  | .contentByte :: es => calls es
  | .whole _ _ :: es => calls es + 1

/-- Bytes of content need no call. -/
@[simp] theorem FormElement.calls_replicate_append (n : Nat) (es : List FormElement) :
    calls (List.replicate n .contentByte ++ es) = calls es := by
  induction n with
  | zero => rfl
  | succ n ih => exact ih

/-- **The calls that are needed**: one piece for each element but the last. -/
theorem OneEach.calls_le {last left : Nat} {es : List FormElement} {pieces : List Nat}
    (h : OneEach last es left pieces) : FormElement.calls es ≤ pieces.length + 1 := by
  induction h with
  | complete => exact Nat.zero_le _
  | final => exact Nat.le_refl _
  | nothing _ ih => exact ih.trans (Nat.le_succ _)
  | element _ _ ih => exact Nat.succ_le_succ ih
  | content heq _ _ _ _ ih =>
    rw [heq, FormElement.calls_replicate_append]
    exact ih.trans (Nat.le_succ _)

/-- How much of a content is taken: there is one way to cut it at the end of a piece or in front of a
CR. -/
theorem replicate_contentByte_inj {n m limit : Nat} {es es' : List FormElement}
    (h : List.replicate n FormElement.contentByte ++ es = List.replicate m .contentByte ++ es')
    (hn : n ≤ limit) (hstop : n = limit ∨ es.head? ≠ some .contentByte)
    (hm : m ≤ limit) (hstop' : m = limit ∨ es'.head? ≠ some .contentByte) : n = m ∧ es = es' := by
  induction n generalizing m limit with
  | zero =>
    cases m with
    | zero => exact ⟨rfl, h⟩
    | succ m =>
      rcases hstop with rfl | hstop
      · cases hm
      · exact absurd (congrArg List.head? h) hstop
  | succ n ih =>
    cases m with
    | zero =>
      rcases hstop' with rfl | hstop'
      · cases hn
      · exact absurd (congrArg List.head? h.symm) hstop'
    | succ m =>
      obtain ⟨limit, rfl⟩ := Nat.exists_eq_succ_of_ne_zero (show limit ≠ 0 by omega)
      obtain ⟨rfl, heq⟩ := @ih m limit (List.cons.inj h).2 (Nat.le_of_succ_le_succ hn)
        (hstop.imp_left Nat.succ.inj) (Nat.le_of_succ_le_succ hm) (hstop'.imp_left Nat.succ.inj)
      exact ⟨rfl, heq⟩

namespace OneEach

variable {last left piece length needs n : Nat} {es es' : List FormElement} {pieces : List Nat}

/-- Without a piece to come, nothing is left or one element that the last piece completes. -/
theorem nil_iff :
    OneEach last es left [] ↔
      es = [] ∨ ∃ length needs, es = [.whole length needs] ∧ needs ≤ left + last := by
  constructor
  · intro h
    cases h with
    | complete => exact .inl rfl
    | final hneeds => exact .inr ⟨_, _, rfl, hneeds⟩
  · rintro (rfl | ⟨length, needs, rfl, hneeds⟩)
    · exact .complete
    · exact .final hneeds

/-- Behind the form no piece may come. -/
theorem not_nil (hpos : 0 < left + piece) : ¬ OneEach last [] left (piece :: pieces) := by
  intro h
  cases h with
  | nothing => cases hpos
  | content heq hn =>
    cases List.replicate_eq_nil_iff _ |>.1 (List.append_eq_nil_iff.1 heq.symm).1
    cases hn

/-- A piece without bytes changes nothing while nothing waits. -/
theorem nothing_iff (hes : ∀ length needs es', es = .whole length needs :: es' → 0 < needs) :
    OneEach last es 0 (0 :: pieces) ↔ OneEach last es 0 pieces := by
  refine ⟨fun h => ?_, .nothing⟩
  cases h with
  | nothing h => exact h
  | element hneeds => exact absurd hneeds (Nat.not_le.2 (hes _ _ _ rfl))
  | content _ hn hle => exact absurd hle (Nat.not_le.2 hn)

/-- A piece takes a whole element when the bytes at hand are as many as it needs. -/
theorem element_iff (hpos : 0 < left + piece) :
    OneEach last (.whole length needs :: es) left (piece :: pieces) ↔
      needs ≤ left + piece ∧ OneEach last es (left + piece - length) pieces := by
  refine ⟨fun h => ?_, fun h => .element h.1 h.2⟩
  cases h with
  | nothing => cases hpos
  | element hneeds h => exact ⟨hneeds, h⟩
  | @content n _ _ _ _ _ heq hn =>
    obtain ⟨n, rfl⟩ := Nat.exists_eq_succ_of_ne_zero hn.ne'
    cases heq

/-- And content up to its end or to the next element. -/
theorem content_iff (heq : es = List.replicate n .contentByte ++ es') (hn : 0 < n)
    (hle : n ≤ left + piece) (hstop : n = left + piece ∨ es'.head? ≠ some .contentByte) :
    OneEach last es left (piece :: pieces) ↔ OneEach last es' (left + piece - n) pieces := by
  refine ⟨fun h => ?_, .content heq hn hle hstop⟩
  cases h with
  | nothing => exact absurd hle (Nat.not_le.2 hn)
  | element =>
    obtain ⟨n, rfl⟩ := Nat.exists_eq_succ_of_ne_zero hn.ne'
    cases heq
  | content heq' _ hle' hstop' h =>
    obtain ⟨rfl, rfl⟩ := replicate_contentByte_inj (heq.symm.trans heq') hle hstop hle' hstop'
    exact h

end OneEach

namespace FormDataReader

/-- **The text of a form**, read off the grammar from a step on, with its elements and the text behind
it: boundary lines, header blocks, contents byte by byte, and the closing boundary. -/
inductive FormText (boundary : Bytes) : Step → List FormElement → Bytes → Bytes → Prop
  | eof {rest} : FormText boundary .eof [] rest rest
  | opened {es text rest} : FormText boundary .boundaryHeader es text rest →
      FormText boundary .boundaryLine (.whole (boundary.length + 4) (boundary.length + 4) :: es)
        (boundaryLine boundary ++ text) rest
  | closed {es text rest} : FormText boundary .finshed es text rest →
      FormText boundary .boundaryLine (.whole (boundary.length + 4) (boundary.length + 4) :: es)
        (boundaryLineLast boundary ++ text) rest
  | header {block field es text rest} : IsHeaderBlock block field →
      FormText boundary .boundaryContent es text rest →
      FormText boundary .boundaryHeader (.whole block.length block.length :: es) (block ++ text) rest
  | byte {c es text rest} : c ≠ 13 → FormText boundary .boundaryContent es text rest →
      FormText boundary .boundaryContent (.contentByte :: es) (c :: text) rest
  | cr {es text rest} : boundary.length + 3 ≤ text.length →
      ¬ eofBoundaryLine boundary <+: 13 :: text → FormText boundary .boundaryContent es text rest →
      FormText boundary .boundaryContent (.whole 1 (boundary.length + 4) :: es) (13 :: text) rest
  | delimiter {es text rest} : bytes "--" ++ boundary <+: text →
      FormText boundary .boundaryLine es text rest →
      FormText boundary .boundaryContent (.whole 2 (boundary.length + 4) :: es)
        (bytes "\r\n" ++ text) rest
  | finshed {rest} : FormText boundary .finshed [.whole 2 2] (bytes "\r\n" ++ rest) rest

variable {r s : FormDataReader} {boundary text data q rest block : Bytes} {es : List FormElement}
  {length needs : Nat}

/-! ## A form is what a run takes to the end -/

/-- An element that a run takes belongs to the form if what follows does. -/
theorem FormText.move (hm : Move r block s text) (h : FormText s.boundary s.step es text rest) :
    ∃ e, FormText r.boundary r.step (e :: es) (block ++ text) rest := by
  cases hm with
  | opened hs =>
    rw [hs]
    exact ⟨_, .opened h⟩
  | closed hs =>
    rw [hs]
    exact ⟨_, .closed h⟩
  | header hs hblock =>
    rw [hs]
    exact ⟨_, .header hblock h⟩
  | byte hs hc =>
    rw [push_step, hs] at h
    rw [hs]
    exact ⟨_, .byte hc h⟩
  | cr hs hlen hnot =>
    rw [push_step, hs] at h
    rw [hs]
    exact ⟨_, .cr hlen hnot h⟩
  | delimiter hs hpre =>
    rw [hs]
    exact ⟨_, .delimiter hpre h⟩
  | finshed hs =>
    cases h
    rw [hs]
    exact ⟨_, .finshed⟩

/-- A text that the reader takes to the end is made of elements. -/
theorem exists_formText (h : Steps advance r text s rest) (hs : s.step = .eof) :
    ∃ es, FormText r.boundary r.step es text rest := by
  induction h with
  | refl =>
    rw [hs]
    exact ⟨[], .eof⟩
  | @head r l n r₁ s rest hm _ ih =>
    obtain ⟨es, hes⟩ := ih hs
    obtain ⟨e, hform⟩ := FormText.move (advance_inv hm) hes
    rw [List.take_append_drop] at hform
    exact ⟨e :: es, hform⟩

/-- And a text made of elements the reader takes to the end. -/
theorem FormText.steps {step : Step} (h : FormText boundary step es text rest)
    (hs : r.step = step) (hb : r.boundary = boundary) :
    ∃ s, Steps advance r text s rest ∧ s.step = .eof := by
  induction h generalizing r with
  | eof => exact ⟨r, .refl, hs⟩
  | opened _ ih =>
    subst hb
    obtain ⟨s, hsteps, hend⟩ := @ih { r with step := .boundaryHeader } rfl rfl
    exact ⟨s, (Steps.front (advance_boundaryLine hs)).trans hsteps, hend⟩
  | closed _ ih =>
    subst hb
    obtain ⟨s, hsteps, hend⟩ := @ih { r with step := .finshed } rfl rfl
    exact ⟨s, (Steps.front (advance_boundaryLineLast hs _)).trans hsteps, hend⟩
  | @header block field _ _ _ hblock _ ih =>
    obtain ⟨s, hsteps, hend⟩ := @ih { r with fieldData := field, step := .boundaryContent } rfl hb
    exact ⟨s, (Steps.front (advance_header hs hblock)).trans hsteps, hend⟩
  | @byte c _ _ _ hc _ ih =>
    obtain ⟨s, hsteps, hend⟩ := @ih (r.push [c]) hs hb
    exact ⟨s, .head (advance_content hs hc) hsteps, hend⟩
  | cr hlen hnot _ ih =>
    subst hb
    obtain ⟨s, hsteps, hend⟩ := @ih (r.push [13]) hs rfl
    refine ⟨s, .head (advance_cr hs ?_ hnot) hsteps, hend⟩
    rw [length_eofBoundaryLine, List.length_cons]
    omega
  | delimiter hpre _ ih =>
    subst hb
    obtain ⟨t, rfl⟩ := hpre
    obtain ⟨s, hsteps, hend⟩ := @ih
      { r with step := .boundaryLine, fields := r.fields ++ [r.fieldData], fieldData := {} } rfl rfl
    have hdelimiter := advance_delimiter hs t
    rw [eofBoundaryLine, show bytes "\r\n--" = bytes "\r\n" ++ bytes "--" from rfl, List.append_assoc,
      List.append_assoc, ← List.append_assoc (bytes "--")] at hdelimiter
    exact ⟨s, (Steps.front hdelimiter).trans hsteps, hend⟩
  | finshed => exact ⟨_, Steps.front (advance_finshed hs _), rfl⟩

/-! ## A call on the next element -/

/-- Behind the end a call fails. -/
theorem put_of_eof (hs : r.step = .eof) : r.put data = .fail .unexpectedBody := by
  rw [put, hs]

/-- A form is at its end where no element is left. -/
theorem FormText.eof_iff {step : Step} (h : FormText boundary step es text rest) :
    step = .eof ↔ es = [] := by
  cases h <;> simp

/-- Every whole element needs a byte. -/
theorem FormText.needs_pos {step : Step}
    (h : FormText boundary step (.whole length needs :: es) text rest) : 0 < needs := by
  cases h with
  | header hblock =>
    obtain ⟨n, hn, -⟩ := hblock.blank
    omega
  | opened | closed | cr | delimiter => exact Nat.succ_pos _
  | finshed => exact Nat.two_pos

/-- A text that begins with a block, in front of which there is enough. -/
theorem exists_append_of_length_le (h : data ++ q = block ++ text) (hle : block.length ≤ data.length) :
    ∃ l, data = block ++ l ∧ l ++ q = text := by
  obtain ⟨l, rfl⟩ := List.prefix_of_prefix_length_le ⟨text, h.symm⟩ (List.prefix_append data q) hle
  rw [List.append_assoc] at h
  exact ⟨l, rfl, List.append_cancel_left h⟩

/-- Outside contents, and in front of a CR, a call is a decision. -/
theorem put_of_advance {v : Verdict FormDataReader HttpError} (h : advance r data = v)
    (hcr : r.step = .boundaryContent → ∃ l, data = 13 :: l) (hne : data ≠ []) : r.put data = v := by
  rw [← advance_eq_put (fun hs => ?_) hne, h]
  obtain ⟨l, rfl⟩ := hcr hs
  simp [bytes]

/-- **An element that is there is taken.** -/
theorem put_of_needs (h : FormText r.boundary r.step (.whole length needs :: es) (data ++ q) rest)
    (hneeds : needs ≤ data.length) :
    ∃ s, r.put data = .took length s ∧ s.boundary = r.boundary ∧
      FormText s.boundary s.step es (data.drop length ++ q) rest := by
  generalize hs : r.step = step, htext : data ++ q = text at h
  have hout : step ≠ .boundaryContent → r.step = .boundaryContent → ∃ l, data = 13 :: l :=
    fun hne hcontent => absurd (hs.symm.trans hcontent) hne
  cases h with
  | opened hrest =>
    rw [← length_boundaryLine] at hneeds ⊢
    obtain ⟨l, rfl, rfl⟩ := exists_append_of_length_le htext hneeds
    refine ⟨_, put_of_advance (advance_boundaryLine hs) (hout (by decide)) ?_, rfl, ?_⟩
    · simp [boundaryLine, bytes]
    · rw [List.drop_left]
      exact hrest
  | closed hrest =>
    rw [← length_boundaryLineLast] at hneeds ⊢
    obtain ⟨l, rfl, rfl⟩ := exists_append_of_length_le htext hneeds
    refine ⟨_, put_of_advance (advance_boundaryLineLast hs l) (hout (by decide)) ?_, rfl, ?_⟩
    · simp [boundaryLineLast, bytes]
    · rw [List.drop_left]
      exact hrest
  | @header block field _ _ _ hblock hrest =>
    obtain ⟨l, rfl, rfl⟩ := exists_append_of_length_le htext hneeds
    refine ⟨_, put_of_advance (advance_header hs hblock) (hout (by decide)) ?_, rfl, ?_⟩
    · obtain ⟨n, hn, -⟩ := hblock.blank
      intro hnil
      rw [(List.append_eq_nil_iff.1 hnil).1] at hn
      cases hn
    · rw [List.drop_left]
      exact hrest
  | @cr _ text _ hlen hnot hrest =>
    obtain ⟨l, rfl, rfl⟩ := exists_append_of_length_le (show data ++ q = [13] ++ text from htext)
      (by simp; omega)
    have hnot' : ¬ eofBoundaryLine r.boundary <+: 13 :: l :=
      fun hp => hnot (hp.trans (List.prefix_append (13 :: l) q))
    refine ⟨_, put_of_advance (advance_cr hs (by rw [length_eofBoundaryLine]; exact hneeds) hnot')
      (fun _ => ⟨l, rfl⟩) (List.cons_ne_nil _ _), rfl, ?_⟩
    rw [push_step, hs]
    exact hrest
  | delimiter hpre hrest =>
    obtain ⟨t, rfl⟩ := hpre
    have hline : data ++ q = eofBoundaryLine r.boundary ++ t := by
      rw [htext, eofBoundaryLine]
      simp [bytes]
    rw [← length_eofBoundaryLine] at hneeds
    obtain ⟨l, rfl, rfl⟩ := exists_append_of_length_le hline hneeds
    refine ⟨_, put_of_advance (advance_delimiter hs l) (fun _ => ⟨_, rfl⟩) ?_, rfl, ?_⟩
    · simp [eofBoundaryLine, bytes]
    · have hdrop : (eofBoundaryLine r.boundary ++ l).drop 2 ++ q = bytes "--" ++ r.boundary ++ (l ++ q) := by
        simp [eofBoundaryLine, bytes]
      rw [hdrop]
      exact hrest
  | finshed =>
    obtain ⟨l, rfl, rfl⟩ := exists_append_of_length_le htext hneeds
    refine ⟨_, put_of_advance (advance_finshed hs l) (hout (by decide)) ?_, rfl, ?_⟩
    · simp [bytes]
    · exact .eof

/-- **An element that is not there yet makes the call ask for more.** -/
theorem put_of_lacks (h : FormText r.boundary r.step (.whole length needs :: es) (data ++ q) rest)
    (hneeds : data.length < needs) (hne : data ≠ []) : r.put data = .more := by
  generalize hs : r.step = step, htext : data ++ q = text at h
  cases h with
  | opened | closed =>
    simp only [put, hs, length_boundaryLine, length_boundaryLineLast, Nat.max_self]
    rw [if_pos hneeds]
  | @header _ _ _ text _ hblock =>
    obtain ⟨n, hn, hblank⟩ := hblock.blank
    have hnone : Search.leftmost (bytes "\r\n\r\n") data = none := by
      cases hfind : Search.leftmost (bytes "\r\n\r\n") data with
      | none => rfl
      | some pos =>
        -- a blank line within the data would be the first one of the block
        have hdata := Search.leftmost_append (r := q) hfind (by decide)
        rw [htext, Search.leftmost_append hblank (by decide), Option.some.injEq] at hdata
        have hle : pos + 4 ≤ data.length := Search.leftmost_le hfind (by decide)
        omega
    simp only [put, hs, find_zero, hnone]
  | cr hlen hnot =>
    obtain ⟨c, l, rfl⟩ := List.exists_cons_of_ne_nil hne
    obtain rfl : c = 13 := (List.cons.inj htext).1
    have hcr : startsWith (13 :: l) (bytes "\r") = true := by simp [bytes]
    simp only [put, hs, hcr, if_true, length_eofBoundaryLine]
    rw [if_pos hneeds]
  | delimiter =>
    obtain ⟨c, l, rfl⟩ := List.exists_cons_of_ne_nil hne
    obtain rfl : c = 13 := (List.cons.inj htext).1
    have hcr : startsWith (13 :: l) (bytes "\r") = true := by simp [bytes]
    simp only [put, hs, hcr, if_true, length_eofBoundaryLine]
    rw [if_pos hneeds]
  | finshed =>
    simp only [put, hs]
    rw [if_pos hneeds]

/-- The content of a form goes up to a CR. -/
theorem FormText.exists_content (h : FormText boundary .boundaryContent es text rest) :
    ∃ content es' l, text = content ++ 13 :: l ∧ (13 : UInt8) ∉ content ∧
      es = List.replicate content.length .contentByte ++ es' ∧ es'.head? ≠ some .contentByte ∧
      FormText boundary .boundaryContent es' (13 :: l) rest := by
  generalize hs : Step.boundaryContent = step at h
  induction h with
  | eof | opened | closed | header | finshed => cases hs
  | @byte c es text rest hc _ ih =>
    obtain ⟨content, es', l, rfl, hmem, rfl, hhead, hrest⟩ := ih rfl
    refine ⟨c :: content, es', l, rfl, ?_, rfl, hhead, hrest⟩
    rw [List.mem_cons, not_or]
    exact ⟨Ne.symm hc, hmem⟩
  | cr hlen hnot hrest =>
    exact ⟨[], _, _, rfl, List.not_mem_nil, rfl, nofun, .cr hlen hnot hrest⟩
  | delimiter hpre hrest =>
    exact ⟨[], _, _, rfl, List.not_mem_nil, rfl, nofun, .delimiter hpre hrest⟩

/-- The content that follows. -/
theorem FormText.drop_content {content : Bytes} (hmem : (13 : UInt8) ∉ content)
    (h : FormText boundary .boundaryContent es text rest) :
    FormText boundary .boundaryContent (List.replicate content.length .contentByte ++ es)
      (content ++ text) rest := by
  induction content with
  | nil => exact h
  | cons c content ih =>
    rw [List.mem_cons, not_or] at hmem
    exact .byte (Ne.symm hmem.1) (ih hmem.2)

/-- **Of a content a call takes what there is, up to the next CR.** -/
theorem put_content (h : FormText r.boundary r.step (.contentByte :: es) (data ++ q) rest)
    (hne : data ≠ []) :
    ∃ n es' s, FormElement.contentByte :: es = List.replicate n .contentByte ++ es' ∧ 0 < n ∧
      n ≤ data.length ∧ (n = data.length ∨ es'.head? ≠ some .contentByte) ∧ r.put data = .took n s ∧
      s.boundary = r.boundary ∧ s.step = .boundaryContent ∧
      FormText s.boundary s.step es' (data.drop n ++ q) rest := by
  have hs : r.step = .boundaryContent := by
    generalize r.step = step, data ++ q = text at h
    cases h
    rfl
  rw [hs] at h
  obtain ⟨content, es', l, htext, hmem, hes, hhead, hrest⟩ := h.exists_content
  have hpos : 0 < content.length := by
    refine Nat.pos_of_ne_zero fun hzero => hhead ?_
    rw [hzero] at hes
    rw [← List.nil_append es', ← List.replicate_zero, ← hes]
    rfl
  have hlen := List.length_pos_of_ne_nil hne
  have hplain : ¬ startsWith data (bytes "\r") = true := by
    rw [startsWith_iff]
    rintro ⟨t, rfl⟩
    cases content with
    | nil => cases hpos
    | cons c content =>
      refine hmem ?_
      rw [← (List.cons.inj htext).1]
      exact List.mem_cons_self
  rcases Nat.lt_or_ge content.length data.length with hlt | hge
  · -- the CR is there
    obtain ⟨k, hdata, hk⟩ := exists_append_of_length_le htext hlt.le
    obtain ⟨k, rfl⟩ : ∃ k', k = 13 :: k' := by
      cases k with
      | nil =>
        rw [hdata, List.append_nil] at hlt
        exact absurd hlt (Nat.lt_irrefl _)
      | cons c k => exact ⟨k, by rw [(List.cons.inj hk).1]⟩
    have hfind : Search.leftmost (bytes "\r") data = some content.length := by
      rw [hdata]
      exact Search.leftmost_singleton_append hmem
    refine ⟨content.length, es', r.push (data.take content.length), hes, hpos, hlt.le, .inr hhead, ?_,
      rfl, hs, ?_⟩
    · simp only [put, hs, find_zero, hfind, if_neg hplain]
    · rw [push_step, hs, hdata, List.drop_left, hk]
      exact hrest
  · obtain ⟨k, rfl⟩ : data <+: content :=
      List.prefix_of_prefix_length_le (List.prefix_append data q) ⟨13 :: l, htext.symm⟩ hge
    rw [List.mem_append, not_or] at hmem
    have hfind : Search.leftmost (bytes "\r") data = none :=
      Search.leftmost_singleton_eq_none_iff.2 hmem.1
    rw [List.append_assoc] at htext
    refine ⟨data.length, List.replicate k.length .contentByte ++ es', r.push data, ?_, hlen, le_rfl,
      .inl rfl, ?_, rfl, hs, ?_⟩
    · rw [hes, List.length_append, List.replicate_add, List.append_assoc]
    · simp only [put, hs, find_zero, hfind, if_neg hplain]
    · rw [push_step, hs, List.drop_length, List.nil_append, List.append_cancel_left htext]
      exact hrest.drop_content hmem.2

end FormDataReader

end Httplib
