import Httplib.Body.FormDataRoundTrip
import Mathlib.Algebra.GroupWithZero.Nat

/-!
# Names and filenames of any bytes

`form_data_body::writer` puts the name and the filename of a field between quotes as they are.
`field_names_survive_iff` says for which names the reader reads back the fields that were written. One
direction generalises the round trip. For the other one, what the reader reads never has a line break in
it, so the headers have the lines they should have; and a value that ended its quotes early would have to
stand in the text behind it once more, which is too short (`length_pairs_le`).
-/

namespace Httplib

open Incremental
open Producer (Emits)

/-! ## What the parameters of a disposition can be -/

/-- The room that parameters take in a text. -/
def room (pairs : List (Bytes × Bytes)) : Nat :=
  (pairs.map fun pair => pair.1.length + 1 + pair.2.length).sum

/-- The first parameter takes the room of its name, of an equals sign and of its value. -/
@[simp] theorem room_cons (pair : Bytes × Bytes) (pairs : List (Bytes × Bytes)) :
    room (pair :: pairs) = pair.1.length + 1 + pair.2.length + room pairs := by
  rw [room, List.map_cons, List.sum_cons]
  rfl

/-- No parameter takes more room than all of them. -/
theorem le_room {pair : Bytes × Bytes} {pairs : List (Bytes × Bytes)} (h : pair ∈ pairs) :
    pair.1.length + 1 + pair.2.length ≤ room pairs := by
  induction h with
  | head pairs =>
    rw [room_cons]
    exact Nat.le_add_right _ _
  | tail other _ ih =>
    rw [room_cons]
    exact ih.trans (Nat.le_add_left _ _)

/-- Two different parameters take the room of both. -/
theorem add_le_room {p q : Bytes × Bytes} {pairs : List (Bytes × Bytes)} (hp : p ∈ pairs)
    (hq : q ∈ pairs) (hne : p ≠ q) :
    (p.1.length + 1 + p.2.length) + (q.1.length + 1 + q.2.length) ≤ room pairs := by
  induction pairs with
  | nil => cases hp
  | cons pair pairs ih =>
    rw [room_cons]
    rcases List.mem_cons.1 hp with rfl | hp' <;> rcases List.mem_cons.1 hq with rfl | hq'
    · exact absurd rfl hne
    · exact Nat.add_le_add_left (le_room hq') _
    · rw [Nat.add_comm (p.1.length + 1 + p.2.length)]
      exact Nat.add_le_add_left (le_room hp') _
    · exact (ih hp' hq').trans (Nat.le_add_left _ _)

/-- Trimming makes no text longer. -/
theorem length_trimCopy_le (s : Bytes) : (trimCopy s).length ≤ s.length :=
  (infix_trimCopy s).length_le

/-- A value and the text behind it are parts of the text, one behind the other. -/
theorem dispositionValue_spec (rest : Bytes) :
    (dispositionValue rest).1 <:+: rest ∧ (dispositionValue rest).2 <:+ rest ∧
      (dispositionValue rest).1.length + (dispositionValue rest).2.length ≤ rest.length := by
  rw [dispositionValue]
  split
  · refine ⟨?_, ?_, ?_⟩
    · exact (List.take_prefix _ _).isInfix.trans (List.drop_suffix _ _).isInfix
    · exact (List.drop_suffix _ _).trans (List.drop_suffix _ _)
    · simp only [List.length_take, List.length_drop]
      omega
  · have htrim := length_trimCopy_le (rest.take ((find rest (bytes ";")).getD rest.length))
    refine ⟨?_, ?_, ?_⟩
    · exact (infix_trimCopy _).trans (List.take_prefix _ _).isInfix
    · exact List.drop_suffix _ _
    · simp only [List.length_take, List.length_drop] at htrim ⊢
      omega

/-- What stands behind a value is a tail of the text. -/
theorem afterValue_suffix (t : Bytes) : FormDataWriter.afterValue t <:+ t := by
  refine (List.dropWhile_suffix _).trans ?_
  split
  · exact List.drop_suffix _ _
  · exact List.suffix_rfl

/-- **All parameters that are read in a text are parts of it, one behind the other**: their values occur
in it, and it has room for them. -/
theorem parseContentDispositionLoop_spec (turns : Nat) (rest : Bytes) :
    (∀ pair ∈ parseContentDispositionLoop turns rest, pair.2 <:+: rest) ∧
      room (parseContentDispositionLoop turns rest) ≤ rest.length := by
  induction turns generalizing rest with
  | zero => exact ⟨List.forall_mem_nil _, Nat.zero_le _⟩
  | succ turns ih =>
    by_cases hmem : (61 : UInt8) ∈ rest
    · obtain ⟨key, rest, rfl, hkey⟩ := List.eq_append_cons_of_mem hmem
      obtain ⟨hvalue, hbehind, hlength⟩ := dispositionValue_spec rest
      have hafter := afterValue_suffix (dispositionValue rest).2
      have hrest : rest <:+ key ++ 61 :: rest := ⟨key ++ [61], by simp⟩
      obtain ⟨hparts, hroom⟩ := ih (FormDataWriter.afterValue (dispositionValue rest).2)
      rw [FormDataWriter.parseContentDispositionLoop_key turns hkey]
      refine ⟨fun pair hpair => ?_, ?_⟩
      · rcases List.mem_cons.1 hpair with rfl | hpair
        · exact hvalue.trans hrest.isInfix
        · exact (hparts pair hpair).trans ((hafter.trans hbehind).trans hrest).isInfix
      · have hle := hafter.length_le
        have htrim := length_trimCopy_le key
        rw [room_cons, List.length_append, List.length_cons]
        dsimp only
        omega
    · have hnone : parseContentDispositionLoop (turns + 1) rest = [] := by
        rw [parseContentDispositionLoop, find_zero, show bytes "=" = [61] from rfl,
          Search.leftmost_singleton_eq_none_iff.2 hmem]
        split <;> rfl
      rw [hnone]
      exact ⟨List.forall_mem_nil _, Nat.zero_le _⟩

/-- The name that is assigned is one of the parameters, or the name from before. -/
theorem assignDisposition_name (g : FormData.Field) (pairs : List (Bytes × Bytes)) :
    (assignDisposition g pairs).name = g.name ∨
      (bytes "name", (assignDisposition g pairs).name) ∈ pairs := by
  induction pairs generalizing g with
  | nil => exact .inl rfl
  | cons pair pairs ih =>
    obtain ⟨key, value⟩ := pair
    rw [assignDisposition]
    split
    · next hkey =>
      rcases ih { g with name := value } with hsame | hmem
      · refine .inr (List.mem_cons.2 (.inl ?_))
        rw [hsame, hkey]
      · exact .inr (List.mem_cons_of_mem _ hmem)
    · split
      · exact (ih { g with filename := value }).imp_right (List.mem_cons_of_mem _)
      · exact (ih g).imp_right (List.mem_cons_of_mem _)

/-- The filename that is assigned is one of the parameters, or the filename from before. -/
theorem assignDisposition_filename (g : FormData.Field) (pairs : List (Bytes × Bytes)) :
    (assignDisposition g pairs).filename = g.filename ∨
      (bytes "filename", (assignDisposition g pairs).filename) ∈ pairs := by
  induction pairs generalizing g with
  | nil => exact .inl rfl
  | cons pair pairs ih =>
    obtain ⟨key, value⟩ := pair
    rw [assignDisposition]
    split
    · exact (ih { g with name := value }).imp_right (List.mem_cons_of_mem _)
    · split
      · next hkey =>
        rcases ih { g with filename := value } with hsame | hmem
        · refine .inr (List.mem_cons.2 (.inl ?_))
          rw [hsame, hkey]
        · exact .inr (List.mem_cons_of_mem _ hmem)
      · exact (ih g).imp_right (List.mem_cons_of_mem _)

/-! ## Values that end their quotes early -/

/-- Where the scan finds the quote that was written, every quote before it is escaped. -/
theorem scanThrough_of_scanQuoted {escape : Bool} {s t : Bytes}
    (h : scanQuoted escape (s ++ 34 :: t) = s.length) : scanThrough escape s = some false := by
  induction s generalizing escape with
  | nil =>
    cases escape with
    | false => rfl
    | true => cases h
  | cons c s ih =>
    rw [List.cons_append, scanQuoted, List.length_cons] at h
    rw [scanThrough]
    split at h
    · next hslash =>
      rw [if_pos hslash]
      exact ih (Nat.succ.inj h)
    · next hslash =>
      rw [if_neg hslash]
      split at h
      · cases h
      · next hquote =>
        rw [if_neg hquote]
        exact ih (Nat.succ.inj h)

/-- A text that cannot be quoted is not read back as the value, and what is left behind the value is not
longer than the text and what follows its quotes. -/
theorem dispositionValue_of_not_quoted {s : Bytes} (hs : ¬ IsQuotedText s) (t : Bytes) :
    (dispositionValue (34 :: (s ++ 34 :: t))).1 ≠ s ∧
      (dispositionValue (34 :: (s ++ 34 :: t))).2.length ≤ s.length + t.length := by
  simp only [dispositionValue, List.head?_cons, if_true, List.drop_succ_cons, List.drop_zero]
  refine ⟨fun heq => hs (scanThrough_of_scanQuoted (t := t) ?_), ?_⟩
  · have hlength := congrArg List.length heq
    simp only [List.length_take, List.length_append, List.length_cons] at hlength
    omega
  · simp only [List.length_drop, List.length_append, List.length_cons]
    omega

section
variable {f : FormData.Field}

/-- Written, a filename takes thirteen bytes besides its own. -/
theorem length_filenameParam (h : f.filename ≠ []) :
    (FormDataWriter.filenameParam f).length = f.filename.length + 13 := by
  rw [FormDataWriter.filenameParam, if_pos h]
  simp only [List.length_append]
  rw [show (bytes "; filename=\"").length = 12 from rfl, show (bytes "\"").length = 1 from rfl]
  omega

/-- What is left for the parameters behind a value is not longer than the text behind the value. -/
theorem room_afterValue_le (turns : Nat) (t : Bytes) :
    room (parseContentDispositionLoop turns (FormDataWriter.afterValue t)) ≤ t.length :=
  (parseContentDispositionLoop_spec turns _).2.trans (afterValue_suffix t).length_le

/-- What is read back of a header: the first value is taken for the name, and what is found behind it is
assigned. -/
theorem exists_readBack (f : FormData.Field) :
    ∃ turns, parseContentDisposition (FormDataWriter.dispositionParams f) =
      (bytes "name", (dispositionValue (34 :: (f.name ++ 34 :: FormDataWriter.filenameParam f))).1) ::
        parseContentDispositionLoop (turns + 1) (FormDataWriter.afterValue
          (dispositionValue (34 :: (f.name ++ 34 :: FormDataWriter.filenameParam f))).2) := by
  obtain ⟨turns, hturns⟩ : ∃ turns, (FormDataWriter.dispositionParams f).length + 1 = turns + 2 :=
    ⟨(FormDataWriter.dispositionParams f).length - 1, by
      simp [FormDataWriter.dispositionParams_eq, bytes]⟩
  refine ⟨turns, ?_⟩
  rw [parseContentDisposition, hturns, FormDataWriter.dispositionParams_eq,
    FormDataWriter.parseContentDispositionLoop_key _ (by decide)]
  rfl

/-- A name that ends its quotes early is not read back together with the filename: it is not the first
value, and the text behind that has no room for both. -/
theorem filename_ne_of_name (h : ¬ IsQuotedText f.name)
    (hname : (FormDataWriter.readBack f).name = f.name) :
    (FormDataWriter.readBack f).filename ≠ f.filename := by
  intro hfilename
  obtain ⟨turns, hpairs⟩ := exists_readBack f
  obtain ⟨hvalue, hlength⟩ := dispositionValue_of_not_quoted h (FormDataWriter.filenameParam f)
  simp only [FormDataWriter.readBack, hpairs, assignDisposition, if_true] at hname hfilename
  generalize dispositionValue (34 :: (f.name ++ 34 :: FormDataWriter.filenameParam f)) = first at *
  have hroom := (room_afterValue_le (turns + 1) first.2).trans hlength
  generalize parseContentDispositionLoop (turns + 1) (FormDataWriter.afterValue first.2) = pairs at *
  have hn : (bytes "name", f.name) ∈ pairs := by
    rcases assignDisposition_name { name := first.1 } pairs with hsame | hmem
    · exact absurd (hsame.symm.trans hname) hvalue
    · rwa [hname] at hmem
  rcases eq_or_ne f.filename [] with hnil | hne
  · have hle := (le_room hn).trans hroom
    rw [FormDataWriter.filenameParam, if_neg (not_not.2 hnil)] at hle
    simp only [List.length_nil] at hle
    omega
  · have hf : (bytes "filename", f.filename) ∈ pairs := by
      rcases assignDisposition_filename { name := first.1 } pairs with hsame | hmem
      · exact absurd (hfilename.symm.trans hsame) hne
      · rwa [hfilename] at hmem
    have hkeys : (bytes "name", f.name) ≠ (bytes "filename", f.filename) := by
      intro heq
      have hfst : bytes "name" = bytes "filename" := congrArg Prod.fst heq
      exact absurd hfst (by decide)
    have hle := (add_le_room hn hf hkeys).trans hroom
    rw [length_filenameParam hne] at hle
    simp only [show (bytes "name").length = 4 from rfl, show (bytes "filename").length = 8 from rfl]
      at hle
    omega

/-- A filename that ends its quotes early is not read back behind a name that does not. -/
theorem filename_ne_of_filename (hn : IsQuotedText f.name) (h : ¬ IsQuotedText f.filename) :
    (FormDataWriter.readBack f).filename ≠ f.filename := by
  intro hfilename
  have hne : f.filename ≠ [] := by
    intro hnil
    rw [hnil] at h
    exact h rfl
  obtain ⟨turns, hpairs⟩ := exists_readBack f
  obtain ⟨hvalue, hlength⟩ := dispositionValue_of_not_quoted h []
  rw [FormDataWriter.dispositionValue_quoted hn, FormDataWriter.afterValue_filenameParam hne,
    FormDataWriter.parseContentDispositionLoop_key _ (by decide)] at hpairs
  simp only [FormDataWriter.readBack, hpairs] at hfilename
  generalize dispositionValue (34 :: (f.filename ++ [34])) = second at *
  have hroom := (room_afterValue_le turns second.2).trans hlength
  generalize parseContentDispositionLoop turns (FormDataWriter.afterValue second.2) = pairs at *
  have hassign : assignDisposition {} ((bytes "name", f.name) ::
      (trimCopy (bytes "filename"), second.1) :: pairs) =
      assignDisposition { name := f.name, filename := second.1 } pairs := rfl
  rw [hassign] at hfilename
  have hf : (bytes "filename", f.filename) ∈ pairs := by
    rcases assignDisposition_filename { name := f.name, filename := second.1 } pairs with hsame | hmem
    · exact absurd (hsame.symm.trans hfilename) hvalue
    · rwa [hfilename] at hmem
  have hle := (le_room hf).trans hroom
  simp only [List.length_nil] at hle
  omega

/-- **Which names and filenames are read back from their header**: those that can be quoted. -/
theorem readBack_eq_iff (f : FormData.Field) :
    (FormDataWriter.readBack f).name = f.name ∧ (FormDataWriter.readBack f).filename = f.filename ↔
      IsQuotedText f.name ∧ IsQuotedText f.filename := by
  constructor
  · rintro ⟨hname, hfilename⟩
    have hn : IsQuotedText f.name := by
      by_contra hn
      exact filename_ne_of_name hn hname hfilename
    refine ⟨hn, ?_⟩
    by_contra hf
    exact filename_ne_of_filename hn hf hfilename
  · rintro ⟨hn, hf⟩
    rw [FormDataWriter.readBack, FormDataWriter.parseContentDisposition_params hn hf]
    rcases eq_or_ne f.filename [] with hnil | hne
    · rw [if_neg (not_not.2 hnil), hnil]
      exact ⟨rfl, rfl⟩
    · rw [if_pos hne]
      exact ⟨rfl, rfl⟩

end

/-! ## No line break is read -/

/-- A field whose name and filename have no line break. -/
def NoBreak (f : FormData.Field) : Prop :=
  ¬ bytes "\r\n" <:+: f.name ∧ ¬ bytes "\r\n" <:+: f.filename

/-- A field without name and filename has no line break in them. -/
theorem noBreak_empty : NoBreak {} := ⟨by decide, by decide⟩

/-- Assigning parameters without line breaks brings none in. -/
theorem NoBreak.assignDisposition {g : FormData.Field} (hg : NoBreak g)
    {pairs : List (Bytes × Bytes)} (h : ∀ pair ∈ pairs, ¬ bytes "\r\n" <:+: pair.2) :
    NoBreak (assignDisposition g pairs) := by
  refine ⟨?_, ?_⟩
  · rcases assignDisposition_name g pairs with hsame | hmem
    · rw [hsame]
      exact hg.1
    · exact h _ hmem
  · rcases assignDisposition_filename g pairs with hsame | hmem
    · rw [hsame]
      exact hg.2
    · exact h _ hmem

/-- A header field is a part of its line. -/
theorem infix_of_headerLines {lines : List Bytes} {items : List (Bytes × Bytes)}
    (h : headerLines lines = .ok items) {item : Bytes × Bytes} (hitem : item ∈ items) :
    ∃ line ∈ lines, item.2 <:+: line := by
  induction lines generalizing items with
  | nil =>
    cases h
    cases hitem
  | cons line lines ih =>
    rw [headerLines] at h
    split at h
    · obtain ⟨l, hl, hin⟩ := ih h hitem
      exact ⟨l, List.mem_cons_of_mem _ hl, hin⟩
    · split at h
      · cases h
      · cases hlines : headerLines lines with
        | error e =>
          rw [hlines] at h
          cases h
        | ok rest =>
          rw [hlines] at h
          cases h
          rcases List.mem_cons.1 hitem with rfl | hitem
          · exact ⟨line, List.mem_cons_self, (infix_trimCopy _).trans (List.drop_suffix _ _).isInfix⟩
          · obtain ⟨l, hl, hin⟩ := ih hlines hitem
            exact ⟨l, List.mem_cons_of_mem _ hl, hin⟩

/-- Nor does reading header fields without line breaks. -/
theorem NoBreak.readHeader {g f : FormData.Field} (hg : NoBreak g) {items : List (Bytes × Bytes)}
    (hitems : ∀ item ∈ items, ¬ bytes "\r\n" <:+: item.2) (h : readHeader g items = .ok f) :
    NoBreak f := by
  induction items generalizing g with
  | nil =>
    cases h
    exact hg
  | cons item items ih =>
    obtain ⟨key, value⟩ := item
    have hvalue := hitems _ List.mem_cons_self
    have hrest := fun item hitem => hitems item (List.mem_cons_of_mem _ hitem)
    rw [Httplib.readHeader] at h
    split at h
    · split at h
      · cases h
      · next pos _ =>
        split at h
        · cases h
        · refine ih (hg.assignDisposition fun pair hpair hin => ?_) hrest h
          have hpart := (parseContentDispositionLoop_spec _ _).1 pair hpair
          exact hvalue ((hin.trans hpart).trans (List.drop_suffix _ _).isInfix)
    · split at h
      · exact ih (g := { g with contentType := value }) hg hrest h
      · exact ih hg hrest h

/-- The header of a part gives a name and a filename without line break. -/
theorem noBreak_of_parseHeader {header : Bytes} {f : FormData.Field} (h : parseHeader header = .ok f) :
    NoBreak f := by
  rw [parseHeader] at h
  cases hsplit : splitHeaderFieldValue header with
  | error e =>
    rw [hsplit] at h
    cases h
  | ok items =>
    rw [hsplit] at h
    refine noBreak_empty.readHeader (fun item hitem hin => ?_) h
    obtain ⟨line, hline, hpart⟩ := infix_of_headerLines hsplit hitem
    exact not_infix_of_mem_split (by decide) hline (hin.trans hpart)

/-- What a reader has read has no line break in its names. -/
structure FormDataReader.Unbroken (r : FormDataReader) : Prop where
  fieldData : NoBreak r.fieldData
  fields : ∀ f ∈ r.fields, NoBreak f

/-- A call of `put` keeps the names free of line breaks. -/
theorem FormDataReader.Unbroken.put {r r' : FormDataReader} (hr : r.Unbroken) {data : Bytes} {n : Nat}
    (h : r.put data = .took n r') : r'.Unbroken := by
  have hpush : ∀ text, (r.push text).Unbroken := fun text => ⟨hr.fieldData, hr.fields⟩
  rw [FormDataReader.put] at h
  split at h
  case h_1 =>
    dsimp only at h
    split at h
    · cases h
    · split at h
      · cases h
        exact ⟨hr.fieldData, hr.fields⟩
      · split at h <;> cases h
        exact ⟨hr.fieldData, hr.fields⟩
  case h_2 =>
    split at h
    · cases h
    · dsimp only at h
      split at h
      · cases h
      · next field hparse =>
        cases h
        exact ⟨noBreak_of_parseHeader hparse, hr.fields⟩
  case h_3 =>
    split at h
    · dsimp only at h
      split at h
      · cases h
      · split at h
        · -- the field is complete
          cases h
          refine ⟨noBreak_empty, fun f hf => ?_⟩
          rcases List.mem_append.1 hf with hf | hf
          · exact hr.fields f hf
          · cases List.mem_singleton.1 hf
            exact hr.fieldData
        · cases h
          exact hpush _
    · split at h <;> cases h <;> exact hpush _
  case h_4 =>
    split at h
    · cases h
    · split at h <;> cases h
      exact ⟨hr.fieldData, hr.fields⟩
  case h_5 => cases h

/-! ## Which names survive -/

/-- A name or filename that the reader reads back: there is no line break in it, every quote is escaped,
and it does not end in the middle of an escape. -/
structure SafeName (s : Bytes) : Prop where
  oneLine : ¬ bytes "\r\n" <:+: s
  quoted : IsQuotedText s

/-- A written body is read as fields with just these names and filenames. -/
def NamesSurvive (body : FormData) (written : Bytes) : Prop :=
  ∃ r, drive FormDataReader.put written.length { boundary := body.boundary } written = (r, [], none) ∧
    r.step = .eof ∧ r.finish = .ok () ∧
    r.fields.map (fun f => (f.name, f.filename)) = body.fields.map fun f => (f.name, f.filename)

/-- The field that is read for a field: what is read back of its header, and its content. -/
def received (f : FormData.Field) : FormData.Field :=
  { FormDataWriter.readBack f with content := (FormDataWriter.readBack f).content ++ f.content }

/-- Only the header says what its name and filename are. -/
theorem received_names_iff (f : FormData.Field) :
    ((received f).name, (received f).filename) = (f.name, f.filename) ↔
      IsQuotedText f.name ∧ IsQuotedText f.filename := by
  rw [Prod.mk.injEq]
  simp only [received, readBack_eq_iff]

/-- Nothing is no body. -/
theorem not_namesSurvive_nil (body : FormData) : ¬ NamesSurvive body [] := by
  rintro ⟨r, hdrive, hstep, -⟩
  cases (congrArg Prod.fst hdrive : ({ boundary := body.boundary } : FormDataReader) = r)
  cases hstep

/-- The names and filenames that survive have no line break. -/
theorem NamesSurvive.noBreak {body : FormData} {written : Bytes} (h : NamesSurvive body written) :
    ∀ f ∈ body.fields, NoBreak f := by
  obtain ⟨r, hdrive, -, -, hnames⟩ := h
  have hunbroken : r.Unbroken := by
    have hkept : (drive FormDataReader.put written.length { boundary := body.boundary }
        written).1.Unbroken :=
      drive_invariant (fun hr h => hr.put h) _ ⟨noBreak_empty, List.forall_mem_nil _⟩ _
    rwa [hdrive] at hkept
  intro f hf
  have hmem : (f.name, f.filename) ∈ r.fields.map fun f => (f.name, f.filename) := by
    rw [hnames]
    exact List.mem_map.2 ⟨f, hf, rfl⟩
  obtain ⟨g, hg, heq⟩ := List.mem_map.1 hmem
  obtain ⟨hname, hfilename⟩ := Prod.mk.inj heq
  rw [NoBreak, ← hname, ← hfilename]
  exact hunbroken.fields g hg

/-- Where every header has the lines it should have, the fields that are read are those read in them. -/
theorem drive_encode {boundary : Bytes} (hb : (13 : UInt8) ∉ boundary) {fields : List FormData.Field}
    (hfs : ∀ f ∈ fields, OneLine f ∧ ¬ FormDataReader.eofBoundaryLine boundary <:+: f.content) :
    drive FormDataReader.put (FormDataWriter.encode boundary fields).length { boundary }
        (FormDataWriter.encode boundary fields) =
      ({ boundary, step := .eof, fields := fields.map received }, [], none) := by
  refine (drive_eq_nil_iff FormDataReader.advance_stable FormDataReader.put_refines).2 ?_
  exact FormDataReader.steps_parts hb FormDataWriter.readBack [] fields fun f hf =>
    ⟨FormDataWriter.isHeaderBlock_readBack (hfs f hf).1, (hfs f hf).2⟩

/-- **Which names and filenames survive**: for every form whose contents do not hold the delimiter, and
whose content types have no line break, the body that is written is read back with its names exactly if
there is a field, and all names and filenames are safe. -/
theorem field_names_survive_iff {body : FormData} (hb : (13 : UInt8) ∉ body.boundary)
    (hfs : ∀ f ∈ body.fields, ¬ FormDataReader.eofBoundaryLine body.boundary <:+: f.content ∧
      ¬ bytes "\r\n" <:+: f.contentType)
    {bufs : List Bytes} {e : Producer.Ending HttpError} (hbufs : Emits FormDataWriter.get { body } bufs e) :
    NamesSurvive body bufs.flatten ↔
      body.fields ≠ [] ∧ ∀ f ∈ body.fields, SafeName f.name ∧ SafeName f.filename := by
  rcases eq_or_ne body.fields [] with hnil | hne
  · have hdone : FormDataWriter.get { body } = .done := by
      simp [FormDataWriter.get, hnil]
    obtain ⟨rfl, -⟩ := hbufs.unique (.done hdone)
    exact iff_of_false (not_namesSurvive_nil body) fun h => h.1 hnil
  · obtain ⟨rfl, -⟩ := hbufs.unique (FormDataWriter.emits_buffers hne)
    rw [FormDataWriter.flatten_buffers hne]
    constructor
    · intro h
      have hbreak := h.noBreak
      obtain ⟨r, hdrive, -, -, hnames⟩ := h
      rw [drive_encode hb fun f hf => ⟨⟨(hbreak f hf).1, (hbreak f hf).2, (hfs f hf).2⟩,
        (hfs f hf).1⟩] at hdrive
      cases (congrArg Prod.fst hdrive : _ = r)
      rw [List.map_map, List.map_inj_left] at hnames
      refine ⟨hne, fun f hf => ?_⟩
      obtain ⟨hn, hq⟩ := (received_names_iff f).1 (hnames f hf)
      exact ⟨⟨(hbreak f hf).1, hn⟩, ⟨(hbreak f hf).2, hq⟩⟩
    · rintro ⟨-, hsafe⟩
      refine ⟨_, drive_encode hb fun f hf => ⟨⟨(hsafe f hf).1.oneLine, (hsafe f hf).2.oneLine,
        (hfs f hf).2⟩, (hfs f hf).1⟩, rfl, rfl, ?_⟩
      rw [List.map_map]
      refine List.map_congr_left fun f hf => ?_
      exact (received_names_iff f).2 ⟨(hsafe f hf).1.quoted, (hsafe f hf).2.quoted⟩

/-- A name with a semicolon, a backslash and an escaped quote, and a filename with a bare CR. -/
theorem field_names_survive_escaped :
    let f : FormData.Field :=
      { name := bytes "a;\\\"b", filename := bytes "x\ry", content := bytes "1" }
    NamesSurvive { fields := [f], boundary := bytes "-7" }
      (FormDataWriter.buffers (bytes "-7") [f]).flatten := by
  intro f
  refine (@field_names_survive_iff { fields := [f], boundary := bytes "-7" } (by decide) ?_ _ _
    (FormDataWriter.emits_buffers (List.cons_ne_nil _ _))).2 ⟨List.cons_ne_nil _ _, ?_⟩
  · intro g hg
    cases List.mem_singleton.1 hg
    exact ⟨by decide, by decide⟩
  · intro g hg
    cases List.mem_singleton.1 hg
    exact ⟨⟨by decide, by decide⟩, ⟨by decide, by decide⟩⟩

/-- A name that ends its quotes and goes on with a name of its own: this one is read. -/
theorem field_names_survive_quote :
    let f : FormData.Field := { name := bytes "a\"; name=\"b", content := bytes "1" }
    let body : FormData := { fields := [f], boundary := bytes "-7" }
    let written := (FormDataWriter.buffers (bytes "-7") [f]).flatten
    Emits FormDataWriter.get { body } (FormDataWriter.buffers (bytes "-7") [f]) .last ∧
      (drive FormDataReader.put written.length { boundary := bytes "-7" } written).1.fields.map
        (·.name) = [bytes "b"] ∧
      ¬ NamesSurvive body written := by
  intro f body written
  have hread : (drive FormDataReader.put written.length { boundary := bytes "-7" } written).1.fields.map
      (·.name) = [bytes "b"] := by decide +kernel
  refine ⟨FormDataWriter.emits_buffers (List.cons_ne_nil _ _), hread, ?_⟩
  rintro ⟨r, hdrive, -, -, hnames⟩
  rw [show drive FormDataReader.put written.length { boundary := bytes "-7" } written = _ from hdrive]
    at hread
  have hfst := congrArg (List.map Prod.fst) hnames
  rw [List.map_map, List.map_map] at hfst
  exact absurd (hread.symm.trans hfst) (by decide)

end Httplib
