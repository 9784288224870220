import Httplib.Body.FormDataBody

/-!
# The part header, written and read back

`parseHeader_partHeader`: the header block the writer puts before a part is split into lines,
cut at its colons and scanned for quoted parameters; for a clean field the name, filename and content
type come back. `leftmost_partHeader` says where the reader finds the end of such a block in a longer
text. Both need no more than that no text of the field has a line break in it (`OneLine`).
-/

namespace Httplib

/-- A byte that can stand between the quotes of a parameter as it is: neither a quote nor a
backslash nor a line break. -/
def IsQuotable (c : UInt8) : Prop := c ≠ 34 ∧ c ≠ 92 ∧ c ≠ 13 ∧ c ≠ 10

/-- A header value that is written and read as it is: on one line, without white space at the
ends. -/
structure IsHeaderValue (s : Bytes) : Prop where
  line : ∀ c ∈ s, c ≠ 13 ∧ c ≠ 10
  head : ∀ c ∈ s.head?, isSpace c = false
  last : ∀ c ∈ s.getLast?, isSpace c = false

/-- The scan of a quoted value over a text: whether it ends inside an escape, none if a quote ends the
value before. -/
def scanThrough (escape : Bool) : Bytes → Option Bool
  | [] => some escape
  | c :: s =>
    if c = 92 ∧ escape = false then scanThrough true s
    else if c = 34 ∧ escape = false then none
    else scanThrough false s

/-- A text that can stand between quotes: every quote in it is escaped, and it does not end in the middle
of an escape. -/
def IsQuotedText (s : Bytes) : Prop := scanThrough false s = some false

instance (s : Bytes) : Decidable (IsQuotedText s) :=
  inferInstanceAs (Decidable (scanThrough false s = some false))

/-- The texts of a field that are written into its header have no line break. -/
structure OneLine (f : FormData.Field) : Prop where
  name : ¬ bytes "\r\n" <:+: f.name
  filename : ¬ bytes "\r\n" <:+: f.filename
  contentType : ¬ bytes "\r\n" <:+: f.contentType

namespace FormDataWriter

variable {f : FormData.Field} {t : Bytes}

/-- The parameters of the `Content-Disposition` line, from the one after the form-data token. -/
def dispositionParams (f : FormData.Field) : Bytes :=
  bytes " name=\"" ++ f.name ++ bytes "\"" ++
    (if f.filename ≠ [] then bytes "; filename=\"" ++ f.filename ++ bytes "\"" else [])

/-- The value of the `Content-Disposition` line. -/
def dispositionText (f : FormData.Field) : Bytes := bytes "form-data;" ++ dispositionParams f

/-- The lines of a part header. -/
def headerText (f : FormData.Field) : List Bytes :=
  (bytes "Content-Disposition: " ++ dispositionText f) ::
    if f.contentType ≠ [] then [bytes "Content-Type: " ++ f.contentType] else []

/-! ## The quoted parameters -/

/-- The scan for the closing quote passes over a text in which every quote is escaped. -/
theorem scanQuoted_append {escape fin : Bool} {s : Bytes} (hs : scanThrough escape s = some fin)
    (t : Bytes) : scanQuoted escape (s ++ t) = scanQuoted fin t + s.length := by
  induction s generalizing escape with
  | nil =>
    cases hs
    rfl
  | cons c s ih =>
    rw [List.cons_append, scanQuoted, List.length_cons, ← Nat.add_assoc]
    rw [scanThrough] at hs
    split at hs
    · next hslash => rw [if_pos hslash, ih hs]
    · next hslash =>
      split at hs
      · cases hs
      · next hquote => rw [if_neg hslash, if_neg hquote, ih hs]

/-- Without quotes and backslashes, a text can be quoted. -/
theorem isQuotedText_of_isQuotable {s : Bytes} (hs : ∀ c ∈ s, IsQuotable c) : IsQuotedText s := by
  rw [IsQuotedText]
  induction s with
  | nil => rfl
  | cons c s ih =>
    obtain ⟨hq, hb, -⟩ := hs c List.mem_cons_self
    rw [scanThrough, if_neg (fun h => hb h.1), if_neg (fun h => hq h.1)]
    exact ih fun d hd => hs d (List.mem_cons_of_mem c hd)

/-- The text after a parameter with its semicolon and white space dropped. -/
def afterValue (t : Bytes) : Bytes :=
  (if t.head? = some 59 then t.drop 1 else t).dropWhile isSpace

/-- One parameter, and what the scanner goes on with. -/
theorem parseContentDispositionLoop_key {key : Bytes} (turns : Nat) (hk : (61 : UInt8) ∉ key)
    (rest : Bytes) :
    parseContentDispositionLoop (turns + 1) (key ++ 61 :: rest) =
      (trimCopy key, (dispositionValue rest).1) ::
        parseContentDispositionLoop turns (afterValue (dispositionValue rest).2) := by
  have hne : key ++ 61 :: rest ≠ [] := by simp
  have hdrop : (key ++ 61 :: rest).drop (key.length + 1) = rest := by
    rw [← List.drop_drop, List.drop_left]
    rfl
  rw [parseContentDispositionLoop, if_neg hne, find_zero,
    show bytes "=" = [61] from rfl, Search.leftmost_singleton_append hk]
  simp only [hdrop, List.take_left]
  rfl

/-- A quoted value. -/
theorem dispositionValue_quoted {s : Bytes} (hs : IsQuotedText s) :
    dispositionValue (34 :: (s ++ 34 :: t)) = (s, t) := by
  have hscan : scanQuoted false (s ++ 34 :: t) = s.length := by
    rw [scanQuoted_append hs, scanQuoted, if_neg (by decide), if_pos (by decide), Nat.zero_add]
  simp only [dispositionValue, List.head?_cons, if_true, List.drop_succ_cons, List.drop_zero, hscan]
  rw [List.take_left, ← List.drop_drop, List.drop_left]
  rfl

/-- One parameter with a quoted value, and what the scanner goes on with. -/
theorem parseContentDispositionLoop_quoted {key s : Bytes} (turns : Nat)
    (hk : (61 : UInt8) ∉ key) (hs : IsQuotedText s) :
    parseContentDispositionLoop (turns + 1) (key ++ 61 :: 34 :: (s ++ 34 :: t)) =
      (trimCopy key, s) :: parseContentDispositionLoop turns (afterValue t) := by
  rw [parseContentDispositionLoop_key turns hk, dispositionValue_quoted hs]

/-- The filename of a part header, with what separates it from the name. -/
def filenameParam (f : FormData.Field) : Bytes :=
  if f.filename ≠ [] then bytes "; filename=\"" ++ f.filename ++ bytes "\"" else []

theorem dispositionParams_eq (f : FormData.Field) :
    dispositionParams f = bytes " name" ++ 61 :: 34 :: (f.name ++ 34 :: filenameParam f) := by
  rw [dispositionParams, filenameParam, show bytes " name=\"" = bytes " name" ++ [61, 34] from rfl,
    show bytes "\"" = [34] from rfl]
  simp only [List.append_assoc, List.cons_append, List.nil_append]

theorem afterValue_filenameParam (hfn : f.filename ≠ []) :
    afterValue (filenameParam f) = bytes "filename" ++ 61 :: 34 :: (f.filename ++ [34]) := by
  rw [filenameParam, if_pos hfn, List.append_assoc]
  rfl

/-- The parameters of a part header are its name and, if there is one, its filename. -/
theorem parseContentDisposition_params (hn : IsQuotedText f.name) (hf : IsQuotedText f.filename) :
    parseContentDisposition (dispositionParams f) =
      (bytes "name", f.name) ::
        if f.filename ≠ [] then [(bytes "filename", f.filename)] else [] := by
  obtain ⟨turns, hturns⟩ : ∃ turns, (dispositionParams f).length + 1 = turns + 3 :=
    ⟨(dispositionParams f).length - 2, by simp [dispositionParams_eq, bytes]⟩
  rw [parseContentDisposition, hturns, dispositionParams_eq,
    parseContentDispositionLoop_quoted _ (by decide) hn]
  refine congrArg ((bytes "name", f.name) :: ·) ?_
  rcases eq_or_ne f.filename [] with hfn | hfn
  · rw [if_neg (not_not.2 hfn), filenameParam, if_neg (not_not.2 hfn)]
    rfl
  · rw [if_pos hfn, afterValue_filenameParam hfn, parseContentDispositionLoop_quoted _ (by decide) hf]
    rfl

/-! ## The lines -/

/-- The header block is its lines, each ended by CRLF, and an empty line. -/
theorem partHeader_eq (f : FormData.Field) :
    partHeader f = (headerText f).flatMap (· ++ bytes "\r\n") ++ bytes "\r\n" := by
  have hopen : bytes "Content-Disposition: form-data; name=\"" =
      bytes "Content-Disposition: " ++ (bytes "form-data;" ++ bytes " name=\"") := by decide +kernel
  rw [partHeader, headerText, dispositionText, dispositionParams, hopen]
  rcases eq_or_ne f.contentType [] with hct | hct
  · rw [if_neg (not_not.2 hct), if_neg (not_not.2 hct)]
    simp only [List.flatMap_cons, List.flatMap_nil, List.append_assoc, List.append_nil]
  · rw [if_pos hct, if_pos hct]
    simp only [List.flatMap_cons, List.flatMap_nil, List.append_assoc, List.append_nil]

/-- Lines without a line break come back from `split`, trimmed, with the empty line at the end. -/
theorem pieces_lines (turns : Nat) {ls : List Bytes} (hls : ∀ l ∈ ls, ¬ bytes "\r\n" <:+: l)
    (hturns : ls.length < turns) :
    pieces (bytes "\r\n") turns (ls.flatMap (· ++ bytes "\r\n") ++ bytes "\r\n") =
      ls.map trimCopy ++ [[]] := by
  have hlf : (13 : UInt8) ∉ ([10] : Bytes) := by decide
  rw [show bytes "\r\n" = [13, 10] from rfl] at hls ⊢
  induction ls generalizing turns with
  | nil =>
    obtain ⟨k, rfl⟩ := Nat.exists_eq_add_of_lt hturns
    simpa using pieces_append (c := 13) (d := [10]) (l := []) (r := []) (0 + k) (by simp)
  | cons l ls ih =>
    obtain ⟨k, rfl⟩ := Nat.exists_eq_add_of_lt hturns
    have hstep := pieces_of_leftmost (ls.length + 1 + k)
      (Search.leftmost_append_self (r := ls.flatMap (· ++ [13, 10]) ++ [13, 10]) hlf
        (hls l List.mem_cons_self))
    rw [if_neg (by simp), ih (ls.length + 1 + k) (fun l hl => hls l (List.mem_cons_of_mem _ hl))
      (by omega)] at hstep
    rw [List.length_cons, show ls.length + 1 + k + 1 = ls.length + 1 + k + 1 from rfl]
    simpa [List.append_assoc] using hstep

/-- A line is cut at its first colon. -/
theorem headerLines_cons {key : Bytes} (hk : (58 : UInt8) ∉ key) (value : Bytes) {ls : List Bytes}
    {items : List (Bytes × Bytes)} (h : headerLines ls = .ok items) :
    headerLines ((key ++ 58 :: value) :: ls) = .ok ((trimCopy key, trimCopy value) :: items) := by
  rw [headerLines, if_neg (by simp), find_zero, show bytes ":" = [58] from rfl,
    Search.leftmost_singleton_append hk, h]
  simp only [List.take_left]
  rw [← List.drop_drop, List.drop_left]
  rfl

/-- A line whose value has white space at its end is trimmed to one with the same value, trimmed. -/
theorem trimCopy_line {key : Bytes} (hk : trimCopy key = key) (hne : key ≠ []) (value : Bytes) :
    ∃ value', trimCopy (key ++ 58 :: value) = key ++ 58 :: value' ∧
      trimCopy value' = trimCopy value := by
  obtain ⟨blank, hblank, hvalue⟩ : ∃ blank, (∀ c ∈ blank, isSpace c = true) ∧
      value.rdropWhile isSpace ++ blank = value := by
    refine ⟨(value.reverse.takeWhile isSpace).reverse, fun c hc => ?_, ?_⟩
    · exact List.mem_takeWhile_imp (List.mem_reverse.1 hc)
    · rw [List.rdropWhile, ← List.reverse_append, List.takeWhile_append_dropWhile,
        List.reverse_reverse]
  refine ⟨value.rdropWhile isSpace, ?_, ?_⟩
  · conv_lhs => rw [← hvalue]
    rw [← List.cons_append, ← List.append_assoc, trimCopy_append_blank hblank]
    refine trimCopy_eq_self (fun c hc => ?_) fun c hc => ?_
    · rw [List.head?_append_of_ne_nil _ hne] at hc
      exact (isSpace_of_trimCopy_eq_self hk).1 c hc
    · -- the colon, or the last byte that is kept of the value
      rw [List.getLast?_append, List.getLast?_cons] at hc
      rcases hlast : (value.rdropWhile isSpace).getLast? with _ | d
      · rw [hlast] at hc
        cases hc
        rfl
      · rw [hlast] at hc
        cases hc
        obtain ⟨front, hfront⟩ := List.getLast?_eq_some_iff.1 hlast
        have hkept := List.rdropWhile_last_not isSpace value (by rw [hfront]; simp)
        simpa [hfront] using hkept
  · conv_rhs => rw [← hvalue, trimCopy_append_blank hblank]

/-- The header fields of a part header. -/
def headerItems (f : FormData.Field) : List (Bytes × Bytes) :=
  (bytes "Content-Disposition", dispositionText f) ::
    if f.contentType ≠ [] then [(bytes "Content-Type", f.contentType)] else []

/-- What can be said of the fields of a form so that their headers are read back: the quoted
parameters hold no quote, backslash or line break, and the content type is a header value. -/
structure HeaderClean (f : FormData.Field) : Prop where
  name : ∀ c ∈ f.name, IsQuotable c
  filename : ∀ c ∈ f.filename, IsQuotable c
  contentType : IsHeaderValue f.contentType

/-- A text without CR has no line break. -/
theorem not_infix_of_not_mem {s : Bytes} (h : (13 : UInt8) ∉ s) : ¬ bytes "\r\n" <:+: s :=
  fun hin => h (hin.subset List.mem_cons_self)

theorem HeaderClean.oneLine (hf : HeaderClean f) : OneLine f where
  name := not_infix_of_not_mem fun h => (hf.name 13 h).2.2.1 rfl
  filename := not_infix_of_not_mem fun h => (hf.filename 13 h).2.2.1 rfl
  contentType := not_infix_of_not_mem fun h => (hf.contentType.line 13 h).1 rfl

/-- What stands behind the value of the name. -/
theorem dispositionText_eq (f : FormData.Field) :
    dispositionText f = bytes "form-data; name=\"" ++ (f.name ++ 34 :: filenameParam f) := by
  rw [dispositionText, dispositionParams_eq]
  rfl

/-- The disposition text ends with the quote of its last parameter. -/
theorem dispositionText_getLast? (f : FormData.Field) :
    (dispositionText f).getLast? = some 34 := by
  have hlast : (34 :: filenameParam f).getLast? = some 34 := by
    rw [filenameParam]
    split
    · rw [List.getLast?_cons, List.getLast?_append]
      rfl
    · rfl
  rw [dispositionText_eq, List.getLast?_append, List.getLast?_append, hlast]
  rfl

/-- A text without line break between quotes makes none. -/
theorem not_infix_quoted {pre s post : Bytes} (hpre : ¬ bytes "\r\n" <:+: pre)
    (hlast : pre.getLast? ≠ some 13) (hs : ¬ bytes "\r\n" <:+: s) (hpost : ¬ bytes "\r\n" <:+: post)
    (hhead : post.head? = some 34) : ¬ bytes "\r\n" <:+: pre ++ (s ++ post) := by
  refine Search.not_infix_append hpre (Search.not_infix_append hs hpost (.inr ?_)) (.inl hlast)
  rw [hhead]
  decide

/-- The lines of a part header have no line break. -/
theorem not_infix_headerText (hf : OneLine f) : ∀ l ∈ headerText f, ¬ bytes "\r\n" <:+: l := by
  have hparam : ¬ bytes "\r\n" <:+: 34 :: filenameParam f := by
    rw [filenameParam]
    split
    · rw [List.append_assoc]
      show ¬ _ <:+: (34 :: bytes "; filename=\"") ++ (f.filename ++ bytes "\"")
      exact not_infix_quoted (not_infix_of_not_mem (by decide)) (by decide) hf.filename (by decide) rfl
    · decide
  intro l hl
  rcases List.mem_cons.1 hl with rfl | hl
  · rw [dispositionText_eq]
    refine Search.not_infix_append (not_infix_of_not_mem (by decide)) ?_ (.inl (by decide))
    exact not_infix_quoted (not_infix_of_not_mem (by decide)) (by decide) hf.name hparam rfl
  · split at hl
    · cases List.mem_singleton.1 hl
      exact Search.not_infix_append (by decide) hf.contentType (.inl (by decide))
    · cases hl

/-- The first line of a part header neither begins nor ends with white space. -/
theorem trimCopy_dispositionLine (f : FormData.Field) :
    trimCopy (bytes "Content-Disposition: " ++ dispositionText f) =
      bytes "Content-Disposition: " ++ dispositionText f := by
  refine trimCopy_eq_self (by simp [bytes, isSpace]) ?_
  rw [List.getLast?_append, dispositionText_getLast?]
  simp [isSpace]

/-- The lines of a part header are split at their colons. -/
theorem headerLines_headerText (f : FormData.Field) :
    headerLines ((headerText f).map trimCopy ++ [[]]) =
      .ok ((headerItems f).map fun item => (item.1, trimCopy item.2)) := by
  have hcolon₁ : (58 : UInt8) ∉ bytes "Content-Disposition" := by decide
  have hcolon₂ : (58 : UInt8) ∉ bytes "Content-Type" := by decide
  have hkey₁ : trimCopy (bytes "Content-Disposition") = bytes "Content-Disposition" := by decide
  have hkey₂ : trimCopy (bytes "Content-Type") = bytes "Content-Type" := by decide
  have hline₁ : bytes "Content-Disposition: " ++ dispositionText f =
      bytes "Content-Disposition" ++ 58 :: 32 :: dispositionText f := by
    rw [show bytes "Content-Disposition: " = bytes "Content-Disposition" ++ [58, 32] by decide +kernel,
      List.append_assoc, List.cons_append, List.singleton_append]
  have hline₂ : bytes "Content-Type: " ++ f.contentType =
      bytes "Content-Type" ++ 58 :: 32 :: f.contentType := by
    rw [show bytes "Content-Type: " = bytes "Content-Type" ++ [58, 32] by decide +kernel,
      List.append_assoc, List.cons_append, List.singleton_append]
  have hfirst : ∀ {ls : List Bytes} {items : List (Bytes × Bytes)}, headerLines ls = .ok items →
      headerLines (trimCopy (bytes "Content-Disposition: " ++ dispositionText f) :: ls) =
        .ok ((bytes "Content-Disposition", trimCopy (dispositionText f)) :: items) := by
    intro ls items hls
    have hcons := headerLines_cons hcolon₁ (32 :: dispositionText f) hls
    rw [hkey₁, trimCopy_cons (by decide), ← hline₁] at hcons
    rwa [trimCopy_dispositionLine]
  have hend : headerLines [[]] = .ok [] := rfl
  rw [headerText, headerItems]
  split
  · obtain ⟨value, hline, hvalue⟩ := trimCopy_line hkey₂ (by decide) (32 :: f.contentType)
    have hsecond := headerLines_cons hcolon₂ value hend
    rw [hkey₂, hvalue, trimCopy_cons (by decide), ← hline, ← hline₂] at hsecond
    rw [List.map_cons, List.map_singleton, List.map_cons, List.map_singleton]
    exact hfirst hsecond
  · rw [List.map_singleton, List.map_singleton]
    exact hfirst hend

/-- What is read back of a field's header. -/
def readBack (f : FormData.Field) : FormData.Field :=
  { assignDisposition {} (parseContentDisposition (dispositionParams f)) with
    contentType := trimCopy f.contentType }

theorem assignDisposition_contentType (g : FormData.Field) (pairs : List (Bytes × Bytes)) :
    (assignDisposition g pairs).contentType = g.contentType := by
  induction pairs generalizing g with
  | nil => rfl
  | cons pair pairs ih =>
    rw [assignDisposition]
    split
    · exact ih _
    · split <;> exact ih _

/-- A form-data disposition is cut at its first semicolon and its parameters assigned; a content
type is kept as it is. -/
theorem readHeader_headerItems (f : FormData.Field) :
    readHeader {} ((headerItems f).map fun item => (item.1, trimCopy item.2)) =
      .ok (readBack f) := by
  have htext : trimCopy (dispositionText f) = bytes "form-data" ++ 59 :: dispositionParams f := by
    have hhead : (dispositionText f).head? = some 102 := rfl
    rw [trimCopy_eq_self]
    · rfl
    · rw [hhead]
      simp [isSpace]
    · rw [dispositionText_getLast?]
      simp [isSpace]
  have hfind : Search.leftmost (bytes ";") (bytes "form-data" ++ 59 :: dispositionParams f) =
      some (bytes "form-data").length := Search.leftmost_singleton_append (by decide)
  have hdrop : (bytes "form-data" ++ 59 :: dispositionParams f).drop ((bytes "form-data").length + 1) =
      dispositionParams f := by
    rw [← List.drop_drop, List.drop_left]
    rfl
  rw [headerItems, List.map_cons, readHeader, if_pos rfl, find_zero, htext, hfind]
  simp only [List.take_left, hdrop]
  rw [if_neg (by decide), readBack]
  split
  · have hkey : bytes "Content-Type" ≠ bytes "Content-Disposition" := by decide
    rw [List.map_singleton, readHeader, if_neg hkey, if_pos rfl, readHeader]
  · next hct =>
    rw [not_not] at hct
    rw [List.map_nil, readHeader, hct, trimCopy_nil]
    have htype := assignDisposition_contentType {} (parseContentDisposition (dispositionParams f))
    generalize assignDisposition {} (parseContentDisposition (dispositionParams f)) = g at htype ⊢
    obtain ⟨name, filename, contentType, content⟩ := g
    cases htype
    rfl

/-- A clean header is read back as it was written. -/
theorem readBack_of_clean (hf : HeaderClean f) : readBack f = { f with content := [] } := by
  have hassign : assignDisposition {} (parseContentDisposition (dispositionParams f)) =
      { name := f.name, filename := f.filename } := by
    rw [parseContentDisposition_params (isQuotedText_of_isQuotable hf.name)
      (isQuotedText_of_isQuotable hf.filename)]
    rcases eq_or_ne f.filename [] with hfn | hfn <;> simp [assignDisposition, hfn, bytes]
  rw [readBack, hassign, trimCopy_eq_self hf.contentType.head hf.contentType.last]

/-! ## The block as a whole -/

/-- **A part header is read back**, with the content of the field still to come. -/
theorem parseHeader_partHeader (hf : OneLine f) : parseHeader (partHeader f) = .ok (readBack f) := by
  have hne : partHeader f ≠ [] := by simp [partHeader_eq, bytes]
  have hnp : ¬ bytes "\r\n" <+: partHeader f := by simp [partHeader, bytes]
  have hlen : (headerText f).length < (partHeader f).length + 1 := by
    simp only [headerText, partHeader_eq, List.length_cons, List.length_append]
    split <;> simp [bytes]
  have hsplit : split (partHeader f) (bytes "\r\n") = (headerText f).map trimCopy ++ [[]] := by
    rw [split_eq hne (by decide), if_neg hnp]
    have hpieces := pieces_lines _ (not_infix_headerText hf) hlen
    rwa [← partHeader_eq] at hpieces
  rw [parseHeader, splitHeaderFieldValue, hsplit, headerLines_headerText]
  exact readHeader_headerItems f

/-- The first blank line of a part header is the one that ends it. -/
theorem leftmost_partHeader (hf : OneLine f) :
    ∃ n, (partHeader f).length = n + 4 ∧
      Search.leftmost (bytes "\r\n\r\n") (partHeader f) = some n := by
  have hlf : (13 : UInt8) ∉ ([10] : Bytes) := by decide
  have hlines := not_infix_headerText hf
  rw [partHeader_eq]
  rw [headerText] at hlines ⊢
  split at hlines
  · next hct =>
    rw [if_pos hct]
    have hfirst := hlines _ List.mem_cons_self
    have hsecond := hlines _ (List.mem_cons_of_mem _ List.mem_cons_self)
    -- between the two lines there is one line break, and the next line follows it
    have hblank := Search.leftmost_twice_of_not_prefix hlf hfirst hsecond (by simp [bytes])
    refine ⟨_, ?_, (congrArg (Search.leftmost _) ?_).trans hblank⟩
    · simp [bytes]
      omega
    · simp [bytes]
  · next hct =>
    rw [if_neg hct]
    have hblank := Search.leftmost_twice hlf (hlines _ List.mem_cons_self)
    refine ⟨_, ?_, (congrArg (Search.leftmost _) ?_).trans hblank⟩
    · simp [bytes]
    · simp [bytes]

end FormDataWriter

/-- A complete part header: its only blank line is at its end, and it is accepted. -/
structure IsHeaderBlock (block : Bytes) (field : FormData.Field) : Prop where
  blank : ∃ n, block.length = n + 4 ∧ Search.leftmost (bytes "\r\n\r\n") block = some n
  accepted : parseHeader block = .ok field

/-- The header the writer puts before a field is a complete part header. -/
theorem FormDataWriter.isHeaderBlock_readBack {f : FormData.Field} (hf : OneLine f) :
    IsHeaderBlock (partHeader f) (readBack f) where
  blank := leftmost_partHeader hf
  accepted := parseHeader_partHeader hf

/-- That of a clean field is read back as it was written. -/
theorem FormDataWriter.isHeaderBlock {f : FormData.Field} (hf : HeaderClean f) :
    IsHeaderBlock (partHeader f) { f with content := [] } :=
  readBack_of_clean hf ▸ isHeaderBlock_readBack hf.oneLine

end Httplib
