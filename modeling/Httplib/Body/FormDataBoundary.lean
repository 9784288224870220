import Httplib.Body.AnyBody
import Httplib.Html.ParameterGrammar

/-!
# The boundary in the Content-Type

`form_data_body::reader::init` (`lib/body/form_data_body.cpp:159`) cuts the header at every `;` and each
piece at every `=`. `boundary_extraction_iff` compares what it comes to with the parameter `boundary` of
the grammar.
-/

namespace Httplib

/-! ## The scan of the source -/

/-- What a piece of the header gives for a boundary: it begins with `boundary`, and holds one `=` with
something behind it, or a second one at its end. -/
def boundaryOf (piece : Bytes) : Option Bytes :=
  if startsWith (trimCopy piece) (bytes "boundary") then
    match (trimCopy piece).splitOn 61 with
    | [_, v] => if v = [] then none else some (trimCopy v)
    | [_, v, []] => some (trimCopy v)
    | _ => none
  else none

/-- The boundary a piece spells depends on the trimmed piece alone. -/
theorem boundaryOf_congr {p q : Bytes} (h : trimCopy p = trimCopy q) : boundaryOf p = boundaryOf q := by
  rw [boundaryOf, boundaryOf, h]

/-- Blanks around a piece do not change the boundary it spells. -/
@[simp] theorem boundaryOf_trimCopy (piece : Bytes) : boundaryOf (trimCopy piece) = boundaryOf piece :=
  boundaryOf_congr (trimCopy_trimCopy piece)

/-- The two pieces that the loop body asks for, of which a last empty one is dropped. -/
theorem pair_dropLastEmpty (boundary : Bytes) (ps : List Bytes) :
    (match (dropLastEmpty ps).map trimCopy with
      | [_, value] => trimCopy value
      | _ => boundary) =
      (match ps with
        | [_, v] => if v = [] then none else some (trimCopy v)
        | [_, v, []] => some (trimCopy v)
        | _ => none).getD boundary := by
  match ps with
  | [] => rfl
  | [x] => rfl
  | [x, v] =>
    rcases v with _ | ⟨c, v⟩
    · rfl
    · exact trimCopy_trimCopy _
  | [x, v, []] => exact trimCopy_trimCopy _
  | [x, v, c :: w] => rfl
  | x :: v :: w :: y :: l =>
    have hthird : ∃ rest, dropLastEmpty (w :: y :: l) = w :: rest := by
      by_cases hnil : y :: l = [[]]
      · rw [hnil]
        exact ⟨[], rfl⟩
      · exact ⟨_, dropLastEmpty_cons hnil⟩
    obtain ⟨rest, hrest⟩ := hthird
    rw [dropLastEmpty_cons (by simp), dropLastEmpty_cons (by simp), hrest]
    cases w <;> rfl

/-- What the loop body does with a piece. -/
theorem boundaryOf_eq (boundary piece : Bytes) :
    (if ¬ startsWith (trimCopy piece) (bytes "boundary") then boundary
      else match split (trimCopy piece) (bytes "=") with
        | [_, value] => trimCopy value
        | _ => boundary) = (boundaryOf piece).getD boundary := by
  rw [boundaryOf]
  cases hstart : startsWith (trimCopy piece) (bytes "boundary") with
  | false => rfl
  | true =>
    obtain ⟨rest, hrest⟩ := startsWith_iff.1 hstart
    have hne : trimCopy piece ≠ [] := by
      rw [← hrest]
      exact List.cons_ne_nil _ _
    have hstrip : stripLeading 61 (trimCopy piece) = trimCopy piece := by
      rw [← hrest]
      rfl
    rw [show bytes "=" = [61] from rfl, split_singleton hne, hstrip]
    exact pair_dropLastEmpty boundary _

/-- The last of what is found wins. -/
theorem foldl_getD {α β : Type} (f : α → Option β) (l : List α) (b : β) :
    l.foldl (fun b x => (f x).getD b) b = (l.filterMap f).getLast?.getD b := by
  induction l generalizing b with
  | nil => rfl
  | cons x l ih =>
    rw [List.foldl_cons, ih, List.filterMap_cons]
    rcases f x with _ | y
    · rfl
    · rw [List.getLast?_cons]
      rfl

/-- All that the pieces of a text give for a boundary. -/
def boundariesIn (text : Bytes) : List Bytes := (text.splitOn 59).filterMap boundaryOf

/-- `init` takes the last of them. -/
theorem FormDataReader.init_eq (contentType : Bytes) :
    init contentType =
      if (boundariesIn contentType).getLast?.getD [] = [] then .error .badField
      else .ok { boundary := (boundariesIn contentType).getLast?.getD [] } := by
  have hloop : (split contentType (bytes ";")).foldl (fun boundary part =>
      if ¬ startsWith (trimCopy part) (bytes "boundary") then boundary
      else match split (trimCopy part) (bytes "=") with
        | [_, value] => trimCopy value
        | _ => boundary) [] = (boundariesIn contentType).getLast?.getD [] := by
    simp only [boundaryOf_eq]
    rw [foldl_getD, show bytes ";" = [59] from rfl, filterMap_split rfl]
    simp only [boundaryOf_trimCopy]
    rfl
  exact congrArg (fun boundary : Bytes =>
    if boundary = [] then Except.error HttpError.badField
    else .ok ({ boundary } : FormDataReader)) hloop

/-- A text without a semicolon is one piece. -/
theorem boundariesIn_of_not_mem {piece : Bytes} (h : 59 ∉ piece) :
    boundariesIn piece = (boundaryOf piece).toList := by
  rw [boundariesIn, List.splitOn_eq_singleton h]
  cases hpiece : boundaryOf piece <;> simp [hpiece]

/-- At a semicolon the scan falls apart into the scans of the two sides. -/
theorem boundariesIn_append (text rest : Bytes) :
    boundariesIn (text ++ 59 :: rest) = boundariesIn text ++ boundariesIn rest := by
  rw [boundariesIn, List.splitOn_append_cons_self, List.filterMap_append]
  rfl

/-- Blanks behind a text do not change the boundaries in it. -/
theorem boundariesIn_append_blank (text : Bytes) (b : Blank) :
    boundariesIn (text ++ b.text) = boundariesIn text := by
  have hmap : ∀ l : List Bytes, l.filterMap boundaryOf = (l.map trimCopy).filterMap boundaryOf := by
    intro l
    rw [List.filterMap_map]
    exact List.filterMap_congr fun piece _ => (boundaryOf_trimCopy piece).symm
  rw [boundariesIn, hmap, map_trimCopy_splitOn_append (by decide) fun c hc => b.isSpace_of_mem hc,
    ← hmap]
  rfl

/-- Nor do blanks in front of it. -/
theorem boundariesIn_blank_append (b : Blank) (text : Bytes) :
    boundariesIn (b.text ++ text) = boundariesIn text := by
  have hfirst : ∀ piece, 59 ∉ piece → boundariesIn (b.text ++ piece) = boundariesIn piece := by
    intro piece hpiece
    have hmem : 59 ∉ b.text ++ piece := by
      rw [List.mem_append, not_or]
      exact ⟨b.not_mem, hpiece⟩
    rw [boundariesIn_of_not_mem hmem, boundariesIn_of_not_mem hpiece,
      boundaryOf_congr (trimCopy_blank_append fun c hc => b.isSpace_of_mem hc)]
  by_cases hmem : 59 ∈ text
  · obtain ⟨piece, rest, rfl, hpiece⟩ := List.eq_append_cons_of_mem hmem
    rw [← List.append_assoc, boundariesIn_append, boundariesIn_append, hfirst piece hpiece]
  · exact hfirst text hmem

/-! ## The parameters -/

/-- What a parameter gives for a boundary: its value if that is a token and the name begins with
`boundary`; else what the pieces of its text give. -/
def Parameter.boundaries (p : Parameter) : List Bytes :=
  match p.value with
  | .token t => if startsWith p.name.text (bytes "boundary") then [t.text] else []
  | .quoted _ => boundariesIn p.pair

/-- Whether a piece starts with the word `boundary` is decided in front of its equals sign. -/
theorem startsWith_boundary_eq (name rest : Bytes) :
    startsWith (name ++ 61 :: rest) (bytes "boundary") = startsWith name (bytes "boundary") := by
  rw [Bool.eq_iff_iff, startsWith_iff, startsWith_iff]
  refine ⟨fun h => ?_, fun h => h.trans (List.prefix_append _ _)⟩
  have hname : name ++ [61] <+: name ++ 61 :: rest := ⟨rest, by simp⟩
  rcases Nat.lt_or_ge name.length (bytes "boundary").length with hlt | hge
  · -- the sign would stand in `boundary`
    have hpre := List.prefix_of_prefix_length_le hname h (by simpa using Nat.succ_le_of_lt hlt)
    exact absurd (hpre.subset (List.mem_append_right _ List.mem_cons_self)) (by decide)
  · exact List.prefix_of_prefix_length_le h (List.prefix_append _ _) hge

/-- A parameter with a token value spells that value when its name starts with the word, and nothing
otherwise. -/
theorem boundaryOf_token (name t : Token) :
    boundaryOf (name.text ++ 61 :: t.text) =
      if startsWith name.text (bytes "boundary") then some t.text else none := by
  have htrim : trimCopy (name.text ++ 61 :: t.text) = name.text ++ 61 :: t.text := by
    have hspace : ∀ c ∈ name.text ++ 61 :: t.text, isSpace c = false := by
      intro c hc
      rcases List.mem_append.1 hc with hc | hc
      · exact name.isSpace_of_mem hc
      · rcases List.mem_cons.1 hc with rfl | hc
        · rfl
        · exact t.isSpace_of_mem hc
    exact trimCopy_eq_self (fun c hc => hspace c (List.mem_of_mem_head? hc))
      fun c hc => hspace c (List.mem_of_mem_getLast? hc)
  rw [boundaryOf, htrim, startsWith_boundary_eq, List.splitOn_append_cons_self,
    List.splitOn_eq_singleton (name.not_mem),
    List.splitOn_eq_singleton (t.not_mem)]
  show (if _ then (if t.text = [] then none else some (trimCopy t.text)) else none) = _
  rw [if_neg t.ne_nil, t.trimCopy_text]

/-- The boundaries the scan finds in one written parameter are those of `Parameter.boundaries`. -/
theorem Parameter.boundariesIn_pair (p : Parameter) : boundariesIn p.pair = p.boundaries := by
  obtain ⟨before, after, name, t | chars⟩ := p
  · have hmem : 59 ∉ name.text ++ 61 :: t.text := by
      rw [List.mem_append, List.mem_cons, not_or, not_or]
      exact ⟨name.not_mem, by decide, t.not_mem⟩
    show boundariesIn (name.text ++ 61 :: t.text) = _
    rw [boundariesIn_of_not_mem hmem, boundaryOf_token, boundaries]
    dsimp only
    split <;> rfl
  · rfl

/-- The value of a `Content-Type` for a form. -/
def multipartText (params : List Parameter) : Bytes :=
  bytes "multipart/form-data" ++ params.flatMap Parameter.text

/-- Over the whole header value the scan finds the boundaries of the parameters one after another. -/
theorem boundariesIn_multipartText (params : List Parameter) :
    boundariesIn (multipartText params) = params.flatMap Parameter.boundaries := by
  have hparams : ∀ front : Bytes, boundariesIn (front ++ params.flatMap Parameter.text) =
      boundariesIn front ++ params.flatMap Parameter.boundaries := by
    induction params with
    | nil => simp
    | cons p params ih =>
      intro front
      have htext : front ++ (p :: params).flatMap Parameter.text =
          (front ++ p.before.text) ++ 59 :: (p.after.text ++ p.pair ++ params.flatMap Parameter.text) := by
        simp [Parameter.text]
      rw [htext, boundariesIn_append, boundariesIn_append_blank, ih, boundariesIn_blank_append,
        Parameter.boundariesIn_pair, List.flatMap_cons]
  exact hparams _

/-- A character of a boundary. -/
def isBoundaryChar (c : UInt8) : Bool :=
  (48 ≤ c && c ≤ 57) || (65 ≤ c && c ≤ 90) || (97 ≤ c && c ≤ 122) ||
    (bytes "'()+_,-./:=? ").contains c

/-- A boundary: at most seventy characters, at least one, and no space at the end. -/
structure IsBoundary (boundary : Bytes) : Prop where
  ne_nil : boundary ≠ []
  length_le : boundary.length ≤ 70
  chars : ∀ c ∈ boundary, isBoundaryChar c = true
  last : boundary.getLast? ≠ some 32

/-- The unquoted value of the parameter `boundary`. -/
def boundaryParameter (params : List Parameter) : Option Bytes :=
  (params.find? (Parameter.named (bytes "boundary"))).map (·.value.value)

/-- There is at most one parameter `boundary`, and its value is a boundary. -/
structure ValidMultipart (params : List Parameter) : Prop where
  unique : (params.filter (Parameter.named (bytes "boundary"))).length ≤ 1
  boundary : ∀ v ∈ boundaryParameter params, IsBoundary v

/-- What `init` should come to. -/
def expectedReader (params : List Parameter) : Except HttpError FormDataReader :=
  match boundaryParameter params with
  | some boundary => .ok { boundary }
  | none => .error .badField

/-! ## Which boundaries are extracted -/

/-- The text spells a boundary: a name that begins with `boundary`, one `=`, and a value; a second `=` may
stand at the end, and without it the value is not empty. -/
def Spells (piece v : Bytes) : Prop :=
  ∃ name value, bytes "boundary" <+: name ∧ 61 ∉ name ∧ 61 ∉ value ∧ v = trimCopy value ∧
    (trimCopy piece = name ++ 61 :: value ∧ value ≠ [] ∨ trimCopy piece = name ++ 61 :: (value ++ [61]))

/-- A piece gives the value `v` exactly when it spells `boundary=v`. -/
theorem boundaryOf_eq_some_iff {piece v : Bytes} : boundaryOf piece = some v ↔ Spells piece v := by
  constructor
  · intro h
    rw [boundaryOf] at h
    split at h
    · next hstart =>
      have htext : [61].intercalate ((trimCopy piece).splitOn 61) = trimCopy piece :=
        List.intercalate_splitOn 61
      split at h
      · next name value hsplit =>
        obtain ⟨hne, heq⟩ := Option.ite_none_left_eq_some.1 h
        have hname : (61 : UInt8) ∉ name := not_mem_of_mem_splitOn (hsplit ▸ List.mem_cons_self)
        have hvalue : (61 : UInt8) ∉ value :=
          not_mem_of_mem_splitOn (hsplit ▸ List.mem_cons_of_mem _ List.mem_cons_self)
        rw [hsplit] at htext
        replace htext : name ++ 61 :: value = trimCopy piece := by simpa [List.intercalate] using htext
        rw [← htext, startsWith_boundary_eq, startsWith_iff] at hstart
        exact ⟨name, value, hstart, hname, hvalue, (Option.some.inj heq).symm, .inl ⟨htext.symm, hne⟩⟩
      · next name value hsplit =>
        have hname : (61 : UInt8) ∉ name := not_mem_of_mem_splitOn (hsplit ▸ List.mem_cons_self)
        have hvalue : (61 : UInt8) ∉ value :=
          not_mem_of_mem_splitOn (hsplit ▸ List.mem_cons_of_mem _ List.mem_cons_self)
        rw [hsplit] at htext
        replace htext : name ++ 61 :: (value ++ [61]) = trimCopy piece := by
          simpa [List.intercalate] using htext
        rw [← htext, startsWith_boundary_eq, startsWith_iff] at hstart
        exact ⟨name, value, hstart, hname, hvalue, (Option.some.inj h).symm, .inr htext.symm⟩
      · cases h
    · cases h
  · rintro ⟨name, value, hstart, hname, hvalue, rfl, ⟨htext, hne⟩ | htext⟩
    · rw [boundaryOf, htext, startsWith_boundary_eq, if_pos (startsWith_iff.2 hstart),
        List.splitOn_append_cons_self_of_not_mem hname, List.splitOn_eq_singleton hvalue]
      exact if_neg hne
    · rw [boundaryOf, htext, startsWith_boundary_eq, if_pos (startsWith_iff.2 hstart),
        List.splitOn_append_cons_self_of_not_mem hname, List.splitOn_append_cons_self_of_not_mem hvalue]
      rfl

/-- A piece gives nothing exactly when it spells no boundary at all. -/
theorem boundaryOf_eq_none_iff {piece : Bytes} : boundaryOf piece = none ↔ ∀ v, ¬ Spells piece v := by
  simp only [← boundaryOf_eq_some_iff, Option.eq_none_iff_forall_ne_some, ne_eq]

/-- What is found from behind. -/
theorem findSome?_reverse_eq_some_iff {α β : Type} {f : α → Option β} {l : List α} {b : β} :
    l.reverse.findSome? f = some b ↔
      ∃ front a behind, l = front ++ a :: behind ∧ f a = some b ∧ ∀ x ∈ behind, f x = none := by
  rw [List.findSome?_eq_some_iff]
  constructor
  · rintro ⟨behind, a, front, hl, ha, hbehind⟩
    refine ⟨front.reverse, a, behind.reverse, ?_, ha, fun x hx => hbehind x (List.mem_reverse.1 hx)⟩
    rw [← List.reverse_reverse l, hl]
    simp
  · rintro ⟨front, a, behind, rfl, ha, hbehind⟩
    refine ⟨behind.reverse, a, front.reverse, ?_, ha, fun x hx => hbehind x (List.mem_reverse.1 hx)⟩
    simp

/-- What a parameter is taken for where it is read as a boundary: its value, if it is a token under a name
that begins with `boundary`; and if it is a quoted string, the last piece between semicolons, in or outside
the quotes, that spells a boundary. -/
def Parameter.Gives (p : Parameter) (v : Bytes) : Prop :=
  match p.value with
  | .token t => bytes "boundary" <+: p.name.text ∧ v = t.text
  | .quoted _ => ∃ front piece behind, p.pair.splitOn 59 = front ++ piece :: behind ∧ Spells piece v ∧
      ∀ later ∈ behind, ∀ w, ¬ Spells later w

/-- `Gives` is the last boundary found in the parameter. -/
theorem Parameter.gives_iff {p : Parameter} {v : Bytes} :
    p.Gives v ↔ p.boundaries.getLast? = some v := by
  unfold Gives boundaries
  split
  · rw [← startsWith_iff]
    split
    · next hstart => simp [hstart, eq_comm]
    · next hstart => simp [hstart]
  · rw [boundariesIn, List.getLast?_filterMap, findSome?_reverse_eq_some_iff]
    simp only [boundaryOf_eq_some_iff, boundaryOf_eq_none_iff]

/-- The parameter is not taken for a boundary: a token stands under a name that does not begin with
`boundary`, and of a quoted string no piece between semicolons spells one. -/
def Parameter.Harmless (p : Parameter) : Prop :=
  match p.value with
  | .token _ => ¬ bytes "boundary" <+: p.name.text
  | .quoted _ => ∀ piece ∈ p.pair.splitOn 59, ∀ v, ¬ Spells piece v

/-- `Harmless` is that no boundary is found in the parameter. -/
theorem Parameter.harmless_iff {p : Parameter} : p.Harmless ↔ p.boundaries.getLast? = none := by
  unfold Harmless boundaries
  split
  · rw [← startsWith_iff]
    split
    · next hstart => simp [hstart]
    · next hstart => simp [hstart]
  · rw [boundariesIn, List.getLast?_filterMap, List.findSome?_eq_none_iff]
    simp only [List.mem_reverse, boundaryOf_eq_none_iff]

/-- The last boundary that the scan finds. -/
theorem getLast?_boundaries_eq_some_iff {params : List Parameter} {v : Bytes} :
    (params.flatMap Parameter.boundaries).getLast? = some v ↔
      ∃ front p behind, params = front ++ p :: behind ∧ p.Gives v ∧
        ∀ later ∈ behind, later.Harmless := by
  rw [List.getLast?_flatMap, findSome?_reverse_eq_some_iff]
  simp only [Parameter.gives_iff, Parameter.harmless_iff]

/-- No boundary is found in a list of parameters exactly when each of them is harmless. -/
theorem getLast?_boundaries_eq_none_iff {params : List Parameter} :
    (params.flatMap Parameter.boundaries).getLast? = none ↔ ∀ p ∈ params, p.Harmless := by
  rw [List.getLast?_flatMap, List.findSome?_eq_none_iff]
  simp only [List.mem_reverse, Parameter.harmless_iff]

/-- The parameter `boundary` is written in lower case and as a token, and no parameter behind it is taken for
a boundary; where there is no parameter `boundary`, none is. -/
def PlainBoundary (params : List Parameter) : Prop :=
  match boundaryParameter params with
  | some _ => ∃ front p behind t, params = front ++ p :: behind ∧ p.name.text = bytes "boundary" ∧
      p.value = .token t ∧ ∀ later ∈ behind, later.Harmless
  | none => ∀ p ∈ params, p.Harmless

/-- The last parameter that is taken for a boundary is another one, and it happens to spell what the
parameter `boundary` says, or nothing where there is none. -/
def SpeltTwice (params : List Parameter) : Prop :=
  ∃ front p behind, params = front ++ p :: behind ∧ p.named (bytes "boundary") = false ∧
    p.Gives ((boundaryParameter params).getD []) ∧ ∀ later ∈ behind, later.Harmless

/-- What `init` comes to, by the last boundary that the scan finds. -/
theorem init_eq_expectedReader_iff {params : List Parameter} (hvalid : ValidMultipart params) :
    FormDataReader.init (multipartText params) = expectedReader params ↔
      (params.flatMap Parameter.boundaries).getLast?.getD [] =
        (boundaryParameter params).getD [] := by
  rw [FormDataReader.init_eq, boundariesIn_multipartText, expectedReader]
  generalize (params.flatMap Parameter.boundaries).getLast?.getD [] = found
  have hboundary := hvalid.boundary
  revert hboundary
  rcases boundaryParameter params with _ | v <;> intro hboundary
  · by_cases hfound : found = [] <;> simp [hfound]
  · have hne : v ≠ [] := (hboundary v rfl).ne_nil
    show _ = Except.ok _ ↔ found = v
    by_cases hfound : found = []
    · rw [if_pos hfound, hfound]
      exact iff_of_false nofun hne.symm
    · rw [if_neg hfound]
      simp

/-- There is one parameter `boundary`. -/
theorem ValidMultipart.boundaryParameter_eq {params : List Parameter} (hvalid : ValidMultipart params)
    {p : Parameter} (hp : p ∈ params) (hnamed : p.named (bytes "boundary") = true) :
    boundaryParameter params = some p.value.value := by
  have hmem : p ∈ params.filter (Parameter.named (bytes "boundary")) := List.mem_filter.2 ⟨hp, hnamed⟩
  have hfilter : params.filter (Parameter.named (bytes "boundary")) = [p] := by
    have hunique := hvalid.unique
    generalize params.filter (Parameter.named (bytes "boundary")) = l at hmem hunique
    match l, hmem, hunique with
    | [q], hmem, _ => rw [List.mem_singleton.1 hmem]
  rw [boundaryParameter, ← List.head?_filter, hfilter]
  rfl

/-- A name in lower case that begins with `boundary` and is that of the parameter. -/
theorem Parameter.name_eq {p : Parameter} (hnamed : p.named (bytes "boundary") = true)
    (hstart : bytes "boundary" <+: p.name.text) : p.name.text = bytes "boundary" := by
  have hlength := congrArg List.length (of_decide_eq_true hnamed)
  rw [List.length_map, List.length_map] at hlength
  exact (hstart.eq_of_length hlength.symm).symm

/-- A parameter with a boundary in quotes is one piece: no semicolon stands in it. -/
theorem Parameter.semicolon_not_mem_pair {p : Parameter} {chars : List QuotedChar}
    (hvalue : p.value = .quoted chars) (hboundary : IsBoundary p.value.value) :
    (59 : UInt8) ∉ p.pair := by
  have hchars : ∀ c ∈ chars, isBoundaryChar c.char = true := by
    intro c hc
    refine hboundary.chars _ ?_
    rw [hvalue]
    exact List.mem_map_of_mem hc
  rw [pair, hvalue, ParameterValue.text, List.mem_append, not_or]
  refine ⟨p.name.not_mem, ?_⟩
  simp only [List.mem_cons, List.mem_append, List.mem_flatMap, List.not_mem_nil, or_false, not_or]
  refine ⟨by decide, by decide, ?_, by decide⟩
  rintro ⟨c, hc, hmem⟩
  have hchar := hchars c hc
  have h59 : (59 : UInt8) ≠ c.char := by
    rintro heq
    rw [← heq] at hchar
    cases hchar
  cases c with
  | plain c => exact h59 (List.mem_singleton.1 hmem)
  | escaped c =>
    rcases List.mem_cons.1 hmem with h92 | hmem
    · cases h92
    · exact h59 (List.mem_singleton.1 hmem)

/-- There is nothing to trim from a parameter that ends in a quote. -/
theorem Parameter.trimCopy_pair {p : Parameter} {chars : List QuotedChar}
    (hvalue : p.value = .quoted chars) : trimCopy p.pair = p.pair := by
  obtain ⟨c, name, hname⟩ := List.exists_cons_of_ne_nil p.name.ne_nil
  refine trimCopy_eq_self (fun d hd => ?_) fun d hd => ?_
  · rw [pair, hname] at hd
    cases hd
    exact p.name.isSpace_of_mem (hname ▸ List.mem_cons_self)
  · have hlast : p.pair.getLast? = some 34 := by
      rw [pair, hvalue, ParameterValue.text, ← List.cons_append, ← List.cons_append,
        ← List.append_assoc, List.getLast?_concat]
    rw [hlast] at hd
    cases hd
    rfl

/-- The boundary that a parameter spells takes all of its value but equals signs, before it is trimmed. -/
theorem Parameter.exists_of_spells_pair {p : Parameter} {v : Bytes} (htrim : trimCopy p.pair = p.pair)
    (h : Spells p.pair v) : ∃ value, v = trimCopy value ∧ ∀ c ∈ p.value.text, c ≠ 61 → c ∈ value := by
  obtain ⟨name, value, -, hname, -, heq, htext⟩ := h
  rw [htrim, pair] at htext
  obtain ⟨rest, hrest, hmem⟩ : ∃ rest, p.name.text ++ 61 :: p.value.text = name ++ 61 :: rest ∧
      ∀ c ∈ rest, c ≠ 61 → c ∈ value := by
    rcases htext with ⟨htext, -⟩ | htext
    · exact ⟨value, htext, fun c hc _ => hc⟩
    · refine ⟨value ++ [61], htext, fun c hc hne => ?_⟩
      exact (List.mem_append.1 hc).resolve_right fun h => hne (List.mem_singleton.1 h)
  have hnames : p.name.text = name := by
    have hcut := congrArg (List.splitOn 61) hrest
    rw [List.splitOn_append_cons_self_of_not_mem p.name.not_mem,
      List.splitOn_append_cons_self_of_not_mem hname] at hcut
    exact (List.cons.inj hcut).1
  rw [hnames] at hrest
  have hrest := (List.cons.inj (List.append_cancel_left hrest)).2
  refine ⟨value, heq, ?_⟩
  rw [hrest]
  exact hmem

/-- In quotes the boundary is never read as it is meant: the quotes are taken with it. -/
theorem Parameter.not_gives_of_quoted {p : Parameter} {chars : List QuotedChar}
    (hvalue : p.value = .quoted chars) (hboundary : IsBoundary p.value.value) :
    ¬ p.Gives p.value.value := by
  intro hgives
  have hquote : (34 : UInt8) ∉ p.value.value := fun hmem =>
    absurd (hboundary.chars 34 hmem) (by decide)
  unfold Gives at hgives
  rw [hvalue] at hgives
  obtain ⟨front, piece, behind, hsplit, hspells, -⟩ := hgives
  rw [List.splitOn_eq_singleton (semicolon_not_mem_pair hvalue hboundary)] at hsplit
  obtain rfl : p.pair = piece := by
    cases front with
    | nil => exact (List.cons.inj hsplit).1
    | cons x front => exact absurd (List.cons.inj hsplit).2.symm (by simp)
  obtain ⟨value, heq, hmem⟩ := exists_of_spells_pair (trimCopy_pair hvalue) hspells
  have hinside : (34 : UInt8) ∈ value := by
    refine hmem 34 ?_ (by decide)
    rw [hvalue]
    exact List.mem_cons_self
  obtain ⟨a, b, hvalue', ha, hb⟩ := exists_trimCopy value
  rw [← hvalue', List.mem_append, List.mem_append] at hinside
  rcases hinside with (hinside | hinside) | hinside
  · cases ha 34 hinside
  · refine hquote ?_
    rw [hvalue, heq]
    exact hinside
  · cases hb 34 hinside

/-- The parameter `boundary`, where it is the last that is taken for one, is written as it has to be. -/
theorem ValidMultipart.plainBoundary {params : List Parameter} (hvalid : ValidMultipart params)
    {front behind : List Parameter} {p : Parameter} (hparams : params = front ++ p :: behind)
    (hnamed : p.named (bytes "boundary") = true) (hgives : p.Gives ((boundaryParameter params).getD []))
    (hbehind : ∀ later ∈ behind, later.Harmless) : PlainBoundary params := by
  have hp : p ∈ params := by
    rw [hparams]
    exact List.mem_append_right _ List.mem_cons_self
  have hparam := hvalid.boundaryParameter_eq hp hnamed
  rw [hparam, Option.getD_some] at hgives
  unfold PlainBoundary
  rw [hparam]
  cases hvalue : p.value with
  | token t =>
    have hstart := hgives
    unfold Parameter.Gives at hstart
    rw [hvalue] at hstart
    exact ⟨front, p, behind, t, hparams, p.name_eq hnamed hstart.1, hvalue, hbehind⟩
  | quoted chars => exact absurd hgives (p.not_gives_of_quoted hvalue (hvalid.boundary _ hparam))

/-- Written so, it is the last boundary that the scan finds. -/
theorem PlainBoundary.getLast?_boundaries {params : List Parameter} (hvalid : ValidMultipart params)
    (h : PlainBoundary params) :
    (params.flatMap Parameter.boundaries).getLast?.getD [] = (boundaryParameter params).getD [] := by
  unfold PlainBoundary at h
  split at h
  · next v hparam =>
    obtain ⟨front, p, behind, t, hparams, hname, hvalue, hbehind⟩ := h
    have hp : p ∈ params := by
      rw [hparams]
      exact List.mem_append_right _ List.mem_cons_self
    have hnamed : p.named (bytes "boundary") = true := by
      rw [Parameter.named, hname]
      rfl
    have hgives : p.Gives t.text := by
      unfold Parameter.Gives
      rw [hvalue, hname]
      exact ⟨List.prefix_rfl, rfl⟩
    rw [getLast?_boundaries_eq_some_iff.2 ⟨front, p, behind, hparams, hgives, hbehind⟩,
      hvalid.boundaryParameter_eq hp hnamed, hvalue]
    rfl
  · next hparam => rw [getLast?_boundaries_eq_none_iff.2 h, hparam]

/-- **Which boundaries are extracted**: that of a parameter `boundary` in lower case with a token, behind
which no other parameter is taken for one; by chance also one that another parameter spells alike. Without
a parameter `boundary`, `bad_field` is set where no other is taken for one, or the last is empty. -/
theorem boundary_extraction_iff {params : List Parameter} (hvalid : ValidMultipart params) :
    FormDataReader.init (multipartText params) = expectedReader params ↔
      PlainBoundary params ∨ SpeltTwice params := by
  rw [init_eq_expectedReader_iff hvalid]
  constructor
  · intro h
    cases hfound : (params.flatMap Parameter.boundaries).getLast? with
    | none =>
      rw [hfound] at h
      left
      unfold PlainBoundary
      cases hparam : boundaryParameter params with
      | none => exact getLast?_boundaries_eq_none_iff.1 hfound
      | some v =>
        rw [hparam] at h
        exact absurd h.symm (hvalid.boundary v hparam).ne_nil
    | some v =>
      rw [hfound, Option.getD_some] at h
      subst h
      obtain ⟨front, p, behind, hparams, hgives, hbehind⟩ := getLast?_boundaries_eq_some_iff.1 hfound
      cases hnamed : p.named (bytes "boundary") with
      | false => exact .inr ⟨front, p, behind, hparams, hnamed, hgives, hbehind⟩
      | true => exact .inl (hvalid.plainBoundary hparams hnamed hgives hbehind)
  · rintro (hplain | ⟨front, p, behind, hparams, -, hgives, hbehind⟩)
    · exact hplain.getLast?_boundaries hvalid
    · rw [getLast?_boundaries_eq_some_iff.2 ⟨front, p, behind, hparams, hgives, hbehind⟩,
        Option.getD_some]

/-- The name of the parameter. -/
def boundaryName : Token := { text := bytes "boundary" }

/-- The name of another parameter. -/
def charsetName : Token := { text := bytes "charset" }

/-- A boundary behind a quoted `charset`. -/
theorem boundary_extraction_token :
    let params : List Parameter :=
      [{ before := .none, after := .space, name := charsetName, value := .quoted [.plain 117 rfl] },
       { before := .space, after := .none, name := boundaryName,
         value := .token { text := bytes "ab" } }]
    multipartText params = bytes "multipart/form-data; charset=\"u\" ;boundary=ab" ∧
      FormDataReader.init (multipartText params) = .ok { boundary := bytes "ab" } := by
  refine ⟨by decide, (boundary_extraction_iff ⟨by decide, fun v hv => ?_⟩).2 (.inl ?_)⟩
  · cases Option.some.inj hv
    exact ⟨by decide, by decide, List.all_eq_true.1 (by decide), by decide⟩
  · exact ⟨[_], _, [], _, rfl, rfl, rfl, List.forall_mem_nil _⟩

/-- A boundary in quotes: the quotes are taken for a part of it. -/
theorem boundary_extraction_quoted :
    let params : List Parameter :=
      [{ before := .none, after := .space, name := boundaryName, value := .quoted [.plain 97 rfl] }]
    multipartText params = bytes "multipart/form-data; boundary=\"a\"" ∧ ValidMultipart params ∧
      boundaryParameter params = some (bytes "a") ∧
      FormDataReader.init (multipartText params) = .ok { boundary := bytes "\"a\"" } ∧
      FormDataReader.init (multipartText params) ≠ expectedReader params := by
  refine ⟨by decide, ⟨by decide, fun v hv => ?_⟩, rfl, rfl, ?_⟩
  · cases Option.some.inj hv
    exact ⟨by decide, by decide, List.all_eq_true.1 (by decide), by decide⟩
  · intro h
    exact absurd (congrArg FormDataReader.boundary (Except.ok.inj h)) (by decide)

end Httplib
