import Httplib.Body.CompressorFactory
import Httplib.Html.ParameterGrammar
import Httplib.Server.Response

/-!
# Which coding is negotiated

`accept_encoding_content` (`lib/html/accept_content.cpp`) over the headers of the grammar: a list of
codings with parameters. `negotiated_encoding_iff` says for which headers the coding that `async_write`
sets is one that the client takes: the quality parameters are collected, and not looked at.
-/

namespace Httplib

namespace AcceptContent

/-- The coding that `parse_element` reads in a piece of the header. -/
def codingName (piece : Bytes) : Bytes :=
  trimCopy ((stripLeading 59 (trimCopy piece)).takeWhile (· ≠ 59))

/-- A blank piece names no coding. -/
theorem codingName_of_trimCopy_eq_nil {piece : Bytes} (h : trimCopy piece = []) :
    codingName piece = [] := by
  rw [codingName, h]
  rfl

/-- Dropping an empty last part leaves the first one. -/
theorem head?_dropLastEmpty (ps : List Bytes) : (dropLastEmpty ps).head? = ps.head? := by
  rcases ps with _ | ⟨p, _ | ⟨q, qs⟩⟩
  · rfl
  · rfl
  · unfold dropLastEmpty
    split <;> rfl

/-- The value of an element is its text up to the first semicolon. -/
theorem parseElement_value {text : Bytes} (h : text ≠ []) :
    (parseElement text).value = trimCopy ((stripLeading 59 text).takeWhile (· ≠ 59)) := by
  have hhead : ((split text (bytes ";")).head?).map trimCopy =
      some (trimCopy ((stripLeading 59 text).takeWhile (· ≠ 59))) := by
    rw [show bytes ";" = [59] from rfl, split_singleton h, List.head?_map, head?_dropLastEmpty,
      splitOn_eq_takeWhile_cons, List.head?_cons, Option.map_some, Option.map_some,
      trimCopy_trimCopy]
  rw [parseElement]
  cases hsplit : split text (bytes ";") with
  | nil =>
    rw [hsplit] at hhead
    cases hhead
  | cons value params =>
    rw [hsplit] at hhead
    exact Option.some.inj hhead

/-- The element of a piece of the header, if it is not blank. -/
def elementOf (piece : Bytes) : Option HeaderElement :=
  if trimCopy piece = [] then none else some (parseElement (trimCopy piece))

/-- A blank piece is no element. -/
theorem elementOf_of_eq_nil {piece : Bytes} (h : trimCopy piece = []) : elementOf piece = none :=
  if_pos h

/-- Another piece is one, and its value is the coding named in it. -/
theorem elementOf_of_ne_nil {piece : Bytes} (h : trimCopy piece ≠ []) :
    ∃ elem, elementOf piece = some elem ∧ elem.value = codingName piece := by
  refine ⟨_, if_neg h, ?_⟩
  rw [parseElement_value h]
  rfl

/-- The elements of a header are those of its pieces between commas. -/
theorem parse_eq (header : Bytes) : parse header = (header.splitOn 44).filterMap elementOf := by
  have hloop : ∀ pieces : List Bytes,
      ((pieces.map trimCopy).filter (· ≠ [])).map parseElement = pieces.filterMap elementOf := by
    intro pieces
    induction pieces with
    | nil => rfl
    | cons piece pieces ih =>
      rw [List.filterMap_cons, ← ih, elementOf, List.map_cons, List.filter_cons]
      by_cases hnil : trimCopy piece = [] <;> simp [hnil]
  rw [parse, hloop, show bytes "," = [44] from rfl, filterMap_split rfl]
  refine List.filterMap_congr fun piece _ => ?_
  rw [elementOf, elementOf, trimCopy_trimCopy]

/-- **The coding chosen for any header**: the first one, in the pieces between commas, that is
supported. -/
theorem serverApplyEncoding_parse {supported : Bytes → Bool} (h : supported [] = false)
    (header : Bytes) :
    serverApplyEncoding supported (parse header) =
      (((header.splitOn 44).map codingName).find? supported).getD [] := by
  rw [serverApplyEncoding, parse_eq]
  induction header.splitOn 44 with
  | nil => rfl
  | cons piece pieces ih =>
    rw [List.filterMap_cons, List.map_cons]
    rcases eq_or_ne (trimCopy piece) [] with hnil | hne
    · rw [elementOf_of_eq_nil hnil, codingName_of_trimCopy_eq_nil hnil, List.find?_cons_of_neg (by simp [h])]
      exact ih
    · obtain ⟨elem, helem, hvalue⟩ := elementOf_of_ne_nil hne
      rw [helem, ← hvalue]
      dsimp only
      rw [List.find?_cons, List.find?_cons]
      cases supported elem.value with
      | true => rfl
      | false => exact ih

end AcceptContent

/-! ## Headers of the grammar -/

/-- An element of the list: a coding with its parameters, and white space around it. -/
structure AcceptElement where
  before : Blank
  after : Blank
  coding : Token
  params : List Parameter

/-- What may stand between two commas of the list. -/
inductive AcceptItem where
  | empty (b : Blank)
  | element (e : AcceptElement)

/-- The value of an `Accept-Encoding`. -/
structure AcceptEncoding where
  items : List AcceptItem

/-- A quality of zero, with any number of decimals. -/
def isZeroQuality : Bytes → Bool
  | 48 :: decimals => decimals = [] || (decimals.head? = some 46 && decimals.tail.all (· = 48))
  | _ => false

namespace AcceptElement

variable (e : AcceptElement)

/-- What follows the coding. -/
def rest : Bytes := e.params.flatMap Parameter.text ++ e.after.text

def text : Bytes := e.before.text ++ e.coding.text ++ e.rest

/-- The element refuses its coding: its quality, the last one of several, is zero. -/
def refuses : Bool :=
  match (e.params.filter (Parameter.named (bytes "q"))).getLast? with
  | some q => isZeroQuality q.value.value
  | none => false

/-- The codings that the server sees in the element: its own, and whatever stands behind a comma inside
a quoted string. -/
def codings : List Bytes := e.coding.text :: (e.text.splitOn 44).tail.map AcceptContent.codingName

end AcceptElement

namespace AcceptItem

def text : AcceptItem → Bytes
  | empty b => b.text
  | element e => e.text

def codings : AcceptItem → List Bytes
  | empty _ => []
  | element e => e.codings

end AcceptItem

namespace AcceptEncoding

variable (header : AcceptEncoding)

def text : Bytes := join [44] (header.items.map AcceptItem.text)

/-- The elements of the list. -/
def elements : List AcceptElement :=
  header.items.filterMap fun
    | .element e => some e
    | .empty _ => none

/-- The codings that the server sees in the header. -/
def codings : List Bytes := header.items.flatMap AcceptItem.codings

/-- The header lists a coding with a quality that is not zero. -/
def Lists (coding : Bytes) : Prop :=
  ∃ e, .element e ∈ header.items ∧ iequals e.coding.text coding = true ∧ e.refuses = false

end AcceptEncoding

/-! ## The pieces of the header -/

/-- White space is all that stands between a coding and the first semicolon behind it. -/
theorem AcceptElement.isSpace_of_mem_rest (e : AcceptElement) {c : UInt8}
    (hc : c ∈ e.rest.takeWhile (· ≠ 59)) : isSpace c = true := by
  obtain ⟨before, after, coding, params⟩ := e
  cases params with
  | nil => exact after.isSpace_of_mem ((List.takeWhile_prefix _).subset hc)
  | cons p params =>
    have hrest : (AcceptElement.mk before after coding (p :: params)).rest =
        p.before.text ++ 59 :: (p.after.text ++ p.pair ++ params.flatMap Parameter.text ++ after.text) := by
      simp [rest, Parameter.text]
    rw [hrest, takeWhile_append_of_not_mem p.before.not_mem, List.takeWhile_cons_of_neg (by decide),
      List.append_nil] at hc
    exact p.before.isSpace_of_mem hc

/-- A token in front of a piece is its coding, if the first semicolon follows it. -/
theorem codingName_token (b : Blank) (t : Token) {rest : Bytes}
    (hrest : ∀ c ∈ rest.takeWhile (· ≠ 59), isSpace c = true) :
    AcceptContent.codingName (b.text ++ (t.text ++ rest)) = t.text := by
  have hstrip : stripLeading 59 (trimCopy (b.text ++ (t.text ++ rest))) =
      trimCopy (b.text ++ (t.text ++ rest)) := by
    refine if_neg fun hhead => ?_
    have hfront : (t.text ++ rest).dropWhile isSpace = t.text ++ rest := by
      rw [List.dropWhile_eq_self_iff]
      intro hpos
      have hmem : (t.text ++ rest)[0] ∈ t.text := by
        rw [List.getElem_append_left (List.length_pos_of_ne_nil t.ne_nil)]
        exact List.getElem_mem _
      simp [t.isSpace_of_mem hmem]
    rw [trimCopy_blank_append fun c hc => b.isSpace_of_mem hc, trimCopy, hfront] at hhead
    obtain ⟨back, hback⟩ := List.rdropWhile_prefix isSpace (t.text ++ rest)
    have hfirst : (t.text ++ rest).head? = some 59 := by
      rw [← hback, List.head?_append, hhead]
      rfl
    rw [List.head?_append_of_ne_nil _ t.ne_nil] at hfirst
    exact absurd (List.mem_of_head? hfirst) t.not_mem
  rw [AcceptContent.codingName, hstrip, trimCopy_takeWhile (by decide),
    takeWhile_append_of_not_mem b.not_mem, takeWhile_append_of_not_mem t.not_mem, ← List.append_assoc]
  exact trimCopy_blank (fun c hc => b.isSpace_of_mem hc) hrest t.ne_nil t.trimCopy_text

/-- In front of its first comma, an element has its coding. -/
theorem AcceptElement.codingName_takeWhile (e : AcceptElement) :
    AcceptContent.codingName (e.text.takeWhile (· ≠ 44)) = e.coding.text := by
  have hpiece : e.text.takeWhile (· ≠ 44) =
      e.before.text ++ (e.coding.text ++ e.rest.takeWhile (· ≠ 44)) := by
    rw [text, List.append_assoc, takeWhile_append_of_not_mem e.before.not_mem,
      takeWhile_append_of_not_mem e.coding.not_mem]
  rw [hpiece]
  refine codingName_token e.before e.coding fun c hc => e.isSpace_of_mem_rest ?_
  -- nothing but white space stands there, with or without the comma
  have hcomm : (e.rest.takeWhile (· ≠ 44)).takeWhile (· ≠ 59) =
      (e.rest.takeWhile (· ≠ 59)).takeWhile (· ≠ 44) := by
    rw [List.takeWhile_takeWhile, List.takeWhile_takeWhile]
    simp only [and_comm]
  rw [hcomm] at hc
  exact (List.takeWhile_prefix _).subset hc

/-- The pieces of an element name its codings. -/
theorem AcceptElement.map_codingName_splitOn (e : AcceptElement) :
    (e.text.splitOn 44).map AcceptContent.codingName = e.codings := by
  rw [splitOn_eq_takeWhile_cons, List.map_cons, codingName_takeWhile, codings]

section
variable {supported : Bytes → Bool} (h : supported [] = false)
include h

/-- In the text of an item the codings found are those of the item. -/
theorem AcceptItem.find?_codings (item : AcceptItem) :
    ((item.text.splitOn 44).map AcceptContent.codingName).find? supported =
      item.codings.find? supported := by
  cases item with
  | empty b =>
    have htrim : trimCopy b.text = [] := by
      rw [← List.append_nil b.text, trimCopy_blank_append fun c hc => b.isSpace_of_mem hc, trimCopy_nil]
    rw [text, List.splitOn_eq_singleton b.not_mem, List.map_singleton,
      AcceptContent.codingName_of_trimCopy_eq_nil htrim, List.find?_cons_of_neg (by simp [h])]
    rfl
  | element e => rw [text, AcceptElement.map_codingName_splitOn, codings]

/-- **What is negotiated**: the first coding that the server sees in the header and supports. -/
theorem AcceptEncoding.find?_codings (header : AcceptEncoding) :
    ((header.text.splitOn 44).map AcceptContent.codingName).find? supported =
      header.codings.find? supported := by
  obtain ⟨items⟩ := header
  cases items with
  | nil =>
    have hnil : ¬ supported (AcceptContent.codingName []) = true := by
      rw [AcceptContent.codingName_of_trimCopy_eq_nil trimCopy_nil, h]
      exact Bool.false_ne_true
    exact List.find?_cons_of_neg hnil
  | cons item items =>
    rw [text, splitOn_join (by simp), codings, List.flatMap_map, List.map_flatMap, List.find?_flatMap,
      List.find?_flatMap]
    exact congrArg (List.findSome? · (item :: items)) (funext (AcceptItem.find?_codings h))

end

/-- Without a comma in an element, the server sees its coding only. -/
theorem AcceptEncoding.codings_of_not_mem {header : AcceptEncoding}
    (h : ∀ e ∈ header.elements, (44 : UInt8) ∉ e.text) :
    header.codings = header.elements.map (·.coding.text) := by
  obtain ⟨items⟩ := header
  rw [codings, elements, List.map_filterMap] at *
  induction items with
  | nil => rfl
  | cons item items ih =>
    rw [List.flatMap_cons, List.filterMap_cons]
    cases item with
    | empty => exact ih h
    | element e =>
      obtain ⟨hcomma, hrest⟩ := List.forall_mem_cons.1 h
      have hcodings : e.codings = [e.coding.text] := by
        rw [AcceptElement.codings, List.splitOn_eq_singleton hcomma]
        rfl
      rw [AcceptItem.codings, hcodings, ih hrest]
      rfl

/-! ## What the client takes -/

/-- The coding that `async_write` sets for a request, if it sets one. -/
def appliedEncoding (supported : Bytes → Bool) (req : Request) : Option Bytes :=
  if Response.chooseEncoding supported req = [] then none
  else some (Response.chooseEncoding supported req)

/-- The response carries the coding that is applied, and is chunked with one. -/
theorem applyEncoding_eq (supported : Bytes → Bool) (req : Request) (header : ResponseHeader) :
    Response.applyEncoding supported req header =
      match appliedEncoding supported req with
      | none => header
      | some encoding => (header.set .contentEncoding encoding).setChunked := by
  rw [Response.applyEncoding, appliedEncoding]
  split <;> rfl

/-- What the client may ask of the coding that is applied. -/
structure Acceptable (supported : Bytes → Bool) (header : AcceptEncoding) (applied : Option Bytes) :
    Prop where
  /-- It is supported, and listed with a quality that is not zero. -/
  listed : ∀ encoding ∈ applied, supported encoding = true ∧ header.Lists encoding
  /-- None is applied where no supported one is so listed. -/
  refused : (∀ encoding, supported encoding = true → ¬ header.Lists encoding) → applied = none

/-- No coding has the empty name. -/
theorem CompressorFactory.isSupportedEncoding_nil {κ : Type} (enabled : Bool)
    (libs : FilterLibraries κ) : (instance_ enabled libs).isSupportedEncoding [] = false := by
  rw [isSupportedEncoding]
  cases hcreate : (instance_ enabled libs).create [] with
  | none => rfl
  | some adapter =>
    rcases create_cases hcreate with ⟨hname, -⟩ | ⟨hname, -⟩ | ⟨hname, -⟩ | ⟨hname, -⟩ <;> cases hname

/-- The coding that is applied. -/
theorem appliedEncoding_eq {supported : Bytes → Bool} (h : supported [] = false) {req : Request}
    {header : AcceptEncoding} (hreq : req.fields.find? .acceptEncoding = some header.text) :
    appliedEncoding supported req = header.codings.find? supported := by
  have hchoose : Response.chooseEncoding supported req =
      (header.codings.find? supported).getD [] := by
    rw [Response.chooseEncoding, hreq]
    exact (AcceptContent.serverApplyEncoding_parse h _).trans
      (congrArg (Option.getD · []) (header.find?_codings h))
  rw [appliedEncoding, hchoose]
  cases hfind : header.codings.find? supported with
  | none => rfl
  | some encoding =>
    refine if_neg fun hnil => ?_
    have hsupported := List.find?_some hfind
    rw [show encoding = [] from hnil, h] at hsupported
    cases hsupported

/-- **What `async_write` sets**: the first coding that the server sees in the header and supports, and
nothing without one. -/
theorem applyEncoding_negotiated {supported : Bytes → Bool} (h : supported [] = false) {req : Request}
    {header : AcceptEncoding} (hreq : req.fields.find? .acceptEncoding = some header.text)
    (resp : ResponseHeader) :
    Response.applyEncoding supported req resp =
      match header.codings.find? supported with
      | none => resp
      | some encoding => (resp.set .contentEncoding encoding).setChunked := by
  rw [applyEncoding_eq, appliedEncoding_eq h hreq]

/-- A coding found among the supported ones is acceptable exactly when the header lists it. -/
theorem acceptable_find?_iff {supported : Bytes → Bool} {header : AcceptEncoding} :
    Acceptable supported header (header.codings.find? supported) ↔
      ∀ encoding, header.codings.find? supported = some encoding → header.Lists encoding := by
  refine ⟨fun h encoding hfind => (h.listed encoding hfind).2, fun h => ⟨?_, ?_⟩⟩
  · intro encoding hfind
    exact ⟨List.find?_some hfind, h encoding hfind⟩
  · intro hnone
    cases hfind : header.codings.find? supported with
    | none => rfl
    | some encoding => exact absurd (h encoding hfind) (hnone encoding (List.find?_some hfind))

/-- **When what is negotiated is acceptable**: the first coding that the server sees in the header and
supports, if there is one, is listed with a quality that is not zero. -/
theorem negotiated_encoding_iff {κ : Type} {enabled : Bool} {libs : FilterLibraries κ} {req : Request}
    {header : AcceptEncoding} (hreq : req.fields.find? .acceptEncoding = some header.text) :
    let supported := (CompressorFactory.instance_ enabled libs).isSupportedEncoding
    Acceptable supported header (appliedEncoding supported req) ↔
      ∀ encoding, header.codings.find? supported = some encoding → header.Lists encoding := by
  intro supported
  rw [appliedEncoding_eq (CompressorFactory.isSupportedEncoding_nil enabled libs) hreq]
  exact acceptable_find?_iff

/-- Where no parameter has a comma in it and no coding is listed twice: what is negotiated is acceptable
exactly if the first element with a supported coding does not refuse it. -/
theorem acceptable_iff_of_plain {supported : Bytes → Bool} (h : supported [] = false) {req : Request}
    {header : AcceptEncoding} (hreq : req.fields.find? .acceptEncoding = some header.text)
    (hcommas : ∀ e ∈ header.elements, (44 : UInt8) ∉ e.text)
    (honce : ∀ e ∈ header.elements, ∀ e' ∈ header.elements,
      iequals e.coding.text e'.coding.text = true → e = e') :
    Acceptable supported header (appliedEncoding supported req) ↔
      ∀ e, header.elements.find? (fun e => supported e.coding.text) = some e → e.refuses = false := by
  have hfind : header.codings.find? supported =
      (header.elements.find? fun e => supported e.coding.text).map (·.coding.text) := by
    rw [header.codings_of_not_mem hcommas, List.find?_map]
    rfl
  have hmem : ∀ {e}, .element e ∈ header.items ↔ e ∈ header.elements := by
    intro e
    simp only [AcceptEncoding.elements, List.mem_filterMap]
    constructor
    · exact fun he => ⟨_, he, rfl⟩
    · rintro ⟨item, hitem, heq⟩
      cases item with
      | empty => cases heq
      | element e' =>
        cases heq
        exact hitem
  rw [appliedEncoding_eq h hreq, acceptable_find?_iff, hfind]
  constructor
  · intro hlists e he
    obtain ⟨e', he', hsame, hquality⟩ := hlists e.coding.text (by rw [he]; rfl)
    rw [← honce e' (hmem.1 he') e (List.mem_of_find?_eq_some he) hsame]
    exact hquality
  · intro hquality encoding hencoding
    obtain ⟨e, he, rfl⟩ := Option.map_eq_some_iff.1 hencoding
    exact ⟨e, hmem.2 (List.mem_of_find?_eq_some he), iequals_refl _, hquality e he⟩

/-- The element `name;q=quality`. -/
def weighted (name quality : Token) : AcceptElement where
  before := .none
  after := .none
  coding := name
  params := [{ before := .none, after := .none, name := { text := bytes "q" },
               value := .token quality }]

open scoped Platform.Plain in
/-- The coding `gzip`, of half the quality, behind one that is not supported. -/
theorem negotiated_encoding_half :
    let header : AcceptEncoding :=
      { items := [.element (weighted { text := bytes "x" } { text := bytes "1" }),
                  .element (weighted { text := bytes "gzip" }
                    { text := bytes "0.5" })] }
    let req := Request.ofHeader .get (bytes "/") 11 [(.acceptEncoding, bytes "x;q=1,gzip;q=0.5")]
    let supported := (CompressorFactory.instance_ true Marking.libraries).isSupportedEncoding
    appliedEncoding supported req = some (bytes "gzip") ∧
      Acceptable supported header (appliedEncoding supported req) := by
  intro header req supported
  refine ⟨by decide, (@negotiated_encoding_iff _ true Marking.libraries req header (by decide)).2 ?_⟩
  intro encoding hfind
  cases Option.some.inj hfind
  exact ⟨_, List.mem_cons_of_mem _ List.mem_cons_self, by decide, by decide⟩

open scoped Platform.Plain in
/-- The coding `gzip` with quality zero: it is applied. -/
theorem negotiated_encoding_zero :
    let header : AcceptEncoding :=
      { items := [.element (weighted { text := bytes "gzip" } { text := bytes "0" })] }
    let req := Request.ofHeader .get (bytes "/") 11 [(.acceptEncoding, bytes "gzip;q=0")]
    let supported := (CompressorFactory.instance_ true Marking.libraries).isSupportedEncoding
    req.fields.find? .acceptEncoding = some header.text ∧
      appliedEncoding supported req = some (bytes "gzip") ∧
      ¬ Acceptable supported header (appliedEncoding supported req) := by
  intro header req supported
  have happlied : appliedEncoding supported req = some (bytes "gzip") := by decide
  refine ⟨by decide, happlied, fun h => ?_⟩
  obtain ⟨e, he, -, hquality⟩ := (h.listed (bytes "gzip") happlied).2
  cases AcceptItem.element.inj (List.mem_singleton.1 he)
  exact absurd hquality (by decide)

end Httplib
