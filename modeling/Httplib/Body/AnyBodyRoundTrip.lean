import Httplib.Body.AnyBodyReader
import Httplib.Body.BodyWriters
import Httplib.Body.FormDataBoundary

/-!
# Bodies that are written and read

What `any_body::writer` writes for a body, `any_body::reader` reads on the other side, if the
`Content-Type` of the message selects the reader for what the body holds (`AnyBody.CarriedBy`): plainly
(`AnyBody.readWhole_text`), and behind a codec however its output is cut (`AnyBody.read_text`).
-/

namespace Httplib

open Producer (Emits)

/-- `any_body::reader::impl::init` (`any_body.cpp:156`); `creators` is the table of the
`compressor_factory`. -/
def AnyBodyReader.init {Json κ : Type} [JsonLib Json] (creators : Bytes → Option (Codec κ UInt8))
    (contentType contentEncoding : Bytes) (contentLength : Option Nat) :
    Except BodyError (AnyBodyReader Json κ) :=
  (ProxyReader.create contentType contentLength).map fun proxy =>
    { proxy, compressor := (creators contentEncoding).map .init }

/-- A body that arrives in pieces: behind a compressor `put` takes each piece whole, the plain readers
are offered again what they have left. -/
def AnyBodyReader.read [Platform] {Json κ : Type} [JsonLib Json] (r : AnyBodyReader Json κ)
    (pieces : List Bytes) : Option (AnyBody Json) :=
  match r.compressor with
  | none => r.readWhole pieces.flatten
  | some _ => r.readChunks pieces

namespace AnyBodyWriter

variable {κ : Type} {turns turns' : Nat} {w : AnyBodyWriter κ}

/-- More turns make no difference to a call that returns. -/
theorem getLoop_of_le {compressor : Compressor κ} {proxy : ProxyWriter} (h : turns ≤ turns')
    (hreturns : getLoop compressor turns proxy ≠ .spins) :
    getLoop compressor turns' proxy = getLoop compressor turns proxy := by
  induction turns generalizing compressor proxy turns' with
  | zero => exact absurd rfl hreturns
  | succ turns ih =>
    obtain ⟨turns', rfl⟩ := Nat.exists_eq_add_of_le' (Nat.le_trans (Nat.succ_le_succ turns.zero_le) h)
    rw [getLoop] at hreturns ⊢
    rw [getLoop]
    cases hget : proxy.get with
    | done | fail | spins => rfl
    | buffer b more proxy =>
      rw [hget] at hreturns
      dsimp only at hreturns ⊢
      split
      · rfl
      · next hempty =>
        rw [if_neg hempty] at hreturns
        exact ih (Nat.le_of_succ_le_succ h) hreturns

theorem get_of_le (h : turns ≤ turns') (hreturns : get turns w ≠ .spins) :
    get turns' w = get turns w := by
  rw [get.eq_def] at hreturns ⊢
  rw [get.eq_def turns]
  cases hcompressor : w.compressor with
  | none => rfl
  | some compressor =>
    rw [hcompressor] at hreturns
    exact getLoop_of_le h hreturns

/-- A run is one with more turns as well. -/
theorem emits_of_le {bufs : List Bytes} {e : Producer.Ending HttpError} (h : turns ≤ turns')
    (hrun : Emits (get turns) w bufs e) : Emits (get turns') w bufs e := by
  have hcall : ∀ {w : AnyBodyWriter κ} {r}, r ≠ .spins → get turns w = r → get turns' w = r := by
    rintro w r hr rfl
    exact get_of_le h hr
  induction hrun with
  | done hget => exact .done (hcall nofun hget)
  | fail hget => exact .fail (hcall nofun hget)
  | last hget => exact .last (hcall nofun hget)
  | more hget _ ih => exact .more (hcall nofun hget) ih

/-- What the loop returns is not empty, and the compressor stays. -/
theorem getLoop_eq_buffer {compressor : Compressor κ} {proxy : ProxyWriter} {b : Bytes} {more : Bool}
    (h : getLoop compressor turns proxy = .buffer b more w) : b ≠ [] ∧ w.compressor.isSome := by
  induction turns generalizing compressor proxy with
  | zero => cases h
  | succ turns ih =>
    rw [getLoop] at h
    split at h
    · cases h
    · cases h
    · cases h
    · dsimp only at h
      split at h
      · next hne =>
        cases h
        exact ⟨hne, rfl⟩
      · exact ih h

/-- No buffer of a compressed run is empty. -/
theorem ne_nil_of_emits {bufs : List Bytes} {e : Producer.Ending HttpError}
    (hrun : Emits (get turns) w bufs e) (hw : w.compressor.isSome) : ∀ b ∈ bufs, b ≠ [] := by
  have hcall : ∀ {w w' : AnyBodyWriter κ} {b more}, w.compressor.isSome →
      get turns w = .buffer b more w' → b ≠ [] ∧ w'.compressor.isSome := by
    intro w w' b more hw hget
    obtain ⟨compressor, hcompressor⟩ := Option.isSome_iff_exists.1 hw
    rw [get, hcompressor] at hget
    exact getLoop_eq_buffer hget
  induction hrun with
  | done | fail => exact fun b hb => absurd hb List.not_mem_nil
  | last hget => exact List.forall_mem_singleton.2 (hcall hw hget).1
  | more hget _ ih =>
    obtain ⟨hne, hw'⟩ := hcall hw hget
    exact List.forall_mem_cons.2 ⟨hne, ih hw'⟩

end AnyBodyWriter

/-- What the JSON library reads back: the text of the value is complete, and it is that of the value. -/
def JsonLib.ReadsBack {Json : Type} [JsonLib Json] (v : Json) : Prop :=
  let text := (JsonLib.serialize v).1 ++ (JsonLib.serialize v).2.flatten
  text ≠ [] ∧ ∃ p : JsonLib.Parser Json,
    JsonLib.writeSome JsonLib.parser text = (p, text.length, false) ∧ JsonLib.done p = true ∧
      JsonLib.release p = v

/-- The texts that `any_body::reader::impl::init` looks for in front of a `Content-Type`. -/
def selectors : List Bytes :=
  [bytes "multipart/form-data", bytes "application/json", bytes "application/x-www-form-urlencoded"]

/-- The `Content-Type` of a form, as `set_form_data_content` sets it. -/
def formContentType (boundary : Bytes) : Bytes := bytes "multipart/form-data; boundary=" ++ boundary

namespace AnyBody

variable {Json : Type} [JsonLib Json] {junk : Nat} {contentType : Bytes} {κ κ' : Type}

/-- The text that the plain writer writes for the body. -/
def text (junk : Nat) (body : AnyBody Json) : Bytes := (body.buffers junk).flatten

/-- The `Content-Type` selects the reader for what the body holds. No response has query parameters as its
body. -/
def CarriedBy (junk : Nat) (contentType : Bytes) : AnyBody Json → Prop
  | .empty | .queryParams _ => False
  | .string s =>
    (∀ selector ∈ selectors, startsWith contentType selector = false) ∧ s.length ≤ stringMaxSize
  | .json v => startsWith contentType (bytes "application/json") = true ∧ JsonLib.ReadsBack v
  | .formData form =>
    contentType = formContentType form.boundary ∧ form.boundary ≠ [] ∧
      (∀ c ∈ form.boundary, IsBoundaryByte c) ∧ form.fields ≠ [] ∧
      ∀ f ∈ form.fields, Sendable form.boundary f
  | .file f =>
    (∀ selector ∈ selectors, startsWith contentType selector = false) ∧ f.EndsWithBuffer ∧
      (f.buffers junk).flatten.length ≤ stringMaxSize

/-- What is read where the body is written: a file is read as its text, and a form has no boundary on the
other side. -/
def arrives (junk : Nat) : AnyBody Json → AnyBody Json
  | .formData form => .formData { fields := form.fields }
  | .file f => .string (f.buffers junk).flatten
  | body => body

/-! ## The reader that is selected -/

theorem startsWith_eq_false_of_startsWith {s p q : Bytes} (h : startsWith s p = true)
    (hpq : ¬ p <+: q) (hqp : ¬ q <+: p) : startsWith s q = false := by
  rw [← Bool.not_eq_true, startsWith_iff]
  intro hq
  rcases List.prefix_or_prefix_of_prefix (startsWith_iff.1 h) hq with hle | hle
  · exact hpq hle
  · exact hqp hle

theorem create_string {contentLength : Option Nat} {text : Bytes} (hmax : text.length ≤ stringMaxSize)
    (hlength : ∀ n ∈ contentLength, n = text.length)
    (h : ∀ selector ∈ selectors, startsWith contentType selector = false) :
    (ProxyReader.create contentType contentLength : Except BodyError (ProxyReader Json)) =
      .ok (.string []) := by
  have hform := h _ List.mem_cons_self
  have hjson := h _ (List.mem_cons_of_mem _ List.mem_cons_self)
  have hquery := h _ (List.mem_cons_of_mem _ (List.mem_cons_of_mem _ List.mem_cons_self))
  have hle : contentLength.getD 0 ≤ stringMaxSize := by
    cases contentLength with
    | none => exact Nat.zero_le _
    | some n =>
      rw [Option.getD_some, hlength n rfl]
      exact hmax
  rw [ProxyReader.create, if_neg (by simp [hform]), if_neg (by simp [hjson]), if_neg (by simp [hquery]),
    if_neg (Nat.not_lt.2 hle)]

theorem create_json {contentLength : Option Nat}
    (h : startsWith contentType (bytes "application/json") = true) :
    (ProxyReader.create contentType contentLength : Except BodyError (ProxyReader Json)) =
      .ok (.json JsonLib.parser) := by
  have hform := startsWith_eq_false_of_startsWith (q := bytes "multipart/form-data") h (by decide)
    (by decide)
  rw [ProxyReader.create, if_neg (by simp [hform]), if_pos h]

/-- The bytes of a boundary that is generated are those of a token. -/
theorem isTokenChar_of_isBoundaryByte {c : UInt8} (h : IsBoundaryByte c) : isTokenChar c = true := by
  rcases h with rfl | ⟨hlow, hhigh⟩
  · decide
  · have hdigits : ∀ k < 10, isTokenChar (UInt8.ofNat (48 + k)) = true := by decide
    rw [UInt8.le_iff_toNat_le] at hlow hhigh
    have hlow' : 48 ≤ c.toNat := hlow
    have hhigh' : c.toNat ≤ 57 := hhigh
    have hdigit := hdigits (c.toNat - 48) (by omega)
    rwa [Nat.add_sub_cancel' hlow', UInt8.ofNat_toNat] at hdigit

theorem create_formData {boundary : Bytes} {contentLength : Option Nat} (hne : boundary ≠ [])
    (hb : ∀ c ∈ boundary, IsBoundaryByte c) :
    (ProxyReader.create (formContentType boundary) contentLength :
      Except BodyError (ProxyReader Json)) = .ok (.formData { boundary }) := by
  have hchars : ∀ c ∈ boundary, isTokenChar c = true := fun c hc => isTokenChar_of_isBoundaryByte (hb c hc)
  let token : Token := { text := boundary, ne_nil := hne, chars := hchars }
  let parameter : Parameter :=
    { before := .none, after := .space, name := boundaryName, value := .token token }
  have hletters : bytes "multipart/form-data; boundary=" =
      bytes "multipart/form-data" ++ 59 :: 32 :: (bytes "boundary" ++ [61]) := by decide
  have htext : formContentType boundary = multipartText [parameter] := by
    rw [formContentType, hletters]
    simp only [multipartText, Parameter.text, Parameter.pair, parameter, token, boundaryName, Blank.none,
      Blank.space, ParameterValue.text, List.flatMap_cons, List.flatMap_nil, List.append_nil,
      List.nil_append, List.append_assoc, List.cons_append]
  have hfound : boundariesIn (formContentType boundary) = [boundary] := by
    rw [htext, boundariesIn_multipartText]
    rfl
  have hstart : startsWith (formContentType boundary) (bytes "multipart/form-data") = true := by
    rw [formContentType, hletters, startsWith_iff]
    exact ⟨_, (List.append_assoc _ _ _).symm⟩
  rw [ProxyReader.create, if_pos hstart, FormDataReader.init_eq, hfound]
  simp [hne]

/-! ## Plainly -/

open ProxyReader in
/-- **What is written plainly is read plainly.** The reader that the `Content-Type` selects reads the
text of the body, and the body is what arrives. -/
theorem readWhole_text [Platform] {body : AnyBody Json} (h : body.CarriedBy junk contentType)
    {contentLength : Option Nat} (hlength : ∀ n ∈ contentLength, n = (body.text junk).length) :
    ∃ proxy : ProxyReader Json, ProxyReader.create contentType contentLength = .ok proxy ∧
      (plain κ proxy).readWhole (body.text junk) = some (body.arrives junk) := by
  cases body with
  | empty | queryParams => exact h.elim
  | string s =>
    rw [text, buffers, List.flatten_singleton] at hlength
    refine ⟨_, create_string h.2 hlength h.1, ?_⟩
    rw [text, buffers, List.flatten_singleton, readWhole_string [] _ (Nat.zero_le _),
      if_pos (by simpa using h.2)]
    rfl
  | file f =>
    refine ⟨_, create_string h.2.2 hlength h.1, ?_⟩
    rw [text, buffers, readWhole_string [] _ (Nat.zero_le _), if_pos (by simpa using h.2.2)]
    rfl
  | json v =>
    obtain ⟨hselect, hne, p, hread, hdone, hrelease⟩ := h
    refine ⟨_, create_json hselect, ?_⟩
    have hput : (ProxyReader.json JsonLib.parser).put
        ((JsonLib.serialize v).1 ++ (JsonLib.serialize v).2.flatten) =
          (.json p, ((JsonLib.serialize v).1 ++ (JsonLib.serialize v).2.flatten).length, none) := by
      simp only [put, hread, Bool.false_eq_true, if_false]
    rw [text, buffers, List.flatten_cons, readWhole_of_all hne hput]
    simp only [finish, hdone, if_true, hrelease]
    rfl
  | formData form =>
    obtain ⟨rfl, hne, hb, hfields, hsendable⟩ := h
    refine ⟨_, create_formData hne hb, ?_⟩
    have hsteps := FormDataReader.steps_encode (not_mem_of_isBoundaryByte hb) [] form.fields hsendable
    rw [text, buffers, FormDataWriter.flatten_buffers hfields]
    exact readWhole_formData_eq_some hsteps rfl

/-! ## Behind a codec -/

/-- The body is no form: behind a codec the reader of a form is called too seldom. -/
def NoForm : AnyBody Json → Prop
  | .formData _ => False
  | _ => True

open ProxyReader in
/-- **What is written is read behind a codec.** Whatever pieces the codec puts the text out in, one call
for each reads it. -/
theorem readChunks_text [Platform] (hlib : JsonLib.Streams Json) {body : AnyBody Json}
    (h : body.CarriedBy junk contentType) (hform : body.NoForm) {contentLength : Option Nat}
    (hlength : ∀ n ∈ contentLength, n = (body.text junk).length) {codec : Codec κ UInt8} {parts : List Bytes}
    (hparts : codec.whole codec.init parts = body.text junk) :
    ∃ proxy : ProxyReader Json, ProxyReader.create contentType contentLength = .ok proxy ∧
      AnyBodyReader.readChunks { proxy, compressor := some (.init codec) } parts =
        some (body.arrives junk) := by
  obtain ⟨proxy, hcreate, hwhole⟩ : ∃ proxy : ProxyReader Json, _ ∧
    (plain κ proxy).readWhole (body.text junk) = _ := readWhole_text h hlength
  refine ⟨proxy, hcreate, ?_⟩
  rw [Codec.whole] at hparts
  rw [Compressor.init, readChunks_eq, ← hwhole, ← hparts]
  cases body with
  | empty | queryParams | formData => contradiction
  | string s =>
    rw [text, buffers, List.flatten_singleton] at hlength
    rw [create_string h.2 hlength h.1] at hcreate
    cases hcreate
    refine (read_string_iff _ _).2 (.inl ?_)
    rw [hparts, text, buffers, List.flatten_singleton]
    exact h.2
  | file f =>
    rw [create_string h.2.2 hlength h.1] at hcreate
    cases hcreate
    refine (read_string_iff _ _).2 (.inl ?_)
    rw [hparts]
    exact h.2.2
  | json v =>
    rw [create_json h.1] at hcreate
    cases hcreate
    obtain ⟨-, -, p, hread, -⟩ := h
    refine read_json hlib (.inr (.inr ?_))
    rw [hparts, text, buffers, List.flatten_cons, hread]

/-! ## Both sides -/

/-- Both tables know a coding, and its codecs pair, or none does. -/
structure PairsAt (encoders : Bytes → Option (Codec κ UInt8))
    (decoders : Bytes → Option (Codec κ' UInt8)) (name : Bytes) : Prop where
  pairs : ∀ {e}, encoders name = some e → ∃ d, decoders name = some d ∧ e.Pairs d
  unknown : encoders name = none → decoders name = none

/-- The tables of the two sides know the same codings, and the codecs of each pair. -/
structure TablesPair (encoders : Bytes → Option (Codec κ UInt8))
    (decoders : Bytes → Option (Codec κ' UInt8)) : Prop where
  pairs : ∀ {name e}, encoders name = some e → ∃ d, decoders name = some d ∧ e.Pairs d
  unknown : ∀ {name}, encoders name = none → decoders name = none

theorem TablesPair.at_ {encoders : Bytes → Option (Codec κ UInt8)}
    {decoders : Bytes → Option (Codec κ' UInt8)} (h : TablesPair encoders decoders) (name : Bytes) :
    PairsAt encoders decoders name := ⟨h.pairs, h.unknown⟩

/-- The plain writer of such a body ends with a buffer. -/
theorem CarriedBy.ending {body : AnyBody Json} (h : body.CarriedBy junk contentType) :
    body.ending = .last := by
  rw [ending_eq_last_iff]
  cases body with
  | empty | queryParams => exact h.elim
  | formData form => exact h.2.2.2.1
  | file f => exact h.2.1
  | string | json => trivial

variable {encoders : Bytes → Option (Codec κ UInt8)} {decoders : Bytes → Option (Codec κ' UInt8)}
  {encoding : Bytes} {body : AnyBody Json} {turns : Nat} {bufs : List Bytes}
  {e : Producer.Ending HttpError}

/-- Without a coding the writer returns the plain buffers. -/
theorem bufs_of_plain (hcoding : encoders encoding = none)
    (hrun : Emits (AnyBodyWriter.get turns) (.init encoders encoding junk body) bufs e) :
    bufs = body.buffers junk := by
  rw [AnyBodyWriter.init, hcoding] at hrun
  have hplain : Emits (AnyBodyWriter.get turns)
      ({ proxy := .create junk body, compressor := none } : AnyBodyWriter κ) (body.buffers junk) _ :=
    AnyBodyWriter.emits_plain (body.emits_create junk)
  exact (hrun.unique hplain).1

/-- With a coding it returns the whole output of the codec, and no buffer is empty. -/
theorem bufs_of_codec (h : body.CarriedBy junk contentType) {codec : Codec κ UInt8}
    (hcoding : encoders encoding = some codec) (hclose : ∀ s, codec.close s ≠ [])
    (hrun : Emits (AnyBodyWriter.get turns) (.init encoders encoding junk body) bufs e) :
    bufs.flatten = codec.whole codec.init (body.buffers junk) ∧ ∀ b ∈ bufs, b ≠ [] := by
  have hlonger : (body.buffers junk).length < max turns ((body.buffers junk).length + 1) :=
    Nat.lt_of_lt_of_le (Nat.lt_succ_self _) (Nat.le_max_right _ _)
  obtain ⟨bufs', hrun', -, hflat⟩ :=
    AnyBodyWriter.emits_compressed hclose (body.emits_create junk) hlonger
  rw [AnyBodyWriter.init, hcoding] at hrun
  obtain ⟨rfl, -⟩ := (AnyBodyWriter.emits_of_le (Nat.le_max_left _ _) hrun).unique hrun'
  exact ⟨hflat h.ending, AnyBodyWriter.ne_nil_of_emits hrun rfl⟩

/-- **What one side writes, the other reads**, in any pieces; a form only without a coding. -/
theorem read_text [Platform] (hlib : JsonLib.Streams Json) (hpairs : PairsAt encoders decoders encoding)
    (h : body.CarriedBy junk contentType) (hform : body.NoForm ∨ encoders encoding = none)
    (hrun : Emits (AnyBodyWriter.get turns) (.init encoders encoding junk body) bufs e)
    {contentLength : Option Nat} (hlength : ∀ n ∈ contentLength, n = (body.text junk).length) :
    ∃ r : AnyBodyReader Json κ',
      AnyBodyReader.init decoders contentType encoding contentLength = .ok r ∧
      ∀ pieces : List Bytes, pieces.flatten = bufs.flatten → r.read pieces = some (body.arrives junk) := by
  cases hcoding : encoders encoding with
  | none =>
    obtain ⟨proxy, hcreate, hread⟩ : ∃ proxy : ProxyReader Json, _ ∧
      (ProxyReader.plain κ' proxy).readWhole (body.text junk) = _ := readWhole_text h hlength
    refine ⟨{ proxy, compressor := none }, ?_, fun pieces hpieces => ?_⟩
    · rw [AnyBodyReader.init, hcreate, hpairs.unknown hcoding]
      rfl
    · rw [bufs_of_plain hcoding hrun] at hpieces
      rw [AnyBodyReader.read, hpieces]
      exact hread
  | some codec =>
    obtain ⟨decoder, hdecoder, hpair⟩ := hpairs.pairs hcoding
    obtain ⟨hflat, -⟩ := bufs_of_codec h hcoding hpair.close_ne_nil hrun
    have hnoform := hform.resolve_right fun hnone => by
      rw [hcoding] at hnone
      cases hnone
    have hread : ∀ pieces : List Bytes, pieces.flatten = bufs.flatten →
        ∃ proxy : ProxyReader Json, ProxyReader.create contentType contentLength = .ok proxy ∧
          AnyBodyReader.readChunks { proxy, compressor := some (.init decoder) } pieces =
            some (body.arrives junk) :=
      fun pieces hpieces => readChunks_text hlib h hnoform hlength
        (hpair.whole_eq _ _ (hpieces.trans hflat))
    obtain ⟨proxy, hcreate, -⟩ := hread bufs rfl
    refine ⟨{ proxy, compressor := some (.init decoder) }, ?_, fun pieces hpieces => ?_⟩
    · rw [AnyBodyReader.init, hcreate, hdecoder]
      rfl
    · obtain ⟨proxy', hcreate', hproxy⟩ := hread pieces hpieces
      rw [hcreate] at hcreate'
      cases hcreate'
      exact hproxy

end AnyBody

end Httplib
