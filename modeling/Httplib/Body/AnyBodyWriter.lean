import Httplib.Body.AnyBody
import Httplib.Body.FileRead
import Httplib.Body.FormDataRoundTrip

/-!
# Compressed output

`AnyBody.emits_create` gives the buffers and the end of every plain writer. Behind a compressor the
writer ends as the plain one does (`AnyBodyWriter.emits_compressed`); but only a last buffer closes
the codec, and a plain writer that signals its end with none leaves a stream that was never closed:
`compressed_output_iff`.
-/

namespace Httplib

open Producer (Pull Emits)

/-! ## The plain writers -/

namespace AnyBody

variable {Json : Type} [JsonLib Json]

/-- The buffers the plain writer of a body returns. -/
def buffers (junk : Nat) : AnyBody Json → List Bytes
  | .empty => []
  | .string s => [s]
  | .json v => (JsonLib.serialize v).1 :: (JsonLib.serialize v).2
  | .formData form => FormDataWriter.buffers form.boundary form.fields
  | .file f => f.buffers junk
  | .queryParams q => [q.encoded]

/-- How the plain writer of a body ends. -/
def ending : AnyBody Json → Producer.Ending HttpError
  | .empty => .done
  | .formData form => if form.fields = [] then .done else .last
  | .file f => f.ending
  | .string _ | .json _ | .queryParams _ => .last

/-- The plain writer of the body ends with a buffer: the body is not empty, and neither is the form
or the part of the file it holds, which can be read. -/
def EndsWithBuffer : AnyBody Json → Prop
  | .empty => False
  | .formData form => form.fields ≠ []
  | .file f => f.EndsWithBuffer
  | .string _ | .json _ | .queryParams _ => True

theorem emits_json (first : Bytes) (rest : List Bytes) :
    Emits ProxyWriter.get (.json (first, rest)) (first :: rest) .last := by
  induction rest generalizing first with
  | nil => exact .last (t := .json ([], [])) rfl
  | cons next rest ih => exact .more (t := .json (next, rest)) rfl (ih next)

/-- **Every run of a plain writer ends**, with these buffers and in this way. -/
theorem emits_create (junk : Nat) (body : AnyBody Json) :
    Emits ProxyWriter.get (.create junk body) (body.buffers junk) body.ending := by
  cases body with
  | empty => exact .done rfl
  | string s => exact .last (t := .string s) rfl
  | json v => exact emits_json _ _
  | formData form =>
    rw [ending]
    split
    · next h =>
      rw [buffers, h]
      exact .done (by simp [ProxyWriter.create, ProxyWriter.get, FormDataWriter.get, h, Pull.map])
    · next h => exact (FormDataWriter.emits_buffers h).map (f := ProxyWriter.formData) fun _ => rfl
  | file f => exact (f.emits_start junk).map (f := ProxyWriter.file) fun _ => rfl
  | queryParams q => exact .last (t := .queryParams q.encoded) rfl

omit [JsonLib Json] in
theorem ending_eq_last_iff (body : AnyBody Json) : body.ending = .last ↔ body.EndsWithBuffer := by
  cases body with
  | file f => exact f.ending_eq_last_iff
  | formData form =>
    rw [ending, EndsWithBuffer]
    split <;> simp_all
  | empty | string | json | queryParams => simp [ending, EndsWithBuffer]

/-- A plain run that ends without a last buffer returned none. -/
theorem buffers_eq_nil_of_done {body : AnyBody Json} (junk : Nat) (h : body.ending = .done) :
    body.buffers junk = [] := by
  cases body with
  | empty => rfl
  | formData form =>
    rw [ending] at h
    split at h
    · next hnil => rw [buffers, hnil, FormDataWriter.buffers]
    · cases h
  | file f => exact FileBody.buffers_eq_nil_of_done junk h
  | string | json | queryParams => cases h

end AnyBody

/-! ## Behind a compressor -/

namespace AnyBodyWriter

variable {κ : Type} {codec : Codec κ UInt8} {proxy : ProxyWriter} {plain : List Bytes}
  {e : Producer.Ending HttpError} {turns : Nat}

/-- **The compressed run ends as the plain one**, and where that ends with a buffer, its buffers put
together are the whole output of the codec, closed once. The induction is on the plain run; `k` turns
of the loop are left in the call that is being made. -/
theorem emits_compressed_from (hclose : ∀ s, codec.close s ≠ [])
    (h : Emits ProxyWriter.get proxy plain e) (hturns : plain.length < turns) {k : Nat}
    (hk : plain.length < k) {s : κ} {w : AnyBodyWriter κ}
    (hw : get turns w = getLoop { codec, state := some s } k proxy) :
    ∃ bufs, Emits (get turns) w bufs e ∧ (plain = [] → bufs = []) ∧
      (e = .last → bufs.flatten = codec.whole s plain) := by
  induction h generalizing k s w with
  | done hg =>
    obtain ⟨k, rfl⟩ := Nat.exists_eq_succ_of_ne_zero (Nat.ne_zero_of_lt hk)
    rw [getLoop, hg] at hw
    exact ⟨[], .done hw, fun _ => rfl, nofun⟩
  | fail hg =>
    obtain ⟨k, rfl⟩ := Nat.exists_eq_succ_of_ne_zero (Nat.ne_zero_of_lt hk)
    rw [getLoop, hg] at hw
    exact ⟨[], .fail hw, fun _ => rfl, nofun⟩
  | @last p b p' hg =>
    obtain ⟨k, rfl⟩ := Nat.exists_eq_succ_of_ne_zero (Nat.ne_zero_of_lt hk)
    have hne : (codec.write s b).1 ++ codec.close (codec.write s b).2 ≠ [] :=
      fun hnil => hclose _ (List.append_eq_nil_iff.1 hnil).2
    rw [getLoop, hg] at hw
    simp only [Compressor.write, Compressor.finish, List.nil_append, Bool.false_eq_true,
      if_false] at hw
    rw [if_pos hne] at hw
    exact ⟨[_], .last hw, nofun, fun _ => by simp⟩
  | @more p b p' bs e hg _ ih =>
    obtain ⟨k, rfl⟩ := Nat.exists_eq_succ_of_ne_zero (Nat.ne_zero_of_lt hk)
    rw [List.length_cons] at hturns hk
    rw [getLoop, hg] at hw
    simp only [Compressor.write, List.nil_append, if_true] at hw
    by_cases hout : (codec.write s b).1 = []
    · rw [if_neg (not_not.2 hout), hout] at hw
      obtain ⟨bufs, hrun, hnil, hflat⟩ := ih (by omega) (by omega) hw
      refine ⟨bufs, hrun, nofun, fun he => ?_⟩
      rw [hflat he, Codec.whole_cons, hout, List.nil_append]
    · rw [if_pos hout] at hw
      obtain ⟨bufs, hrun, hnil, hflat⟩ := ih (by omega) (k := turns) (by omega)
        (w := { proxy := p', compressor := some { codec, state := some (codec.write s b).2,
                                                  buffer := (codec.write s b).1 } }) rfl
      refine ⟨_, .more hw hrun, nofun, fun he => ?_⟩
      rw [List.flatten_cons, hflat he, Codec.whole_cons]

/-- The compressed run of a body, from the start. -/
theorem emits_compressed (hclose : ∀ s, codec.close s ≠ [])
    (h : Emits ProxyWriter.get proxy plain e) (hturns : plain.length < turns) :
    ∃ bufs, Emits (get turns) { proxy, compressor := some (.init codec) } bufs e ∧
      (plain = [] → bufs = []) ∧ (e = .last → bufs.flatten = codec.whole codec.init plain) :=
  emits_compressed_from hclose h hturns hturns rfl

/-- Without a compressor the run is the plain one. -/
theorem emits_plain (h : Emits ProxyWriter.get proxy plain e) :
    Emits (get turns) ({ proxy, compressor := none } : AnyBodyWriter κ) plain e :=
  Emits.map (f := fun proxy => (⟨proxy, none⟩ : AnyBodyWriter κ)) (fun _ => rfl) h

end AnyBodyWriter

/-- **When compressed output is complete.** For every body, every registered `Content-Encoding` whose
codec encodes, and turns enough for the loop of `get`: the writer returns buffers to its end without
an error, and these put together are decoded to the buffers of the plain writer put together, exactly
when the plain writer ends with a buffer. A plain writer that signals its end with none makes `get`
return before it has closed the codec. -/
theorem compressed_output_iff {Json κ : Type} [JsonLib Json] (body : AnyBody Json) (junk : Nat)
    {creators : Bytes → Option (Codec κ UInt8)} {identity encoding : Bytes} {codec : Codec κ UInt8}
    {decode : Bytes → Option Bytes} (hidentity : creators identity = none)
    (hcodec : creators encoding = some codec) (hencodes : codec.Encodes decode) {turns : Nat}
    {plain : List Bytes} {e : Producer.Ending HttpError}
    (hplain : Emits (AnyBodyWriter.get turns) (.init creators identity junk body) plain e)
    (hturns : plain.length < turns) :
    (∃ bufs e', Emits (AnyBodyWriter.get turns) (.init creators encoding junk body) bufs e' ∧
      (∀ x, e' ≠ .failed x) ∧ decode bufs.flatten = some plain.flatten) ↔ body.EndsWithBuffer := by
  have hrun := body.emits_create junk
  simp only [AnyBodyWriter.init, hidentity, hcodec, Option.map_none, Option.map_some] at hplain ⊢
  obtain ⟨rfl, rfl⟩ := hplain.unique (AnyBodyWriter.emits_plain hrun)
  obtain ⟨bufs, hbufs, hnil, hlast⟩ :=
    AnyBodyWriter.emits_compressed hencodes.close_ne_nil hrun hturns
  rw [← AnyBody.ending_eq_last_iff]
  constructor
  · rintro ⟨bufs', e', h', hok, hdecode⟩
    obtain ⟨rfl, rfl⟩ := h'.unique hbufs
    cases he : body.ending with
    | last => rfl
    | failed x => exact absurd he (hok x)
    | done =>
      rw [hnil (AnyBody.buffers_eq_nil_of_done junk he), List.flatten_nil,
        hencodes.decode_nil] at hdecode
      cases hdecode
  · intro he
    refine ⟨bufs, _, hbufs, fun x hx => ?_, ?_⟩
    · rw [he] at hx
      cases hx
    · rw [hlast he]
      exact hencodes.complete _

/-- An encoder that keeps the text until it is closed, as a compressor does with a short text, and
then puts it out behind a marker. -/
def storedCodec : Codec Bytes UInt8 where
  init := []
  write kept b := ([], kept ++ b)
  close kept := 1 :: kept

theorem storedCodec_encodes : storedCodec.Encodes List.tail? where
  complete xs := by
    have h : ∀ s xs, storedCodec.whole s xs = 1 :: (s ++ xs.flatten) := by
      intro s xs
      induction xs generalizing s with
      | nil => simp [storedCodec]
      | cons x xs ih => rw [Codec.whole_cons, ih]; simp [storedCodec]
    rw [h]
    rfl
  close_ne_nil s := List.cons_ne_nil 1 s
  decode_nil := rfl

/-- The JSON value `null` and no other. -/
@[reducible] def nullJson : JsonLib Unit where
  serialize _ := (bytes "null", [])
  Parser := Bytes
  parser := []
  writeSome text b := (text ++ b, b.length, false)
  done text := text == bytes "null"
  release _ := ()

/-- A compressed string body. -/
theorem compressed_output_string :
    letI := nullJson
    ∃ bufs e', Emits (AnyBodyWriter.get 2)
        (.init (fun name => if name = bytes "gzip" then some storedCodec else none) (bytes "gzip") 0
          (.string (bytes "hello") : AnyBody Unit)) bufs e' ∧
      (∀ x, e' ≠ .failed x) ∧ List.tail? bufs.flatten = some (bytes "hello") := by
  let _ := nullJson
  have hplain : Emits (AnyBodyWriter.get 2)
      (.init (fun name => if name = bytes "gzip" then some storedCodec else none) [] 0
        (.string (bytes "hello") : AnyBody Unit)) [bytes "hello"] .last :=
    .last (t := ⟨.string (bytes "hello"), none⟩) rfl
  exact (compressed_output_iff (.string (bytes "hello")) 0 rfl rfl storedCodec_encodes hplain
    (by decide)).2 trivial

/-- The empty body, for which the writer returns nothing under any `Content-Encoding`. -/
theorem compressed_output_empty :
    letI := nullJson
    ¬ ∀ (body : AnyBody Unit) (creators : Bytes → Option (Codec Bytes UInt8)) (identity encoding)
      (codec : Codec Bytes UInt8) (decode : Bytes → Option Bytes) (turns : Nat) (plain : List Bytes)
      (e : Producer.Ending HttpError), creators identity = none → creators encoding = some codec →
      codec.Encodes decode →
      Emits (AnyBodyWriter.get turns) (.init creators identity 0 body) plain e →
      plain.length < turns →
      ∃ bufs e', Emits (AnyBodyWriter.get turns) (.init creators encoding 0 body) bufs e' ∧
        (∀ x, e' ≠ .failed x) ∧ decode bufs.flatten = some plain.flatten := by
  intro h
  obtain ⟨bufs, e', hrun, -, hdecode⟩ := h .empty
    (fun name => if name = bytes "gzip" then some storedCodec else none) [] (bytes "gzip")
    storedCodec List.tail? 1 [] .done rfl rfl storedCodec_encodes (.done rfl) (by decide)
  obtain ⟨rfl, -⟩ := hrun.unique (.done rfl)
  cases hdecode

end Httplib
