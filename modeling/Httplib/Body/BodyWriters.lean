import Httplib.Body.AnyBodyWriter
import Httplib.Lib.Chunked

/-!
# Bodies sent in chunks

Under the chunked coding every buffer a body writer returns becomes a chunk, and an empty one is the
chunk that ends the message. `body_writers_never_empty_iff` says of each writer for which bodies none of
its buffers is empty.
-/

namespace Httplib

open Producer (Pull Emits)

section
variable {σ : Type} {get : σ → Pull σ HttpError UInt8} {s : σ} {bufs : List Bytes}
  {e : Producer.Ending HttpError}

/-- No buffer of the writer is empty until it ends, and the chunks they are sent in hold the whole
body. -/
def NeverEmpty (get : σ → Pull σ HttpError UInt8) (s : σ) : Prop :=
  ∀ bufs e, Emits get s bufs e → (∀ b ∈ bufs, b ≠ []) ∧
    Chunked.decode ((bufs.map Chunked.chunk).flatten ++ Chunked.lastChunk) = some (bufs.flatten, [])

/-- The one run of a writer decides it. -/
theorem neverEmpty_iff (h : Emits get s bufs e) : NeverEmpty get s ↔ ∀ b ∈ bufs, b ≠ [] := by
  constructor
  · intro hnever
    exact (hnever bufs e h).1
  · intro hne bufs' e' h'
    obtain ⟨rfl, rfl⟩ := h.unique h'
    have hread := Chunked.decode_chunks bufs hne []
    rw [List.append_nil] at hread
    exact ⟨hne, hread⟩

theorem neverEmpty_singleton_iff {b : Bytes} (h : Emits get s [b] e) :
    NeverEmpty get s ↔ b ≠ [] := by
  rw [neverEmpty_iff h]
  exact List.forall_mem_singleton

end

/-! ## The buffers of the writers -/

/-- Of the buffers of a form, only a content can be empty. -/
theorem FormDataWriter.forall_buffers_ne_nil_iff (boundary : Bytes) (fields : List FormData.Field) :
    (∀ b ∈ buffers boundary fields, b ≠ []) ↔ ∀ f ∈ fields, f.content ≠ [] := by
  have hheader : ∀ f, bytes "--" ++ boundary ++ bytes "\r\n" ++ partHeader f ≠ [] := by
    intro f
    simp [bytes]
  induction fields with
  | nil => simp [buffers]
  | cons f fields ih =>
    cases fields with
    | nil =>
      rw [buffers, List.forall_mem_cons, List.forall_mem_cons, List.forall_mem_singleton,
        List.forall_mem_singleton, and_iff_right (hheader f)]
      exact and_iff_left (by simp [bytes])
    | cons g fields =>
      rw [buffers, List.forall_mem_cons, List.forall_mem_cons, List.forall_mem_cons,
        and_iff_right (hheader f), List.forall_mem_cons]
      exact and_congr_right fun _ => (and_iff_right (by decide)).trans ih

/-- The blocks of a text are not empty. -/
theorem FileWriter.ne_nil_of_mem_chunks {text b : Bytes} (h : b ∈ chunks text) : b ≠ [] := by
  fun_induction chunks text with
  | case1 => cases h
  | case2 text hne ih =>
    rcases List.mem_cons.1 h with rfl | h
    · intro hnil
      rcases List.take_eq_nil_iff.1 hnil with hzero | hnil
      · cases hzero
      · exact hne hnil
    · exact ih h

theorem FileWriter.ne_nil_of_mem_partsBuffers {body : FileBody} {fileSize : Nat} {b : Bytes}
    {ranges : List (Int × Int)} {file : FileStream}
    (h : b ∈ partsBuffers body fileSize file ranges) : b ≠ [] := by
  induction ranges generalizing file with
  | nil => cases h
  | cons range ranges ih =>
    rw [partsBuffers] at h
    rcases List.mem_cons.1 h with rfl | h
    · simp [partHeader, bytes]
    · rcases List.mem_append.1 h with h | h
      · exact ne_nil_of_mem_chunks h
      · -- what ends the part is there only if all of it could be read
        split at h
        · split at h
          · cases List.mem_singleton.1 h
            simp [closing, bytes]
          · rcases List.mem_cons.1 h with rfl | h
            · decide
            · exact ih h
        · cases h

theorem FileBody.ne_nil_of_mem_buffers {body : FileBody} {fileSize : Nat} {b : Bytes}
    (h : b ∈ body.buffers fileSize) : b ≠ [] := by
  unfold buffers at h
  split at h
  · exact FileWriter.ne_nil_of_mem_chunks h
  · exact FileWriter.ne_nil_of_mem_chunks h
  · exact FileWriter.ne_nil_of_mem_partsBuffers h

/-- Every pair is written with a `=` at least. -/
theorem QueryParams.encoded_ne_nil_iff (q : QueryParams) : q.encoded ≠ [] ↔ q.params ≠ [] := by
  rw [encoded]
  cases q.params with
  | nil => simp [join]
  | cons item items => cases items <;> simp [join, bytes]

/-! ## Which bodies are sent whole -/

/-- **The buffers of the body writers.** A form is returned without an empty buffer exactly if no field
has an empty content, a string exactly if it is not empty, query parameters exactly if there are any, and
a file always. -/
theorem body_writers_never_empty_iff (junk : Nat) :
    (∀ form : FormData,
      NeverEmpty FormDataWriter.get { body := form } ↔ ∀ f ∈ form.fields, f.content ≠ []) ∧
    (∀ s : Bytes, NeverEmpty ProxyWriter.get (.string s) ↔ s ≠ []) ∧
    (∀ q : QueryParams, NeverEmpty ProxyWriter.get (.queryParams q.encoded) ↔ q.params ≠ []) ∧
    ∀ body : FileBody, NeverEmpty FileWriter.get (.start body junk) := by
  refine ⟨fun form => ?_, fun s => ?_, fun q => ?_, fun body => ?_⟩
  · by_cases hnil : form.fields = []
    · have hdone : Emits FormDataWriter.get { body := form } [] .done :=
        .done (by simp [FormDataWriter.get, hnil])
      rw [neverEmpty_iff hdone, hnil]
      exact ⟨fun _ _ hf => absurd hf List.not_mem_nil, fun _ _ hb => absurd hb List.not_mem_nil⟩
    · rw [neverEmpty_iff (FormDataWriter.emits_buffers hnil)]
      exact FormDataWriter.forall_buffers_ne_nil_iff form.boundary form.fields
  · exact neverEmpty_singleton_iff (.last (t := .string s) rfl)
  · have hrun : Emits ProxyWriter.get (.queryParams q.encoded) [q.encoded] .last :=
      .last (t := .queryParams q.encoded) rfl
    rw [neverEmpty_singleton_iff hrun]
    exact q.encoded_ne_nil_iff
  · exact (neverEmpty_iff (body.emits_start junk)).2 fun b hb => FileBody.ne_nil_of_mem_buffers hb

/-- A form whose first field has no content: its second buffer is empty, and the receiver takes the body
to end behind the header of that field. -/
theorem form_data_body_writes_empty :
    let form : FormData :=
      { fields := [{ name := bytes "note" }, { name := bytes "id", content := bytes "7" }],
        boundary := bytes "b" }
    let bufs := FormDataWriter.buffers form.boundary form.fields
    Emits FormDataWriter.get { body := form } bufs .last ∧
      (Chunked.decode ((bufs.map Chunked.chunk).flatten ++ Chunked.lastChunk)).map Prod.fst =
        some (bytes "--b\r\nContent-Disposition: form-data; name=\"note\"\r\n\r\n") ∧
      ¬ NeverEmpty FormDataWriter.get { body := form } := by
  intro form bufs
  have hrun : Emits FormDataWriter.get { body := form } bufs .last :=
    FormDataWriter.emits_buffers (List.cons_ne_nil _ _)
  refine ⟨hrun, by decide +kernel, fun hnever => ?_⟩
  exact (hnever _ _ hrun).1 [] (by decide) rfl

end Httplib
