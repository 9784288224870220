import Httplib.Body.FormDataBody

/-!
# The multipart reader does not see where the stream is cut

Inside the content of a part the reader takes as many bytes as it is offered, so one call on a long
piece and several calls on short ones differ; `FormDataReader.advance` is the reader slowed down to
one content byte at a time. Its decisions are final: whatever it takes or refuses, it takes or
refuses when more data follows (`advance_stable`), and every call of `put` is a run of it
(`put_refines`). That is what `Incremental.run_unique` asks for.
-/

namespace Httplib

open Incremental

namespace FormDataReader

variable {r r' : FormDataReader} {data : Bytes} {n : Nat} {e : HttpError}

/-- One decision of the reader: as `put`, but the content of a part is taken byte by byte. -/
def advance (r : FormDataReader) (data : Bytes) : Verdict FormDataReader HttpError :=
  match data with
  | [] => .more
  | c :: _ => if r.step = .boundaryContent ∧ c ≠ 13 then .took 1 (r.push [c]) else r.put data

theorem advance_content {c : UInt8} (h : r.step = .boundaryContent) (hc : c ≠ 13) :
    advance r (c :: data) = .took 1 (r.push [c]) := by
  simp [advance, h, hc]

/-- Outside plain content bytes, a decision is a call of `put`. -/
theorem advance_eq_put (h : r.step = .boundaryContent → startsWith data (bytes "\r"))
    (hne : data ≠ []) : advance r data = r.put data := by
  cases data with
  | nil => exact absurd rfl hne
  | cons c data =>
    rw [advance, if_neg]
    rintro ⟨hs, hc⟩
    have := h hs
    rw [startsWith_iff] at this
    exact hc (List.cons_prefix_cons.1 this).1.symm

/-- **What `put` decides, it decides for every continuation of the data**, unless it is in the
middle of a run of content bytes. -/
theorem put_append (h : r.step = .boundaryContent → startsWith data (bytes "\r")) (q : Bytes) :
    r.put data = .more ∨ r.put (data ++ q) = r.put data := by
  cases hs : r.step with
  | boundaryLine =>
    simp only [put, hs]
    by_cases hlen : data.length < max (boundaryLine r.boundary).length
        (boundaryLineLast r.boundary).length
    · simp [hlen]
    · right
      rw [if_neg hlen, if_neg (by rw [List.length_append]; omega),
        startsWith_append (by omega), startsWith_append (by omega)]
  | boundaryHeader =>
    simp only [put, hs, find_zero]
    cases hf : Search.leftmost (bytes "\r\n\r\n") data with
    | none => exact .inl rfl
    | some pos =>
      right
      have hle : pos + 4 ≤ data.length := Search.leftmost_le hf (by decide)
      rw [Search.leftmost_append hf (by decide)]
      simp only [List.take_append_of_le_length hle]
  | boundaryContent =>
    have hcr := h hs
    have hcr' : startsWith (data ++ q) (bytes "\r") = true := by
      rw [startsWith_append (startsWith_iff.1 hcr).length_le]
      exact hcr
    simp only [put, hs, hcr, hcr', if_true]
    by_cases hlen : data.length < (eofBoundaryLine r.boundary).length
    · simp [hlen]
    · right
      rw [if_neg hlen, if_neg (by rw [List.length_append]; omega), startsWith_append (by omega)]
  | finshed =>
    simp only [put, hs]
    by_cases hlen : data.length < 2
    · simp [hlen]
    · right
      rw [if_neg hlen, if_neg (by rw [List.length_append]; omega),
        startsWith_append (show (bytes "\r\n").length ≤ _ from Nat.not_lt.1 hlen)]
  | eof =>
    right
    simp only [put, hs]

/-- A call of `put` that takes something takes part of what it was offered. -/
theorem put_took_le (h : r.put data = .took n r') (hne : data ≠ []) : 0 < n ∧ n ≤ data.length := by
  have hpos : 0 < data.length := List.length_pos_of_ne_nil hne
  have hdash : (bytes "--").length = 2 := rfl
  have hcrlf : (bytes "\r\n").length = 2 := rfl
  have hl : (boundaryLine r.boundary).length = r.boundary.length + 4 := by
    simp only [boundaryLine, List.length_append]; omega
  have hll : (boundaryLineLast r.boundary).length = r.boundary.length + 4 := by
    simp only [boundaryLineLast, List.length_append]; omega
  cases hs : r.step with
  | boundaryLine =>
    simp only [put, hs] at h
    split at h
    · cases h
    · split at h
      · cases h; omega
      · split at h <;> cases h
        omega
  | boundaryHeader =>
    simp only [put, hs, find_zero] at h
    split at h
    · cases h
    · next pos hf =>
      have hle : pos + 4 ≤ data.length := Search.leftmost_le hf (by decide)
      split at h <;> cases h
      rw [List.length_take]
      omega
  | boundaryContent =>
    simp only [put, hs, find_zero] at h
    split at h
    · split at h
      · cases h
      · next hlen =>
        have : (eofBoundaryLine r.boundary).length = r.boundary.length + 4 := by
          simp only [eofBoundaryLine, List.length_append]
          exact Nat.add_comm _ _
        split at h <;> cases h <;> omega
    · next hcr =>
      split at h <;> cases h
      · omega
      · next hf =>
        have hle : n + 1 ≤ data.length := Search.leftmost_le hf (by decide)
        refine ⟨Nat.pos_of_ne_zero ?_, by omega⟩
        rintro rfl
        exact hcr (startsWith_iff.2 (Search.leftmost_eq_some_iff.1 hf).1)
  | finshed =>
    simp only [put, hs] at h
    split at h
    · cases h
    · split at h <;> cases h
      omega
  | eof =>
    simp only [put, hs] at h
    cases h

/-- The decisions of the reader take part of the data, and stand when more data follows. -/
theorem advance_stable : Stable advance where
  nil _ := rfl
  pos {r data n r'} h := by
    cases data with
    | nil => cases h
    | cons c data =>
      rw [advance] at h
      split at h
      · cases h
        simp
      · exact put_took_le h (List.cons_ne_nil c data)
  took {r data n r'} h q := advance_append h q (by simp)
  fail {r data e} h q := advance_append h q (by simp)
where
  advance_append {r : FormDataReader} {data : Bytes} {v : Verdict FormDataReader HttpError}
      (h : advance r data = v) (q : Bytes) (hv : v ≠ .more) : advance r (data ++ q) = v := by
    cases data with
    | nil => exact absurd h.symm hv
    | cons c data =>
      rw [advance] at h
      rw [List.cons_append, advance]
      split at h
      · next hc => rwa [if_pos hc]
      · next hc =>
        have hcr : r.step = .boundaryContent → startsWith (c :: data) (bytes "\r") := by
          intro hs
          simp only [hs, true_and, not_not] at hc
          simp [hc, bytes]
        rw [if_neg hc, ← List.cons_append]
        rcases put_append hcr q with hm | heq
        · exact absurd (hm.symm.trans h).symm hv
        · rw [heq, h]

/-- A run of content bytes is taken one by one. -/
theorem steps_content (hs : r.step = .boundaryContent) {text : Bytes} (ht : (13 : UInt8) ∉ text)
    (q : Bytes) : Steps advance r (text ++ q) (r.push text) q := by
  induction text generalizing r with
  | nil => simpa [push] using Steps.refl
  | cons c text ih =>
    have hc : c ≠ 13 := fun h => ht (by simp [h])
    have htail := ih (r := r.push [c]) hs (fun h => ht (List.mem_cons_of_mem c h))
    refine .head (advance_content hs hc) ?_
    simpa [push] using htail

/-- Every call of the reader is a run of its decisions. -/
theorem put_refines : Refines put advance where
  took {r data n r'} hne h := by
    obtain ⟨hpos, hle⟩ := put_took_le h hne
    refine ⟨hpos, hle, ?_⟩
    by_cases hcr : r.step = .boundaryContent → startsWith data (bytes "\r")
    · exact Steps.single (by rw [advance_eq_put hcr hne, h])
    · obtain ⟨hs, hcr⟩ := Classical.not_imp.1 hcr
      simp only [put, hs, hcr, find_zero] at h
      rw [if_neg (by simp)] at h
      split at h
      · next hf =>
        cases h
        have := steps_content hs (Search.leftmost_singleton_eq_none_iff.1 hf) []
        simpa using this
      · next pos hf =>
        cases h
        have := steps_content hs (Search.not_mem_take_leftmost hf) (data.drop n)
        rwa [List.take_append_drop] at this
  more hne h := advance_of_not_took hne h (by simp)
  fail hne h := advance_of_not_took hne h (by simp)
where
  /-- A run of content bytes is always taken, so a call that takes nothing is a decision. -/
  advance_of_not_took {r : FormDataReader} {data : Bytes} {v : Verdict FormDataReader HttpError}
      (hne : data ≠ []) (h : r.put data = v) (hv : ∀ n r', v ≠ .took n r') :
      advance r data = v := by
    by_cases hcr : r.step = .boundaryContent → startsWith data (bytes "\r")
    · rw [advance_eq_put hcr hne, h]
    · obtain ⟨hs, hcr⟩ := Classical.not_imp.1 hcr
      simp only [put, hs, hcr] at h
      rw [if_neg (by simp)] at h
      split at h <;> exact absurd h.symm (hv _ _)

/-- **The reader does not see where the stream is cut.** Two complete deliveries of one stream, in
any pieces and with the calls made at any time, leave the reader in the same state (parsed fields,
partially read field and step), with the same number of bytes taken and the same outcome; and no
call on data takes nothing without reporting why. -/
theorem put_delivery_independent {stream : Bytes} {c₁ c₂ : Config FormDataReader UInt8}
    {o₁ o₂ : Option HttpError}
    (h₁ : Relation.ReflTransGen (Delivery put) ⟨r, [], stream⟩ c₁) (hf₁ : Final put c₁ o₁)
    (h₂ : Relation.ReflTransGen (Delivery put) ⟨r, [], stream⟩ c₂) (hf₂ : Final put c₂ o₂) :
    (c₁.state.fields = c₂.state.fields ∧ c₁.state.fieldData = c₂.state.fieldData ∧
      c₁.state.step = c₂.state.step ∧
      stream.length - c₁.rest.length = stream.length - c₂.rest.length ∧
      o₁ = o₂ ∧ c₁.state.finish = c₂.state.finish) ∧
    ∀ (r : FormDataReader) (data : Bytes) (n : Nat) (r' : FormDataReader),
      data ≠ [] → r.put data = .took n r' → 0 < n := by
  obtain ⟨hs, hr, ho⟩ := run_unique advance_stable put_refines h₁ hf₁ h₂ hf₂
  rw [hs, hr, ho]
  exact ⟨⟨rfl, rfl, rfl, rfl, rfl, rfl⟩, fun _ _ _ _ hne h => (put_took_le h hne).1⟩

/-- The closing boundary of an empty body, delivered at once and cut inside its dashes. -/
theorem put_delivery_independent_cut :
    ∃ c₁ c₂ : Config FormDataReader UInt8,
      Relation.ReflTransGen (Delivery put) ⟨{ boundary := bytes "b" }, [], bytes "--b--\r\n"⟩ c₁ ∧
      Relation.ReflTransGen (Delivery put) ⟨{ boundary := bytes "b" }, [], bytes "--b--\r\n"⟩ c₂ ∧
      c₁.state.step = .eof ∧ c₁.state.finish = c₂.state.finish := by
  let r : FormDataReader := { boundary := bytes "b" }
  let eof : Config FormDataReader UInt8 := ⟨{ r with step := .eof }, [], []⟩
  have hwhole : Relation.ReflTransGen (Delivery put) ⟨r, [], bytes "--b--\r\n"⟩ eof :=
    .head (.arrive (p := bytes "--b--\r\n") (q := []))
      (.head (.call (n := 5) (t := { r with step := .finshed }) (by decide) (by decide))
        (.single (.call (n := 2) (by decide) (by decide))))
  have hcut : Relation.ReflTransGen (Delivery put) ⟨r, [], bytes "--b--\r\n"⟩ eof :=
    .head (.arrive (p := bytes "--b-") (q := bytes "-\r\n"))
      (.head (.wait (by decide) (by decide))
        (.head (.arrive (p := bytes "-\r\n") (q := []))
          (.head (.call (n := 5) (t := { r with step := .finshed }) (by decide) (by decide))
            (.single (.call (n := 2) (by decide) (by decide))))))
  exact ⟨eof, eof, hwhole, hcut, rfl,
    (put_delivery_independent hwhole .taken hcut .taken).1.2.2.2.2.2⟩

end FormDataReader

end Httplib
