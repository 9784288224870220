import Httplib.Lib.Codec

/-!
# Filters that may throw

A filter is a codec whose calls may throw: none stands for an exception. `StreamFilter.Inverse` relates
the two filters of one library, whatever the pieces a text and its stream come in; `ofStep` makes
filters that work item by item, for which the pieces make no difference.
-/

/-- What a filter puts out when it is given a piece, and when it is closed, unless it throws. -/
structure StreamFilter (κ α : Type*) where
  init : κ
  write : κ → List α → Option (List α × κ)
  close : κ → Option (List α)

namespace StreamFilter

variable {κ α : Type*} {f : StreamFilter κ α} {s : κ} {x : List α} {xs : List (List α)}

/-- What is put out after each of some pieces, up to the first that it throws at. -/
def outputs (f : StreamFilter κ α) : κ → List (List α) → List (List α)
  | _, [] => []
  | s, x :: xs =>
    match f.write s x with
    | none => []
    | some (out, t) => out :: f.outputs t xs

/-- All that is put out for some pieces and for closing after them. -/
def whole (f : StreamFilter κ α) : κ → List (List α) → Option (List α)
  | s, [] => f.close s
  | s, x :: xs => (f.write s x).bind fun (out, t) => (f.whole t xs).map (out ++ ·)

@[simp] theorem whole_nil : f.whole s [] = f.close s := rfl

@[simp] theorem whole_cons :
    f.whole s (x :: xs) = (f.write s x).bind fun (out, t) => (f.whole t xs).map (out ++ ·) := rfl

/-- A codec is a filter that does not throw. -/
def ofCodec (c : Codec κ α) : StreamFilter κ α where
  init := c.init
  write s x := some (c.write s x)
  close s := some (c.close s)

/-! ## The two filters of a library -/

/-- A compressor and its decompressor: compressing does not throw, and a complete stream is decompressed
to what was compressed, both in any pieces. -/
structure Inverse (compressor decompressor : StreamFilter κ α) : Prop where
  total : ∀ xs, (compressor.whole compressor.init xs).isSome
  inverse : ∀ xs ys, compressor.whole compressor.init xs = some ys.flatten →
    decompressor.whole decompressor.init ys = some xs.flatten

/-- No stream is empty, and what is not empty is never compressed to what it is decompressed to. -/
structure Distinct (compressor decompressor : StreamFilter κ α) : Prop where
  ne_nil : ∀ xs, compressor.whole compressor.init xs ≠ some []
  differs : ∀ ys, ys.flatten ≠ [] →
    compressor.whole compressor.init ys ≠ decompressor.whole decompressor.init ys

/-- The compressor in the place of the decompressor does not give the text back. -/
theorem Distinct.compressor_ne {compressor decompressor : StreamFilter κ α}
    (hinverse : Inverse compressor decompressor) (h : Distinct compressor decompressor)
    {stream : List α} (hstream : compressor.whole compressor.init xs = some stream) :
    compressor.whole compressor.init [stream] ≠ some xs.flatten := by
  have hne : [stream].flatten ≠ [] := by
    rw [List.flatten_singleton]
    rintro rfl
    exact h.ne_nil xs hstream
  rw [← hinverse.inverse xs [stream] (by rw [List.flatten_singleton, hstream])]
  exact h.differs [stream] hne

/-! ## Filters that work item by item -/

/-- The items of a piece, one after the other. -/
def stepAll (step : κ → α → Option (List α × κ)) : κ → List α → Option (List α × κ)
  | s, [] => some ([], s)
  | s, a :: l => (step s a).bind fun (out, t) => (stepAll step t l).map fun (rest, u) => (out ++ rest, u)

/-- The filter that works item by item. -/
def ofStep (init : κ) (step : κ → α → Option (List α × κ)) (close : κ → Option (List α)) :
    StreamFilter κ α where
  init
  write := stepAll step
  close

theorem stepAll_append (step : κ → α → Option (List α × κ)) (s : κ) (l m : List α) :
    stepAll step s (l ++ m) =
      (stepAll step s l).bind fun (out, t) => (stepAll step t m).map fun (rest, u) => (out ++ rest, u) := by
  induction l generalizing s with
  | nil => cases h : stepAll step s m <;> simp [stepAll, h]
  | cons a l ih =>
    rw [List.cons_append, stepAll, stepAll]
    rcases step s a with _ | ⟨out, t⟩
    · rfl
    · simp only [Option.bind_some, ih]
      rcases stepAll step t l with _ | ⟨rest, u⟩
      · rfl
      · simp only [Option.bind_some, Option.map_some]
        rcases stepAll step u m with _ | ⟨last, v⟩ <;> simp

/-- The pieces make no difference. -/
theorem whole_ofStep (init s : κ) (step : κ → α → Option (List α × κ)) (close : κ → Option (List α))
    (xs : List (List α)) :
    (ofStep init step close).whole s xs =
      (stepAll step s xs.flatten).bind fun (out, t) => (close t).map (out ++ ·) := by
  induction xs generalizing s with
  | nil => cases h : close s <;> simp [ofStep, stepAll, h]
  | cons x xs ih =>
    rw [whole_cons, List.flatten_cons, stepAll_append]
    show (stepAll step s x).bind _ = _
    rcases stepAll step s x with _ | ⟨out, t⟩
    · rfl
    · simp only [Option.bind_some, ih]
      rcases stepAll step t xs.flatten with _ | ⟨rest, u⟩
      · rfl
      · simp only [Option.bind_some, Option.map_some]
        rcases close u with _ | last <;> simp

end StreamFilter
