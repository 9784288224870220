import Httplib.Util.Misc

/-!
# The chunk handler of the client

`http_client::impl::set_chunk_handler` (`lib/client/client_impl.cpp:176`) and the reading of a chunked
body with it. Beast's parser is taken as it is documented: between the chunks it finds its way by their
headers, and in a chunk it asks the callback how far to go on. `chunk_delivery_iff` says for which
divisions of the body into reads the handler is given the body.
-/

namespace Httplib

/-- What is left of the response body on the connection: a chunk with all that stands in front of its
data, the end of the line of the chunk before included. -/
structure Chunk where
  header : Bytes
  data : Bytes
  header_ne_nil : header ≠ [] := by decide
  data_ne_nil : data ≠ [] := by decide

/-- A chunked body: its chunks, and the last chunk with the trailer. -/
structure ChunkedBody where
  chunks : List Chunk
  last : Bytes
  last_ne_nil : last ≠ [] := by decide

namespace ChunkedBody

/-- The bytes on the connection, from some chunk on. -/
def wireFrom (last : Bytes) (chunks : List Chunk) : Bytes :=
  chunks.flatMap (fun c => c.header ++ c.data) ++ last

def wire (b : ChunkedBody) : Bytes := wireFrom b.last b.chunks

/-- The response body. -/
def body (b : ChunkedBody) : Bytes := b.chunks.flatMap (·.data)

end ChunkedBody

/-! ## The parser -/

/-- Where the parser is in the framing. -/
inductive ChunkPhase where
  /-- In front of the header of the next of these chunks, or of the last chunk. -/
  | header (ahead : List Chunk)
  /-- In the data of a chunk, of which this is not consumed yet. -/
  | body (rest : Bytes) (ahead : List Chunk) (rest_ne_nil : rest ≠ [])
  | complete
  /-- What the parser takes for the end of the chunk is not. -/
  | outOfStep

/-- A callback for the data of a chunk, with the state it changes: given `remain` and the received part,
it returns how far the parser advances. -/
abbrev ChunkCallback (σ : Type) := σ → Nat → Bytes → σ × Nat

/-- The lambda of `set_chunk_handler` (`client_impl.cpp:182`), of a handler that reports no error. -/
def chunkCallback {σ : Type} (handler : σ → Bytes → σ) : ChunkCallback σ :=
  fun s remain body => (handler s body, remain)

/-- `http_client::impl::set_chunk_handler` (`client_impl.cpp:176`): the `chunk_handler_`. -/
def setChunkHandler {σ : Type} (handler : Option (σ → Bytes → σ)) : Option (ChunkCallback σ) :=
  handler.map chunkCallback

/-- The callback of the parser of `async_send_request_impl` (`client_impl.cpp:161`): without a
`chunk_handler_`, the body reader takes what is received. -/
def onChunkBody {σ : Type} (chunkHandler : Option (ChunkCallback σ)) : ChunkCallback σ :=
  chunkHandler.getD fun s _ body => (s, body.length)

/-- The response parser in a chunked body: what it has received and not consumed, where it is, and the
state of the handler. -/
structure ChunkParser (σ : Type) where
  buffer : Bytes
  phase : ChunkPhase
  handler : σ

namespace ChunkParser

variable {σ : Type}

/-- One turn of the parser, none if it needs more bytes: a header is consumed when it is there, and in
the data the callback is asked when a byte is there. The count of the callback is taken off what remains
of the chunk, and off the buffer as far as that goes. -/
def step (callback : ChunkCallback σ) (last : Bytes) (p : ChunkParser σ) : Option (ChunkParser σ) :=
  match p.phase with
  | .header [] =>
    if last.length ≤ p.buffer.length then
      some { p with buffer := p.buffer.drop last.length, phase := .complete }
    else none
  | .header (c :: ahead) =>
    if c.header.length ≤ p.buffer.length then
      some { p with buffer := p.buffer.drop c.header.length, phase := .body c.data ahead c.data_ne_nil }
    else none
  | .body rest ahead _ =>
    if p.buffer = [] then none
    else
      let (handler, n) := callback p.handler rest.length (p.buffer.take rest.length)
      let left := rest.drop (min n p.buffer.length)
      some
        { buffer := p.buffer.drop n
          handler
          phase :=
            if left.length ≠ rest.length - n then .outOfStep
            else if hleft : left = [] then .header ahead
            else .body left ahead hleft }
  | .complete | .outOfStep => none

/-- The turns until more bytes are needed. -/
def settle (callback : ChunkCallback σ) (last : Bytes) : Nat → ChunkParser σ → ChunkParser σ
  | 0, p => p
  | turns + 1, p =>
    match p.step callback last with
    | none => p
    | some p => settle callback last turns p

/-- Bytes are received. -/
def push (p : ChunkParser σ) (data : Bytes) : ChunkParser σ := { p with buffer := p.buffer ++ data }

/-- `async_read_some` over and over (`client_impl.cpp:165`), with what each read receives: every turn
consumes a byte at least. -/
def readAll (callback : ChunkCallback σ) (last : Bytes) (p : ChunkParser σ) : List Bytes → ChunkParser σ
  | [] => p
  | data :: reads =>
    readAll callback last (settle callback last (p.push data).buffer.length (p.push data)) reads

end ChunkParser

/-- What a handler is passed, one after the other. -/
def recordView (views : List Bytes) (view : Bytes) : List Bytes := views ++ [view]

/-- The parser behind the header of a response. -/
def ChunkedBody.start (b : ChunkedBody) : ChunkParser (List Bytes) :=
  { buffer := [], phase := .header b.chunks, handler := [] }

/-! ## Settling -/

namespace ChunkParser

section
variable {last : Bytes} {p q : ChunkParser (List Bytes)}

/-- The callback for a handler that keeps what it is passed. -/
def recorded : ChunkCallback (List Bytes) := onChunkBody (setChunkHandler (some recordView))

/-- The recording handler appends the view and gives back what remains. -/
theorem recorded_eq (views : List Bytes) (remain : Nat) (body : Bytes) :
    recorded views remain body = (views ++ [body], remain) := rfl

/-- What a turn can be. -/
inductive Turn (last : Bytes) : ChunkParser (List Bytes) → ChunkParser (List Bytes) → Prop
  | last {front buffer : Bytes} {views : List Bytes} (h : front.length = last.length) :
    Turn last ⟨front ++ buffer, .header [], views⟩ ⟨buffer, .complete, views⟩
  | header {front buffer : Bytes} {c : Chunk} {ahead : List Chunk} {views : List Bytes}
      (h : front.length = c.header.length) :
    Turn last ⟨front ++ buffer, .header (c :: ahead), views⟩
      ⟨buffer, .body c.data ahead c.data_ne_nil, views⟩
  /-- The data of the chunk is all received. -/
  | data {front buffer rest : Bytes} {ahead : List Chunk} {hne : rest ≠ []} {views : List Bytes}
      (h : front.length = rest.length) :
    Turn last ⟨front ++ buffer, .body rest ahead hne, views⟩ ⟨buffer, .header ahead, views ++ [front]⟩
  /-- Only a part of it is: the parser counts all of it as consumed. -/
  | part {buffer rest : Bytes} {ahead : List Chunk} {hne : rest ≠ []} {views : List Bytes}
      (hbuffer : buffer ≠ []) (h : buffer.length < rest.length) :
    Turn last ⟨buffer, .body rest ahead hne, views⟩ ⟨[], .outOfStep, views ++ [buffer]⟩

/-- Each turn of the parser is the step it names. -/
theorem Turn.step_eq (h : Turn last p q) : p.step recorded last = some q := by
  cases h with
  | last h => simp [step, ← h]
  | header h => simp [step, ← h]
  | @data front buffer rest ahead hne views h =>
    have hfront : front ≠ [] := by
      rintro rfl
      exact hne (List.length_eq_zero_iff.1 h.symm)
    simp [step, recorded_eq, hfront, ← h]
  | part hbuffer h =>
    have hleft := Nat.sub_ne_zero_of_lt h
    simp [step, recorded_eq, hbuffer, hleft, List.take_of_length_le h.le, h.le]

/-- And each step of the recording parser is one of the turns. -/
theorem turn_of_step (h : p.step recorded last = some q) : Turn last p q := by
  have hcut : ∀ {n : Nat} {l : Bytes}, n ≤ l.length →
      ∃ front back, l = front ++ back ∧ front.length = n :=
    fun {n l} hle => ⟨l.take n, l.drop n, (List.take_append_drop n l).symm, List.length_take_of_le hle⟩
  suffices ∃ q', Turn last p q' by
    obtain ⟨q', hturn⟩ := this
    cases h.symm.trans hturn.step_eq
    exact hturn
  obtain ⟨buffer, phase, views⟩ := p
  cases phase with
  | header ahead =>
    cases ahead with
    | nil =>
      rcases Nat.lt_or_ge buffer.length last.length with hlt | hge
      · simp only [step, Option.ite_none_right_eq_some] at h
        exact absurd h.1 (Nat.not_le.2 hlt)
      · obtain ⟨front, back, rfl, hfront⟩ := hcut hge
        exact ⟨_, .last hfront⟩
    | cons c ahead =>
      rcases Nat.lt_or_ge buffer.length c.header.length with hlt | hge
      · simp only [step, Option.ite_none_right_eq_some] at h
        exact absurd h.1 (Nat.not_le.2 hlt)
      · obtain ⟨front, back, rfl, hfront⟩ := hcut hge
        exact ⟨_, .header hfront⟩
  | body rest ahead hne =>
    rcases Nat.lt_or_ge buffer.length rest.length with hlt | hge
    · refine ⟨_, .part ?_ hlt⟩
      rintro rfl
      simp [step] at h
    · obtain ⟨front, back, rfl, hfront⟩ := hcut hge
      exact ⟨_, .data hfront⟩
  | complete | outOfStep => cases h

/-- Every turn consumes something. -/
theorem Turn.shrinks (hlast : last ≠ []) (h : Turn last p q) : q.buffer.length < p.buffer.length := by
  cases h with
  | last h => simpa [h] using List.length_pos_of_ne_nil hlast
  | @header front buffer c ahead views h => simpa [h] using List.length_pos_of_ne_nil c.header_ne_nil
  | @data front buffer rest ahead hne views h => simpa [h] using List.length_pos_of_ne_nil hne
  | part hbuffer h => exact List.length_pos_of_ne_nil hbuffer

/-- A turn is the same with more bytes behind, as long as the parser stays in step. -/
theorem Turn.push (h : Turn last p q) (hphase : q.phase ≠ .outOfStep) (data : Bytes) :
    Turn last (p.push data) (q.push data) := by
  cases h with
  | last h =>
    rw [ChunkParser.push, List.append_assoc]
    exact .last h
  | header h =>
    rw [ChunkParser.push, List.append_assoc]
    exact .header h
  | data h =>
    rw [ChunkParser.push, List.append_assoc]
    exact .data h
  | part hbuffer h => exact absurd rfl hphase

/-- The turns that the bytes received allow. -/
def settled (last : Bytes) (p : ChunkParser (List Bytes)) : ChunkParser (List Bytes) :=
  settle recorded last p.buffer.length p

/-- A parser without a step is settled. -/
theorem settle_of_none (h : p.step recorded last = none) (turns : Nat) :
    settle recorded last turns p = p := by
  cases turns with
  | zero => rfl
  | succ turns => rw [settle, h]

/-- More turns than the buffer has bytes make no difference. -/
theorem settle_eq (hlast : last ≠ []) {m n : Nat} (hm : p.buffer.length ≤ m)
    (hn : p.buffer.length ≤ n) : settle recorded last m p = settle recorded last n p := by
  induction m generalizing n p with
  | zero =>
    have hnone : p.step recorded last = none := by
      cases hstep : p.step recorded last with
      | none => rfl
      | some q =>
        have hlt := (turn_of_step hstep).shrinks hlast
        omega
    rw [settle_of_none hnone, settle_of_none hnone]
  | succ m ih =>
    cases hstep : p.step recorded last with
    | none => rw [settle_of_none hstep, settle_of_none hstep]
    | some q =>
      have hlt := (turn_of_step hstep).shrinks hlast
      obtain ⟨n, rfl⟩ := Nat.exists_eq_succ_of_ne_zero (Nat.ne_zero_of_lt (hlt.trans_le hn))
      rw [settle, settle, hstep]
      exact ih (by omega) (by omega)

/-- A parser without a step is its own settled state. -/
theorem settled_of_none (h : p.step recorded last = none) : settled last p = p :=
  settle_of_none h _

/-- A turn does not change the state the parser settles in. -/
theorem Turn.settled (hlast : last ≠ []) (h : Turn last p q) :
    settled last p = settled last q := by
  have hlt := h.shrinks hlast
  obtain ⟨turns, hturns⟩ := Nat.exists_eq_succ_of_ne_zero (Nat.ne_zero_of_lt hlt)
  rw [ChunkParser.settled, hturns, settle, h.step_eq]
  exact settle_eq hlast (by omega) (Nat.le_refl _)

/-- A parser out of step stays as it is. -/
theorem settled_of_outOfStep (h : p.phase = .outOfStep) : settled last p = p := by
  refine settled_of_none ?_
  rw [step, h]

/-- **Settling in between makes no difference**, as long as the parser stays in step. -/
theorem settled_push (hlast : last ≠ []) (hphase : (settled last p).phase ≠ .outOfStep) (data : Bytes) :
    settled last (p.push data) = settled last ((settled last p).push data) := by
  induction hn : p.buffer.length using Nat.strong_induction_on generalizing p with
  | h n ih =>
    cases hstep : p.step recorded last with
    | none => rw [settled_of_none hstep]
    | some q =>
      have hturn := turn_of_step hstep
      rw [hturn.settled hlast] at hphase ⊢
      have hq : q.phase ≠ .outOfStep := by
        intro hq
        rw [settled_of_outOfStep hq] at hphase
        exact hphase hq
      rw [(hturn.push hq data).settled hlast]
      exact ih _ (hn ▸ hturn.shrinks hlast) hphase rfl

/-- No further read brings a parser back into step. -/
theorem readAll_of_outOfStep (h : p.phase = .outOfStep) (reads : List Bytes) :
    (p.readAll recorded last reads).phase = .outOfStep := by
  induction reads generalizing p with
  | nil => exact h
  | cons data reads ih =>
    refine ih ?_
    exact (congrArg phase (settled_of_outOfStep (p := p.push data) h)).trans h

/-- **All reads together**: the parser loses its step after one of them, or it ends where one read of all
the bytes ends. -/
theorem readAll_settled (hlast : last ≠ []) {received : Bytes}
    (hphase : (settled last (p.push received)).phase ≠ .outOfStep) (reads : List Bytes) :
    ((∃ pre post, reads = pre ++ post ∧
        (settled last (p.push (received ++ pre.flatten))).phase = .outOfStep) ∧
      ((settled last (p.push received)).readAll recorded last reads).phase = .outOfStep) ∨
    ((∀ pre post, reads = pre ++ post →
        (settled last (p.push (received ++ pre.flatten))).phase ≠ .outOfStep) ∧
      (settled last (p.push received)).readAll recorded last reads =
        settled last (p.push (received ++ reads.flatten))) := by
  induction reads generalizing received with
  | nil =>
    refine .inr ⟨fun pre post hreads => ?_, ?_⟩
    · obtain ⟨rfl, -⟩ := List.append_eq_nil_iff.1 hreads.symm
      rwa [List.flatten_nil, List.append_nil]
    · rw [List.flatten_nil, List.append_nil]
      rfl
  | cons data reads ih =>
    have hpush : (p.push received).push data = p.push (received ++ data) := by
      simp only [push, List.append_assoc]
    have hread : (settled last (p.push received)).readAll recorded last (data :: reads) =
        (settled last (p.push (received ++ data))).readAll recorded last reads := by
      rw [← hpush, settled_push hlast hphase]
      rfl
    have hflatten : ∀ pre : List Bytes,
        received ++ (data :: pre).flatten = received ++ data ++ pre.flatten := by
      intro pre
      rw [List.flatten_cons, List.append_assoc]
    rw [hread]
    by_cases hdata : (settled last (p.push (received ++ data))).phase = .outOfStep
    · refine .inl ⟨⟨[data], reads, rfl, ?_⟩, readAll_of_outOfStep hdata reads⟩
      rwa [List.flatten_singleton]
    · rcases ih hdata with ⟨⟨pre, post, rfl, hlost⟩, hend⟩ | ⟨hnever, hend⟩
      · refine .inl ⟨⟨data :: pre, post, rfl, ?_⟩, hend⟩
        rwa [hflatten]
      · refine .inr ⟨fun pre post hreads => ?_, ?_⟩
        · rcases List.cons_eq_append_iff.1 hreads with ⟨rfl, -⟩ | ⟨pre, rfl, hrest⟩
          · rwa [List.flatten_nil, List.append_nil]
          · rw [hflatten]
            exact hnever pre post hrest
        · rw [hend, hflatten]

end

end ChunkParser

/-! ## Delivery -/

/-- A position strictly inside the data of a chunk. -/
def insideData : List Chunk → Nat → Prop
  | [], _ => False
  | c :: chunks, pos =>
    c.header.length < pos ∧ pos < c.header.length + c.data.length ∨
      c.header.length + c.data.length ≤ pos ∧
        insideData chunks (pos - (c.header.length + c.data.length))

section
variable {last : Bytes}

/-- On the wire the first chunk stands in front of the others. -/
theorem wireFrom_cons (c : Chunk) (chunks : List Chunk) :
    ChunkedBody.wireFrom last (c :: chunks) = c.header ++ (c.data ++ ChunkedBody.wireFrom last chunks) := by
  simp [ChunkedBody.wireFrom]

/-- A text that is long enough begins as the other one does. -/
theorem exists_append_of_le {a b c d : Bytes} (h : a ++ b = c ++ d) (hle : c.length ≤ a.length) :
    ∃ r, a = c ++ r ∧ r ++ b = d := by
  rcases List.append_eq_append_iff.1 h with ⟨r, hc, hb⟩ | ⟨r, ha, hd⟩
  · have hlength := congrArg List.length hc
    rw [List.length_append] at hlength
    obtain rfl := List.length_eq_zero_iff.1 (show r.length = 0 by omega)
    exact ⟨[], by simpa using hc.symm, by simpa using hb⟩
  · exact ⟨r, ha, hd.symm⟩

/-- **Where the parser loses its step**: where what is received ends inside the data of a chunk. -/
theorem settled_outOfStep_iff (hlast : last ≠ []) {chunks : List Chunk} {received ahead : Bytes}
    (h : received ++ ahead = ChunkedBody.wireFrom last chunks) (views : List Bytes) :
    (ChunkParser.settled last ⟨received, .header chunks, views⟩).phase = .outOfStep ↔
      insideData chunks received.length := by
  induction chunks generalizing received views with
  | nil =>
    rcases Nat.lt_or_ge received.length last.length with hlt | hge
    · have hnone : ChunkParser.step ChunkParser.recorded last ⟨received, .header [], views⟩ = none := by
        simp [ChunkParser.step, hlt]
      rw [ChunkParser.settled_of_none hnone]
      exact iff_of_false nofun not_false
    · obtain ⟨rest, rfl, -⟩ := exists_append_of_le (d := []) (by simpa [ChunkedBody.wireFrom] using h) hge
      rw [(ChunkParser.Turn.last rfl).settled hlast, ChunkParser.settled_of_none rfl]
      exact iff_of_false nofun not_false
  | cons c chunks ih =>
    rw [wireFrom_cons] at h
    have hdata := List.length_pos_of_ne_nil c.data_ne_nil
    rcases Nat.lt_or_ge received.length c.header.length with hlt | hge
    · have hnone : ChunkParser.step ChunkParser.recorded last
          ⟨received, .header (c :: chunks), views⟩ = none := by
        simp [ChunkParser.step, hlt]
      rw [ChunkParser.settled_of_none hnone, insideData]
      exact iff_of_false nofun (by omega)
    · obtain ⟨inner, rfl, hinner⟩ := exists_append_of_le h hge
      rw [(ChunkParser.Turn.header rfl).settled hlast, insideData, List.length_append]
      rcases Nat.lt_or_ge inner.length c.data.length with hpart | hall
      · rcases eq_or_ne inner [] with rfl | hne
        · rw [ChunkParser.settled_of_none rfl]
          exact iff_of_false nofun (by rw [List.length_nil]; omega)
        · have hpos := List.length_pos_of_ne_nil hne
          rw [(ChunkParser.Turn.part hne hpart).settled hlast, ChunkParser.settled_of_none rfl]
          exact iff_of_true rfl (.inl (by omega))
      · obtain ⟨rest, rfl, hrest⟩ := exists_append_of_le hinner hall
        rw [(ChunkParser.Turn.data rfl).settled hlast, ih hrest, List.length_append,
          show c.header.length + (c.data.length + rest.length) - (c.header.length + c.data.length) =
            rest.length by omega]
        refine ⟨fun hinside => .inr ⟨by omega, hinside⟩, fun hor => hor.elim (fun hbetween => ?_) And.right⟩
        omega

/-- One read of all the bytes gives the handler the data of every chunk. -/
theorem settled_wire (hlast : last ≠ []) (chunks : List Chunk) (views : List Bytes) :
    ChunkParser.settled last ⟨ChunkedBody.wireFrom last chunks, .header chunks, views⟩ =
      ⟨[], .complete, views ++ chunks.map (·.data)⟩ := by
  induction chunks generalizing views with
  | nil =>
    have hturn : ChunkParser.Turn last ⟨last ++ [], .header [], views⟩ ⟨[], .complete, views⟩ := .last rfl
    rw [List.append_nil] at hturn
    refine (hturn.settled hlast).trans ?_
    rw [ChunkParser.settled_of_none rfl, List.map_nil, List.append_nil]
  | cons c chunks ih =>
    rw [wireFrom_cons, (ChunkParser.Turn.header rfl).settled hlast,
      (ChunkParser.Turn.data rfl).settled hlast, ih, List.map_cons, List.append_assoc,
      List.singleton_append]

end

/-- The handler was passed the body, and the parser found the last chunk. -/
structure DeliversBody (b : ChunkedBody) (p : ChunkParser (List Bytes)) : Prop where
  inStep : p.phase = .complete
  views : p.handler.flatten = b.body

/-- **When the chunk handler is given the body**: no read ends inside the data of a chunk. -/
theorem chunk_delivery_iff (b : ChunkedBody) {reads : List Bytes} (hreads : reads.flatten = b.wire) :
    DeliversBody b (b.start.readAll ChunkParser.recorded b.last reads) ↔
      ∀ pre post, reads = pre ++ post → ¬ insideData b.chunks pre.flatten.length := by
  have hinside : ∀ pre post, reads = pre ++ post →
      ((ChunkParser.settled b.last (b.start.push pre.flatten)).phase = .outOfStep ↔
        insideData b.chunks pre.flatten.length) := by
    rintro pre post rfl
    rw [List.flatten_append] at hreads
    exact settled_outOfStep_iff b.last_ne_nil hreads []
  rcases @ChunkParser.readAll_settled b.last b.start b.last_ne_nil [] nofun reads with
    ⟨⟨pre, post, hsplit, hlost⟩, hend⟩ | ⟨hnever, hend⟩
  · refine iff_of_false (fun h => ?_) fun h => h pre post hsplit ((hinside pre post hsplit).1 hlost)
    have hphase : ChunkPhase.complete = .outOfStep := h.inStep.symm.trans hend
    cases hphase
  · refine iff_of_true ?_ fun pre post hsplit hin => hnever pre post hsplit ((hinside pre post hsplit).2 hin)
    have hwire : b.start.readAll ChunkParser.recorded b.last reads =
        ⟨[], .complete, b.chunks.map (·.data)⟩ := by
      refine hend.trans ?_
      rw [List.nil_append, hreads]
      exact settled_wire b.last_ne_nil b.chunks []
    exact ⟨congrArg ChunkParser.phase hwire, by rw [hwire, ChunkedBody.body, List.flatMap_def]⟩

/-- A chunk of two bytes and the last chunk. -/
def twoBytes : ChunkedBody where
  chunks := [{ header := bytes "2\r\n", data := bytes "ab" }]
  last := bytes "\r\n0\r\n\r\n"

/-- In two reads, the first of which ends behind the header of the chunk. -/
theorem chunk_delivery_two_reads :
    DeliversBody twoBytes (twoBytes.start.readAll ChunkParser.recorded twoBytes.last
      [bytes "2\r\n", bytes "ab\r\n0\r\n\r\n"]) := by
  refine (chunk_delivery_iff twoBytes (by decide)).2 fun pre post hsplit => ?_
  rcases List.cons_eq_append_iff.1 hsplit with ⟨rfl, -⟩ | ⟨pre, rfl, hrest⟩
  · simp [insideData, twoBytes]
  · rcases List.cons_eq_append_iff.1 hrest with ⟨rfl, -⟩ | ⟨pre, rfl, hnil⟩
    · simp [insideData, twoBytes, bytes]
    · obtain ⟨rfl, -⟩ := List.append_eq_nil_iff.1 hnil.symm
      simp [insideData, twoBytes, bytes]

/-- In two reads, the first of which ends inside the data: the handler is given the first byte, and the
parser looks for a header at the second. -/
theorem chunk_delivery_split :
    let p := twoBytes.start.readAll ChunkParser.recorded twoBytes.last
      [bytes "2\r\na", bytes "b\r\n0\r\n\r\n"]
    [bytes "2\r\na", bytes "b\r\n0\r\n\r\n"].flatten = twoBytes.wire ∧
      p.phase = .outOfStep ∧ p.handler = [bytes "a"] ∧ ¬ DeliversBody twoBytes p := by
  intro p
  have hphase : p.phase = .outOfStep := rfl
  refine ⟨by decide, hphase, rfl, fun h => ?_⟩
  cases h.inStep.symm.trans hphase

end Httplib
