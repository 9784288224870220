import Httplib.Server.ResponseFraming

/-!
# What the body of a file sends

`file_content_interval`: the whole file or one range of it is returned byte for byte, in buffers of at
most `bufSize`, and is as long as `set_file_content` announces; a file with fewer bytes ends in
`error::short_read`. `file_content_parts`: several ranges are never returned as the multipart encoding
of them, because the content of a part stops before its last byte.
-/

namespace Httplib

open Producer (Emits)

namespace FileWriter

/-- No buffer is empty or longer than `buf_`. -/
theorem mem_chunks {text b : Bytes} (h : b ∈ chunks text) : b ≠ [] ∧ b.length ≤ bufSize := by
  fun_induction chunks text with
  | case1 => cases h
  | case2 text hne ih =>
    rcases List.mem_cons.1 h with rfl | h
    · refine ⟨?_, List.length_take_le _ _⟩
      simp [hne, bufSize]
    · exact ih h

end FileWriter

namespace FileBody

open FileWriter

/-! ## The whole file, or one range of it -/

/-- The body is to be sent from the byte `first` on, `n` bytes of it: it has no range, or one whose two
ends are in the file. -/
inductive Interval (body : FileBody) : (first n : Nat) → Prop
  | whole (ranges : body.ranges = []) : Interval body 0 body.fileSize
  | range {first last : Nat} (ranges : body.ranges = [((first : Int), (last : Int))])
      (le : first ≤ last) (lt : last < body.fileSize) : Interval body first (last + 1 - first)

variable {body : FileBody} {first n : Nat}

theorem Interval.le (h : body.Interval first n) : first + n ≤ body.fileSize := by
  cases h with
  | whole => omega
  | range => omega

theorem u64_natCast {n : Nat} (h : n < 2 ^ 63) : u64 n = n := by
  unfold u64
  omega

/-- An interval that the positions of a file can hold is returned as it stands. -/
theorem singleText_natCast (body : FileBody) (hn : first + n < 2 ^ 63) :
    singleText body.stream first (first + n : Nat) = (body.content.drop first).take n := by
  rw [singleText, u64_natCast (by omega), u64_natCast hn, if_pos (by omega), seekg_stream,
    u64_natCast (by omega), if_pos (by omega), Nat.add_sub_cancel_left]
  rfl

theorem singleEnding_natCast (body : FileBody) (hn : first + n < 2 ^ 63) :
    singleEnding body.stream first (first + n : Nat) =
      if n = 0 then .done else if first + n ≤ body.content.length then .last
      else .failed .shortRead := by
  rw [singleEnding, u64_natCast (by omega), u64_natCast hn, seekg_stream, u64_natCast (by omega),
    if_pos (show first < 2 ^ 63 by omega), Nat.add_sub_cancel_left]
  rcases Nat.eq_zero_or_pos n with rfl | hpos
  · rw [if_pos (Nat.add_zero _).symm, if_pos rfl]
  · rw [if_neg (by omega), if_pos (by omega), if_neg hpos.ne']
    refine if_congr ?_ rfl rfl
    simp [FileStream.Available, hpos.ne']

/-- **The run of the writer on an interval.** -/
theorem Interval.emits (h : body.Interval first n) (hsize : body.fileSize < 2 ^ 63) (junk : Nat) :
    Emits FileWriter.get (.start body junk) (chunks ((body.content.drop first).take n))
      (if n = 0 then .done else if first + n ≤ body.content.length then .last
        else .failed .shortRead) := by
  have hle := h.le
  have hrun := body.emits_start junk
  rw [← singleText_natCast body (by omega), ← singleEnding_natCast body (by omega)]
  cases h with
  | whole hr =>
    rw [buffers, ending, hr] at hrun
    simpa using hrun
  | @range first last hr hle' hlt =>
    rw [buffers, ending, hr] at hrun
    have hend : ((last : Int) + 1) = ((first + (last + 1 - first) : Nat) : Int) := by omega
    dsimp only at hrun
    rwa [hend] at hrun

end FileBody

/-- A file is opened at the size that was asked for. -/
theorem ContentCall.size_of_opened {host : Host} {entry : FileEntry} {reqHeader : Fields}
    {fileSize : Nat} {etag lastModified : Bytes} {file : FileBody}
    (h : Response.fileAnswer host entry reqHeader = .ok (.opened fileSize etag lastModified file)) :
    entry.size = some fileSize := by
  unfold Response.fileAnswer at h
  split at h
  · next size _ hsize _ =>
    split at h
    · cases h
    · cases h
    · dsimp only at h
      split at h
      · cases h
      · split at h
        · cases h
        · split at h
          · cases h
          · cases h
            exact hsize
  · cases h

/-- The length that `set_file_content` announces for a body that it leaves. -/
theorem Response.contentLength_of_interval {Json Handler : Type} {host : Host}
    {r r' : Response Json Handler} {entry : FileEntry} {boundary : Bytes} {reqHeader : Fields}
    {body : FileBody} {first n : Nat} (h : body.Interval first n) (hsize : body.fileSize < 2 ^ 63)
    (hset : r.setFileContent host entry boundary reqHeader = .ok r') (hbody : r'.body = .file body)
    (hentry : entry.size = some body.fileSize) : r'.header.contentLength = some n := by
  have hsets := sets_fileContent hset
  have hleaves := hsets.body.symm.trans hbody
  rw [hsets.contentLength]
  simp only [ContentCall.leaves] at hleaves
  simp only [ContentCall.announces]
  split at hleaves
  · next fileSize etag lastModified file hanswer =>
    have hfileSize := hentry.symm.trans (ContentCall.size_of_opened hanswer)
    cases hfileSize
    rw [hanswer]
    dsimp only
    split at hleaves
    · next hr =>
      cases hleaves
      cases h with
      | whole => rfl
      | range hr' => rw [hr] at hr'; cases hr'
    · next range hr =>
      cases hleaves
      cases h with
      | whole hr' => rw [hr] at hr'; cases hr'
      | @range first last hr' hle hlt =>
        have hn : u64 ((last : Int) + 1 - first) = last + 1 - first := by
          unfold u64
          omega
        cases hr'.symm.trans hr
        exact congrArg some hn
    · next hnil hone =>
      cases hleaves
      cases h with
      | whole hr => exact absurd hr hnil
      | range hr => exact absurd hr (hone _)
  · cases hleaves

open FileWriter in
/-- **The whole file, or one range of it.** The buffers put together are the bytes asked for, as far as
the file has them; the run ends with its last buffer, or without one where no byte was asked for, or
with `error::short_read` if the file has fewer bytes. `set_file_content` announces their number. -/
theorem file_content_interval (body : FileBody) (junk : Nat) (hsize : body.fileSize < 2 ^ 63)
    {first n : Nat} (h : body.Interval first n) :
    (∃ bs e, Emits FileWriter.get (.start body junk) bs e ∧
      (∀ b ∈ bs, b ≠ [] ∧ b.length ≤ bufSize) ∧
      bs.flatten = (body.content.drop first).take n ∧
      (body.fileSize ≤ body.content.length →
        bs.flatten.length = n ∧ e = if n = 0 then .done else .last) ∧
      (body.content.length < first + n → e = .failed .shortRead)) ∧
    ∀ {Json Handler : Type} (host : Host) (r r' : Response Json Handler) (entry : FileEntry)
      (boundary : Bytes) (reqHeader : Fields),
      r.setFileContent host entry boundary reqHeader = .ok r' → r'.body = .file body →
      entry.size = some body.fileSize → r'.header.contentLength = some n := by
  refine ⟨⟨_, _, h.emits hsize junk, fun b hb => mem_chunks hb, flatten_chunks _, ?_, ?_⟩,
    fun host r r' entry boundary reqHeader hset hbody hentry =>
      Response.contentLength_of_interval h hsize hset hbody hentry⟩
  · intro hfile
    have hle := h.le
    rw [flatten_chunks, List.length_take, List.length_drop, if_pos (show first + n ≤ _ by omega)]
    exact ⟨by omega, rfl⟩
  · intro hshort
    have hn : n ≠ 0 := by
      cases h with
      | whole => omega
      | range => omega
    rw [if_neg hn, if_neg (by omega)]

/-- A file of five bytes, of which the three in the middle are asked for. -/
theorem file_content_interval_hello :
    let body : FileBody := { FileBody.open (bytes "hello") with ranges := [(1, 3)] }
    let host : Host := { plainHost with formatGmtDate := fun _ => bytes "now" }
    (∃ bs, Emits FileWriter.get (.start body 0) bs .last ∧ bs.flatten = bytes "ell") ∧
      ∃ r' : Response Unit Unit, (Response.new host 11 true).setFileContent host
          ⟨some 5, some 0, some (bytes "hello"), []⟩ [] [(.range, bytes "bytes=1-3")] = .ok r' ∧
        r'.body = .file body ∧ r'.header.contentLength = some 3 := by
  intro body host
  have h : body.Interval 1 3 := @FileBody.Interval.range body 1 3 rfl (by decide) (by decide)
  obtain ⟨⟨bs, e, hrun, -, htext, hend, -⟩, hlength⟩ := file_content_interval body 0 (by decide) h
  refine ⟨⟨bs, ?_, htext⟩, _, rfl, rfl, ?_⟩
  · rwa [(hend (by decide)).2] at hrun
  · exact hlength host (Response.new host 11 true) _
      ⟨some 5, some 0, some (bytes "hello"), []⟩ [] [(.range, bytes "bytes=1-3")] rfl rfl rfl

/-! ## Several ranges -/

/-- The multipart encoding of ranges of a file: a part for each, with the size of the file in its header
and the bytes between its two ends, and the closing boundary. -/
def FileBody.byteranges (body : FileBody) : List (Int × Int) → Bytes
  | [] => bytes "--" ++ body.boundary ++ bytes "--\r\n"
  | range :: ranges =>
    FileWriter.partHeader body body.content.length range ++
      (body.content.drop range.1.toNat).take (range.2 + 1 - range.1).toNat ++ bytes "\r\n" ++
      body.byteranges ranges

/-- The writer of the body returns the encoding of its ranges, in buffers that are not empty and
without an error; `junk` is what the `file_size_` of the writer holds. -/
def FileBody.SendsByteranges (body : FileBody) (junk : Nat) : Prop :=
  ∃ bs e, Emits FileWriter.get (.start body junk) bs e ∧ (∀ x, e ≠ .failed x) ∧
    (∀ b ∈ bs, b ≠ []) ∧ bs.flatten = body.byteranges body.ranges

namespace FileBody

open FileWriter

variable {body : FileBody} {junk : Nat} {ranges : List (Int × Int)}

/-- The two ends of a range are in the file. -/
def RangeInside (body : FileBody) (range : Int × Int) : Prop :=
  0 ≤ range.1 ∧ range.1 ≤ range.2 ∧ range.2 < body.content.length

/-- No carriage return stands in a number. -/
theorem carriageReturn_not_mem_toString (n : Nat) : (13 : UInt8) ∉ bytes (toString n) := by
  intro h
  obtain ⟨c, hc, heq⟩ := List.mem_map.1 h
  have hdigit : c.isDigit = true := by
    refine Nat.isDigit_of_mem_toDigits (b := 10) (n := n) (by decide) (by decide) ?_
    rwa [← Nat.toList_repr]
  have hrange : 48 ≤ c.toNat ∧ c.toNat ≤ 57 := by
    rw [Char.isDigit, Bool.and_eq_true, decide_eq_true_eq, decide_eq_true_eq] at hdigit
    exact hdigit
  have hnat := congrArg UInt8.toNat heq
  rw [UInt8.toNat_ofNat'] at hnat
  simp at hnat
  omega

/-- A header with the wrong size is told from the right one. -/
theorem toString_eq_of_partHeader {range : Int × Int} {n m : Nat} {x y : Bytes}
    (h : partHeader body n range ++ x = partHeader body m range ++ y) :
    bytes (toString n) = bytes (toString m) := by
  simp only [partHeader, List.append_assoc, List.append_cancel_left_eq] at h
  have hcut : ∀ (k : Nat) (z : Bytes),
      (bytes (toString k) ++ (bytes "\r\n" ++ z)).takeWhile (· ≠ (13 : UInt8)) =
        bytes (toString k) := by
    intro k z
    rw [List.takeWhile_append_of_pos]
    · exact List.append_nil _
    · intro c hc
      exact decide_eq_true fun heq => carriageReturn_not_mem_toString k (heq ▸ hc)
  rw [← hcut n, h, hcut m]

/-- **A part comes short of its last byte.** -/
theorem length_partsBuffers (hjunk : bytes (toString junk) = bytes (toString body.content.length))
    (hsize : body.content.length < 2 ^ 63) (hranges : ∀ range ∈ ranges, body.RangeInside range)
    (hne : ranges ≠ []) {file : FileStream} (havail : PartsAvailable file ranges) :
    (partsBuffers body junk file ranges).flatten.length + ranges.length =
      (body.byteranges ranges).length := by
  induction ranges generalizing file with
  | nil => exact absurd rfl hne
  | cons range ranges ih =>
    obtain ⟨h1, h2, h3⟩ := hranges range List.mem_cons_self
    obtain ⟨hread, havail⟩ := havail
    have hheader : partHeader body junk range = partHeader body body.content.length range := by
      rw [partHeader, hjunk, partHeader]
    have hdata := FileStream.available_iff.1 hread
    have hn : u64 (range.2 - range.1) + 1 = (range.2 + 1 - range.1).toNat := by
      unfold u64
      omega
    have hcontent : ((body.content.drop range.1.toNat).take (range.2 + 1 - range.1).toNat).length =
        (range.2 + 1 - range.1).toNat := by
      rw [List.length_take, List.length_drop]
      omega
    simp only [partsBuffers, byteranges, List.flatten_cons, List.flatten_append, flatten_chunks,
      List.length_append, hdata, hcontent, List.length_cons, hheader, if_pos hread]
    by_cases hlast : ranges = []
    · subst hlast
      simp [closing, byteranges]
      omega
    · have hrest := ih (fun r hr => hranges r (List.mem_cons_of_mem _ hr)) hlast havail
      rw [if_neg hlast, List.flatten_cons, List.length_append]
      omega

end FileBody

/-- **Several ranges of a file are never sent as the encoding of them**, whatever the file, the ranges
and the `file_size_` of the writer are. -/
theorem file_content_parts (body : FileBody) (junk : Nat) (hsize : body.content.length < 2 ^ 63)
    (hranges : ∀ range ∈ body.ranges, body.RangeInside range) (hseveral : 2 ≤ body.ranges.length) :
    ¬ body.SendsByteranges junk := by
  rintro ⟨bs, e, hrun, he, -, htext⟩
  obtain ⟨rfl, rfl⟩ := hrun.unique (body.emits_start junk)
  obtain ⟨a, b, ranges, hr⟩ : ∃ a b ranges, body.ranges = a :: b :: ranges := by
    match hr : body.ranges, hseveral with
    | a :: b :: ranges, _ => exact ⟨a, b, ranges, rfl⟩
  rw [FileBody.buffers, hr] at htext
  rw [FileBody.ending, hr] at he
  dsimp only at htext he
  have havail : FileWriter.PartsAvailable body.stream (a :: b :: ranges) := by
    by_contra hshort
    exact he .shortRead (if_neg hshort)
  have hjunk : bytes (toString junk) = bytes (toString body.content.length) := by
    have hfirst := htext
    rw [FileWriter.partsBuffers, List.flatten_cons, FileBody.byteranges, List.append_assoc,
      List.append_assoc] at hfirst
    exact FileBody.toString_eq_of_partHeader hfirst
  have hlength := FileBody.length_partsBuffers hjunk hsize (hr ▸ hranges) (List.cons_ne_nil _ _) havail
  rw [htext, List.length_cons] at hlength
  omega

/-- The first two and the last two of five bytes. -/
theorem file_content_parts_ends :
    ¬ { FileBody.open (bytes "hello") with ranges := [(0, 1), (3, 4)] }.SendsByteranges 5 :=
  file_content_parts { FileBody.open (bytes "hello") with ranges := [(0, 1), (3, 4)] } 5 (by decide)
    (by simp [FileBody.RangeInside, FileBody.open, bytes]) (by decide)

/-- Two ranges next to each other: the first part lacks its last byte, and the second one, whose seek
starts behind the first, begins at its last byte. -/
theorem file_content_parts_hello :
    let body : FileBody := { FileBody.open (bytes "hello") with
      ranges := [(0, 1), (2, 3)], contentType := bytes "t", boundary := bytes "B" }
    (∃ bs, Emits FileWriter.get (.start body 5) bs .last ∧
      bs.flatten = bytes "--B\r\nContent-Type: t\r\nContent-Range: bytes 0-1/5\r\n\r\nh\r\n" ++
        bytes "--B\r\nContent-Type: t\r\nContent-Range: bytes 2-3/5\r\n\r\nl\r\n--B--\r\n") ∧
      ¬ body.SendsByteranges 5 := by
  intro body
  have hrun : Emits FileWriter.get (.start body 5)
      [FileWriter.partHeader body 5 (0, 1), bytes "h", bytes "\r\n",
        FileWriter.partHeader body 5 (2, 3), bytes "l", FileWriter.closing body] .last :=
    .more rfl (.more rfl (.more rfl (.more rfl (.more rfl (.last rfl)))))
  refine ⟨⟨_, hrun, by decide⟩, ?_⟩
  rintro ⟨bs, e, hrun', -, -, htext⟩
  obtain ⟨rfl, rfl⟩ := hrun'.unique hrun
  exact absurd htext (by decide)

end Httplib
