import Httplib.Html.HttpDate
import Httplib.Server.Response
import Httplib.Util.Numerals

/-!
# Revalidating a file

A client that has got a file from `response::set_file_content` (`lib/server/response.cpp:79`) asks for it
again, and hands back the ETag and the Last-Modified of the first answer. `file_revalidation` says when
the second answer is 304: what the two fields tell apart of the states of the file.
-/

namespace Httplib

/-- The ETag of `set_file_content` (`response.cpp:97`). -/
def fileEtag (size : Nat) (time : Int) : Bytes :=
  bytes "W/" ++ bytes (toString size) ++ bytes "-" ++ bytes (toString time)

/-- The ETag tells sizes and times apart. -/
theorem fileEtag_inj {size size' : Nat} {time time' : Int}
    (h : fileEtag size time = fileEtag size' time') : size = size' ∧ time = time' := by
  simp only [fileEtag, bytes_toString_nat, bytes_toString_int, List.append_assoc] at h
  have hsize := List.append_cancel_left h
  have hcut : ∀ (n : Nat) (rest : Bytes),
      (Decimal.digits n ++ (bytes "-" ++ rest)).takeWhile (fun c => decide (Decimal.IsDigit c)) =
        Decimal.digits n := by
    intro n rest
    refine Decimal.takeWhile_digits_append Decimal.isDigit_of_mem_digits ?_
    rintro _ ⟨⟩
    decide
  have hdigits : Decimal.digits size = Decimal.digits size' := by rw [← hcut, hsize, hcut]
  rw [hdigits] at hsize
  exact ⟨Decimal.digits_injective hdigits,
    Decimal.int_injective (List.append_cancel_left (List.append_cancel_left hsize))⟩

namespace Response

variable {Json Handler : Type} {host : Host} {entry : FileEntry} {reqHeader : Fields}

/-- What a file that was opened is announced with. -/
theorem fileAnswer_opened {size : Nat} {etag lastModified : Bytes} {file : FileBody}
    (h : fileAnswer host entry reqHeader = .ok (.opened size etag lastModified file)) :
    entry.size = some size ∧ ∃ time, entry.writeTime = some time ∧ etag = fileEtag size time ∧
      lastModified = host.formatGmtDate time := by
  unfold fileAnswer at h
  split at h
  · next fileSize fileWriteTime hsize htime =>
    split at h
    · cases h
    · cases h
    · dsimp only at h
      split at h
      · cases h
      · split at h
        · cases h
        · split at h
          · cases h
          · cases h
            exact ⟨hsize, fileWriteTime, htime, rfl, rfl⟩
  · cases h

/-- The answer for a file whose size and time are known and a Range header that is read. -/
theorem fileAnswer_of_read {size : Nat} {time : Int} {ranges : List (Int × Int)}
    (hsize : entry.size = some size) (htime : entry.writeTime = some time)
    (hranges : HttpRanges.parse (reqHeader.get .range) size = .ok ranges) :
    fileAnswer host entry reqHeader =
      if reqHeader.get .ifNoneMatch = fileEtag size time ∨
          reqHeader.get .ifModifiedSince = host.formatGmtDate time then .ok .notModified
      else match entry.content with
        | none => .ok .unreadable
        | some content =>
          .ok (.opened size (fileEtag size time) (host.formatGmtDate time)
            { FileBody.open content with contentType := entry.mimeType, ranges }) := by
  unfold fileAnswer
  rw [hsize, htime]
  dsimp only
  rw [hranges]
  by_cases hetag : reqHeader.get .ifNoneMatch = fileEtag size time
  · exact (if_pos hetag).trans (if_pos (Or.inl hetag)).symm
  · by_cases hsince : reqHeader.get .ifModifiedSince = host.formatGmtDate time
    · exact ((if_neg hetag).trans (if_pos hsince)).trans (if_pos (Or.inr hsince)).symm
    · have hneither := not_or.2 ⟨hetag, hsince⟩
      exact ((if_neg hetag).trans (if_neg hsince)).trans (if_neg hneither).symm

/-- The response for a file that was not modified has no body. -/
theorem setFileContent_notModified (r : Response Json Handler) (boundary : Bytes)
    (h : fileAnswer host entry reqHeader = .ok .notModified) :
    r.setFileContent host entry boundary reqHeader = .ok (r.resetContent.setEmptyContent 304) := by
  unfold setFileContent
  rw [h]
  rfl

/-- The response for a file that is opened holds the file. -/
theorem setFileContent_opened (r : Response Json Handler) (boundary : Bytes) {size : Nat}
    {etag lastModified : Bytes} {file : FileBody}
    (h : fileAnswer host entry reqHeader = .ok (.opened size etag lastModified file)) :
    ∃ r' file', r.setFileContent host entry boundary reqHeader = .ok r' ∧
      (r'.header.result = 200 ∨ r'.header.result = 206) ∧ r'.body = .file file' ∧
      file'.content = file.content := by
  unfold setFileContent
  rw [h]
  simp only [bind, Except.bind]
  rcases hranges : file.ranges with _ | ⟨range, _ | ⟨range', ranges⟩⟩
  · exact ⟨_, file, rfl, .inl rfl, rfl, rfl⟩
  · exact ⟨_, file, rfl, .inr rfl, rfl, rfl⟩
  · exact ⟨_, { file with ranges := range :: range' :: ranges, boundary }, rfl, .inr rfl, rfl, rfl⟩

/-- A response that holds a file has the ETag and the Last-Modified of the file. -/
theorem fields_of_setFileContent {r r' : Response Json Handler} {boundary : Bytes} {file : FileBody}
    (h : r.setFileContent host entry boundary reqHeader = .ok r') (hbody : r'.body = .file file) :
    ∃ size time, entry.size = some size ∧ entry.writeTime = some time ∧
      r'.header.fields.get .etag = fileEtag size time ∧
      r'.header.fields.get .lastModified = host.formatGmtDate time := by
  unfold setFileContent at h
  cases hanswer : fileAnswer host entry reqHeader with
  | error e =>
    rw [hanswer] at h
    cases h
  | ok answer =>
    rw [hanswer] at h
    simp only [bind, Except.bind] at h
    cases answer with
    | unreadable | unsatisfiable | notModified =>
      cases h
      cases hbody
    | opened size etag lastModified opened =>
      obtain ⟨hsize, time, htime, rfl, rfl⟩ := fileAnswer_opened hanswer
      refine ⟨size, time, hsize, htime, ?_⟩
      -- the fields that are set behind the two are other ones
      have hfields : r'.header.fields.find? .etag = some (fileEtag size time) ∧
          r'.header.fields.find? .lastModified = some (host.formatGmtDate time) := by
        dsimp only at h
        split at h <;> cases h <;>
          simp [set, setResult, setContentLength, ResponseHeader.set, ResponseHeader.setContentLength,
            Fields.find?_set_of_ne]
      rw [Fields.get, Fields.get, hfields.1, hfields.2]
      exact ⟨rfl, rfl⟩

end Response

/-- The date of a time is not empty. -/
theorem formatHttpGmtDate_ne_nil (time : Int) : formatHttpGmtDate time ≠ [] := by
  intro h
  have hlength := congrArg List.length h
  simp only [formatHttpGmtDate, formatTm, List.length_append, List.length_nil] at hlength
  have hcomma : (bytes ", ").length = 2 := rfl
  omega

theorem fileEtag_ne_nil (size : Nat) (time : Int) : fileEtag size time ≠ [] := by
  intro h
  have hlength := congrArg List.length h
  simp only [fileEtag, List.length_append, List.length_nil] at hlength
  have hweak : (bytes "W/").length = 2 := rfl
  omega

/-- The ETag or the date of the present file is asked for exactly if the one comes back and neither size nor
time has changed, or the other comes back and the time has not. -/
theorem unchanged_iff {ifNoneMatch ifModifiedSince : Bytes} {size size' : Nat} {time time' : Int}
    {tm tm' : Tm} (htm : gmtime time = some tm) (htm' : gmtime time' = some tm')
    (hmatch : ifNoneMatch = fileEtag size time ∨ ifNoneMatch = [])
    (hsince : ifModifiedSince = formatHttpGmtDate time ∨ ifModifiedSince = []) :
    (ifNoneMatch = fileEtag size' time' ∨ ifModifiedSince = formatHttpGmtDate time') ↔
      (ifNoneMatch = fileEtag size time ∧ size' = size ∧ time' = time ∨
        ifModifiedSince = formatHttpGmtDate time ∧ time' = time) := by
  constructor
  · rintro (h | h)
    · rcases hmatch with hmatch | hmatch
      · exact .inl ⟨hmatch, fileEtag_inj (h.symm.trans hmatch)⟩
      · exact absurd (h.symm.trans hmatch) (fileEtag_ne_nil size' time')
    · rcases hsince with hsince | hsince
      · exact .inr ⟨hsince, http_date_injective htm' htm (h.symm.trans hsince)⟩
      · exact absurd (h.symm.trans hsince) (formatHttpGmtDate_ne_nil time')
  · rintro (⟨h, rfl, rfl⟩ | ⟨h, rfl⟩)
    · exact .inl h
    · exact .inr h

end Httplib
