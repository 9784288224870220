import Httplib.Lib.Calendar
import Httplib.Lib.Decimal
import Httplib.Util.Misc

/-!
# HTTP dates

`html::format_http_gmt_date` and `html::parse_http_gmt_date` (`lib/html/html.cpp:246`), over the `gmtime`
of the Gregorian calendar and the `localtime` and `mktime` of any time zone. `http_date_round_trip` says
that a date is read back in every zone whose standard time has one offset, and `http_date_injective` that
no two times have the same date.
-/

namespace Httplib

/-- `std::tm`, without the day of the year. -/
structure Tm where
  sec : Nat := 0
  min : Nat := 0
  hour : Nat := 0
  mday : Nat := 0
  mon : Nat := 0
  year : Int := 0
  wday : Nat := 0
  isdst : Int := 0
deriving DecidableEq

/-- The members are in the ranges of the C standard. -/
structure Tm.InRange (tm : Tm) : Prop where
  sec : tm.sec ≤ 60
  min : tm.min ≤ 59
  hour : tm.hour ≤ 23
  mday : 1 ≤ tm.mday ∧ tm.mday ≤ 31
  mon : tm.mon ≤ 11
  wday : tm.wday ≤ 6

/-- `gmtime`: it fails where the year does not fit. -/
def gmtime (time : Int) : Option Tm :=
  let date := Calendar.ofDays (time / 86400)
  let seconds := (time % 86400).toNat
  let year := date.year - 1900
  if -2 ^ 31 ≤ year ∧ year < 2 ^ 31 then
    some
      { sec := seconds % 60
        min := seconds / 60 % 60
        hour := seconds / 3600
        mday := date.day
        mon := date.month - 1
        year
        wday := Calendar.weekday (time / 86400) }
  else none

/-- The time of a `tm` of Greenwich. -/
def timegm (tm : Tm) : Int :=
  Calendar.toDays { year := tm.year + 1900, month := tm.mon + 1, day := tm.mday } * 86400 +
    tm.hour * 3600 + tm.min * 60 + tm.sec

/-- `WEEKDAY` (`html.cpp:255`). -/
def weekdays : List Bytes :=
  [bytes "Sun", bytes "Mon", bytes "Tue", bytes "Wed", bytes "Thu", bytes "Fri", bytes "Sat"]

/-- `MONTH` (`html.cpp:257`). -/
def months : List Bytes :=
  [bytes "Jan", bytes "Feb", bytes "Mar", bytes "Apr", bytes "May", bytes "Jun", bytes "Jul",
    bytes "Aug", bytes "Sep", bytes "Oct", bytes "Nov", bytes "Dec"]

/-- `%04d`, and the like: the sign counts for the width. -/
def padInt (width : Nat) (n : Int) : Bytes :=
  if n < 0 then 45 :: Decimal.pad (width - 1) n.natAbs else Decimal.pad width n.natAbs

/-- What `snprintf` writes (`html.cpp:261`). -/
def formatTm (tm : Tm) : Bytes :=
  weekdays.getD tm.wday [] ++ (bytes ", " ++ (Decimal.pad 2 tm.mday ++ (bytes " " ++
    (months.getD tm.mon [] ++ (bytes " " ++ (padInt 4 (tm.year + 1900) ++ (bytes " " ++
      (Decimal.pad 2 tm.hour ++ (bytes ":" ++ (Decimal.pad 2 tm.min ++ (bytes ":" ++
        (Decimal.pad 2 tm.sec ++ bytes " GMT"))))))))))))

/-- `format_http_gmt_date` (`html.cpp:246`). A `gmtime` that fails leaves the `tm` as it was. -/
def formatHttpGmtDate (time : Int) : Bytes := formatTm ((gmtime time).getD {})

/-! ## Reading a date -/

/-- A directive of a format of `std::get_time`. -/
inductive TimeDirective where
  /-- `%a` -/
  | weekday
  /-- `%b` -/
  | month
  /-- One of the others: a number of at most `digits` digits, from `least` to `greatest`. -/
  | number (digits least greatest : Nat) (set : Nat → Tm → Tm)
  /-- White space: any. -/
  | blank
  | literal (c : UInt8)

/-- A text without a name in front, whatever the case of its letters. -/
def stripName : Bytes → Bytes → Option Bytes
  | [], s => some s
  | _ :: _, [] => none
  | c :: name, d :: s => if iequals [c] [d] then stripName name s else none

/-- The index of the first name that a text begins with, and what follows it. -/
def readName (names : List (Bytes × Nat)) (s : Bytes) : Option (Nat × Bytes) :=
  names.findSome? fun (name, i) => (stripName name s).map fun rest => (i, rest)

/-- The names of `%a`, and their abbreviations. -/
def weekdayNames : List (Bytes × Nat) :=
  ([bytes "Sunday", bytes "Monday", bytes "Tuesday", bytes "Wednesday", bytes "Thursday",
    bytes "Friday", bytes "Saturday"].zipIdx) ++ weekdays.zipIdx

/-- The names of `%b`, and their abbreviations. -/
def monthNames : List (Bytes × Nat) :=
  ([bytes "January", bytes "February", bytes "March", bytes "April", bytes "May", bytes "June",
    bytes "July", bytes "August", bytes "September", bytes "October", bytes "November",
    bytes "December"].zipIdx) ++ months.zipIdx

namespace TimeDirective

/-- What a directive reads, and what it leaves. -/
def read : TimeDirective → Tm → Bytes → Option (Tm × Bytes)
  | weekday, tm, s => (readName weekdayNames s).map fun (wday, s) => ({ tm with wday }, s)
  | month, tm, s => (readName monthNames s).map fun (mon, s) => ({ tm with mon }, s)
  | number digits least greatest set, tm, s =>
    let text := (s.take digits).takeWhile fun c => decide (Decimal.IsDigit c)
    let n := Decimal.value text
    if text ≠ [] ∧ least ≤ n ∧ n ≤ greatest then some (set n tm, s.drop text.length) else none
  | blank, tm, s => some (tm, s.dropWhile isSpace)
  | literal c, tm, s => (stripName [c] s).map fun s => (tm, s)

/-- `%a, %d %b %Y %H:%M:%S GMT` (`html.cpp:279`). -/
def httpDate : List TimeDirective :=
  [weekday, literal 44, blank, number 2 1 31 fun mday tm => { tm with mday }, blank, month, blank,
    number 4 0 9999 fun year tm => { tm with year := year - 1900 }, blank,
    number 2 0 23 fun hour tm => { tm with hour }, literal 58,
    number 2 0 59 fun min tm => { tm with min }, literal 58,
    number 2 0 60 fun sec tm => { tm with sec }, blank, literal 71, literal 77, literal 84]

end TimeDirective

/-- `std::get_time`. -/
def getTime : List TimeDirective → Tm → Bytes → Option Tm
  | [], tm, _ => some tm
  | directive :: directives, tm, s =>
    match directive.read tm s with
    | none => none
    | some (tm, s) => getTime directives tm s

/-- What the C library knows of the time zone. -/
structure TimeZone where
  localtime : Int → Tm
  mktime : Tm → Int

namespace TimeZone

/-- `get_gmt_timezone_offset` (`html.cpp:77`), at the time of its first call. -/
def gmtOffset (zone : TimeZone) (now : Int) : Int :=
  zone.mktime (zone.localtime now) - zone.mktime ((gmtime now).getD {})

/-- The standard time of the zone has one offset: `mktime` takes a `tm` without daylight saving for
standard time. -/
def Standard (zone : TimeZone) (offset : Int) : Prop :=
  ∀ tm : Tm, tm.InRange → tm.isdst = 0 → zone.mktime tm = timegm tm - offset

end TimeZone

/-- `parse_http_gmt_date` (`html.cpp:273`), which throws for a text that is no date. White space in front
is skipped. -/
def parseHttpGmtDate (zone : TimeZone) (now : Int) (httpDate : Bytes) : Option Int :=
  (getTime TimeDirective.httpDate {} (httpDate.dropWhile isSpace)).map fun tm =>
    zone.mktime tm + zone.gmtOffset now

example : formatHttpGmtDate 784111777 = bytes "Sun, 06 Nov 1994 08:49:37 GMT" := by decide

/-! ## The time of a date -/

/-- What `gmtime` gives is a calendar date in range, without daylight saving, and `timegm` takes it back. -/
theorem gmtime_eq {time : Int} {tm : Tm} (h : gmtime time = some tm) :
    tm.InRange ∧ timegm tm = time ∧ tm.isdst = 0 := by
  obtain ⟨-, heq⟩ := Option.ite_none_right_eq_some.1 h
  obtain ⟨hmonth, hmonth', hday, hday'⟩ := Calendar.ofDays_bounds (time / 86400)
  have hdays := Calendar.toDays_ofDays (time / 86400)
  have hweekday : Calendar.weekday (time / 86400) ≤ 6 := by
    unfold Calendar.weekday
    omega
  cases heq
  refine ⟨⟨?_, ?_, ?_, ⟨hday, hday'⟩, ?_, hweekday⟩, ?_, rfl⟩
  · show _ % 60 ≤ 60
    omega
  · show _ % 60 ≤ 59
    omega
  · show _ / 3600 ≤ 23
    omega
  · show (Calendar.ofDays _).month - 1 ≤ 11
    omega
  · rw [timegm]
    dsimp only
    rw [Int.sub_add_cancel, Nat.sub_add_cancel hmonth, hdays]
    omega

/-! ## What is written is read -/

/-- A name at the head of the text is stripped. -/
@[simp] theorem stripName_append (name rest : Bytes) : stripName name (name ++ rest) = some rest := by
  induction name with
  | nil => rfl
  | cons c name ih => rw [List.cons_append, stripName, if_pos (by simp [iequals]), ih]

/-- An abbreviation in front of a comma is no full name. -/
theorem readName_weekday {wday : Nat} (h : wday ≤ 6) (rest : Bytes) :
    readName weekdayNames (weekdays.getD wday [] ++ (bytes ", " ++ rest)) =
      some (wday, bytes ", " ++ rest) := by
  interval_cases wday <;> rfl

/-- A month name in front of a blank is read as its number. -/
theorem readName_month {mon : Nat} (h : mon ≤ 11) (rest : Bytes) :
    readName monthNames (months.getD mon [] ++ (bytes " " ++ rest)) = some (mon, bytes " " ++ rest) := by
  interval_cases mon <;> rfl

namespace TimeDirective

/-- `%a` reads the name of a weekday, up to the comma behind it. -/
theorem read_weekday {wday : Nat} (h : wday ≤ 6) (tm : Tm) (rest : Bytes) :
    weekday.read tm (weekdays.getD wday [] ++ (bytes ", " ++ rest)) =
      some ({ tm with wday }, 44 :: (bytes " " ++ rest)) := by
  rw [read, readName_weekday h]
  rfl

/-- `%b` reads the name of a month, up to the blank behind it. -/
theorem read_month {mon : Nat} (h : mon ≤ 11) (tm : Tm) (rest : Bytes) :
    month.read tm (months.getD mon [] ++ (bytes " " ++ rest)) =
      some ({ tm with mon }, bytes " " ++ rest) := by
  rw [read, readName_month h]
  rfl

/-- A number of the whole width is read. -/
theorem read_number {digits least greatest n : Nat} {set : Nat → Tm → Tm} (hdigits : 0 < digits)
    (hwidth : n < 10 ^ digits) (hleast : least ≤ n) (hgreatest : n ≤ greatest) (tm : Tm)
    (rest : Bytes) :
    (number digits least greatest set).read tm (Decimal.pad digits n ++ rest) =
      some (set n tm, rest) := by
  have hlength := Decimal.length_pad hdigits hwidth
  have htake : (Decimal.pad digits n ++ rest).take digits = Decimal.pad digits n :=
    List.take_left' hlength
  have hall : (Decimal.pad digits n).takeWhile (fun c => decide (Decimal.IsDigit c)) =
      Decimal.pad digits n := by
    refine List.takeWhile_eq_self_iff.2 fun c hc => ?_
    simpa using Decimal.isDigit_of_mem_pad c hc
  have hne : Decimal.pad digits n ≠ [] := by
    rw [← List.length_pos_iff, hlength]
    exact hdigits
  rw [read, htake, hall, Decimal.value_pad, if_pos ⟨hne, hleast, hgreatest⟩, List.drop_left]

/-- A blank is read up to what follows it. -/
theorem read_blank {rest : Bytes} (hrest : ∀ c ∈ rest.head?, isSpace c = false) (tm : Tm) :
    blank.read tm (bytes " " ++ rest) = some (tm, rest) := by
  have hdrop : rest.dropWhile isSpace = rest := by
    cases rest with
    | nil => rfl
    | cons c rest => rw [List.dropWhile_cons_of_neg (by simp [hrest c rfl])]
  rw [read, show bytes " " ++ rest = 32 :: rest from rfl, List.dropWhile_cons_of_pos (by decide), hdrop]

/-- A character of the format reads itself. -/
@[simp] theorem read_literal (c : UInt8) (tm : Tm) (rest : Bytes) :
    (literal c).read tm (c :: rest) = some (tm, rest) := by
  rw [read, show c :: rest = [c] ++ rest from rfl, stripName_append]
  rfl

/-- The colon of the format reads the colon of the text. -/
theorem read_colon (tm : Tm) (rest : Bytes) :
    (literal 58).read tm (bytes ":" ++ rest) = some (tm, rest) := read_literal 58 tm rest

end TimeDirective

/-- A directive that reads its part hands the rest of the text to the rest of the format. -/
theorem getTime_cons {directive : TimeDirective} {directives : List TimeDirective} {tm tm' : Tm}
    {s s' : Bytes} (h : directive.read tm s = some (tm', s')) :
    getTime (directive :: directives) tm s = getTime directives tm' s' := by
  rw [getTime, h]

/-- A padded number does not begin with a blank. -/
theorem isSpace_head_pad {width n : Nat} (rest : Bytes) :
    ∀ c ∈ (Decimal.pad width n ++ rest).head?, isSpace c = false := by
  have hne : Decimal.pad width n ≠ [] := by simp [Decimal.pad, Decimal.digits_ne_nil]
  intro c hc
  rw [List.head?_append_of_ne_nil _ hne] at hc
  obtain ⟨hleast, hgreatest⟩ := Decimal.isDigit_of_mem_pad c (List.mem_of_head? hc)
  simp [isSpace, UInt8.le_iff_toNat_le, ← UInt8.toNat_inj]
  omega

/-- Nor does the name of a month. -/
theorem isSpace_head_month {mon : Nat} (h : mon ≤ 11) (rest : Bytes) :
    ∀ c ∈ (months.getD mon [] ++ rest).head?, isSpace c = false := by
  interval_cases mon <;> (rintro c ⟨⟩; rfl)

/-- A formatted date has no blank in front that `get_time` would skip. -/
theorem dropWhile_formatTm {tm : Tm} (h : tm.wday ≤ 6) :
    (formatTm tm).dropWhile isSpace = formatTm tm := by
  unfold formatTm
  generalize tm.wday = wday at h
  interval_cases wday <;> rfl

/-- **What is written is read back**, for a year of four digits. -/
theorem getTime_text {sec min hour mday mon year wday : Nat} (hsec : sec ≤ 60) (hmin : min ≤ 59)
    (hhour : hour ≤ 23) (hmday : 1 ≤ mday ∧ mday ≤ 31) (hmon : mon ≤ 11) (hyear : year ≤ 9999)
    (hwday : wday ≤ 6) :
    getTime TimeDirective.httpDate {}
      (weekdays.getD wday [] ++ (bytes ", " ++ (Decimal.pad 2 mday ++ (bytes " " ++
        (months.getD mon [] ++ (bytes " " ++ (Decimal.pad 4 year ++ (bytes " " ++
          (Decimal.pad 2 hour ++ (bytes ":" ++ (Decimal.pad 2 min ++ (bytes ":" ++
            (Decimal.pad 2 sec ++ bytes " GMT"))))))))))))) =
      some { sec, min, hour, mday, mon, year := year - 1900, wday } := by
  have hgmt : ∀ tm, getTime [.blank, .literal 71, .literal 77, .literal 84] tm (bytes " GMT") = some tm :=
    fun tm => rfl
  rw [TimeDirective.httpDate, getTime_cons (TimeDirective.read_weekday hwday _ _),
    getTime_cons (TimeDirective.read_literal _ _ _),
    getTime_cons (TimeDirective.read_blank (isSpace_head_pad _) _),
    getTime_cons (TimeDirective.read_number (by decide) (Nat.lt_of_le_of_lt hmday.2 (by decide))
      hmday.1 hmday.2 _ _),
    getTime_cons (TimeDirective.read_blank (isSpace_head_month hmon _) _),
    getTime_cons (TimeDirective.read_month hmon _ _),
    getTime_cons (TimeDirective.read_blank (isSpace_head_pad _) _),
    getTime_cons (TimeDirective.read_number (by decide) (Nat.lt_of_le_of_lt hyear (by decide))
      (Nat.zero_le _) hyear _ _),
    getTime_cons (TimeDirective.read_blank (isSpace_head_pad _) _),
    getTime_cons (TimeDirective.read_number (by decide) (Nat.lt_of_le_of_lt hhour (by decide))
      (Nat.zero_le _) hhour _ _),
    getTime_cons (TimeDirective.read_colon _ _),
    getTime_cons (TimeDirective.read_number (by decide) (Nat.lt_of_le_of_lt hmin (by decide))
      (Nat.zero_le _) hmin _ _),
    getTime_cons (TimeDirective.read_colon _ _),
    getTime_cons (TimeDirective.read_number (by decide) (Nat.lt_of_le_of_lt hsec (by decide))
      (Nat.zero_le _) hsec _ _), hgmt]

/-- Reading a formatted date gives back every field of it, for the years of four digits. -/
theorem getTime_formatTm {tm : Tm} (h : tm.InRange) (hdst : tm.isdst = 0)
    (hyear : 0 ≤ tm.year + 1900 ∧ tm.year + 1900 ≤ 9999) :
    getTime TimeDirective.httpDate {} ((formatTm tm).dropWhile isSpace) = some tm := by
  obtain ⟨year, hyear'⟩ := Int.eq_ofNat_of_zero_le hyear.1
  have hpad : padInt 4 (tm.year + 1900) = Decimal.pad 4 year := by
    rw [padInt, if_neg (by omega), hyear']
    rfl
  rw [dropWhile_formatTm h.wday, formatTm, hpad,
    getTime_text h.sec h.min h.hour h.mday h.mon (by omega) h.wday]
  have hsame : (year : Int) - 1900 = tm.year := by omega
  rw [hsame, ← hdst]

/-- **The round trip of an HTTP date.** In every time zone whose standard time has one offset, whenever
the offset is taken, `parse_http_gmt_date` reads back each time of the years 0 to 9999 from what
`format_http_gmt_date` writes. -/
theorem http_date_round_trip {zone : TimeZone} {offset : Int} (hzone : zone.Standard offset)
    {now : Int} (hnow : (gmtime now).isSome) (hlocal : zone.mktime (zone.localtime now) = now)
    {time : Int} {tm : Tm} (htm : gmtime time = some tm)
    (hyear : 0 ≤ tm.year + 1900 ∧ tm.year + 1900 ≤ 9999) :
    parseHttpGmtDate zone now (formatHttpGmtDate time) = some time := by
  obtain ⟨hrange, htime, hdst⟩ := gmtime_eq htm
  obtain ⟨tmNow, hgmt⟩ := Option.isSome_iff_exists.1 hnow
  obtain ⟨hrangeNow, htimeNow, hdstNow⟩ := gmtime_eq hgmt
  have hoffset : zone.gmtOffset now = offset := by
    rw [TimeZone.gmtOffset, hlocal, hgmt, Option.getD_some, hzone _ hrangeNow hdstNow, htimeNow]
    omega
  rw [parseHttpGmtDate, formatHttpGmtDate, htm, Option.getD_some, getTime_formatTm hrange hdst hyear,
    Option.map_some, hoffset, hzone _ hrange hdst, htime, Int.sub_add_cancel]

/-- A time of 1994, read in a zone an hour east of Greenwich while daylight saving holds there. -/
theorem http_date_round_trip_1994 :
    ∃ (zone : TimeZone) (now : Int), (zone.localtime now).isdst = 1 ∧
      parseHttpGmtDate zone now (formatHttpGmtDate 784111777) = some 784111777 := by
  let zone : TimeZone :=
    { localtime := fun time => { (gmtime (time + 7200)).getD {} with isdst := 1 }
      mktime := fun tm => timegm tm - 3600 - (if tm.isdst = 1 then 3600 else 0) }
  have hzone : zone.Standard 3600 := by
    intro tm _ hdst
    show timegm tm - 3600 - (if tm.isdst = 1 then 3600 else 0) = timegm tm - 3600
    rw [hdst]
    simp
  have hlocal : zone.mktime (zone.localtime 1700000000) = 1700000000 := by decide
  exact ⟨zone, 1700000000, rfl, http_date_round_trip hzone (by decide) hlocal rfl (by decide)⟩

/-! ## Different dates -/

/-- The year is read back. -/
theorem readInt_padInt {width : Nat} (n : Int) : Decimal.readInt (padInt width n) = n := by
  unfold padInt
  split
  · next hneg =>
    rw [Decimal.readInt, Decimal.value_pad]
    omega
  · next hpos =>
    have hread : Decimal.readInt (Decimal.pad width n.natAbs) =
        (Decimal.value (Decimal.pad width n.natAbs) : Int) := by
      unfold Decimal.readInt
      split
      · next s hs =>
        exact absurd (Decimal.isDigit_of_mem_pad 45 (hs ▸ List.mem_cons_self)) (by decide)
      · rfl
    rw [hread, Decimal.value_pad]
    omega

/-- The names of the weekdays have three letters. -/
theorem length_getD_weekdays {i : Nat} (h : i ≤ 6) : (weekdays.getD i []).length = 3 := by
  interval_cases i <;> rfl

/-- So have those of the months. -/
theorem length_getD_months {i : Nat} (h : i ≤ 11) : (months.getD i []).length = 3 := by
  interval_cases i <;> rfl

/-- Two months of one name are one month. -/
theorem getD_months_injective {i j : Nat} (hi : i ≤ 11) (hj : j ≤ 11)
    (h : months.getD i [] = months.getD j []) : i = j := by
  have hall : ∀ i < 12, ∀ j < 12, months.getD i [] = months.getD j [] → i = j := by decide
  exact hall i (Nat.lt_succ_of_le hi) j (Nat.lt_succ_of_le hj) h

/-- Numbers of two digits. -/
theorem pad_two_append_inj {m n : Nat} (hm : m < 100) (hn : n < 100) {rest rest' : Bytes}
    (h : Decimal.pad 2 m ++ rest = Decimal.pad 2 n ++ rest') : m = n ∧ rest = rest' := by
  have hlength : (Decimal.pad 2 m).length = (Decimal.pad 2 n).length :=
    (Decimal.length_pad (by decide) hm).trans (Decimal.length_pad (by decide) hn).symm
  obtain ⟨hsame, hrest⟩ := List.append_inj h hlength
  exact ⟨by rw [← Decimal.value_pad 2 m, hsame, Decimal.value_pad], hrest⟩

/-- The end of a date has the same length for every time. -/
theorem length_clock {tm : Tm} (h : tm.InRange) :
    (bytes " " ++ (Decimal.pad 2 tm.hour ++ (bytes ":" ++ (Decimal.pad 2 tm.min ++ (bytes ":" ++
      (Decimal.pad 2 tm.sec ++ bytes " GMT")))))).length = 13 := by
  have hlength : ∀ {n : Nat}, n ≤ 60 → (Decimal.pad 2 n).length = 2 :=
    fun hn => Decimal.length_pad (by decide) (Nat.lt_of_le_of_lt hn (by decide))
  have hletters : (bytes " ").length = 1 ∧ (bytes ":").length = 1 ∧ (bytes " GMT").length = 4 :=
    ⟨rfl, rfl, rfl⟩
  simp only [List.length_append, hletters, hlength (Nat.le_trans h.hour (by decide)),
    hlength (Nat.le_trans h.min (by decide)), hlength h.sec]

/-- **No two times have the same date.** -/
theorem http_date_injective {time time' : Int} {tm tm' : Tm} (htm : gmtime time = some tm)
    (htm' : gmtime time' = some tm') (h : formatHttpGmtDate time = formatHttpGmtDate time') :
    time = time' := by
  obtain ⟨hrange, htime, -⟩ := gmtime_eq htm
  obtain ⟨hrange', htime', -⟩ := gmtime_eq htm'
  rw [formatHttpGmtDate, formatHttpGmtDate, htm, htm', Option.getD_some, Option.getD_some, formatTm,
    formatTm] at h
  have hday := (List.append_inj h ((length_getD_weekdays hrange.wday).trans
    (length_getD_weekdays hrange'.wday).symm)).2
  obtain ⟨hmday, hmonth⟩ := pad_two_append_inj (Nat.lt_of_le_of_lt hrange.mday.2 (by decide))
    (Nat.lt_of_le_of_lt hrange'.mday.2 (by decide)) (List.append_cancel_left hday)
  obtain ⟨hmon, hyear⟩ := List.append_inj (List.append_cancel_left hmonth)
    ((length_getD_months hrange.mon).trans (length_getD_months hrange'.mon).symm)
  obtain ⟨hyear, hclock⟩ := List.append_inj' (List.append_cancel_left hyear)
    ((length_clock hrange).trans (length_clock hrange').symm)
  obtain ⟨hhour, hmin⟩ := pad_two_append_inj (Nat.lt_of_le_of_lt hrange.hour (by decide))
    (Nat.lt_of_le_of_lt hrange'.hour (by decide)) (List.append_cancel_left hclock)
  obtain ⟨hmin, hsec⟩ := pad_two_append_inj (Nat.lt_of_le_of_lt hrange.min (by decide))
    (Nat.lt_of_le_of_lt hrange'.min (by decide)) (List.append_cancel_left hmin)
  obtain ⟨hsec, -⟩ := pad_two_append_inj (Nat.lt_of_le_of_lt hrange.sec (by decide))
    (Nat.lt_of_le_of_lt hrange'.sec (by decide)) (List.append_cancel_left hsec)
  have hyear' : tm.year = tm'.year := by
    have hread := congrArg Decimal.readInt hyear
    rw [readInt_padInt, readInt_padInt] at hread
    omega
  rw [← htime, ← htime', timegm, timegm, hyear', getD_months_injective hrange.mon hrange'.mon hmon,
    hmday, hhour, hmin, hsec]

end Httplib
