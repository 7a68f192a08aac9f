import DeferredOps.Text.Blank

/-!
# Times

A time of the Gregorian calendar, to the microsecond, with or without an offset from UTC. It is kept
as the seconds since the first of January of the year 1, so that clocks add and comparisons compare
whole numbers.
-/

namespace DeferredOps

/-- A date of the calendar. -/
structure Date where
  year : Nat
  month : Nat
  day : Nat
  deriving DecidableEq, Repr

namespace Date

/-- The days from the first of March of the year 0 to the first of January of the year 1. -/
def firstDay : Nat := 306

/-- The date after a number of days from the first of January of the year 1. Years start in March
here, so that the leap day is their last. -/
def ofDays (days : Nat) : Date :=
  let shifted := days + firstDay
  let era := shifted / 146097
  let dayOfEra := shifted % 146097
  let yearOfEra := (dayOfEra - dayOfEra / 1460 + dayOfEra / 36524 - dayOfEra / 146096) / 365
  let dayOfYear := dayOfEra - (365 * yearOfEra + yearOfEra / 4 - yearOfEra / 100)
  let marchMonth := (5 * dayOfYear + 2) / 153
  let month := if marchMonth < 10 then marchMonth + 3 else marchMonth - 9
  { year := yearOfEra + era * 400 + (if month ≤ 2 then 1 else 0)
    month := month
    day := dayOfYear - (153 * marchMonth + 2) / 5 + 1 }

/-- The days from the first of January of the year 1 to a date. -/
def toDays (date : Date) : Nat :=
  let year := if date.month ≤ 2 then date.year - 1 else date.year
  let marchMonth := if 2 < date.month then date.month - 3 else date.month + 9
  let dayOfYear := (153 * marchMonth + 2) / 5 + date.day - 1
  let yearOfEra := year % 400
  year / 400 * 146097 + yearOfEra * 365 + yearOfEra / 4 - yearOfEra / 100 + dayOfYear - firstDay

/-- The last date of the calendar. -/
def last : Date := ⟨9999, 12, 31⟩

/-- Whether a year has a leap day. -/
def isLeap (year : Nat) : Bool :=
  year % 4 = 0 && (year % 100 ≠ 0 || year % 400 = 0)

/-- The days of a month; none for a month that there is not. -/
def daysInMonth (year month : Nat) : Nat :=
  match month with
  | 1 | 3 | 5 | 7 | 8 | 10 | 12 => 31
  | 4 | 6 | 9 | 11 => 30
  | 2 => if isLeap year then 29 else 28
  | _ => 0

/-- Whether a date is one of the calendar, which starts with the year 1 and has four digits for a
year. -/
def isValid (date : Date) : Bool :=
  0 < date.year && date.year ≤ last.year && 0 < date.day &&
    date.day ≤ daysInMonth date.year date.month

end Date

/-- A time: seconds since the first of January of the year 1, microseconds, and the offset from UTC
in microseconds. -/
structure Timestamp where
  seconds : Nat
  microseconds : Nat
  offset : Option Int
  deriving DecidableEq, Repr

namespace Timestamp

/-- A time of a date and a time of day, without an offset. -/
def ofDate (date : Date) (hour minute second : Nat) : Timestamp :=
  ⟨((date.toDays * 24 + hour) * 60 + minute) * 60 + second, 0, none⟩

/-- The time some seconds later. -/
def addSeconds (t : Timestamp) (seconds : Nat) : Timestamp :=
  { t with seconds := t.seconds + seconds }

/-- The microseconds of a time before its offset is taken off. -/
def microsecondsOfCalendar (t : Timestamp) : Int :=
  t.seconds * 1000000 + t.microseconds

/-- Whether a time is not before another; `none` if only one of them has an offset. -/
def notBefore? (t other : Timestamp) : Option Bool :=
  match t.offset, other.offset with
  | none, none => some (other.microsecondsOfCalendar ≤ t.microsecondsOfCalendar)
  | some offset, some otherOffset =>
    some (other.microsecondsOfCalendar - otherOffset ≤ t.microsecondsOfCalendar - offset)
  | _, _ => none

/-- The date of a time. -/
def date (t : Timestamp) : Date :=
  Date.ofDays (t.seconds / 86400)

/-- A number with zeros in front up to a width. -/
def padded (width n : Nat) : String :=
  let digits := n.repr
  String.ofList (List.replicate (width - digits.length) '0') ++ digits

/-- An offset as its sign, hours and minutes, its seconds if there are any or a fraction of one, and
the six digits of the fraction if there is one. -/
def offsetText (offset : Int) : String :=
  let fraction := offset.natAbs % 1000000
  let n := offset.natAbs / 1000000
  (if offset < 0 then "-" else "+") ++ padded 2 (n / 3600) ++ ":" ++ padded 2 (n / 60 % 60) ++
    (if n % 60 = 0 && fraction = 0 then "" else ":" ++ padded 2 (n % 60)) ++
    (if fraction = 0 then "" else "." ++ padded 6 fraction)

/-- The standard form: date, `T`, time of day, six digits of microseconds if there are any, and the
offset if there is one. -/
def iso (t : Timestamp) : String :=
  let d := t.date
  padded 4 d.year ++ "-" ++ padded 2 d.month ++ "-" ++ padded 2 d.day ++ "T" ++
    padded 2 (t.seconds / 3600 % 24) ++ ":" ++ padded 2 (t.seconds / 60 % 60) ++ ":" ++
    padded 2 (t.seconds % 60) ++
    (if t.microseconds = 0 then "" else "." ++ padded 6 t.microseconds) ++
    (match t.offset with
      | some offset => offsetText offset
      | none => "")

/-- The form in log files: date, blank, time of day, comma, and three digits of milliseconds. -/
def logStamp (t : Timestamp) : String :=
  let d := t.date
  padded 4 d.year ++ "-" ++ padded 2 d.month ++ "-" ++ padded 2 d.day ++ " " ++
    padded 2 (t.seconds / 3600 % 24) ++ ":" ++ padded 2 (t.seconds / 60 % 60) ++ ":" ++
    padded 2 (t.seconds % 60) ++ "," ++ padded 3 (t.microseconds / 1000)

/-- The form in file names: the digits of the date, a hyphen, and the digits of the time of day. -/
def fileStamp (t : Timestamp) : String :=
  let d := t.date
  d.year.repr ++ padded 2 d.month ++ padded 2 d.day ++ "-" ++ padded 2 (t.seconds / 3600 % 24) ++
    padded 2 (t.seconds / 60 % 60) ++ padded 2 (t.seconds % 60)

/-! ## Reading -/

/-- A decimal digit. -/
def isDigit (c : Char) : Bool :=
  48 ≤ c.toNat && c.toNat ≤ 57

/-- The number that exactly these decimal digits write. -/
def number? (digits : List Char) : Option Nat :=
  if digits.all isDigit then some (digits.foldl (fun n c ↦ n * 10 + (c.toNat - 48)) 0) else none

/-- The number of the first two digits, and the text after them. -/
def pair? : List Char → Option (Nat × List Char)
  | a :: b :: rest => (number? [a, b]).map (·, rest)
  | _ => none

/-- The days of a date of the calendar; none if there is no such date. -/
def daysOfDate? (date : Date) : Option Nat :=
  if date.isValid then some date.toDays else none

/-- The days of a date in a week of a year; none if there is no such date. The first week is that of
the first Thursday, and weeks start on Monday, as the first of January of the year 1 did. -/
def daysOfWeek? (year week day : Nat) : Option Nat :=
  let first := (⟨year, 1, 1⟩ : Date).toDays % 7
  let isLong := first = 3 || (first = 2 && Date.isLeap year)
  let start := (⟨year, 1, 1⟩ : Date).toDays
  let monday := if 3 < first then start + 7 - first else start - first
  let days := monday + (week - 1) * 7 + (day - 1)
  if 0 < year && 0 < week && week ≤ (if isLong then 53 else 52) && 0 < day && day ≤ 7 &&
      days ≤ Date.last.toDays then
    some days
  else none

/-- The days of a date in a week, and the text after it; the day is Monday unless it is given. -/
def weekDate? (year week : Nat) (hasDay : Bool) (rest : List Char) : Option (Nat × List Char) :=
  if hasDay then
    match rest with
    | d :: rest => do return (← daysOfWeek? year week (← number? [d]), rest)
    | [] => none
  else (daysOfWeek? year week 1).map (·, rest)

/-- The days of the date at the front of a text, and the text after it. A date is a month and a day,
or a week and perhaps a day, with or without hyphens. A digit that could be a day is part of the time
if that makes pairs of digits of the rest. -/
def date? : List Char → Option (Nat × List Char)
  | a :: b :: c :: d :: rest => do
    let year ← number? [a, b, c, d]
    match rest with
    | '-' :: 'W' :: rest =>
      let (week, rest) ← pair? rest
      match rest with
      | '-' :: day :: more =>
        if (more.head?.map isDigit).getD false then weekDate? year week false rest
        else weekDate? year week true (day :: more)
      | _ => weekDate? year week false rest
    | 'W' :: rest =>
      let (week, rest) ← pair? rest
      let digits := (rest.takeWhile isDigit).length
      weekDate? year week (digits = 1 || (digits ≠ 0 && digits % 2 = 0)) rest
    | '-' :: rest =>
      let (month, rest) ← pair? rest
      match rest with
      | '-' :: rest =>
        let (day, rest) ← pair? rest
        return (← daysOfDate? ⟨year, month, day⟩, rest)
      | _ => none
    | rest =>
      let (month, rest) ← pair? rest
      let (day, rest) ← pair? rest
      return (← daysOfDate? ⟨year, month, day⟩, rest)
  | _ => none

/-- A time of day, as it is written. -/
structure TimeOfDay where
  hours : Nat
  minutes : Nat
  seconds : Nat
  microseconds : Nat
  deriving DecidableEq, Repr

/-- Whether a clock can show a time of day. -/
def TimeOfDay.isValid (t : TimeOfDay) : Bool :=
  t.hours < 24 && t.minutes < 60 && t.seconds < 60

/-- The microseconds of a time of day. -/
def TimeOfDay.total (t : TimeOfDay) : Nat :=
  ((t.hours * 60 + t.minutes) * 60 + t.seconds) * 1000000 + t.microseconds

/-- The microseconds that a fraction of a second writes, and the text after it. Six digits count, and
fewer than six characters are all of them digits. -/
def fraction? (text : List Char) : Option (Nat × List Char) := do
  let digits := text.take 6
  return ((← number? digits) * Nat.pow 10 (6 - digits.length), (text.drop 6).dropWhile isDigit)

/-- The pairs of digits of a time of day, at most so many, the microseconds of its fraction, and the
text after it. Pairs are separated by colons or follow each other; a fraction follows a point, a
comma, or as a further pair would. One character after a pair is no part of the time. -/
def clockParts? (separated : Bool) : (pairs : Nat) → List Char → Option (List Nat × Nat × List Char)
  | 0, text => (fraction? text).map fun (fraction, rest) ↦ ([], fraction, rest)
  | pairs + 1, text => do
    let (number, rest) ← pair? text
    let (numbers, fraction, rest) ← match rest with
      | [] => some ([], 0, [])
      | [c] => if c.toNat < 128 then some ([], 0, [c]) else none
      | c :: more =>
        if separated && c = ':' then clockParts? separated pairs more
        else if c = '.' || c = ',' then
          (fraction? more).map fun (fraction, rest) ↦ ([], fraction, rest)
        else if separated then none
        else clockParts? separated pairs rest
    return (number :: numbers, fraction, rest)

/-- The time of day at the front of a text, and the text after it: hours, and perhaps minutes, seconds
and a fraction, with colons or without. -/
def timeOfDay? (text : List Char) : Option (TimeOfDay × List Char) := do
  let separated := (text.drop 2).head? = some ':'
  let (numbers, fraction, rest) ← clockParts? separated 3 text
  return (⟨numbers.getD 0 0, numbers.getD 1 0, numbers.getD 2 0, fraction⟩, rest)

/-- Whether nothing is left of a text; what follows the character NUL does not count. -/
def isOver (text : List Char) : Bool :=
  text.head?.all (· = '\x00')

/-- The offset that follows a time: none, `Z`, or a sign and the hours, minutes, seconds and fraction
of less than a day. One of less than a second is none from UTC. -/
def offset? : List Char → Option (Option Int)
  | [] => some none
  | 'Z' :: rest => if isOver rest then some (some 0) else none
  | sign :: rest => do
    let (time, rest) ← timeOfDay? rest
    let total : Int := time.total
    if !isOver rest || 86400 * 1000000 ≤ total then none
    else return some (if total < 1000000 then 0 else if sign = '-' then -total else total)

/-- Whether a character starts an offset. -/
def startsOffset (c : Char) : Bool :=
  c = '+' || c = '-' || c = 'Z'

/-- Read a time: a date, and perhaps any character and a time of day, with or without an offset. Before
an offset, characters that are no part of the time of day are passed over. -/
def ofIso? (text : String) : Option Timestamp := do
  let (days, rest) ← date? text.toList
  match rest with
  | [] => return ⟨days * 86400, 0, none⟩
  | _ :: rest =>
    let clock := rest.takeWhile (!startsOffset ·)
    let after := rest.drop clock.length
    let (time, left) ← timeOfDay? clock
    if !time.isValid || (after.isEmpty && !isOver left) then none
    else
      let seconds := time.total / 1000000
      return ⟨days * 86400 + seconds, time.microseconds, ← offset? after⟩

end Timestamp

/-- A clock: the time of its next reading, and the seconds between two readings. -/
structure Clock where
  next : Timestamp
  step : Nat
  deriving DecidableEq, Repr

namespace Clock

/-- Read the clock. -/
def read (clock : Clock) : Timestamp × Clock :=
  (clock.next, { clock with next := clock.next.addSeconds clock.step })

end Clock

end DeferredOps
