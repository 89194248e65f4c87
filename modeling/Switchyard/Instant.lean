import Switchyard.Text.Blank
import Switchyard.Text.Digits

/-
  Switchyard.Instant — points in time in universal time, by calendar date and time of
  day to the nanosecond, and their written forms.

  An instant is its calendar fields, so instants compare field by field from the year
  down. A leap second is the 59th second with a billion nanoseconds or more.

  Two written forms differ in their end: `zulu` ends in `Z`, `offset` in `+00:00`. Both
  have the fewest of 0, 3, 6 and 9 fractional digits that are exact. Two readers take
  an offset from universal time and subtract it: `parse?` wants every field at its full
  width, `parseLoose?` also takes shorter fields, spaces between them and the name UTC.
-/

namespace Switchyard

structure Instant where
  year : Int
  month : Nat
  day : Nat
  hour : Nat
  minute : Nat
  second : Nat
  nano : Nat
  deriving DecidableEq, Repr, Inhabited

def nanosPerSecond : Nat := 1000000000

def nanosPerMilli : Nat := 1000000

def nanosPerMicro : Nat := 1000

namespace Instant

def isLeapYear (y : Int) : Bool := y % 4 = 0 && (y % 100 ≠ 0 || y % 400 = 0)

def daysInMonth (y : Int) (m : Nat) : Nat :=
  match m with
  | 2 => if isLeapYear y then 29 else 28
  | 4 | 6 | 9 | 11 => 30
  | _ => 31

def isValid (t : Instant) : Bool :=
  1 ≤ t.month && t.month ≤ 12 && 1 ≤ t.day && t.day ≤ daysInMonth t.year t.month &&
  t.hour < 24 && t.minute < 60 && t.second < 60 && t.nano < 2 * nanosPerSecond

def compare (a b : Instant) : Ordering :=
  (Ord.compare a.year b.year).then <|
  (Ord.compare a.month b.month).then <|
  (Ord.compare a.day b.day).then <|
  (Ord.compare a.hour b.hour).then <|
  (Ord.compare a.minute b.minute).then <|
  (Ord.compare a.second b.second).then <|
  Ord.compare a.nano b.nano

/-! ## Calendar arithmetic -/

/-- The days from 1970-01-01 to a date, by years that begin in March. -/
def daysOfDate (year : Int) (month day : Nat) : Int :=
  let y := if month ≤ 2 then year - 1 else year
  let era := y.fdiv 400
  let yearOfEra := y - era * 400
  let m : Int := (month + 9) % 12
  let dayOfYear := (153 * m + 2) / 5 + day - 1
  let dayOfEra := yearOfEra * 365 + yearOfEra / 4 - yearOfEra / 100 + dayOfYear
  era * 146097 + dayOfEra - 719468

def dateOfDays (days : Int) : Int × Nat × Nat :=
  let z := days + 719468
  let era := z.fdiv 146097
  let dayOfEra := z - era * 146097
  let yearOfEra := (dayOfEra - dayOfEra / 1460 + dayOfEra / 36524 - dayOfEra / 146096) / 365
  let dayOfYear := dayOfEra - (365 * yearOfEra + yearOfEra / 4 - yearOfEra / 100)
  let m := (5 * dayOfYear + 2) / 153
  let day := dayOfYear - (153 * m + 2) / 5 + 1
  let month := if m < 10 then m + 3 else m - 9
  (yearOfEra + era * 400 + (if month ≤ 2 then 1 else 0), month.toNat, day.toNat)

def seconds (t : Instant) : Int :=
  daysOfDate t.year t.month t.day * 86400 + t.hour * 3600 + t.minute * 60 + t.second

def ofSeconds (s : Int) (nano : Nat) : Instant :=
  let days := s.fdiv 86400
  let rest := (s - days * 86400).toNat
  let (year, month, day) := dateOfDays days
  { year, month, day, hour := rest / 3600, minute := rest / 60 % 60, second := rest % 60, nano }

def addNanos (t : Instant) (n : Nat) : Instant :=
  let nanos := t.nano + n
  if nanos < nanosPerSecond then { t with nano := nanos }
  else ofSeconds (t.seconds + nanos / nanosPerSecond) (nanos % nanosPerSecond)

/-- Milliseconds from `a` to `b`, rounded toward zero. -/
def millisBetween (a b : Instant) : Int :=
  Int.tdiv ((b.seconds - a.seconds) * nanosPerSecond + ((b.nano : Int) - a.nano)) nanosPerMilli

/-! ## Written forms -/

def yearText (y : Int) : String :=
  if 0 ≤ y ∧ y ≤ 9999 then Text.padded 4 y.toNat
  else if y < 0 then "-" ++ Text.padded 4 (-y).toNat
  else "+" ++ Text.padded 4 y.toNat

def dateText (t : Instant) : String :=
  yearText t.year ++ "-" ++ Text.padded 2 t.month ++ "-" ++ Text.padded 2 t.day

/-- Hours, minutes and seconds; a leap second is written as second sixty. -/
def clockText (t : Instant) : String :=
  Text.padded 2 t.hour ++ ":" ++ Text.padded 2 t.minute ++ ":" ++ Text.padded 2 (t.second + t.nano / nanosPerSecond)

def fractionText (nano : Nat) : String :=
  if nano = 0 then ""
  else if nano % nanosPerMilli = 0 then "." ++ Text.padded 3 (nano / nanosPerMilli)
  else if nano % nanosPerMicro = 0 then "." ++ Text.padded 6 (nano / nanosPerMicro)
  else "." ++ Text.padded 9 nano

def plain (t : Instant) : String :=
  t.dateText ++ "T" ++ t.clockText ++ fractionText (t.nano % nanosPerSecond)

def zulu (t : Instant) : String := t.plain ++ "Z"

def offset (t : Instant) : String := t.plain ++ "+00:00"

def human (t : Instant) : String := t.dateText ++ " " ++ t.clockText

/-! ## Reading -/

/-- Between `least` and `most` digits from the front, as a number. -/
def readNumber (least most : Nat) (cs : List Char) : Option (Nat × List Char) :=
  let ds := (cs.take most).takeWhile fun c => (Text.digitValue? c).isSome
  if ds.length < least then none
  else some (ds.foldl (fun acc c => acc * 10 + (Text.digitValue? c).getD 0) 0, cs.drop ds.length)

def readChar (c : Char) : List Char → Option (List Char)
  | x :: rest => if x = c then some rest else none
  | [] => none

/-- A fraction of a second after its point, in nanoseconds; digits past the ninth are
    dropped. -/
def readFraction (cs : List Char) : Option (Nat × List Char) := do
  let (n, rest) ← readNumber 1 9 cs
  let width := cs.length - rest.length
  some (n * Nat.pow 10 (9 - width), rest.dropWhile fun c => (Text.digitValue? c).isSome)

def readOptionalFraction : List Char → Option (Nat × List Char)
  | '.' :: rest => readFraction rest
  | rest => some (0, rest)

/-- An offset from universal time in minutes; `between` skips what may stand between
    its hours and minutes. -/
def readOffset (between : List Char → Option (List Char)) : List Char → Option (Int × List Char)
  | [] => none
  | c :: rest =>
    if c = 'Z' ∨ c = 'z' then some (0, rest)
    else if c = '+' ∨ c = '-' ∨ c = '\u2212' then do
      let (hours, rest) ← readNumber 2 2 rest
      let rest ← between rest
      let (minutes, rest) ← readNumber 2 2 rest
      if 60 ≤ minutes ∨ 24 ≤ hours then none
      else
        let total : Int := hours * 60 + minutes
        some (if c = '+' then total else -total, rest)
    else none

def separator : List Char → Option (List Char)
  | 'T' :: rest | 't' :: rest | ' ' :: rest => some rest
  | _ => none

def atOffset (t : Instant) (minutes : Int) : Instant :=
  if minutes = 0 then t else ofSeconds (t.seconds - minutes * 60) t.nano

/-- An instant from its fields in local time. Second sixty is a leap second. -/
def ofFields (year : Int) (month day hour minute second nano : Nat) (offset : Int) : Option Instant :=
  if 60 < second then none
  else
    let t : Instant :=
      if second = 60 then { year, month, day, hour, minute, second := 59, nano := nano + nanosPerSecond }
      else { year, month, day, hour, minute, second, nano }
    if t.isValid ∧ year.natAbs ≤ 262142 then some (t.atOffset offset) else none

/-- Read a time of full-width fields with an offset. -/
def parse? (s : String) : Option Instant := do
  let (year, cs) ← readNumber 4 4 s.toList
  let cs ← readChar '-' cs
  let (month, cs) ← readNumber 2 2 cs
  let cs ← readChar '-' cs
  let (day, cs) ← readNumber 2 2 cs
  let cs ← separator cs
  let (hour, cs) ← readNumber 2 2 cs
  let cs ← readChar ':' cs
  let (minute, cs) ← readNumber 2 2 cs
  let cs ← readChar ':' cs
  let (second, cs) ← readNumber 2 2 cs
  let (nano, cs) ← readOptionalFraction cs
  let (offset, cs) ← readOffset (readChar ':') cs
  if cs.isEmpty then ofFields year month day hour minute second nano offset else none

def readLooseYear (cs : List Char) : Option (Int × List Char) :=
  match Text.trimStart cs with
  | '-' :: rest => (readNumber 1 9 rest).map fun (n, tail) => (-(n : Int), tail)
  | '+' :: rest => (readNumber 1 9 rest).map fun (n, tail) => ((n : Int), tail)
  | rest => (readNumber 1 4 rest).map fun (n, tail) => ((n : Int), tail)

def readLooseField (cs : List Char) : Option (Nat × List Char) := readNumber 1 2 (Text.trimStart cs)

/-- The name of universal time in any case, or an offset. -/
def readLooseOffset (cs : List Char) : Option (Int × List Char) :=
  if (cs.take 3).map Char.toUpper = ['U', 'T', 'C'] then some (0, cs.drop 3)
  else readOffset (fun rest => some (rest.dropWhile fun c => c = ':' || Text.isBlank c)) cs

/-- Read a time whose fields may be short and stand apart, with an offset. -/
def parseLoose? (s : String) : Option Instant := do
  let (year, cs) ← readLooseYear s.toList
  let cs ← readChar '-' (Text.trimStart cs)
  let (month, cs) ← readLooseField cs
  let cs ← readChar '-' (Text.trimStart cs)
  let (day, cs) ← readLooseField cs
  let cs ← separator cs
  let (hour, cs) ← readLooseField cs
  let cs ← readChar ':' (Text.trimStart cs)
  let (minute, cs) ← readLooseField cs
  let cs ← readChar ':' (Text.trimStart cs)
  let (second, cs) ← readLooseField cs
  let (nano, cs) ← readOptionalFraction cs
  let (offset, cs) ← readLooseOffset (Text.trimStart cs)
  if (Text.trimStart cs).isEmpty then ofFields year month day hour minute second nano offset else none

end Instant

end Switchyard
