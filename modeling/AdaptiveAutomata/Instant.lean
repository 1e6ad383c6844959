/-
  Instants of time in UTC, to the nanosecond, and their texts after RFC 3339.

  * `Instant` counts days from 1970, seconds of the day, and nanoseconds; in a
    leap second the nanoseconds run on past a whole second;
  * `Instant.text` writes no fraction, or one of 3, 6 or 9 digits, and `Z`;
  * `Instant.ofText?` reads any offset from UTC, and is lenient about blanks;
  * `Instant.since` is the time from one instant to another.
-/
import AdaptiveAutomata.Binary
import AdaptiveAutomata.Json.Codec

namespace AdaptiveAutomata

/-- An instant of time. -/
structure Instant where
  /-- Days since 1970-01-01. -/
  day : Int
  /-- Seconds since the start of the day. -/
  second : Nat
  /-- Nanoseconds since the start of the second; a whole second or more in a
      leap second. -/
  nano : Nat
deriving DecidableEq

namespace Instant

def nanosPerSecond : Nat := 1000000000

/-! ## The calendar

Years are counted from March, so that the leap day is the last of its year, and
in eras of 400 years, which have all the same number of days. -/

/-- A date of the Gregorian calendar. -/
structure Date where
  year : Int
  month : Nat
  day : Nat
deriving DecidableEq

/-- Days of an era of 400 years. -/
def daysPerEra : Nat := 146097

/-- Days from the start of an era, in March of the year 0, to 1970-01-01. -/
def epochOffset : Nat := 719468

/-- Days of the year, from March on, before the month with this index. -/
def daysBeforeMonth (index : Nat) : Nat := (153 * index + 2) / 5

/-- Days since 1970-01-01 of a date. -/
def Date.toDay (d : Date) : Int :=
  let year := if d.month ≤ 2 then d.year - 1 else d.year
  let yearOfEra := (year % 400).toNat
  let dayOfYear := daysBeforeMonth ((d.month + 9) % 12) + d.day - 1
  let dayOfEra := yearOfEra * 365 + yearOfEra / 4 - yearOfEra / 100 + dayOfYear
  year / 400 * daysPerEra + dayOfEra - epochOffset

/-- The date of a day counted from 1970-01-01. -/
def Date.ofDay (day : Int) : Date :=
  let shifted := day + epochOffset
  let dayOfEra := (shifted % daysPerEra).toNat
  let yearOfEra := (dayOfEra - dayOfEra / 1460 + dayOfEra / 36524 - dayOfEra / 146096) / 365
  let dayOfYear := dayOfEra - (365 * yearOfEra + yearOfEra / 4 - yearOfEra / 100)
  let index := (5 * dayOfYear + 2) / 153
  let month := if index < 10 then index + 3 else index - 9
  let year := shifted / daysPerEra * 400 + yearOfEra
  { year := if month ≤ 2 then year + 1 else year
    month := month
    day := dayOfYear - daysBeforeMonth index + 1 }

def isLeapYear (year : Int) : Bool :=
  year % 4 = 0 ∧ (year % 100 ≠ 0 ∨ year % 400 = 0)

def daysInMonth (year : Int) (month : Nat) : Nat :=
  if month = 2 then (if isLeapYear year then 29 else 28)
  else if month = 4 ∨ month = 6 ∨ month = 9 ∨ month = 11 then 30
  else 31

def minYear : Int := -262143

def maxYear : Int := 262142

def Date.isValid (d : Date) : Bool :=
  minYear ≤ d.year ∧ d.year ≤ maxYear ∧ 1 ≤ d.month ∧ d.month ≤ 12 ∧
    1 ≤ d.day ∧ d.day ≤ daysInMonth d.year d.month

/-! ## Writing -/

/-- A number with zeros in front, up to the given width. -/
def padded (width n : Nat) : List Char :=
  let ds := Nat.toDigits 10 n
  List.replicate (width - ds.length) '0' ++ ds

/-- A year: four digits, or a sign and at least four digits outside the years
    from 0 to 9999. -/
def yearText (year : Int) : List Char :=
  if 0 ≤ year ∧ year ≤ 9999 then padded 4 year.toNat
  else (if year < 0 then '-' else '+') :: padded 4 year.natAbs

/-- The fraction of a second with as many digits as it needs, in threes. -/
def fractionText (nano : Nat) : List Char :=
  if nano = 0 then []
  else if nano % 1000000 = 0 then '.' :: padded 3 (nano / 1000000)
  else if nano % 1000 = 0 then '.' :: padded 6 (nano / 1000)
  else '.' :: padded 9 nano

def text (t : Instant) : String :=
  let date := Date.ofDay t.day
  let leap := nanosPerSecond ≤ t.nano
  let second := t.second % 60 + if leap then 1 else 0
  let nano := if leap then t.nano - nanosPerSecond else t.nano
  String.ofList (yearText date.year ++ '-' :: padded 2 date.month ++ '-' :: padded 2 date.day ++
    'T' :: padded 2 (t.second / 3600) ++ ':' :: padded 2 (t.second / 60 % 60) ++
    ':' :: padded 2 second ++ fractionText nano ++ ['Z'])

/-! ## Reading -/

/-- The characters with the Unicode property `White_Space`. -/
def isBlank (c : Char) : Bool :=
  let n := c.toNat
  (9 ≤ n ∧ n ≤ 13) ∨ n = 0x20 ∨ n = 0x85 ∨ n = 0xA0 ∨ n = 0x1680 ∨ (0x2000 ≤ n ∧ n ≤ 0x200A) ∨
    n = 0x2028 ∨ n = 0x2029 ∨ n = 0x202F ∨ n = 0x205F ∨ n = 0x3000

/-- Reads the front of a text. -/
abbrev Part := StateT (List Char) Option

def blanks : Part Unit := modify (·.dropWhile isBlank)

def char (p : Char → Bool) : Part Char := fun cs =>
  match cs with
  | c :: cs => if p c then some (c, cs) else none
  | [] => none

/-- Digits, at least one and at most so many. -/
def digits (most : Nat) : Part (List Char) := fun cs =>
  let ds := (cs.take most).takeWhile Char.isDigit
  if ds.isEmpty then none else some (ds, cs.drop ds.length)

/-- A number of at most so many digits within the given bounds, after blanks. -/
def number (most least greatest : Nat) : Part Nat := do
  blanks
  let n := Nat.ofDigitChars 10 (← digits most) 0
  if least ≤ n ∧ n ≤ greatest then return n else failure

/-- A year: at most four digits, or a sign and any number of digits. -/
def year : Part Int := do
  blanks
  let cs ← get
  match cs with
  | '-' :: rest =>
    set rest
    return -(Nat.ofDigitChars 10 (← digits rest.length) 0 : Int)
  | '+' :: rest =>
    set rest
    return Nat.ofDigitChars 10 (← digits rest.length) 0
  | _ => return Nat.ofDigitChars 10 (← digits 4) 0

def separator (c : Char) : Part Unit := do
  blanks
  let _ ← char (· = c)

/-- The nanoseconds after a point, if there is one; digits past the ninth are
    dropped. -/
def fraction : Part Nat := do
  match ← get with
  | '.' :: rest =>
    set rest
    let ds ← digits 9
    modify (·.dropWhile Char.isDigit)
    return Nat.ofDigitChars 10 ds 0 * Nat.pow 10 (9 - ds.length)
  | _ => return 0

/-- Two digits of which the first is at most `tens`. -/
def twoDigits (tens : Char) : Part Nat := do
  let a ← char fun c => c.isDigit && c ≤ tens
  let b ← char Char.isDigit
  return Nat.ofDigitChars 10 [a, b] 0

/-- The offset from UTC in seconds: `Z`, the word `UTC`, or a sign, hours and
    minutes. -/
def offset : Part Int := do
  blanks
  match ← get with
  | 'Z' :: rest | 'z' :: rest => set rest; return 0
  | c :: rest =>
    if ((c :: rest).take 3).map Char.toUpper = ['U', 'T', 'C'] then
      set (rest.drop 2)
      return 0
    set rest
    let east ←
      if c = '+' then pure true
      else if c = '-' ∨ c = '\u2212' then pure false
      else failure
    let hours ← twoDigits '9'
    modify (·.dropWhile fun c => c = ':' || isBlank c)
    let minutes ← twoDigits '5'
    let seconds : Int := hours * 3600 + minutes * 60
    return if east then seconds else -seconds
  | [] => failure

/-- A date, a time of day and an offset. -/
def dateTime : Part Instant := do
  let y ← year
  separator '-'
  let m ← number 2 1 12
  separator '-'
  let d ← number 2 1 31
  let date : Date := ⟨y, m, d⟩
  let _ ← char fun c => c = 'T' || c = 't' || c = ' '
  let hour ← number 2 0 23
  separator ':'
  let minute ← number 2 0 59
  separator ':'
  let second ← number 2 0 60
  let nano ← fraction
  let east ← offset
  blanks
  if !(← get).isEmpty then failure
  if !date.isValid ∨ east.natAbs ≥ 86400 then failure
  -- A leap second is the one before it, run on.
  let nano := if second = 60 then nano + nanosPerSecond else nano
  let second : Int := (hour * 60 + minute) * 60 + min second 59 - east
  let day := date.toDay + second / 86400
  let shifted := (Date.ofDay day).year
  if shifted < minYear ∨ maxYear < shifted then failure
  return { day, second := (second % 86400).toNat, nano }

def ofText? (s : String) : Option Instant := (dateTime s.toList).map (·.1)

/-! ## Differences -/

/-- The nanoseconds from `s` to `t`.  A leap second counts if it lies between
    the two times of day. -/
def since (t s : Instant) : Int :=
  let leap : Int :=
    if s.second < t.second ∧ nanosPerSecond ≤ s.nano then 1
    else if t.second < s.second ∧ nanosPerSecond ≤ t.nano then -1
    else 0
  ((t.day - s.day) * 86400 + ((t.second : Int) - s.second) + leap) * nanosPerSecond +
    ((t.nano : Int) - s.nano)

/-! ## Written forms -/

def json : Json.Codec Instant := Json.Codec.text.via text ofText?

def binary : Binary.Codec Instant := Binary.Codec.text.via text ofText?

end Instant

end AdaptiveAutomata
