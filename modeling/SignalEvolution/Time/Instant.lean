import SignalEvolution.Arithmetic.Decimal
import SignalEvolution.Text.Blank
import SignalEvolution.Time.Calendar

/-! # Instants

Instants of universal time to the nanosecond, in the notation of RFC 3339. They
are written with `Z` and with no more digits than needed in groups of three.
Texts with another offset are read too, and so are blanks around the numbers.
-/
namespace SignalEvolution

/-- The time of day; a minute may have a sixty-first second. -/
structure TimeOfDay where
  hour : Nat
  minute : Nat
  second : Nat
  nanosecond : Nat
  inDay : hour < 24 ∧ minute < 60 ∧ second ≤ 60 ∧ nanosecond < 1000000000
  deriving DecidableEq

structure Instant where
  date : Date
  time : TimeOfDay
  deriving DecidableEq

namespace TimeOfDay

def ofNumbers? (hour minute second nanosecond : Nat) : Option TimeOfDay :=
  if h : hour < 24 ∧ minute < 60 ∧ second ≤ 60 ∧ nanosecond < 1000000000 then
    some ⟨hour, minute, second, nanosecond, h⟩
  else none

theorem ofNumbers?_self (t : TimeOfDay) :
    ofNumbers? t.hour t.minute t.second t.nanosecond = some t := by
  simp only [ofNumbers?]
  rw [dif_pos t.inDay]

end TimeOfDay

namespace Instant

def ofNumbers? (year : Int) (month day hour minute second nanosecond : Nat) : Option Instant := do
  let date ← Date.ofNumbers? year month day
  let time ← TimeOfDay.ofNumbers? hour minute second nanosecond
  return ⟨date, time⟩

/-- The instant a number of minutes earlier, less than a day. -/
def earlier? (t : Instant) (minutes : Int) : Option Instant :=
  let moved : Int := t.time.hour * 60 + t.time.minute - minutes
  let date := if moved < 0 then t.date.previous? else if 1440 ≤ moved then t.date.next? else some t.date
  let inDay := (moved % 1440).toNat
  date.bind fun date =>
    (TimeOfDay.ofNumbers? (inDay / 60) (inDay % 60) t.time.second t.time.nanosecond).map (⟨date, ·⟩)

def padded (width n : Nat) : List Char :=
  let digits := Nat.toDigits 10 n
  List.replicate (width - digits.length) '0' ++ digits

/-- Years of four digits stand alone, others take a sign. -/
def yearText (year : Int) : List Char :=
  if 0 ≤ year ∧ year ≤ 9999 then padded 4 year.natAbs
  else (if year < 0 then '-' else '+') :: padded 4 year.natAbs

def fractionText (nanosecond : Nat) : List Char :=
  if nanosecond = 0 then []
  else if nanosecond % 1000000 = 0 then '.' :: padded 3 (nanosecond / 1000000)
  else if nanosecond % 1000 = 0 then '.' :: padded 6 (nanosecond / 1000)
  else '.' :: padded 9 nanosecond

def text (t : Instant) : String :=
  String.ofList (yearText t.date.year ++ '-' :: padded 2 t.date.month ++ '-' :: padded 2 t.date.day ++
    'T' :: padded 2 t.time.hour ++ ':' :: padded 2 t.time.minute ++ ':' :: padded 2 t.time.second ++
    fractionText t.time.nanosecond ++ ['Z'])

/-- A number of at least one and at most `width` digits, and the text after it. -/
def digits? (width : Nat) (cs : List Char) : Option (Nat × List Char) :=
  let digits := (cs.takeWhile Char.isDigit).take width
  if digits.isEmpty then none else some (Decimal.digitsValue digits, cs.drop digits.length)

/-- A number of at most two digits, blanks before it passed over. -/
def number? (cs : List Char) : Option (Nat × List Char) := digits? 2 (Text.trimStart cs)

/-- Any number of digits after a sign, at most four without one. -/
def year? (cs : List Char) : Option (Int × List Char) :=
  match Text.trimStart cs with
  | '-' :: rest => (digits? rest.length rest).map fun (n, rest) => (-(n : Int), rest)
  | '+' :: rest => (digits? rest.length rest).map fun (n, rest) => ((n : Int), rest)
  | rest => (digits? 4 rest).map fun (n, rest) => ((n : Int), rest)

def mark? (c : Char) (cs : List Char) : Option (List Char) :=
  match Text.trimStart cs with
  | d :: rest => if d = c then some rest else none
  | [] => none

/-- Nanoseconds after a point; digits after the ninth are passed over. -/
def fraction? : List Char → Option (Nat × List Char)
  | '.' :: rest =>
    (digits? 9 rest).map fun (n, after) =>
      (n * Nat.pow 10 (9 - (rest.length - after.length)), after.dropWhile Char.isDigit)
  | cs => some (0, cs)

def isOffsetMark (c : Char) : Bool := c == ':' || Text.isBlank c

def offsetMinutes? (cs : List Char) : Option (Nat × List Char) :=
  match cs with
  | a :: b :: rest =>
    match rest.dropWhile isOffsetMark with
    | c :: d :: rest =>
      if [a, b, c, d].all Char.isDigit then
        let hours := Decimal.digitsValue [a, b]
        let minutes := Decimal.digitsValue [c, d]
        if hours < 24 ∧ minutes < 60 then some (hours * 60 + minutes, rest) else none
      else none
    | _ => none
  | _ => none

/-- Minutes that local time is ahead of universal time. -/
def offset? (cs : List Char) : Option (Int × List Char) :=
  if Text.lower (cs.take 3) = ['u', 't', 'c'] then some (0, cs.drop 3)
  else match cs with
    | 'Z' :: rest | 'z' :: rest => some (0, rest)
    | '+' :: rest => (offsetMinutes? rest).map fun (n, rest) => ((n : Int), rest)
    | '-' :: rest | '\u2212' :: rest => (offsetMinutes? rest).map fun (n, rest) => (-(n : Int), rest)
    | _ => none

def isSeparator (c : Char) : Bool := c == 't' || c == 'T' || c == ' '

def ofText? (s : String) : Option Instant := do
  let (year, rest) ← year? s.toList
  let (month, rest) ← number? (← mark? '-' rest)
  let (day, rest) ← number? (← mark? '-' rest)
  let rest ← match rest with
    | c :: rest => if isSeparator c then some rest else none
    | [] => none
  let (hour, rest) ← number? rest
  let (minute, rest) ← number? (← mark? ':' rest)
  let (second, rest) ← number? (← mark? ':' rest)
  let (nanosecond, rest) ← fraction? rest
  let (ahead, rest) ← offset? (Text.trimStart rest)
  if (Text.trimStart rest).isEmpty then
    (← ofNumbers? year month day hour minute second nanosecond).earlier? ahead
  else none

end Instant
end SignalEvolution
