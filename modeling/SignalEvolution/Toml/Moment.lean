import SignalEvolution.Time.Instant

/-! # Dates and times of TOML documents

A moment is a date, a time of day, or both, and then perhaps with an offset from
universal time. It is written with no more digits of a second than it needs.
-/
namespace SignalEvolution.Toml

structure ClockTime where
  hour : Nat
  minute : Nat
  second : Option Nat
  nanosecond : Option Nat

inductive Offset where
  | universal
  | minutes (ahead : Int)

structure Moment where
  date : Option Date
  time : Option ClockTime
  offset : Option Offset

namespace ClockTime

def fractionText (nanosecond : Nat) : List Char :=
  let digits := ((Instant.padded 9 nanosecond).reverse.dropWhile (· == '0')).reverse
  '.' :: (if digits.isEmpty then ['0'] else digits)

def text (t : ClockTime) : List Char :=
  Instant.padded 2 t.hour ++ ':' :: Instant.padded 2 t.minute ++
    t.second.elim [] (fun n => ':' :: Instant.padded 2 n) ++ t.nanosecond.elim [] fractionText

end ClockTime

def Offset.text : Offset → List Char
  | universal => ['Z']
  | minutes ahead =>
    let n := ahead.natAbs
    (if ahead < 0 then '-' else '+') :: Instant.padded 2 (n / 60) ++ ':' :: Instant.padded 2 (n % 60)

namespace Moment

def dateText (d : Date) : List Char :=
  Instant.padded 4 d.year.natAbs ++ '-' :: Instant.padded 2 d.month ++ '-' :: Instant.padded 2 d.day

def text (m : Moment) : String :=
  let mark := if m.date.isSome && m.time.isSome then ['T'] else []
  String.ofList (m.date.elim [] dateText ++ mark ++ m.time.elim [] ClockTime.text ++
    m.offset.elim [] Offset.text)

def number? (width : Nat) (cs : List Char) : Option (Nat × List Char) :=
  let digits := cs.take width
  if digits.length = width ∧ digits.all Char.isDigit then
    some (Decimal.digitsValue digits, cs.drop width)
  else none

def mark? (c : Char) : List Char → Option (List Char)
  | d :: rest => if d = c then some rest else none
  | [] => none

def date? (cs : List Char) : Option (Date × List Char) := do
  let (year, rest) ← number? 4 cs
  let (month, rest) ← number? 2 (← mark? '-' rest)
  let (day, rest) ← number? 2 (← mark? '-' rest)
  return (← Date.ofNumbers? year month day, rest)

def hourMinute? (cs : List Char) : Option (Nat × Nat × List Char) := do
  let (hour, rest) ← number? 2 cs
  let (minute, rest) ← number? 2 (← mark? ':' rest)
  if hour < 24 ∧ minute < 60 then return (hour, minute, rest) else none

/-- Seconds after a colon, the last of a minute perhaps a leap second, and parts of them after a point. -/
def seconds? (cs : List Char) : Option (Nat × Option Nat × List Char) := do
  let (second, rest) ← number? 2 (← mark? ':' cs)
  if 60 < second then none
  match rest with
  | '.' :: _ => (Instant.fraction? rest).map fun (n, rest) => (second, some n, rest)
  | rest => return (second, none, rest)

/-- A time of day. Seconds may be left out only where that is allowed. -/
def clockTime? (secondsOptional : Bool) (cs : List Char) : Option (ClockTime × List Char) := do
  let (hour, minute, rest) ← hourMinute? cs
  match secondsOptional, rest with
  | false, rest | true, rest@(':' :: _) =>
    (seconds? rest).map fun (second, part, rest) => (⟨hour, minute, some second, part⟩, rest)
  | true, rest => return (⟨hour, minute, none, none⟩, rest)

def offset? : List Char → Option (Option Offset)
  | [] => some none
  | ['Z'] | ['z'] => some (some .universal)
  | sign :: rest =>
    match hourMinute? rest with
    | some (hour, minute, []) =>
      if sign = '+' then some (some (.minutes (hour * 60 + minute : Nat)))
      else if sign = '-' then some (some (.minutes (-(hour * 60 + minute : Nat))))
      else none
    | _ => none

def isTimeMark (c : Char) : Bool := c == 'T' || c == 't' || c == ' '

def ofChars? (secondsOptional : Bool) (cs : List Char) : Option Moment :=
  match date? cs with
  | some (date, []) => some ⟨some date, none, none⟩
  | some (date, c :: rest) =>
    if isTimeMark c then do
      let (time, rest) ← clockTime? secondsOptional rest
      return ⟨some date, some time, ← offset? rest⟩
    else none
  | none =>
    match clockTime? secondsOptional cs with
    | some (time, []) => some ⟨none, some time, none⟩
    | _ => none

end Moment
end SignalEvolution.Toml
