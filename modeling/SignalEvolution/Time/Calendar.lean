/-! # Calendar dates

Dates of the Gregorian calendar, carried back to years before its introduction.
The year before year 1 is year 0.
-/
namespace SignalEvolution

namespace Calendar

def leastYear : Int := -262143

def greatestYear : Int := 262142

def isLeap (year : Int) : Bool := year % 4 == 0 && (year % 100 != 0 || year % 400 == 0)

def daysIn (year : Int) : (month : Nat) → Nat
  | 2 => if isLeap year then 29 else 28
  | 4 | 6 | 9 | 11 => 30
  | _ => 31

end Calendar

open Calendar

structure Date where
  year : Int
  month : Nat
  day : Nat
  inYears : leastYear ≤ year ∧ year ≤ greatestYear
  inMonths : 1 ≤ month ∧ month ≤ 12
  inDays : 1 ≤ day ∧ day ≤ daysIn year month
  deriving DecidableEq

namespace Date

def ofNumbers? (year : Int) (month day : Nat) : Option Date :=
  if h : (leastYear ≤ year ∧ year ≤ greatestYear) ∧ (1 ≤ month ∧ month ≤ 12) ∧
      (1 ≤ day ∧ day ≤ daysIn year month) then
    some ⟨year, month, day, h.1, h.2.1, h.2.2⟩
  else none

/-- The next day; none after the last one. -/
def next? (d : Date) : Option Date :=
  if d.day < daysIn d.year d.month then ofNumbers? d.year d.month (d.day + 1)
  else if d.month < 12 then ofNumbers? d.year (d.month + 1) 1
  else ofNumbers? (d.year + 1) 1 1

/-- The day before; none before the first one. -/
def previous? (d : Date) : Option Date :=
  if 1 < d.day then ofNumbers? d.year d.month (d.day - 1)
  else if 1 < d.month then ofNumbers? d.year (d.month - 1) (daysIn d.year (d.month - 1))
  else ofNumbers? (d.year - 1) 12 31

theorem ofNumbers?_self (d : Date) : ofNumbers? d.year d.month d.day = some d := by
  simp only [ofNumbers?]
  rw [dif_pos ⟨d.inYears, d.inMonths, d.inDays⟩]

end Date
end SignalEvolution
