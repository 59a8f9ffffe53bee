import SignalEvolution.Time.Instant
import Std.Time.Date

/-! # Clock readings

A clock counts nanoseconds from the start of 1970, in days of equal length.
-/
namespace SignalEvolution.Instant

/-- The instant of a reading, if it lies in the years of the calendar. -/
def ofClock? (nanoseconds : Int) : Option Instant :=
  let seconds := nanoseconds.fdiv 1000000000
  let date := Std.Time.PlainDate.ofEpochDay (.ofInt (seconds.fdiv 86400))
  let inDay := (seconds.fmod 86400).toNat
  ofNumbers? date.year.toInt date.month.val.toNat date.day.val.toNat (inDay / 3600) (inDay / 60 % 60)
    (inDay % 60) (nanoseconds.fmod 1000000000).toNat

end SignalEvolution.Instant
