/-!
# The calendar

Days of the proleptic Gregorian calendar, numbered from 1970-01-01.
-/

namespace ItemMapper

structure CalendarDay where
  year : Int
  month : Nat
  day : Nat
  deriving DecidableEq, Repr

namespace CalendarDay

def isLeap (year : Int) : Bool := year % 4 == 0 && (year % 100 != 0 || year % 400 == 0)

def monthLength (year : Int) (month : Nat) : Nat :=
  match month with
  | 2 => if isLeap year then 29 else 28
  | 4 | 6 | 9 | 11 => 30
  | _ => 31

def leastYear : Int := -262143
def greatestYear : Int := 262142

def valid (d : CalendarDay) : Bool :=
  decide (leastYear ≤ d.year) && decide (d.year ≤ greatestYear) && decide (1 ≤ d.month) && decide (d.month ≤ 12) &&
    decide (1 ≤ d.day) && decide (d.day ≤ monthLength d.year d.month)

/-- Days since 1970-01-01. A year is taken to begin in March, so that the leap day comes last. -/
def number (d : CalendarDay) : Int :=
  let y := if d.month ≤ 2 then d.year - 1 else d.year
  let m := if d.month ≤ 2 then d.month + 9 else d.month - 3
  let era := y / 400
  let yearOfEra := y - era * 400
  let dayOfYear : Int := ((153 * m + 2) / 5 + d.day : Nat) - 1
  era * 146097 + (yearOfEra * 365 + yearOfEra / 4 - yearOfEra / 100 + dayOfYear) - 719468

def ofNumber (n : Int) : CalendarDay :=
  let z := n + 719468
  let era := z / 146097
  let dayOfEra := (z - era * 146097).toNat
  let yearOfEra := (dayOfEra - dayOfEra / 1460 + dayOfEra / 36524 - dayOfEra / 146096) / 365
  let dayOfYear := dayOfEra - (365 * yearOfEra + yearOfEra / 4 - yearOfEra / 100)
  let m := (5 * dayOfYear + 2) / 153
  let month := if m < 10 then m + 3 else m - 9
  let year : Int := yearOfEra + era * 400
  ⟨if month ≤ 2 then year + 1 else year, month, dayOfYear - (153 * m + 2) / 5 + 1⟩

def weekday (d : CalendarDay) : Nat := ((d.number + 3) % 7).toNat

end CalendarDay

end ItemMapper
