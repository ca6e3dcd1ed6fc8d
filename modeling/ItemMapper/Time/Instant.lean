import ItemMapper.Number.Layout
import ItemMapper.Time.Calendar

/-!
# Instants

Points in time, in nanoseconds since 1970 in UTC. Dates are read, stored and shown in whole milliseconds.
-/

namespace ItemMapper

structure Instant where
  nanos : Int
  deriving DecidableEq, Repr

namespace Instant

def millis (t : Instant) : Int := t.nanos / 1000000

def ofMillis (ms : Int) : Instant := ⟨ms * 1000000⟩

@[simp] theorem millis_ofMillis (ms : Int) : (ofMillis ms).millis = ms := by
  simp [millis, ofMillis]

def leastMillis : Int := -8334601228800000
def greatestMillis : Int := 8210266876799999

def ofMillis? (ms : Int) : Option Instant :=
  if leastMillis ≤ ms ∧ ms ≤ greatestMillis then some (ofMillis ms) else none

def padded (width n : Nat) : List Char :=
  let ds := NumberLayout.natDigits n
  NumberLayout.zeros (width - ds.length) ++ ds

def yearChars (y : Int) : List Char :=
  if 0 ≤ y ∧ y ≤ 9999 then padded 4 y.toNat
  else (if y < 0 then '-' else '+') :: padded 4 y.natAbs

def chars (t : Instant) : List Char :=
  let d := CalendarDay.ofNumber (t.millis / 86400000)
  let ms := (t.millis % 86400000).toNat
  yearChars d.year ++ '-' :: padded 2 d.month ++ '-' :: padded 2 d.day ++ 'T' ::
    padded 2 (ms / 3600000) ++ ':' :: padded 2 (ms / 60000 % 60) ++ ':' :: padded 2 (ms / 1000 % 60) ++ '.' ::
    padded 3 (ms % 1000) ++ ['Z']

def text (t : Instant) : String := String.ofList t.chars

end Instant

end ItemMapper
