import ItemMapper.Misuse
import ItemMapper.Time.Reader
import ItemMapper.Value.Basic

/-!
# Dates

Dates are stored as numbers: milliseconds since 1970, or seconds in the epoch format. A date may be given as a
date, as a text that denotes one, as a year, or as a timestamp.
-/

namespace ItemMapper

inductive DateFormat where
  | timestamp
  | epoch
  deriving DecidableEq, Repr

namespace DateFormat

def ofName? (name : String) : Option DateFormat :=
  let word := String.ofList (name.toList.map NumberReader.asciiLower)
  if word = "epoch" then some epoch
  else if word = "timestamp" then some timestamp
  else none

def encode (format : DateFormat) (ms : Int) : Int :=
  match format with
  | timestamp => ms
  | epoch => ms / 1000

def greatestTimestamp : Nat := 8640000000000000

def wholeMillis? (x : Binary64) : Option Int :=
  if x.isFinite && x.withinMagnitude greatestTimestamp then x.truncate? else none

def decode? (format : DateFormat) (stored : Binary64) : Option Int :=
  match format with
  | timestamp => wholeMillis? stored
  | epoch => wholeMillis? (stored.mul (.ofInt 1000))

def toWord (x : Binary64) : Int := x.clampTo NumberReader.leastWord NumberReader.greatestWord

def floorWord (x : Binary64) : Int :=
  max NumberReader.leastWord (min NumberReader.greatestWord (x.floor?.getD 0))

def wrapWord (i : Int) : Int := i.bmod (twoPow 64)

/-- A number is a timestamp in milliseconds; in the epoch format ten characters are a count of seconds. -/
def ofNumber? (format : DateFormat) (x : Binary64) : Option Int :=
  if !x.isFinite then none
  else if format = epoch ∧ (intChars (floorWord x)).length = 10 then some (wrapWord (floorWord x * 1000))
  else wholeMillis? x

/-- Ten characters of a number are seconds in the epoch format, four are a year, others are milliseconds. What
is no number may still be the text of a date. Blanks around it count as characters. -/
def ofText? [DateTexts] (format : DateFormat) (s : String) : Option Int :=
  let cs := Text.trim s.toList
  if cs.isEmpty then none
  else match NumberReader.float? cs with
    | some x =>
      if !x.isFinite then none
      else if s.utf8ByteSize = 10 ∧ format = epoch then some (wrapWord (floorWord x * 1000))
      else if s.utf8ByteSize = 4 then DateTexts.firstOfYear? (x.clampTo (-twoPow 31) (twoPow 31 - 1))
      else wholeMillis? x
    | none => DateTexts.date? cs

def millis? [DateTexts] (format : DateFormat) : Value → Option Int
  | .date t => some t.millis
  | .string s => ofText? format s
  | .number x => ofNumber? format x
  | _ => none

def stored? [DateTexts] (format : DateFormat) (v : Value) : Option Value :=
  (millis? format v).map fun ms => .number (.ofInt (encode format ms))

def unitNames : List String := ["year", "month", "day", "hour", "minute"]

def unitMillis : List Int := [31540000000, 2628000000, 86400000, 3600000, 60000]

def unitLength? (format : DateFormat) (unit : String) : Option Binary64 :=
  (unitNames.zip unitMillis).lookup unit |>.map fun ms =>
    match format with
    | timestamp => .ofInt ms
    | epoch => .ofInt (ms / 1000)

def unitAmount? (op : Value) : Option Binary64 :=
  match (op.get "$incr").asNumber?, (op.get "$decr").asNumber? with
  | some n, _ => some ((Binary64.ofInt 1).mul n)
  | none, some n => some ((Binary64.ofInt (-1)).mul n)
  | none, none => none

def addUnits (format : DateFormat) : Binary64 → List (String × Value) → Except Misuse Binary64
  | total, [] => .ok total
  | total, (unit, op) :: rest =>
    match unitLength? format unit with
    | none => .error (.unknownDateUnit unit unitNames)
    | some length =>
      match unitAmount? op with
      | none => .error (.dateUnitOperator unit)
      | some amount => addUnits format (total.add (amount.mul length)) rest

/-- The total of a change such as `year: $incr 1, day: $decr 2`, in what the format counts, rounded down. -/
def change (format : DateFormat) : Value → Except Misuse Int
  | .map units => do
    let total ← addUnits format (.zero false) units
    match total with
    | .finite .. => return floorWord total
    | _ => return toWord total
  | v => .error (.dateUnitsNotObject unitNames v.kindName)

end DateFormat

end ItemMapper
