import ItemMapper.Number.Reader
import ItemMapper.Text.Blank
import ItemMapper.Text.Split
import ItemMapper.Time.Instant

/-!
# Reading dates

Dates are read from texts as some library reads them, which answers with milliseconds. The one that is used knows the
texts that denote a date: a timestamp with an offset from UTC, the date of a mail header, and a few forms without a zone,
which are taken to be in UTC.
-/

namespace ItemMapper

class DateTexts where
  date? : List Char → Option Int
  firstOfYear? : Int → Option Int

namespace DateReader

def number? (least most : Nat) (cs : List Char) : Option (Nat × List Char) :=
  let ds := (cs.take most).takeWhile NumberReader.isAsciiDigit
  if ds.length < least then none else some (NumberReader.natOfDigits ds, cs.drop ds.length)

def digits? (least : Nat) (cs : List Char) : Option (Nat × List Char) :=
  let (ds, rest) := NumberReader.splitDigits cs
  if ds.length < least then none else some (NumberReader.natOfDigits ds, rest)

def char? (c : Char) : List Char → Option (List Char)
  | d :: rest => if d = c then some rest else none
  | [] => none

def nanoseconds? (cs : List Char) : Option (Nat × List Char) :=
  let (ds, rest) := NumberReader.splitDigits cs
  if ds.isEmpty then none
  else
    let nine := ds.take 9
    some (NumberReader.natOfDigits nine * tenPow (9 - nine.length), rest)

def optionalFraction? : List Char → Option (Nat × List Char)
  | '.' :: rest => nanoseconds? rest
  | cs => some (0, cs)

structure Reading where
  year : Int := 0
  month : Nat := 0
  day : Nat := 0
  hour : Nat := 0
  minute : Nat := 0
  second : Nat := 0
  nanos : Nat := 0
  offset : Int := 0
  weekday : Option Nat := none

namespace Reading

def calendarDay (r : Reading) : CalendarDay := ⟨r.year, r.month, r.day⟩

/-- Second 60 is the first of the next minute, and stands where second 59 may stand. A weekday has to be that of the
day. -/
def millis? (r : Reading) : Option Int :=
  let d := r.calendarDay
  let weekdayFits := match r.weekday with
    | some w => w == d.weekday
    | none => true
  if d.valid && decide (r.hour < 24) && decide (r.minute < 60) && decide (r.second ≤ 60) &&
      decide (r.offset.natAbs < 86400) && weekdayFits then
    let minutes := d.number * 86400 + (r.hour * 3600 + r.minute * 60 : Nat) - r.offset
    let ms (second : Nat) : Int := (minutes + second) * 1000 + (r.nanos / 1000000 : Nat)
    (Instant.ofMillis? (ms (min r.second 59))).map fun _ => ms r.second
  else none

end Reading

def offsetMinutes? (cs : List Char) : Option (Nat × List Char) := do
  let (m, rest) ← number? 2 2 cs
  if m < 60 then return (m, rest) else none

def offsetSign? (mathMinus : Bool) : List Char → Option (Int × List Char)
  | '+' :: rest => some (1, rest)
  | '-' :: rest => some (-1, rest)
  | '−' :: rest => if mathMinus then some (-1, rest) else none
  | _ => none

def colonOffset? (cs : List Char) : Option (Int × List Char) := do
  let (sign, rest) ← offsetSign? true cs
  let (h, rest) ← number? 2 2 rest
  let rest ← char? ':' rest
  let (m, rest) ← offsetMinutes? rest
  return (sign * (h * 3600 + m * 60 : Nat), rest)

def zuluOrOffset? : List Char → Option (Int × List Char)
  | 'Z' :: rest => some (0, rest)
  | 'z' :: rest => some (0, rest)
  | cs => colonOffset? cs

def isDateSeparator (c : Char) : Bool := c == 'T' || c == 't' || c == ' '

/-- `2023-12-01T15:21:24.5+05:30`: fixed widths, an optional fraction, an offset or a zulu letter. -/
def timestamp? (cs : List Char) : Option Int := do
  let (year, rest) ← number? 4 4 cs
  let rest ← char? '-' rest
  let (month, rest) ← number? 2 2 rest
  let rest ← char? '-' rest
  let (day, rest) ← number? 2 2 rest
  let rest ← match rest with
    | c :: rest => if isDateSeparator c then some rest else none
    | [] => none
  let (hour, rest) ← number? 2 2 rest
  let rest ← char? ':' rest
  let (minute, rest) ← number? 2 2 rest
  let rest ← char? ':' rest
  let (second, rest) ← number? 2 2 rest
  let (nanos, rest) ← optionalFraction? rest
  let (offset, rest) ← zuluOrOffset? rest
  if rest.isEmpty then
    Reading.millis? ⟨year, month, day, hour, minute, second, nanos, offset, none⟩
  else none

def lowerWord (cs : List Char) : List Char := cs.map NumberReader.asciiLower

def monthNames : List (List Char) :=
  ["jan", "feb", "mar", "apr", "may", "jun", "jul", "aug", "sep", "oct", "nov", "dec"].map String.toList

def weekdayNames : List (List Char) := ["mon", "tue", "wed", "thu", "fri", "sat", "sun"].map String.toList

def named? (names : List (List Char)) (cs : List Char) : Option (Nat × List Char) :=
  (names.findIdx? (· == lowerWord (cs.take 3))).map fun i => (i, cs.drop 3)

def blanks? (cs : List Char) : Option (List Char) :=
  match cs with
  | c :: rest => if Text.isBlank c then some (Text.trimStart rest) else none
  | [] => none

def fullYear (digits year : Nat) : Nat :=
  if digits = 2 then if year < 50 then year + 2000 else year + 1900
  else if digits = 3 then year + 1900 else year

def isAsciiLetter (c : Char) : Bool :=
  let l := NumberReader.asciiLower c
  decide ('a' ≤ l) && decide (l ≤ 'z')

def zoneHours? (name : List Char) : Option Int :=
  let word := String.ofList (lowerWord name)
  if word = "gmt" ∨ word = "ut" then some 0
  else if word = "edt" then some (-4)
  else if word = "est" ∨ word = "cdt" then some (-5)
  else if word = "cst" ∨ word = "mdt" then some (-6)
  else if word = "mst" ∨ word = "pdt" then some (-7)
  else if word = "pst" then some (-8)
  else if name.length = 1 ∧ word ≠ "j" then some 0
  else none

def mailOffset? (cs : List Char) : Option (Int × List Char) :=
  let name := cs.takeWhile isAsciiLetter
  if name.isEmpty then do
    let (sign, rest) ← offsetSign? false cs
    let (h, rest) ← number? 2 2 rest
    let (m, rest) ← offsetMinutes? rest
    return (sign * (h * 3600 + m * 60 : Nat), rest)
  else (zoneHours? name).map fun h => (h * 3600, cs.dropWhile isAsciiLetter)

/-- The rest after the bracket that closes a comment, at a depth of open brackets. A backslash takes the next
character out of account. -/
def closeComment? : Nat → Bool → List Char → Option (List Char)
  | _, _, [] => none
  | depth, true, _ :: rest => closeComment? depth false rest
  | depth, false, c :: rest =>
    if c = '\\' then closeComment? depth true rest
    else if c = '(' then closeComment? (depth + 1) false rest
    else if c = ')' then if depth = 0 then some rest else closeComment? (depth - 1) false rest
    else closeComment? depth false rest

def skipComments : Nat → List Char → List Char
  | 0, cs => cs
  | fuel + 1, cs =>
    match Text.trimStart cs with
    | '(' :: rest =>
      match closeComment? 0 false rest with
      | some rest => skipComments fuel rest
      | none => cs
    | _ => cs

def mailWeekday? (cs : List Char) : Option (Option Nat × List Char) :=
  match named? weekdayNames cs with
  | some (w, rest) => (char? ',' rest).map fun rest => (some w, rest)
  | none => some (none, cs)

def mailDate? (cs : List Char) : Option Int := do
  let (weekday, rest) ← mailWeekday? (Text.trimStart cs)
  let (day, rest) ← number? 1 2 (Text.trimStart rest)
  let rest ← blanks? rest
  let (month, rest) ← named? monthNames rest
  let rest ← blanks? rest
  let (year, after) ← digits? 2 rest
  let width := rest.length - after.length
  let rest ← blanks? after
  let (hour, rest) ← number? 2 2 rest
  let rest ← char? ':' (Text.trimStart rest)
  let (minute, rest) ← number? 2 2 (Text.trimStart rest)
  let (second, rest) ← match char? ':' (Text.trimStart rest) with
    | some rest => number? 2 2 rest
    | none => some (0, rest)
  let rest ← blanks? rest
  let (offset, rest) ← mailOffset? rest
  if (skipComments rest.length rest).isEmpty then
    Reading.millis? ⟨fullYear width year, month + 1, day, hour, minute, second, 0, offset, weekday⟩
  else none

inductive Part where
  | year
  | month
  | day
  | hour
  | minute
  | second
  | fraction
  | blanks
  | mark (c : Char)

def signedYear? : List Char → Option (Int × List Char)
  | '-' :: rest => (digits? 1 rest).map fun (y, rest) => (-(y : Int), rest)
  | '+' :: rest => (digits? 1 rest).map fun (y, rest) => ((y : Int), rest)
  | cs => (number? 1 4 cs).map fun (y, rest) => ((y : Int), rest)

def Part.read? (r : Reading) (cs : List Char) : Part → Option (Reading × List Char)
  | .year => (signedYear? (Text.trimStart cs)).map fun (n, rest) => ({ r with year := n }, rest)
  | .month => (number? 1 2 (Text.trimStart cs)).map fun (n, rest) => ({ r with month := n }, rest)
  | .day => (number? 1 2 (Text.trimStart cs)).map fun (n, rest) => ({ r with day := n }, rest)
  | .hour => (number? 1 2 (Text.trimStart cs)).map fun (n, rest) => ({ r with hour := n }, rest)
  | .minute => (number? 1 2 (Text.trimStart cs)).map fun (n, rest) => ({ r with minute := n }, rest)
  | .second => (number? 1 2 (Text.trimStart cs)).map fun (n, rest) => ({ r with second := n }, rest)
  | .fraction => (optionalFraction? cs).map fun (n, rest) => ({ r with nanos := n }, rest)
  | .blanks => some (r, Text.trimStart cs)
  | .mark c => (char? c cs).map fun rest => (r, rest)

def readParts? : List Part → Reading → List Char → Option Int
  | [], r, cs => if cs.isEmpty then r.millis? else none
  | p :: parts, r, cs => (p.read? r cs).bind fun (r, rest) => readParts? parts r rest

def dayParts : List Part := [.year, .mark '-', .month, .mark '-', .day]

def minuteParts : List Part := [.hour, .mark ':', .minute]

def secondParts : List Part := minuteParts ++ [.mark ':', .second, .fraction]

def forms : List (List Part) :=
  [dayParts ++ .mark 'T' :: secondParts, dayParts ++ .mark 'T' :: minuteParts,
    dayParts ++ .blanks :: secondParts, dayParts ++ .blanks :: minuteParts, dayParts]

/-- A date in any of the forms; a text that lacks the day stands for the first of its month. -/
def date? (cs : List Char) : Option Int :=
  timestamp? cs <|> mailDate? cs <|> forms.findSome? (fun parts => readParts? parts {} cs) <|>
    readParts? dayParts {} (cs ++ ['-', '0', '1'])

def firstOfYear? (year : Int) : Option Int :=
  let d : CalendarDay := ⟨year, 1, 1⟩
  if d.valid then some (d.number * 86400000) else none

end DateReader

instance : DateTexts := ⟨DateReader.date?, DateReader.firstOfYear?⟩

end ItemMapper
