import ItemMapper.Number.Binary64

/-!
# Reading numbers

The texts that are accepted as numbers: decimals with an optional fraction and exponent, the names of the values
that have no digits, and integers of a bounded range. Nothing may surround a number.
-/

namespace ItemMapper.NumberReader

def splitSign : List Char → Bool × List Char
  | '-' :: rest => (true, rest)
  | '+' :: rest => (false, rest)
  | cs => (false, cs)

def digitValue (c : Char) : Nat := c.toNat - '0'.toNat

def natOfDigits (ds : List Char) : Nat := ds.foldl (fun n c => 10 * n + digitValue c) 0

def isAsciiDigit (c : Char) : Bool := decide ('0' ≤ c) && decide (c ≤ '9')

def splitDigits (cs : List Char) : List Char × List Char := (cs.takeWhile isAsciiDigit, cs.dropWhile isAsciiDigit)

def splitFraction : List Char → List Char × List Char
  | '.' :: rest => splitDigits rest
  | cs => ([], cs)

def exponent? : List Char → Option Int
  | [] => some 0
  | c :: rest =>
    if c = 'e' ∨ c = 'E' then
      let (negative, ds) := splitSign rest
      if ds.isEmpty || !ds.all isAsciiDigit then none
      else some (if negative then -(natOfDigits ds : Int) else natOfDigits ds)
    else none

def decimal? (negative : Bool) (cs : List Char) : Option Binary64 :=
  let (whole, rest) := splitDigits cs
  let (fraction, rest) := splitFraction rest
  if whole.isEmpty && fraction.isEmpty then none
  else do
    let e ← exponent? rest
    return .ofDecimal negative (natOfDigits (whole ++ fraction)) (e - fraction.length)

def asciiLower (c : Char) : Char :=
  if 'A' ≤ c ∧ c ≤ 'Z' then Char.ofNat (c.toNat + 32) else c

def float? (cs : List Char) : Option Binary64 :=
  let (negative, rest) := splitSign cs
  let word := rest.map asciiLower
  if word = ['n', 'a', 'n'] then some .nan
  else if word = ['i', 'n', 'f'] ∨ word = ['i', 'n', 'f', 'i', 'n', 'i', 't', 'y'] then some (.infinite negative)
  else decimal? negative rest

def integer? (least greatest : Int) (cs : List Char) : Option Int :=
  let (negative, ds) := splitSign cs
  if ds.isEmpty || !ds.all isAsciiDigit then none
  else
    let i : Int := if negative then -(natOfDigits ds : Int) else natOfDigits ds
    if least ≤ i ∧ i ≤ greatest then some i else none

def index? (cs : List Char) : Option Nat :=
  let ds := match cs with
    | '+' :: rest => rest
    | _ => cs
  if ds.isEmpty || !ds.all isAsciiDigit then none
  else
    let n := natOfDigits ds
    if n < twoPow 64 then some n else none

def leastWord : Int := -twoPow 63
def greatestWord : Int := twoPow 63 - 1

def leastBig : Int := -twoPow 127
def greatestBig : Int := twoPow 127 - 1

def isWord (i : Int) : Bool := decide (leastWord ≤ i) && decide (i ≤ greatestWord)

def word? : List Char → Option Int := integer? leastWord greatestWord

def big? : List Char → Option Int := integer? leastBig greatestBig

end ItemMapper.NumberReader
