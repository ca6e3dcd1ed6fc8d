import ItemMapper.Number.Shortest

/-!
# Number texts

How a number is laid out once its digits are chosen. A layout is a record of the format's decisions; the two
layouts in use are the plain one of stored numbers and the one of numbers in JSON.
-/

namespace ItemMapper

/-- Which leading exponents are written without an exponent part, whether an integer keeps a fraction, and
which way ties between shortest decimals go. -/
structure NumberLayout where
  positional : Int → Bool
  keepsFraction : Bool
  tie : Tie

namespace NumberLayout

def plain : NumberLayout := ⟨fun _ => true, false, .up⟩

/-- Positional from `0.00001` up to sixteen integer digits, and always recognisable as a float. -/
def json : NumberLayout := ⟨fun e => decide (-5 ≤ e) && decide (e ≤ 15), true, .even⟩

def zeros (n : Nat) : List Char := List.replicate n '0'

def natDigits (n : Nat) : List Char := Nat.toDigits 10 n

def exponentText (e : Int) : List Char :=
  'e' :: (if e < 0 then '-' else '+') :: natDigits e.natAbs

def ofDecimal (layout : NumberLayout) (d : Decimal) : List Char :=
  let ds := natDigits d.digits
  let lead := d.exponent + ds.length - 1
  if layout.positional lead then
    if 0 ≤ d.exponent then
      ds ++ zeros d.exponent.toNat ++ (if layout.keepsFraction then ['.', '0'] else [])
    else if 0 ≤ lead then ds.take (lead.toNat + 1) ++ '.' :: ds.drop (lead.toNat + 1)
    else '0' :: '.' :: zeros (-lead - 1).toNat ++ ds
  else
    match ds with
    | d₁ :: d₂ :: rest => d₁ :: '.' :: d₂ :: rest ++ exponentText lead
    | _ => ds ++ exponentText lead

def sign (negative : Bool) : List Char := if negative then ['-'] else []

def chars (layout : NumberLayout) : Binary64 → List Char
  | .nan => ['N', 'a', 'N']
  | .infinite s => sign s ++ ['i', 'n', 'f']
  | .finite s m e h => sign s ++ layout.ofDecimal (Binary64.shortest layout.tie m e h)

def text (layout : NumberLayout) (x : Binary64) : String := String.ofList (layout.chars x)

end NumberLayout

namespace Binary64

def shortestText (x : Binary64) : String := NumberLayout.plain.text x

/-- The spelling of stored numbers: an integer below `10 ^ 21` has all its digits, anything else the shortest. -/
def storedChars (x : Binary64) : List Char :=
  match x with
  | .finite s m e _ =>
    if x.isIntegral && lt x.abs (ofInt (tenPow 21)) then
      NumberLayout.sign s ++ NumberLayout.natDigits (if 0 ≤ e then m * twoPow e.toNat else m / twoPow (-e).toNat)
    else NumberLayout.plain.chars x
  | _ => NumberLayout.plain.chars x

def storedText (x : Binary64) : String := String.ofList x.storedChars

end Binary64

def intChars (i : Int) : List Char := NumberLayout.sign (decide (i < 0)) ++ NumberLayout.natDigits i.natAbs

def intText (i : Int) : String := String.ofList (intChars i)

end ItemMapper
