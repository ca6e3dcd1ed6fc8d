import ItemMapper.Number.Binary64

/-!
# Shortest decimals

The fewest decimal digits that read back as a given number. For each count of digits the two neighbours of the
number on that decimal grid are read back; the first grid with a hit wins, and of two hits the nearer one.
-/

namespace ItemMapper

structure Decimal where
  digits : Nat
  exponent : Int
  deriving DecidableEq, Repr

inductive Tie where
  | up
  | even
  deriving DecidableEq

namespace Decimal

def trim (digits : Nat) (exponent : Int) : Decimal :=
  if 0 < digits ∧ digits % 10 = 0 then trim (digits / 10) (exponent + 1) else ⟨digits, exponent⟩
termination_by digits
decreasing_by omega

def read (negative : Bool) (d : Decimal) : Binary64 := .ofDecimal negative d.digits d.exponent

end Decimal

namespace Binary64

def digitCount (n : Nat) : Nat := (Nat.toDigits 10 n).length

def leadingExponent (num den : Nat) : Int :=
  if den ≤ num then digitCount (num / den) - 1
  else
    let n := digitCount (den / num)
    if den = num * tenPow (n - 1) then 1 - n else -n

def scaleDownDecimal (num den : Nat) (e : Int) : Nat × Nat :=
  if 0 ≤ e then (num, den * tenPow e.toNat) else (num * tenPow (-e).toNat, den)

/-- The neighbour of `num / den` with the least digit worth `10 ^ e` that reads back as `target`. -/
def neighbour? (tie : Tie) (target : Binary64) (num den : Nat) (e : Int) : Option Decimal :=
  let (n, d) := scaleDownDecimal num den e
  let low : Decimal := ⟨n / d, e⟩
  let high : Decimal := ⟨n / d + 1, e⟩
  let nearer :=
    if 2 * (n % d) < d then low
    else if d < 2 * (n % d) then high
    else match tie with
      | .up => high
      | .even => if low.digits % 2 = 0 then low else high
  if low.read false = target then some (if high.read false = target then nearer else low)
  else if high.read false = target then some high
  else none

def exactDecimal (mantissa : Nat) (exponent : Int) : Decimal :=
  if 0 ≤ exponent then ⟨mantissa * twoPow exponent.toNat, 0⟩
  else ⟨mantissa * fivePow (-exponent).toNat, exponent⟩

def shortest (tie : Tie) (mantissa : Nat) (exponent : Int) (h : Canonical mantissa exponent) : Decimal :=
  if mantissa = 0 then ⟨0, 0⟩
  else
    let target : Binary64 := .finite false mantissa exponent h
    let (num, den) := scaleDown mantissa 1 (-exponent)
    let lead := leadingExponent num den
    let found := (List.range 17).findSome? fun (n : Nat) => neighbour? tie target num den (lead - n)
    let d := found.getD (exactDecimal mantissa exponent)
    Decimal.trim d.digits d.exponent

end Binary64

end ItemMapper
