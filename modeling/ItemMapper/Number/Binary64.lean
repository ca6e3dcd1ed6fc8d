import ItemMapper.Number.Power

/-!
# Double-precision numbers

A finite number is a sign, a mantissa below `2 ^ 53` and a binary exponent, in the one canonical form that the
format stores: normal, or subnormal at the least exponent. Every operation computes its exact result and rounds
once, to the nearest number and to the even mantissa on a tie, so each has a plain meaning over the rationals.
-/

namespace ItemMapper

def Binary64.Canonical (mantissa : Nat) (exponent : Int) : Prop :=
  mantissa < twoPow 53 ∧ -1074 ≤ exponent ∧ exponent ≤ 971 ∧ (twoPow 52 ≤ mantissa ∨ exponent = -1074)

instance (mantissa : Nat) (exponent : Int) : Decidable (Binary64.Canonical mantissa exponent) :=
  inferInstanceAs (Decidable (_ ∧ _ ∧ _ ∧ _))

/-- A number of the binary64 format. All NaNs are one; the two zeros differ by their sign. -/
inductive Binary64 where
  | nan
  | infinite (negative : Bool)
  | finite (negative : Bool) (mantissa : Nat) (exponent : Int)
      (canonical : Binary64.Canonical mantissa exponent)
  deriving DecidableEq

namespace Binary64

def zero (negative : Bool) : Binary64 := .finite negative 0 (-1074) (by decide)

instance : Inhabited Binary64 := ⟨zero false⟩

def nearestEven (num den : Nat) : Nat :=
  let q := num / den
  let r := num % den
  if 2 * r < den then q
  else if den < 2 * r then q + 1
  else if q % 2 = 0 then q else q + 1

def scaleDown (num den : Nat) (e : Int) : Nat × Nat :=
  if 0 ≤ e then (num, den * twoPow e.toNat) else (num * twoPow (-e).toNat, den)

/-- The exponent at which the quotient has a mantissa of 53 bits, or the least exponent if that is below it. -/
def exponentOf (num den : Nat) : Int :=
  let e : Int := num.log2 - den.log2 - 53
  let (n, d) := scaleDown num den e
  max (-1074) (if n < twoPow 53 * d then e else e + 1)

/-- The number with this mantissa and exponent. A mantissa that rounding carried to `2 ^ 53` moves up one
exponent; what is then still out of range is infinite. -/
def ofParts (negative : Bool) (mantissa : Nat) (exponent : Int) : Binary64 :=
  if h : Canonical mantissa exponent then .finite negative mantissa exponent h
  else if h : Canonical (mantissa / 2) (exponent + 1) then .finite negative (mantissa / 2) (exponent + 1) h
  else .infinite negative

def ofRatio (negative : Bool) (num den : Nat) : Binary64 :=
  if num = 0 then zero negative
  else
    let e := exponentOf num den
    let (n, d) := scaleDown num den e
    ofParts negative (nearestEven n d) e

def ofScaled (negative : Bool) (magnitude : Nat) (exponent : Int) : Binary64 :=
  let (n, d) := scaleDown magnitude 1 (-exponent)
  ofRatio negative n d

def ofInt (i : Int) : Binary64 := ofRatio (decide (i < 0)) i.natAbs 1

/-- The number nearest to `digits * 10 ^ exponent`. Exponents that leave no doubt are settled before any power
is computed. -/
def ofDecimal (negative : Bool) (digits : Nat) (exponent : Int) : Binary64 :=
  if digits = 0 then zero negative
  else if 400 < exponent then .infinite negative
  else if exponent < -400 - digits.log2 then zero negative
  else if 0 ≤ exponent then ofRatio negative (digits * tenPow exponent.toNat) 1
  else ofRatio negative digits (tenPow (-exponent).toNat)

def isNaN : Binary64 → Bool
  | nan => true
  | _ => false

def isFinite : Binary64 → Bool
  | finite .. => true
  | _ => false

def isZero : Binary64 → Bool
  | finite _ 0 _ _ => true
  | _ => false

def isNegative : Binary64 → Bool
  | nan => false
  | infinite s => s
  | finite s .. => s

def neg : Binary64 → Binary64
  | nan => nan
  | infinite s => infinite !s
  | finite s m e h => finite (!s) m e h

def abs : Binary64 → Binary64
  | nan => nan
  | infinite _ => infinite false
  | finite _ m e h => finite false m e h

def signed (negative : Bool) (magnitude : Nat) : Int :=
  if negative then -(magnitude : Int) else magnitude

def aligned (s₁ : Bool) (m₁ : Nat) (e₁ : Int) (s₂ : Bool) (m₂ : Nat) (e₂ : Int) : Int × Int × Int :=
  let e := min e₁ e₂
  (signed s₁ (m₁ * twoPow (e₁ - e).toNat), signed s₂ (m₂ * twoPow (e₂ - e).toNat), e)

def add : Binary64 → Binary64 → Binary64
  | nan, _ | _, nan => nan
  | infinite s, infinite t => if s = t then infinite s else nan
  | infinite s, _ | _, infinite s => infinite s
  | finite s₁ m₁ e₁ _, finite s₂ m₂ e₂ _ =>
    let (a, b, e) := aligned s₁ m₁ e₁ s₂ m₂ e₂
    if a + b = 0 then zero (s₁ && s₂) else ofScaled (decide (a + b < 0)) (a + b).natAbs e

def sub (x y : Binary64) : Binary64 := add x (neg y)

def mul : Binary64 → Binary64 → Binary64
  | nan, _ | _, nan => nan
  | infinite s, infinite t => infinite (s != t)
  | infinite s, finite t m _ _ | finite t m _ _, infinite s => if m = 0 then nan else infinite (s != t)
  | finite s₁ m₁ e₁ _, finite s₂ m₂ e₂ _ => ofScaled (s₁ != s₂) (m₁ * m₂) (e₁ + e₂)

/-- The order of the reals they stand for, with infinities at the ends; NaN compares with nothing. -/
def compare? : Binary64 → Binary64 → Option Ordering
  | nan, _ | _, nan => none
  | infinite s, infinite t => some (if s = t then .eq else if s then .lt else .gt)
  | infinite s, _ => some (if s then .lt else .gt)
  | _, infinite s => some (if s then .gt else .lt)
  | finite s₁ m₁ e₁ _, finite s₂ m₂ e₂ _ =>
    let (a, b, _) := aligned s₁ m₁ e₁ s₂ m₂ e₂
    some (compare a b)

def lt (x y : Binary64) : Bool := compare? x y == some .lt

def le (x y : Binary64) : Bool := compare? x y == some .lt || compare? x y == some .eq

/-- Equal as numbers: the zeros are equal, and NaN equals nothing. -/
def same (x y : Binary64) : Bool := compare? x y == some .eq

def truncate? : Binary64 → Option Int
  | finite s m e _ => some (signed s (if 0 ≤ e then m * twoPow e.toNat else m / twoPow (-e).toNat))
  | _ => none

def floor? : Binary64 → Option Int
  | finite s m e _ =>
    some (if 0 ≤ e then signed s (m * twoPow e.toNat) else signed s m / (twoPow (-e).toNat : Nat))
  | _ => none

def isIntegral : Binary64 → Bool
  | finite _ m e _ => decide (0 ≤ e) || m % twoPow (-e).toNat == 0
  | _ => false

def clampTo (least greatest : Int) : Binary64 → Int
  | nan => 0
  | infinite s => if s then least else greatest
  | x@(finite ..) => max least (min greatest (x.truncate?.getD 0))

/-- Every integer of at most this magnitude is a number of the format, and so are its neighbours. -/
def greatestExact : Nat := twoPow 53 - 1

def withinMagnitude (bound : Nat) (x : Binary64) : Bool := le (abs x) (ofInt bound)

end Binary64

end ItemMapper
