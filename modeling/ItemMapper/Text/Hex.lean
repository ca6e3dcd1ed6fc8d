/-!
# Hexadecimal bytes

Two lower-case digits a byte.
-/

namespace ItemMapper.Hex

def digit (n : Nat) : Char := if n < 10 then Char.ofNat (48 + n) else Char.ofNat (87 + n)

def value? (c : Char) : Option Nat :=
  let n := c.toNat
  if 48 ≤ n ∧ n ≤ 57 then some (n - 48)
  else if 97 ≤ n ∧ n ≤ 102 then some (n - 87)
  else if 65 ≤ n ∧ n ≤ 70 then some (n - 55)
  else none

def encode : List UInt8 → List Char
  | [] => []
  | b :: rest => digit (b.toNat / 16) :: digit (b.toNat % 16) :: encode rest

def decode : List Char → Option (List UInt8)
  | [] => some []
  | p :: q :: rest => do
    let x ← value? p
    let y ← value? q
    let tail ← decode rest
    return UInt8.ofNat (16 * x + y) :: tail
  | [_] => none

end ItemMapper.Hex
