/-!
# Base64

Bytes stand in texts as some library writes them. The one that is used has the standard alphabet with mandatory padding,
and its reader accepts exactly what its writer produces: unused bits are zero and padding stands only at the end.
-/

namespace ItemMapper

class ByteTexts where
  write : List UInt8 → String
  read : String → Option (List UInt8)

namespace Base64

def digit (n : Nat) : Char :=
  if n < 26 then Char.ofNat (65 + n)
  else if n < 52 then Char.ofNat (71 + n)
  else if n < 62 then Char.ofNat (n - 4)
  else if n = 62 then '+' else '/'

def value? (c : Char) : Option Nat :=
  let n := c.toNat
  if 65 ≤ n ∧ n ≤ 90 then some (n - 65)
  else if 97 ≤ n ∧ n ≤ 122 then some (n - 71)
  else if 48 ≤ n ∧ n ≤ 57 then some (n + 4)
  else if c = '+' then some 62
  else if c = '/' then some 63
  else none

theorem value?_digit (n : Nat) (h : n < 64) : value? (digit n) = some n := by
  have all : ∀ k : Fin 64, value? (digit k) = some k.val := by decide
  exact all ⟨n, h⟩

def encode : List UInt8 → List Char
  | [] => []
  | [a] => [digit (a.toNat / 4), digit (a.toNat % 4 * 16), '=', '=']
  | [a, b] => [digit (a.toNat / 4), digit (a.toNat % 4 * 16 + b.toNat / 16), digit (b.toNat % 16 * 4), '=']
  | a :: b :: c :: rest =>
    digit (a.toNat / 4) :: digit (a.toNat % 4 * 16 + b.toNat / 16) ::
      digit (b.toNat % 16 * 4 + c.toNat / 64) :: digit (c.toNat % 64) :: encode rest

def decodeLast (p q r s : Char) : Option (List UInt8) := do
  let x ← value? p
  let y ← value? q
  if r = '=' then
    if s = '=' ∧ y % 16 = 0 then return [UInt8.ofNat (x * 4 + y / 16)] else none
  else
    let z ← value? r
    if s = '=' then
      if z % 4 = 0 then return [UInt8.ofNat (x * 4 + y / 16), UInt8.ofNat (y % 16 * 16 + z / 4)] else none
    else
      let w ← value? s
      return [UInt8.ofNat (x * 4 + y / 16), UInt8.ofNat (y % 16 * 16 + z / 4), UInt8.ofNat (z % 4 * 64 + w)]

def decode : List Char → Option (List UInt8)
  | [] => some []
  | [p, q, r, s] => decodeLast p q r s
  | p :: q :: r :: s :: rest => do
    let x ← value? p
    let y ← value? q
    let z ← value? r
    let w ← value? s
    let tail ← decode rest
    return UInt8.ofNat (x * 4 + y / 16) :: UInt8.ofNat (y % 16 * 16 + z / 4) :: UInt8.ofNat (z % 4 * 64 + w) :: tail
  | _ => none

def encodeText (bytes : List UInt8) : String := String.ofList (encode bytes)

def decodeText (s : String) : Option (List UInt8) := decode s.toList

end Base64

instance : ByteTexts := ⟨Base64.encodeText, Base64.decodeText⟩

end ItemMapper
