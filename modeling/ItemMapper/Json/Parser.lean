import ItemMapper.Json.Basic
import ItemMapper.Text.Hex

/-!
# Reading JSON

A strict reader. An integer literal that fits 64 bits is an integer, every other number the nearest float. The
depth of the recursion is bounded by the length of the text.
-/

namespace ItemMapper.Json

def isJsonBlank (c : Char) : Bool := c == ' ' || c == '\n' || c == '\r' || c == '\t'

def skipBlank (cs : List Char) : List Char := cs.dropWhile isJsonBlank

def hex4? : List Char → Option (Nat × List Char)
  | a :: b :: c :: d :: rest => do
    let a ← Hex.value? a
    let b ← Hex.value? b
    let c ← Hex.value? c
    let d ← Hex.value? d
    return (((a * 16 + b) * 16 + c) * 16 + d, rest)
  | _ => none

def simpleEscape? : Char → Option Char
  | '"' => some '"'
  | '\\' => some '\\'
  | '/' => some '/'
  | 'b' => some (Char.ofNat 8)
  | 'f' => some (Char.ofNat 12)
  | 'n' => some '\n'
  | 'r' => some '\r'
  | 't' => some '\t'
  | _ => none

def unicodeEscape? (cs : List Char) : Option (Char × List Char) := do
  let (n, rest) ← hex4? cs
  if 0xD800 ≤ n ∧ n < 0xDC00 then
    match rest with
    | '\\' :: 'u' :: rest =>
      let (m, rest) ← hex4? rest
      if 0xDC00 ≤ m ∧ m < 0xE000 then
        return (Char.ofNat (0x10000 + (n - 0xD800) * 0x400 + (m - 0xDC00)), rest)
      else none
    | _ => none
  else if 0xDC00 ≤ n ∧ n < 0xE000 then none
  else return (Char.ofNat n, rest)

def parseString : Nat → List Char → List Char → Option (String × List Char)
  | 0, _, _ => none
  | _, _, [] => none
  | fuel + 1, acc, c :: rest =>
    if c = '"' then some (String.ofList acc.reverse, rest)
    else if c = '\\' then
      match rest with
      | 'u' :: rest => do
        let (c, rest) ← unicodeEscape? rest
        parseString fuel (c :: acc) rest
      | e :: rest => do
        let c ← simpleEscape? e
        parseString fuel (c :: acc) rest
      | [] => none
    else if c.toNat < 32 then none
    else parseString fuel (c :: acc) rest

def isNumberChar (c : Char) : Bool :=
  NumberReader.isAsciiDigit c || c == '-' || c == '+' || c == '.' || c == 'e' || c == 'E'

def number? (literal : List Char) : Option Json :=
  let (negative, ds) := match literal with
    | '-' :: ds => (true, ds)
    | ds => (false, ds)
  match ds with
  | [] => none
  | d :: more =>
    if !NumberReader.isAsciiDigit d || (d == '0' && (more.head?.map NumberReader.isAsciiDigit).getD false) then none
    else if ds.all NumberReader.isAsciiDigit && !(negative && ds == ['0']) then
      let i : Int := if negative then -(NumberReader.natOfDigits ds : Int) else NumberReader.natOfDigits ds
      if NumberReader.isWord i then some (.int i)
      else (NumberReader.decimal? negative ds).map .float
    else (NumberReader.decimal? negative ds).map .float

mutual

def parseValue : Nat → List Char → Option (Json × List Char)
  | 0, _ => none
  | fuel + 1, cs =>
    match skipBlank cs with
    | 'n' :: 'u' :: 'l' :: 'l' :: rest => some (.null, rest)
    | 't' :: 'r' :: 'u' :: 'e' :: rest => some (.bool true, rest)
    | 'f' :: 'a' :: 'l' :: 's' :: 'e' :: rest => some (.bool false, rest)
    | '"' :: rest => (parseString (rest.length + 1) [] rest).map fun (s, rest) => (.string s, rest)
    | '[' :: rest =>
      match skipBlank rest with
      | ']' :: rest => some (.array [], rest)
      | rest => (parseItems fuel rest).map fun (items, rest) => (.array items, rest)
    | '{' :: rest =>
      match skipBlank rest with
      | '}' :: rest => some (.object [], rest)
      | rest => (parseMembers fuel rest).map fun (members, rest) => (.object members, rest)
    | cs => (number? (cs.takeWhile isNumberChar)).map fun n => (n, cs.dropWhile isNumberChar)

def parseItems : Nat → List Char → Option (List Json × List Char)
  | 0, _ => none
  | fuel + 1, cs => do
    let (item, rest) ← parseValue fuel cs
    match skipBlank rest with
    | ',' :: rest => do
      let (items, rest) ← parseItems fuel rest
      return (item :: items, rest)
    | ']' :: rest => return ([item], rest)
    | _ => none

def parseMembers : Nat → List Char → Option (List (String × Json) × List Char)
  | 0, _ => none
  | fuel + 1, cs =>
    match skipBlank cs with
    | '"' :: rest => do
      let (key, rest) ← parseString (rest.length + 1) [] rest
      match skipBlank rest with
      | ':' :: rest => do
        let (value, rest) ← parseValue fuel rest
        match skipBlank rest with
        | ',' :: rest => do
          let (members, rest) ← parseMembers fuel rest
          return ((key, value) :: members, rest)
        | '}' :: rest => return ([(key, value)], rest)
        | _ => none
      | _ => none
    | _ => none

end

def parse? (text : String) : Option Json := do
  let cs := text.toList
  let (value, rest) ← parseValue (cs.length + 1) cs
  if (skipBlank rest).isEmpty then some value else none

end ItemMapper.Json
