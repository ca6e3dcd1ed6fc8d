import ItemMapper.Text.EscapedTable
import ItemMapper.Text.Digit

/-!
# Quoted listings

Texts in quotes, in square brackets. Characters that would not show are written by their number.
-/

namespace ItemMapper.Text

def braced (digits : List Char) : List Char := '\\' :: 'u' :: '{' :: digits ++ ['}']

def listingEscape (c : Char) : List Char :=
  match c with
  | '"' => ['\\', '"']
  | '\\' => ['\\', '\\']
  | '\n' => ['\\', 'n']
  | '\r' => ['\\', 'r']
  | '\t' => ['\\', 't']
  | c =>
    if c.toNat = 0 then ['\\', '0']
    else if inRanges escapedRanges c then braced (Nat.toDigits 16 c.toNat)
    else [c]

def listed (s : String) : String := String.ofList ('"' :: s.toList.flatMap listingEscape ++ ['"'])

def listing (ss : List String) : String := "[" ++ String.intercalate ", " (ss.map listed) ++ "]"

end ItemMapper.Text
