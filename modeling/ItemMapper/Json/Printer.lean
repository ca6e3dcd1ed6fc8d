import ItemMapper.Json.Basic
import ItemMapper.Number.Layout
import ItemMapper.Text.Hex

/-!
# JSON texts

The compact text of a JSON value. Only the quote, the backslash and control characters are escaped.
-/

namespace ItemMapper.Json

def escape (c : Char) : List Char :=
  match c with
  | '"' => ['\\', '"']
  | '\\' => ['\\', '\\']
  | '\n' => ['\\', 'n']
  | '\r' => ['\\', 'r']
  | '\t' => ['\\', 't']
  | c =>
    if c.toNat = 8 then ['\\', 'b']
    else if c.toNat = 12 then ['\\', 'f']
    else if c.toNat < 32 then ['\\', 'u', '0', '0', Hex.digit (c.toNat / 16), Hex.digit (c.toNat % 16)]
    else [c]

def quoted (s : String) : String := String.ofList ('"' :: s.toList.flatMap escape ++ ['"'])

def floatText (x : Binary64) : String := if x.isFinite then NumberLayout.json.text x else "null"

mutual

def render : Json → String
  | null => "null"
  | bool b => if b then "true" else "false"
  | int i => intText i
  | float x => floatText x
  | string s => quoted s
  | array items => "[" ++ renderItems items ++ "]"
  | object members => "\x7b" ++ renderMembers members ++ "\x7d"

def renderItems : List Json → String
  | [] => ""
  | [item] => render item
  | item :: rest => render item ++ "," ++ renderItems rest

def renderMembers : List (String × Json) → String
  | [] => ""
  | [(key, value)] => quoted key ++ ":" ++ render value
  | (key, value) :: rest => quoted key ++ ":" ++ render value ++ "," ++ renderMembers rest

end

end ItemMapper.Json
