import ItemMapper.Json.Printer
import ItemMapper.Text.Base64
import ItemMapper.Value.Basic

/-!
# Values as JSON and as text

The plain JSON of a value, and the text of a value in messages and keys.
-/

namespace ItemMapper.Value

variable [ByteTexts]

def numberJson (x : Binary64) : Json :=
  if x.isIntegral && x.withinMagnitude Binary64.greatestExact then .int (x.truncate?.getD 0)
  else if x.isFinite then .float x
  else .null

mutual

/-- Bytes are in base64, dates are texts, sets are arrays, and undefined members of maps are left out. -/
def toJson : Value → Json
  | undefined => .null
  | null => .null
  | bool b => .bool b
  | number x => numberJson x
  | bigInt i => if NumberReader.isWord i then .int i else .string (intText i)
  | string s => .string s
  | binary bytes => .string (ByteTexts.write bytes)
  | date t => .string t.text
  | list items => .array (itemsToJson items)
  | set members => .array (itemsToJson members)
  | map entries => .object (entriesToJson entries)

def itemsToJson : List Value → List Json
  | [] => []
  | v :: rest => toJson v :: itemsToJson rest

def entriesToJson : List (String × Value) → List (String × Json)
  | [] => []
  | (key, v) :: rest => if v.isUndefined then entriesToJson rest else (key, toJson v) :: entriesToJson rest

end

mutual

def text : Value → String
  | undefined => "undefined"
  | null => "null"
  | bool b => if b then "true" else "false"
  | number x => x.storedText
  | bigInt i => intText i
  | string s => s
  | binary bytes => "<" ++ intText bytes.length ++ " bytes>"
  | date t => t.text
  | list items => itemsText items
  | set members => itemsText members
  | map entries => (toJson (map entries)).render

def itemsText : List Value → String
  | [] => ""
  | [v] => text v
  | v :: rest => text v ++ "," ++ itemsText rest

end

mutual

def ofJson : Json → Value
  | .null => null
  | .bool b => bool b
  | .int i => ofInt i
  | .float x => number x
  | .string s => string s
  | .array items => list (itemsOfJson items)
  | .object members => map (entriesOfJson members)

def itemsOfJson : List Json → List Value
  | [] => []
  | j :: rest => ofJson j :: itemsOfJson rest

def entriesOfJson : List (String × Json) → List (String × Value)
  | [] => []
  | (key, j) :: rest => (key, ofJson j) :: entriesOfJson rest

end

end ItemMapper.Value
