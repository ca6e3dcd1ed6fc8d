import ItemMapper.Json.Basic
import ItemMapper.Text.Base64
import ItemMapper.Wire.Basic

/-!
# Wire values in JSON

A wire value is an object whose one key is the descriptor of its kind. Reading accepts exactly what writing
produces.
-/

namespace ItemMapper

inductive DecodeError where
  | unknownDescriptor (key : String)
  | noDescriptor
  | malformed
  deriving DecidableEq

def DecodeError.message? : DecodeError → Option String
  | unknownDescriptor key =>
    some ("unknown field \x60" ++ key ++ "\x60, expected one of " ++
      String.intercalate ", " (Kind.all.map fun k => "\x60" ++ k.name ++ "\x60"))
  | noDescriptor => some "attribute value must have exactly one key"
  | malformed => none

abbrev Decoded (α : Type) := Except DecodeError α

namespace Decoded

def text : Json → Decoded String
  | .string s => .ok s
  | _ => .error .malformed

def bool : Json → Decoded Bool
  | .bool b => .ok b
  | _ => .error .malformed

def bytes [ByteTexts] : Json → Decoded (List UInt8)
  | .string s => match ByteTexts.read s with
    | some bs => .ok bs
    | none => .error .malformed
  | _ => .error .malformed

def list {α : Type} (item : Json → Decoded α) : Json → Decoded (List α)
  | .array items => items.mapM item
  | _ => .error .malformed

end Decoded

namespace Wire

variable [ByteTexts]

mutual

def toJson : Wire → Json
  | .s t => .object [("S", .string t)]
  | .n t => .object [("N", .string t)]
  | .b bytes => .object [("B", .string (ByteTexts.write bytes))]
  | .ss ts => .object [("SS", .array (ts.map .string))]
  | .ns ts => .object [("NS", .array (ts.map .string))]
  | .bs ms => .object [("BS", .array (ms.map fun bytes => .string (ByteTexts.write bytes)))]
  | .bool flag => .object [("BOOL", .bool flag)]
  | .null flag => .object [("NULL", .bool flag)]
  | .l items => .object [("L", .array (itemsToJson items))]
  | .m entries => .object [("M", .object (entriesToJson entries))]

def itemsToJson : List Wire → List Json
  | [] => []
  | w :: rest => toJson w :: itemsToJson rest

def entriesToJson : List (String × Wire) → List (String × Json)
  | [] => []
  | (key, w) :: rest => (key, toJson w) :: entriesToJson rest

end

def flat? (key : String) (j : Json) : Option (Decoded Wire) :=
  match key with
  | "S" => some ((Decoded.text j).map .s)
  | "N" => some ((Decoded.text j).map .n)
  | "B" => some ((Decoded.bytes j).map .b)
  | "SS" => some ((Decoded.list Decoded.text j).map .ss)
  | "NS" => some ((Decoded.list Decoded.text j).map .ns)
  | "BS" => some ((Decoded.list Decoded.bytes j).map .bs)
  | "BOOL" => some ((Decoded.bool j).map .bool)
  | "NULL" => some ((Decoded.bool j).map .null)
  | _ => none

mutual

def ofJson : Json → Decoded Wire
  | .object [] => .error .noDescriptor
  | .object ((key, payload) :: rest) =>
    match ofPayload key payload with
    | .ok w => if rest.isEmpty then .ok w else .error .malformed
    | .error e => .error e
  | _ => .error .malformed

def ofPayload (key : String) : Json → Decoded Wire
  | .array items =>
    if key = "L" then (itemsOfJson items).map .l
    else if key = "M" then .error .malformed
    else (flat? key (.array items)).getD (.error (.unknownDescriptor key))
  | .object members =>
    if key = "M" then (entriesOfJson members).map fun es => .m (Entries.ofList es)
    else if key = "L" then .error .malformed
    else (flat? key (.object members)).getD (.error (.unknownDescriptor key))
  | j =>
    if key = "L" ∨ key = "M" then .error .malformed
    else (flat? key j).getD (.error (.unknownDescriptor key))

def itemsOfJson : List Json → Decoded (List Wire)
  | [] => .ok []
  | j :: rest => do
    let w ← ofJson j
    let ws ← itemsOfJson rest
    return w :: ws

def entriesOfJson : List (String × Json) → Decoded (List (String × Wire))
  | [] => .ok []
  | (key, j) :: rest => do
    let w ← ofJson j
    let es ← entriesOfJson rest
    return (key, w) :: es

end

end Wire

namespace Item

def toJson [ByteTexts] (item : Item) : Json := .object (Wire.entriesToJson item)

def ofJson [ByteTexts] : Json → Decoded Item
  | .object members => (Wire.entriesOfJson members).map Entries.ofList
  | _ => .error .malformed

end Item

end ItemMapper
