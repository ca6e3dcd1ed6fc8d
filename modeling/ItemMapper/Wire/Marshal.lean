import ItemMapper.Number.Reader
import ItemMapper.Value.Text
import ItemMapper.Wire.Basic

/-!
# Marshalling

Native values to wire values and back. Dates are written in milliseconds. Undefined values are left out or
refused, as the caller wishes.
-/

namespace ItemMapper

structure MarshalOptions where
  removeUndefined : Bool := true
  deriving DecidableEq, Repr

inductive MarshalError where
  | undefined
  | invalidNumber (text : String)
  | emptySet
  | mixedSet (kindNames : List String)
  | notAnItem (kindName : String)
  deriving DecidableEq

def MarshalError.message : MarshalError → String
  | undefined => "Pass options.removeUndefinedValues=true to remove undefined values from map/array/set."
  | invalidNumber t => "Number " ++ t ++ " is not a valid stored number."
  | emptySet => "Cannot store an empty set."
  | mixedSet ks => "Only Set of numbers, strings or binary is supported, got " ++ String.intercalate ", " ks ++ "."
  | notAnItem k => "Expected an object to marshall as an item, got " ++ k ++ "."

namespace Wire

def ofNumber (x : Binary64) : Except MarshalError String :=
  if x.isFinite then .ok x.storedText else .error (.invalidNumber x.shortestText)

def numberMember? : Value → Option (Except MarshalError String)
  | .number x => some (ofNumber x)
  | .bigInt i => some (.ok (intText i))
  | .date t => some (.ok (intText t.millis))
  | _ => none

def textMember? : Value → Option String
  | .string t => some t
  | _ => none

def binaryMember? : Value → Option (List UInt8)
  | .binary bytes => some bytes
  | _ => none

def ofSet (members : List Value) (options : MarshalOptions) : Except MarshalError Wire :=
  let members := members.filter fun v => !(options.removeUndefined && v.isUndefined)
  if members.isEmpty then .error .emptySet
  else match members.mapM numberMember? with
    | some numbers => (numbers.mapM id).map .ns
    | none =>
      match members.mapM textMember? with
      | some texts => .ok (.ss texts)
      | none =>
        match members.mapM binaryMember? with
        | some blobs => .ok (.bs blobs)
        | none => .error (.mixedSet (members.map Value.kindName))

mutual

def ofValue (options : MarshalOptions) : Value → Except MarshalError (Option Wire)
  | .undefined => if options.removeUndefined then .ok none else .error .undefined
  | .null => .ok (some (.null true))
  | .bool flag => .ok (some (.bool flag))
  | .number x => (ofNumber x).map fun t => some (.n t)
  | .bigInt i => .ok (some (.n (intText i)))
  | .string t => .ok (some (.s t))
  | .binary bytes => .ok (some (.b bytes))
  | .date t => .ok (some (.n (intText t.millis)))
  | .list items => (ofItems options items).map fun ws => some (.l ws)
  | .map entries => (ofEntries options entries).map fun es => some (.m es)
  | .set members => (ofSet members options).map some

def ofItems (options : MarshalOptions) : List Value → Except MarshalError (List Wire)
  | [] => .ok []
  | v :: rest => do
    let w ← ofValue options v
    let ws ← ofItems options rest
    return w.toList ++ ws

def ofEntries (options : MarshalOptions) : List (String × Value) → Except MarshalError (List (String × Wire))
  | [] => .ok []
  | (key, v) :: rest => do
    let w ← ofValue options v
    let es ← ofEntries options rest
    return (w.map fun w => (key, w)).toList ++ es

end

/-- A number of a text: an integer beyond the exact range keeps all its digits, and no number is NaN. -/
def readNumber (digits : String) : Value :=
  let cs := digits.toList
  let x := (NumberReader.float? cs).getD .nan
  if Binary64.lt (.ofInt Binary64.greatestExact) x.abs then
    match NumberReader.big? cs with
    | some i => .bigInt i
    | none => .number x
  else .number x

mutual

def toValue : Wire → Value
  | .s t => .string t
  | .n t => readNumber t
  | .b bytes => .binary bytes
  | .ss ts => .set (ts.map .string)
  | .ns ts => .set (ts.map readNumber)
  | .bs ms => .set (ms.map .binary)
  | .bool flag => .bool flag
  | .null _ => .null
  | .l items => .list (itemsToValues items)
  | .m entries => .map (entriesToValues entries)

def itemsToValues : List Wire → List Value
  | [] => []
  | w :: rest => toValue w :: itemsToValues rest

def entriesToValues : List (String × Wire) → List (String × Value)
  | [] => []
  | (key, w) :: rest => (key, toValue w) :: entriesToValues rest

end

end Wire

namespace Item

def ofValue (options : MarshalOptions) : Value → Except MarshalError Item
  | .map entries => Wire.ofEntries options entries
  | v => .error (.notAnItem v.kindName)

def toValue (item : Item) : Value := .map (Wire.entriesToValues item)

end Item

end ItemMapper
