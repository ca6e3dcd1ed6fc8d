import ItemMapper.Wire.Json

/-!
# Codecs

Writing a type as JSON and reading it back. A record is read from an object, where unknown members are skipped and
the first member in the text that fails decides the error, or from an array of its members in their order.
-/

namespace ItemMapper

structure Codec (α : Type) where
  encode : α → Json
  decode : Json → Decoded α

namespace Codec

def text : Codec String := ⟨.string, Decoded.text⟩

def bool : Codec Bool := ⟨.bool, Decoded.bool⟩

def int (least greatest : Int) : Codec Int where
  encode := .int
  decode
    | .int i => if least ≤ i ∧ i ≤ greatest then .ok i else .error .malformed
    | _ => .error .malformed

def int32 : Codec Int := int (-twoPow 31) (twoPow 31 - 1)

def int64 : Codec Int := int NumberReader.leastWord NumberReader.greatestWord

def float : Codec Binary64 where
  encode := .float
  decode
    | .int i => .ok (.ofInt i)
    | .float x => .ok x
    | _ => .error .malformed

def wire : Codec Wire := ⟨Wire.toJson, Wire.ofJson⟩

def item : Codec Item := ⟨Item.toJson, Item.ofJson⟩

def list {α : Type} (c : Codec α) : Codec (List α) where
  encode xs := .array (xs.map c.encode)
  decode := Decoded.list c.decode

def map {α : Type} (c : Codec α) : Codec (List (String × α)) where
  encode es := .object (Entries.mapValues c.encode es)
  decode
    | .object members => do
      let es ← members.mapM fun (key, j) => (c.decode j).map fun x => (key, x)
      return Entries.ofList es
    | _ => .error .malformed

class Named (α : Type) where
  all : List α
  name : α → String

def ofName? {α : Type} [Named α] (name : String) : Option α := Named.all.find? fun x => Named.name x == name

def named (α : Type) [Named α] : Codec α where
  encode x := .string (Named.name x)
  decode
    | .string s => match ofName? s with
      | some x => .ok x
      | none => .error .malformed
    | .object [(s, .null)] => match ofName? s with
      | some x => .ok x
      | none => .error .malformed
    | _ => .error .malformed

end Codec

structure Member (α : Type) where
  key : String
  encode : α → Option Json
  decode : Json → Decoded α
  absent : Option α
  absentInArray : Option α

namespace Member

def required {α : Type} (key : String) (c : Codec α) : Member α where
  key := key
  encode x := some (c.encode x)
  decode := c.decode
  absent := none
  absentInArray := none

def optional {α : Type} (key : String) (c : Codec α) : Member (Option α) where
  key := key
  encode x := x.map c.encode
  decode
    | .null => .ok none
    | j => (c.decode j).map some
  absent := some none
  absentInArray := none

def sequence {α : Type} (key : String) (c : Codec (List α)) : Member (List α) where
  key := key
  encode xs := if xs.isEmpty then none else some (c.encode xs)
  decode := c.decode
  absent := some []
  absentInArray := some []

def defaulted {α : Type} (key : String) (c : Codec α) (value : α) : Member α where
  key := key
  encode x := some (c.encode x)
  decode := c.decode
  absent := some value
  absentInArray := some value

def write {α : Type} (m : Member α) (x : α) : List (String × Json) :=
  ((m.encode x).map fun j => (m.key, j)).toList

end Member

/-- Reading a record: the check of each member, and the record of the members of an object or an array. -/
structure RecordReader (α : Type) where
  checks : List (String × (Json → Option DecodeError))
  ofMembers : List (String × Json) → Decoded α
  ofItems : List Json → Decoded (α × List Json)

namespace RecordReader

def make {α : Type} (x : α) : RecordReader α := ⟨[], fun _ => .ok x, fun items => .ok (x, items)⟩

def failure? {α : Type} (result : Decoded α) : Option DecodeError :=
  match result with
  | .ok _ => none
  | .error e => some e

def orMalformed {α : Type} (x : Option α) : Decoded α :=
  match x with
  | some x => .ok x
  | none => .error .malformed

def and {α β : Type} (r : RecordReader (α → β)) (m : Member α) : RecordReader β where
  checks := r.checks ++ [(m.key, fun j => failure? (m.decode j))]
  ofMembers members := do
    let f ← r.ofMembers members
    let x ← match Entries.get? m.key members with
      | some j => m.decode j
      | none => orMalformed m.absent
    return f x
  ofItems items := do
    let (f, rest) ← r.ofItems items
    match rest with
    | j :: rest =>
      let x ← m.decode j
      return (f x, rest)
    | [] =>
      let x ← orMalformed m.absentInArray
      return (f x, [])

def firstFailure? {α : Type} (r : RecordReader α) (members : List (String × Json)) : Option DecodeError :=
  members.findSome? fun (key, j) => (Entries.get? key r.checks).bind fun check => check j

def decode {α : Type} (r : RecordReader α) : Json → Decoded α
  | .object members =>
    match r.firstFailure? members with
    | some e => .error e
    | none => r.ofMembers members
  | .array items => do
    let (x, rest) ← r.ofItems items
    if rest.isEmpty then return x else .error .malformed
  | _ => .error .malformed

end RecordReader

end ItemMapper
