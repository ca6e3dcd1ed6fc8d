import ItemMapper.Schema.Declaration
import ItemMapper.Value.Text

/-!
# Declarations in JSON

A declaration is a type name, an array of declarations, or an object with a type and modifiers. Of several faults
the first in the order of reading is reported: the type, then lengths, enum, format, fields, items and indexes.
-/

namespace ItemMapper.FieldDeclaration

def flag (members : List (String × Json)) (key : String) : Bool :=
  ((Entries.get? key members).bind Json.asBool?).getD false

def length? (members : List (String × Json)) (key : String) : Except Misuse (Option Nat) :=
  match Entries.get? key members with
  | none => .ok none
  | some (.int i) => if 0 ≤ i then .ok (some i.toNat) else .error (.notPositive key)
  | some _ => .error (.notPositive key)

def enumValues (members : List (String × Json)) : Except Misuse (List Value) :=
  match Entries.get? "enum" members with
  | none => .ok []
  | some (.array items) => .ok (Value.itemsOfJson items)
  | some _ => .error .enumNotList

def format? (members : List (String × Json)) : Except Misuse (Option DateFormat) :=
  match Entries.get? "format" members with
  | none => .ok none
  | some j =>
    match j.asString?.bind DateFormat.ofName? with
    | some f => .ok (some f)
    | none => .error (.unknownDateFormat j)

def projectedNames : List Json → Except Misuse (List String)
  | [] => .ok []
  | .string s :: rest => do
    let names ← projectedNames rest
    return s :: names
  | _ :: _ => .error .projectedNameNotText

def projection? : Option Json → Except Misuse (Option Coverage)
  | none => .ok none
  | some .null => .ok none
  | some (.string s) =>
    if s = "ALL" then .ok (some .all)
    else if s = "KEYS" then .ok (some .keys)
    else .error (.unknownProjection (.string s))
  | some (.array names) => (projectedNames names).map fun ns => some (.selected ns)
  | some j => .error (.unknownProjection j)

def localIndex? (members : List (String × Json)) : Except Misuse (Option LocalMembership) :=
  match Entries.get? "LSI" members with
  | none => .ok none
  | some j => do
    let project ← projection? (j.get? "project")
    return some ⟨(j.get? "indexName").bind Json.asString?, project⟩

def capacity (j : Json) : Capacity :=
  let units := fun key => ((j.get? key).bind Json.asInt?).getD 1
  ⟨units "read", units "write"⟩

def globalIndex? (members : List (String × Json)) : Except Misuse (Option GlobalMembership) :=
  match Entries.get? "GSI" members with
  | none => .ok none
  | some j =>
    match (j.get? "indexName").bind Json.asString? with
    | none => .error .indexUnnamed
    | some name => do
      let project ← projection? (j.get? "project")
      let sortKey := ((j.get? "sortKey").bind Json.asBool?).getD false
      return some ⟨name, sortKey, project, (j.get? "capacity").map capacity⟩

def plainModifiers (members : List (String × Json)) : Except Misuse Modifiers := do
  let minLength ← length? members "minLength"
  let maxLength ← length? members "maxLength"
  let enumValues ← enumValues members
  let format ← format? members
  return {
    required := flag members "required"
    default := (Entries.get? "default" members).map fun j => .fixed (.ofJson j)
    enumValues
    min := (Entries.get? "min" members).map Value.ofJson
    max := (Entries.get? "max" members).map Value.ofJson
    minLength
    maxLength
    trim := flag members "trim"
    lowercase := flag members "lowercase"
    uppercase := flag members "uppercase"
    capitalize := flag members "capitalize"
    format }

def membershipsOf (members : List (String × Json)) : Except Misuse Memberships := do
  let localIndex ← localIndex? members
  let globalIndex ← globalIndex? members
  return ⟨flag members "primaryIndex", flag members "sortKey", localIndex, globalIndex⟩

inductive DeclaredType where
  | tag (t : BaseType)
  | union (variants : List FieldDeclaration)

mutual

def ofJson : Json → Except Misuse FieldDeclaration
  | .string name => (BaseType.parse name).map .tag
  | .null => .ok (.tag .null)
  | .array variants => (ofItems variants).map .union
  | .object members => do
    let declared ← match typeOf? members with
      | some declared => declared
      | none => .error (.untypedField (.object members))
    let modifiers ← plainModifiers members
    let fields ← fieldsOf? members
    let items ← itemsOf? members
    let memberships ← membershipsOf members
    let modifiers := { modifiers with memberships }
    match declared with
    | .tag t => return .typed t fields items (flag members "allowUndeclared") modifiers
    | .union variants => return .typedUnion variants modifiers
  | j => .error (.unknownType j.render)

def ofItems : List Json → Except Misuse (List FieldDeclaration)
  | [] => .ok []
  | j :: rest => do
    let d ← ofJson j
    let ds ← ofItems rest
    return d :: ds

def typeOf? : List (String × Json) → Option (Except Misuse DeclaredType)
  | [] => none
  | (key, j) :: rest => if key = "type" then some (declaredType j) else typeOf? rest

def declaredType : Json → Except Misuse DeclaredType
  | .array variants => (ofItems variants).map .union
  | .string name => (BaseType.parse name).map .tag
  | .null => .ok (.tag .null)
  | j => .error (.unknownType j.render)

def fieldsOf? : List (String × Json) → Except Misuse (Option (List (String × FieldDeclaration)))
  | [] => .ok none
  | (key, j) :: rest => if key = "fields" then (declaredFields j).map some else fieldsOf? rest

def declaredFields : Json → Except Misuse (List (String × FieldDeclaration))
  | .object members => ofMembers members
  | _ => .error .fieldsNotObject

def itemsOf? : List (String × Json) → Except Misuse (Option FieldDeclaration)
  | [] => .ok none
  | (key, j) :: rest => if key = "items" then (ofJson j).map some else itemsOf? rest

def ofMembers : List (String × Json) → Except Misuse (List (String × FieldDeclaration))
  | [] => .ok []
  | (key, j) :: rest => do
    let d ← ofJson j
    let ds ← ofMembers rest
    return (key, d) :: ds

end

end ItemMapper.FieldDeclaration

namespace ItemMapper

def SchemaDeclaration.ofJson : Json → Except Misuse SchemaDeclaration
  | .object members => FieldDeclaration.ofMembers members
  | _ => .error .schemaNotObject

end ItemMapper
