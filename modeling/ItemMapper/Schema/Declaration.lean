import ItemMapper.Schema.Node

/-!
# Declarations

How schemas are declared: a field is a bare type, a union of declarations, or either of these with modifiers.
-/

namespace ItemMapper

inductive BaseType where
  | string
  | number
  | bigInt
  | boolean
  | binary
  | date
  | object
  | any
  | array
  | set
  | null
  deriving DecidableEq, Repr

namespace BaseType

def names : List (String × BaseType) :=
  [("String", string), ("S", string), ("Number", number), ("N", number), ("BigInt", bigInt), ("bigint", bigInt),
    ("Boolean", boolean), ("BOOL", boolean), ("Buffer", binary), ("Binary", binary), ("B", binary), ("Date", date),
    ("D", date), ("Object", object), ("M", object), ("ANY", any), ("Array", array), ("L", array), ("Set", set),
    ("null", null), ("Null", null), ("NULL", null)]

def parse (name : String) : Except Misuse BaseType :=
  match names.lookup name with
  | some t => .ok t
  | none => .error (.unknownType name)

def name : BaseType → String
  | string => "String"
  | number => "Number"
  | bigInt => "BigInt"
  | boolean => "Boolean"
  | binary => "Binary"
  | date => "Date"
  | object => "Object"
  | any => "ANY"
  | array => "Array"
  | set => "Set"
  | null => "Null"

def kind? : BaseType → Option Kind
  | string => some .s
  | number => some .n
  | bigInt => some .n
  | date => some .n
  | boolean => some .bool
  | binary => some .b
  | object => some .m
  | array => some .l
  | null => some .null
  | any => none
  | set => none

def scalar? : BaseType → Option Scalar
  | string => some .string
  | number => some .number
  | bigInt => some .bigInt
  | boolean => some .boolean
  | binary => some .binary
  | date => some .date
  | null => some .null
  | _ => none

end BaseType

inductive FieldDeclaration where
  | tag (t : BaseType)
  | union (variants : List FieldDeclaration)
  | typed (t : BaseType) (fields : Option (List (String × FieldDeclaration))) (items : Option FieldDeclaration)
      (isOpen : Bool) (modifiers : Modifiers)
  | typedUnion (variants : List FieldDeclaration) (modifiers : Modifiers)
  deriving Inhabited

abbrev SchemaDeclaration := List (String × FieldDeclaration)

end ItemMapper
