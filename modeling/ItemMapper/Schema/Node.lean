import ItemMapper.Schema.Callback
import ItemMapper.Value.Date

/-!
# Schema nodes

A schema is a tree of nodes. Every node carries its modifiers: whether a value is required, its default, its
bounds, its callbacks and, at the top level, its part in keys and indexes.
-/

namespace ItemMapper

inductive Scalar where
  | string
  | number
  | bigInt
  | boolean
  | null
  | binary
  | date
  deriving DecidableEq, Repr

namespace Scalar

def kind : Scalar → Kind
  | string => .s
  | number => .n
  | bigInt => .n
  | date => .n
  | boolean => .bool
  | null => .null
  | binary => .b

def canBeKey : Scalar → Bool
  | string | number | bigInt | binary | date => true
  | _ => false

end Scalar

inductive Fallback where
  | fixed (v : Value)
  | computed (f : ComputedDefault)

inductive Coverage where
  | all
  | keys
  | selected (names : List String)
  deriving DecidableEq, Repr

structure Capacity where
  read : Int
  write : Int
  deriving DecidableEq, Repr

structure LocalMembership where
  indexName : Option String := none
  project : Option Coverage := none
  deriving DecidableEq, Repr

/-- The field is a key of a global index. Projection and capacity count where the hash key is declared. -/
structure GlobalMembership where
  indexName : String
  sortKey : Bool := false
  project : Option Coverage := none
  capacity : Option Capacity := none
  deriving DecidableEq, Repr

structure Memberships where
  primary : Bool := false
  sortKey : Bool := false
  localIndex : Option LocalMembership := none
  globalIndex : Option GlobalMembership := none
  deriving DecidableEq, Repr

def Memberships.any (r : Memberships) : Bool := r.primary || r.sortKey || r.localIndex.isSome || r.globalIndex.isSome

structure Modifiers where
  required : Bool := false
  default : Option Fallback := none
  enumValues : List Value := []
  min : Option Value := none
  max : Option Value := none
  minLength : Option Nat := none
  maxLength : Option Nat := none
  trim : Bool := false
  lowercase : Bool := false
  uppercase : Bool := false
  capitalize : Bool := false
  format : Option DateFormat := none
  setter : Option Transform := none
  getter : Option Transform := none
  validator : Option Validator := none
  memberships : Memberships := {}

instance : Inhabited Modifiers := ⟨{}⟩

inductive Node where
  | scalar (modifiers : Modifiers) (kind : Scalar)
  | object (modifiers : Modifiers) (fields : List (String × Node)) (isOpen : Bool)
  | any (modifiers : Modifiers)
  | list (modifiers : Modifiers) (items : Node)
  | set (modifiers : Modifiers) (items : Node)
  | union (modifiers : Modifiers) (variants : List Node)
  | undefined (modifiers : Modifiers)
  deriving Inhabited

namespace Node

def modifiers : Node → Modifiers
  | scalar m _ => m
  | object m _ _ => m
  | any m => m
  | list m _ => m
  | set m _ => m
  | union m _ => m
  | undefined m => m

def withModifiers (m : Modifiers) : Node → Node
  | scalar _ k => scalar m k
  | object _ fields isOpen => object m fields isOpen
  | any _ => any m
  | list _ items => list m items
  | set _ items => set m items
  | union _ variants => union m variants
  | undefined _ => undefined m

def required (n : Node) : Bool := n.modifiers.required

def withRequired (flag : Bool) (n : Node) : Node := n.withModifiers { n.modifiers with required := flag }

def anything : Node := any {}

def nowhere : Node := undefined {}

def isDate : Node → Bool
  | scalar _ .date => true
  | _ => false

def isUnion : Node → Bool
  | union _ _ => true
  | _ => false

mutual

def typeName : Node → String
  | scalar _ .date => "D"
  | scalar _ k => k.kind.name
  | object _ _ _ => "M"
  | any _ => "ANY"
  | list _ _ => "L"
  | set _ items => typeName items ++ "S"
  | union _ variants => variantNames variants
  | undefined _ => "undefined"

def variantNames : List Node → String
  | [] => ""
  | [n] => typeName n
  | n :: rest => typeName n ++ " | " ++ variantNames rest

end

/-- The kind of the stored values of a scalar, an object or a list. Dates have none, since they are recognised by
what they denote. -/
def plainKind? : Node → Option Kind
  | scalar _ .date => none
  | scalar _ k => some k.kind
  | object _ _ _ => some .m
  | list _ _ => some .l
  | _ => none

def setKindOf : Option Kind → Kind
  | some .s => .ss
  | some .b => .bs
  | _ => .ns

def kind? : Node → Option Kind
  | set _ items => some (setKindOf (kind? items))
  | n => plainKind? n

def dateFormat (n : Node) : DateFormat := n.modifiers.format.getD .timestamp

def millis? (n : Node) (v : Value) : Option Int := n.dateFormat.millis? v

def accepts (n : Node) (v : Value) : Bool :=
  if n.isDate then (n.millis? v).isSome
  else match n.kind?, v.kind? with
    | some expected, some actual => expected == actual
    | _, _ => false

def storedForm (n : Node) (v : Value) : Value := if n.isDate then (n.dateFormat.stored? v).getD v else v

def fields? : Node → Option (List (String × Node))
  | object _ fields _ => some fields
  | _ => none

def field? (name : String) (n : Node) : Option Node := n.fields?.bind (Entries.get? name)

def keepsUndeclared : Node → Bool
  | object _ _ isOpen => isOpen
  | any _ => true
  | _ => false

def items? : Node → Option Node
  | list _ items => some items
  | set _ items => some items
  | _ => none

def variants? : Node → Option (List Node)
  | union _ variants => some variants
  | _ => none

def isEnumerated (n : Node) : Bool := !n.modifiers.enumValues.isEmpty

end Node

end ItemMapper
