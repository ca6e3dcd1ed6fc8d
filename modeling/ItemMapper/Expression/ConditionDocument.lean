import ItemMapper.Expression.Condition
import ItemMapper.Mapping
import ItemMapper.Schema.Declaration

/-!
# Condition documents

Conditions as callers write them: nested maps whose keys are attribute names or operators. Several keys at one
level must all hold. A name leads one step deeper where its value is a map, and asks for equality otherwise.
-/

namespace ItemMapper

inductive ConditionKey where
  | named
  | logical (op : Connective)
  | not
  | compare (op : Comparison)
  | isIn
  | between
  | size
  | exists
  | type
  | includes
  | startsWith
  | unknown
  deriving DecidableEq, Repr

namespace ConditionKey

def operators : List (String × ConditionKey) :=
  [("$and", logical .and), ("$or", logical .or), ("$not", not), ("$eq", compare .eq), ("$neq", compare .ne),
    ("$gt", compare .gt), ("$gte", compare .ge), ("$lt", compare .lt), ("$lte", compare .le), ("$in", isIn),
    ("$between", between), ("$size", size), ("$includes", includes), ("$exists", .exists), ("$type", type),
    ("$startsWith", startsWith)]

def isOperator (key : String) : Bool := key.toList.head? == some '$'

def ofName (key : String) : ConditionKey :=
  if isOperator key then (operators.lookup key).getD unknown else named

end ConditionKey

def Connective.operator : Connective → String
  | and => "$and"
  | or => "$or"

namespace ConditionDocument

def conjunction : List Condition → Option Condition
  | [] => none
  | [c] => some c
  | cs => some (.logical .and cs)

def pathBelow (parent : Option String) (key : String) : String :=
  match parent with
  | none => key
  | some p =>
    if key.toList.head? = some '[' ∧ key.toList.getLast? = some ']' then p ++ key else p ++ "." ++ key

def operandPath (parent : Option String) (key : String) : Mapping DocumentPath :=
  match parent with
  | some p => Mapping.ofMisuse (DocumentPath.parse p)
  | none => Mapping.misuse (.notUnderAttribute key)

def literalForm (n : Node) (v : Value) : Value :=
  if n.isDate then
    match v with
    | .list items => .list (items.map n.storedForm)
    | .date _ | .string _ | .number _ => n.storedForm v
    | v => v
  else v

def inStoredForm (schema : Schema) (path : String) (v : Value) : Mapping Value := do
  if v.truthy then return literalForm (← Mapping.node schema path) v else return v

def candidates (parent : Option String) (v : Value) : Mapping (List Operand) :=
  match v with
  | .list items =>
    if items.isEmpty || items.any Value.isUndefined then Mapping.misuse (.emptyIn ⟨parent, "$in"⟩)
    else return items.map .literal
  | _ => Mapping.misuse (.emptyIn ⟨parent, "$in"⟩)

def typeName (v : Value) : Except Misuse String :=
  match v with
  | .string name =>
    if name = "SS" then .ok "SS"
    else if name = "NS" ∨ name = "DS" then .ok "NS"
    else if name = "BS" then .ok "BS"
    else do
      match ← BaseType.parse name with
      | .any => return "M"
      | t =>
        match t.kind? with
        | some k => return k.name
        | none => throw (.ambiguousType name)
  | v => .error (.typeNotName v.kindName)

def sizeComparisons : String := "$eq, $neq, $gt, $gte, $lt, $lte, $in"

def sizeEntry (parent : Option String) (p : DocumentPath) (key : String) (v : Value) : Mapping Condition :=
  match ConditionKey.ofName key with
  | .compare op => return .compare (.size p) op (.literal v)
  | .isIn => do return .isIn (.size p) (← candidates parent v)
  | .between =>
    match v with
    | .list [low, high] =>
      if low.isSetNumber && high.isSetNumber then return .between (.size p) (.literal low) (.literal high)
      else Mapping.misuse .sizeBetween
    | _ => Mapping.misuse .sizeBetween
  | _ => Mapping.misuse (.sizeOperator p.text key)

def sizeCondition (parent : Option String) (v : Value) : Mapping Condition := do
  let p ← operandPath parent "$size"
  match v with
  | .map entries =>
    match conjunction (← entries.mapM fun (key, v) => sizeEntry parent p key v) with
    | some c => return c
    | none => Mapping.misuse (.sizeWithoutOperator p.text sizeComparisons)
  | v => return .compare (.size p) .eq (.literal v)

def function (parent : Option String) (key : String) (name : Predicate) (argument : Option Value) :
    Mapping Condition := do
  return .function name (← operandPath parent key) (argument.map .literal)

def leaf (schema : Schema) (parent : Option String) (key : String) (v : Value) : Mapping Condition :=
  match ConditionKey.ofName key with
  | .named => do
    let path := pathBelow parent key
    let v ← inStoredForm schema path v
    return .comparePath (← Mapping.ofMisuse (DocumentPath.parse path)) .eq v
  | .logical op => Mapping.misuse (.notList ⟨parent, op.operator⟩)
  | .not =>
    if v.kind? = some .null then Mapping.misuse (.undefinedOperand ⟨parent, "$not"⟩)
    else Mapping.misuse (.conditionNotObject (parent.getD "") v.kindName)
  | .compare op => do
    let p ← operandPath parent key
    return .comparePath p op (← inStoredForm schema p.text v)
  | .isIn => do
    let p ← operandPath parent key
    return .isIn (.path p) (← candidates parent (← inStoredForm schema p.text v))
  | .between => do
    let p ← operandPath parent key
    match ← inStoredForm schema p.text v with
    | .list [low, high] =>
      if low.isUndefined || high.isUndefined then Mapping.misuse (.betweenOperands ⟨parent, "$between"⟩)
      else return .between (.path p) (.literal low) (.literal high)
    | _ => Mapping.misuse (.betweenOperands ⟨parent, "$between"⟩)
  | .size => sizeCondition parent v
  | .includes => function parent key .contains (some v)
  | .startsWith => function parent key .beginsWith (some v)
  | .exists => function parent key (if v.asBool? = some true then .attributeExists else .attributeNotExists) none
  | .type => do
    let name ← Mapping.ofMisuse (typeName v)
    function parent key .attributeType (some (.string name))
  | .unknown => Mapping.misuse (.unknownOperator key (ConditionKey.operators.map Prod.fst))

mutual

def read (schema : Schema) (parent : Option String) : Value → Mapping (Option Condition)
  | .map entries => do return conjunction (← readEntries schema parent entries)
  | .undefined => return none
  | .null => return none
  | v => Mapping.misuse (.conditionNotObject (parent.getD "") v.kindName)

def readEntries (schema : Schema) (parent : Option String) : List (String × Value) → Mapping (List Condition)
  | [] => return []
  | (key, v) :: rest => do
    let c ← readEntry schema parent key v
    return c :: (← readEntries schema parent rest)

def readEntry (schema : Schema) (parent : Option String) (key : String) : Value → Mapping Condition
  | .undefined => Mapping.misuse (.undefinedCondition ⟨if key.isEmpty then none else parent, key⟩)
  | .map entries =>
    match ConditionKey.ofName key with
    | .named => do
      let path := pathBelow parent key
      match conjunction (← readEntries schema (some path) entries) with
      | some c => return c
      | none => Mapping.misuse (.emptyNested path)
    | .not => do
      match conjunction (← readEntries schema parent entries) with
      | some c => return .not c
      | none => Mapping.misuse (.undefinedOperand ⟨parent, "$not"⟩)
    | _ => leaf schema parent key (.map entries)
  | .list items =>
    match ConditionKey.ofName key with
    | .logical op => do
      let cs ← readItems schema parent op items
      if cs.isEmpty then Mapping.misuse (.emptyList ⟨parent, op.operator⟩) else return .logical op cs
    | _ => leaf schema parent key (.list items)
  | v => leaf schema parent key v

def readItems (schema : Schema) (parent : Option String) (op : Connective) : List Value → Mapping (List Condition)
  | [] => return []
  | v :: rest => do
    match ← read schema parent v with
    | some c => return c :: (← readItems schema parent op rest)
    | none => Mapping.misuse (.undefinedOperand ⟨parent, op.operator⟩)

end

end ConditionDocument

def Schema.readCondition (s : Schema) (doc : Value) (parent : Option String) : Mapping (Option Condition) :=
  ConditionDocument.read s parent doc

end ItemMapper
