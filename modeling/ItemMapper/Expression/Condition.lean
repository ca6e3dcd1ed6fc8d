import ItemMapper.Expression.Tokens

/-!
# Conditions

Conditions as trees, and their texts. Literals stay native until a tree is written, so trees written with one
table share their tokens. A name is entered before the value that it is compared with.
-/

namespace ItemMapper

inductive Comparison where
  | eq
  | ne
  | lt
  | le
  | gt
  | ge
  deriving DecidableEq, Repr

def Comparison.text : Comparison → String
  | eq => "="
  | ne => "<>"
  | lt => "<"
  | le => "<="
  | gt => ">"
  | ge => ">="

inductive Connective where
  | and
  | or
  deriving DecidableEq, Repr

def Connective.text : Connective → String
  | and => "AND"
  | or => "OR"

inductive Predicate where
  | attributeExists
  | attributeNotExists
  | attributeType
  | beginsWith
  | contains
  deriving DecidableEq, Repr

def Predicate.text : Predicate → String
  | attributeExists => "attribute_exists"
  | attributeNotExists => "attribute_not_exists"
  | attributeType => "attribute_type"
  | beginsWith => "begins_with"
  | contains => "contains"

inductive Operand where
  | path (p : DocumentPath)
  | literal (v : Value)
  | size (p : DocumentPath)

def Operand.render : Operand → Rendering String
  | path p => Rendering.path p
  | literal v => Rendering.value v
  | size p => do return "size(" ++ (← Rendering.path p) ++ ")"

inductive Condition where
  | compare (left : Operand) (op : Comparison) (right : Operand)
  | between (value low high : Operand)
  | isIn (value : Operand) (candidates : List Operand)
  | logical (op : Connective) (conditions : List Condition)
  | not (inner : Condition)
  | function (name : Predicate) (path : DocumentPath) (argument : Option Operand)

namespace Condition

def comparePath (p : DocumentPath) (op : Comparison) (v : Value) : Condition := compare (.path p) op (.literal v)

mutual

def render : Condition → Rendering String
  | compare left op right => do
    let l ← left.render
    let r ← right.render
    return l ++ " " ++ op.text ++ " " ++ r
  | between value low high => do
    let v ← value.render
    let l ← low.render
    let h ← high.render
    return v ++ " BETWEEN " ++ l ++ " AND " ++ h
  | isIn value candidates => do
    let v ← value.render
    let cs ← candidates.mapM Operand.render
    return v ++ " IN (" ++ String.intercalate ", " cs ++ ")"
  | logical op conditions => do
    let parts ← renderAll conditions
    match parts with
    | [single] => return single
    | parts => return String.intercalate (" " ++ op.text ++ " ") (parts.map fun p => "(" ++ p ++ ")")
  | not inner => do
    let i ← render inner
    return "NOT (" ++ i ++ ")"
  | function name path argument => do
    let p ← Rendering.path path
    match argument with
    | some a =>
      let a ← a.render
      return name.text ++ "(" ++ p ++ ", " ++ a ++ ")"
    | none => return name.text ++ "(" ++ p ++ ")"

def renderAll : List Condition → Rendering (List String)
  | [] => return []
  | c :: rest => do
    let p ← render c
    let ps ← renderAll rest
    return p :: ps

end

end Condition

end ItemMapper
