import ItemMapper.Expression.Condition

/-!
# Updates

Updates as four lists of actions, and their texts. A target path is entered before what is assigned to it.
-/

namespace ItemMapper

inductive Assigned where
  | operand (o : Operand)
  | plus (left right : Operand)
  | minus (left right : Operand)
  | ifNotExists (path : DocumentPath) (otherwise : Operand)
  | listAppend (left right : Operand)

def Assigned.render : Assigned → Rendering String
  | operand o => o.render
  | plus a b => do
    let x ← a.render
    let y ← b.render
    return x ++ " + " ++ y
  | minus a b => do
    let x ← a.render
    let y ← b.render
    return x ++ " - " ++ y
  | ifNotExists p o => do
    let x ← Rendering.path p
    let y ← o.render
    return "if_not_exists(" ++ x ++ ", " ++ y ++ ")"
  | listAppend a b => do
    let x ← a.render
    let y ← b.render
    return "list_append(" ++ x ++ ", " ++ y ++ ")"

structure Assignment where
  path : DocumentPath
  value : Assigned

structure MemberAction where
  path : DocumentPath
  value : Operand

structure Update where
  sets : List Assignment := []
  removes : List DocumentPath := []
  adds : List MemberAction := []
  deletes : List MemberAction := []

namespace Update

def isEmpty (u : Update) : Bool := u.sets.isEmpty && u.removes.isEmpty && u.adds.isEmpty && u.deletes.isEmpty

def renderSet (a : Assignment) : Rendering String := do
  let p ← Rendering.path a.path
  let v ← a.value.render
  return p ++ " = " ++ v

def renderMember (a : MemberAction) : Rendering String := do
  let p ← Rendering.path a.path
  let v ← a.value.render
  return p ++ " " ++ v

def renderClause {α : Type} (keyword : String) (action : α → Rendering String) (actions : List α) :
    Rendering (List String) := do
  if actions.isEmpty then return []
  else
    let parts ← actions.mapM action
    return [keyword ++ " " ++ String.intercalate ", " parts]

def render (u : Update) : Rendering (Option String) := do
  let sets ← renderClause "SET" renderSet u.sets
  let removes ← renderClause "REMOVE" Rendering.path u.removes
  let adds ← renderClause "ADD" renderMember u.adds
  let deletes ← renderClause "DELETE" renderMember u.deletes
  let clauses := sets ++ removes ++ adds ++ deletes
  return if clauses.isEmpty then none else some (String.intercalate " " clauses)

end Update

end ItemMapper
