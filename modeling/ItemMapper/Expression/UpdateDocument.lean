import ItemMapper.Expression.ConditionDocument
import ItemMapper.Expression.Update
import ItemMapper.Item.Filling
import ItemMapper.Item.Validation

/-!
# Update documents

Updates as callers write them: nested maps whose keys are attribute names or operators. What is assigned is pruned
and validated against the node of its path, and no path is the target of two actions.
-/

namespace ItemMapper

inductive UpdateKey where
  | set
  | ifNotExists
  | remove
  | push
  | unshift
  | incr
  | decr
  | date
  | add
  | delete
  deriving DecidableEq, Repr

def UpdateKey.names : List (String × UpdateKey) :=
  [("$set", set), ("$ifNotExists", ifNotExists), ("$remove", remove), ("$push", push), ("$unshift", unshift),
    ("$incr", incr), ("$decr", decr), ("$date", date), ("$add", add), ("$delete", delete)]

def UpdateKey.ofName? (name : String) : Option UpdateKey := names.lookup name

structure UpdateDraft where
  update : Update := {}
  targets : List String := []

namespace UpdateDocument

structure Place where
  schema : Schema
  table : String

def Place.refuse {α : Type} (place : Place) (f : Forbidden) : Mapping α := throw (.forbidden place.table f)

def pathBelow (parent : Option String) (key : String) : String :=
  match parent with
  | none => key
  | some p => if key.toList.head? = some '[' then p ++ key else p ++ "." ++ key

def membersOf : Value → List Value
  | .list items => items
  | .set members => members
  | v => [v]

def fitted (n : Node) (path table : String) (v : Value) : Passing (Except Rejection Value) := do
  let pruned ← n.prune path path v
  match ← n.validate path table pruned with
  | some e => return .error e
  | none => return .ok (n.storedForm pruned)

def orInvalid {α : Type} : Except Rejection α → Mapping α
  | .ok x => return x
  | .error e => throw (.invalid e)

def fitAt (place : Place) (n : Node) (path : String) (v : Value) : Mapping Value := do
  orInvalid (← Mapping.passes (fitted n path place.table v))

def fit (place : Place) (path : String) (v : Value) : Mapping Value := do
  fitAt place (← Mapping.node place.schema path) path v

def reserve (place : Place) (p : DocumentPath) (d : UpdateDraft) : Mapping UpdateDraft :=
  if d.targets.contains p.text then place.refuse (.repeatedTarget p.text)
  else return { d with targets := d.targets ++ [p.text] }

def parsed (path : String) : Mapping DocumentPath := Mapping.ofMisuse (DocumentPath.parse path)

def assign (place : Place) (path : String) (value : Assigned) (d : UpdateDraft) : Mapping UpdateDraft := do
  let p ← parsed path
  let d ← reserve place p d
  return { d with update := { d.update with sets := d.update.sets ++ [⟨p, value⟩] } }

def changeBy (place : Place) (path operator : String) (amount : Value) (d : UpdateDraft) : Mapping UpdateDraft := do
  let n ← Mapping.node place.schema path
  if n.isEnumerated then place.refuse (.enumArithmetic path operator)
  else
    let p ← parsed path
    assign place path
      (if operator = "$decr" then .minus (.path p) (.literal amount) else .plus (.path p) (.literal amount)) d

def index? : Value → Option Nat
  | .number x => if !Binary64.lt x (.ofInt 0) && x.isIntegral then some (x.clampTo 0 (twoPow 64 - 1)).toNat else none
  | .string s => NumberReader.index? s.toList
  | _ => none

def removalPath (parent : String) (target : Value) : String :=
  match index? target with
  | some i => parent ++ String.ofList (DocumentPath.indexChars i)
  | none => if parent.isEmpty then target.text else parent ++ "." ++ target.text

def removeTargets (place : Place) (parent : String) : List Value → UpdateDraft → Mapping UpdateDraft
  | [], d => return d
  | target :: rest, d => do
    let path := removalPath parent target
    let n ← Mapping.node place.schema path
    if n.required then place.refuse (.requiredRemoval path)
    else
      let p ← parsed path
      let d ← reserve place p d
      removeTargets place parent rest { d with update := { d.update with removes := d.update.removes ++ [p] } }

def assignFields (place : Place) (onlyIfAbsent : Bool) : List (String × Value) → UpdateDraft → Mapping UpdateDraft
  | [], d => return d
  | (key, v) :: rest, d =>
    if v.isUndefined then assignFields place onlyIfAbsent rest d
    else match place.schema.field? key with
      | none => place.refuse (.unknownField key)
      | some n => do
        let v ← fitAt place n key v
        let value := if onlyIfAbsent then .ifNotExists (.field key) (.literal v) else .operand (.literal v)
        assignFields place onlyIfAbsent rest (← assign place key value d)

def extend (place : Place) (path : String) (inFront : Bool) (v : Value) (d : UpdateDraft) : Mapping UpdateDraft := do
  let pushed := Value.list (membersOf v)
  let n ← Mapping.node place.schema path
  match ← Mapping.passes (n.validate path place.table pushed) with
  | some e => throw (.invalid e)
  | none =>
    let p ← parsed path
    assign place path
      (if inFront then .listAppend (.literal pushed) (.path p) else .listAppend (.path p) (.literal pushed)) d

def changeMembers (place : Place) (path : String) (adding : Bool) (v : Value) (d : UpdateDraft) :
    Mapping UpdateDraft := do
  let p ← parsed path
  let d ← reserve place p d
  let action : MemberAction := ⟨p, .literal (.set (membersOf v))⟩
  let u := d.update
  return { d with
    update := if adding then { u with adds := u.adds ++ [action] } else { u with deletes := u.deletes ++ [action] } }

def nestedOperator (place : Place) (path key : String) (v : Value) (d : UpdateDraft) : Mapping UpdateDraft :=
  match UpdateKey.ofName? key with
  | some .set => do assign place path (.operand (.literal (← fit place path v))) d
  | some .ifNotExists => do
    let v ← fit place path v
    let p ← parsed path
    assign place path (.ifNotExists p (.literal v)) d
  | some .remove => removeTargets place path (membersOf v) d
  | some .push => extend place path false v d
  | some .unshift => extend place path true v d
  | some .incr => changeBy place path "$incr" v d
  | some .decr => changeBy place path "$decr" v d
  | some .date => do
    let n ← Mapping.node place.schema path
    let delta ← Mapping.ofMisuse (n.dateFormat.change v)
    changeBy place path "$incr" (.number (.ofInt delta)) d
  | some .add => changeMembers place path true v d
  | some .delete => changeMembers place path false v d
  | none => place.refuse (.unknownUpdate key)

def topOperator (place : Place) (key : String) (v : Value) (d : UpdateDraft) : Mapping UpdateDraft :=
  match UpdateKey.ofName? key with
  | some .set => assignments false
  | some .ifNotExists => assignments true
  | some .remove => removeTargets place "" (membersOf v) d
  | _ => Mapping.misuse (.notUnderAttribute key)
where
  assignments (onlyIfAbsent : Bool) : Mapping UpdateDraft :=
    match v with
    | .map entries => assignFields place onlyIfAbsent entries d
    | _ => Mapping.misuse (.assignmentsNotObject key)

def leaf (place : Place) (parent : Option String) (key : String) (v : Value) (d : UpdateDraft) :
    Mapping UpdateDraft :=
  if ConditionKey.isOperator key then
    match parent with
    | some p => nestedOperator place p key v d
    | none => topOperator place key v d
  else do
    let path := pathBelow parent key
    match v with
    | .null => assign place path (.operand (.literal .null)) d
    | v => assign place path (.operand (.literal (← fit place path v))) d

mutual

def readEntries (place : Place) (parent : Option String) :
    List (String × Value) → UpdateDraft → Mapping UpdateDraft
  | [], d => return d
  | (key, v) :: rest, d => do readEntries place parent rest (← readEntry place parent key v d)

def readEntry (place : Place) (parent : Option String) (key : String) : Value → UpdateDraft → Mapping UpdateDraft
  | .undefined, d => return d
  | .map entries, d =>
    if ConditionKey.isOperator key then leaf place parent key (.map entries) d
    else readEntries place (some (pathBelow parent key)) entries d
  | v, d => leaf place parent key v d

end

end UpdateDocument

def Schema.readUpdate (s : Schema) (table : String) (doc : Value) : Mapping Update :=
  match doc with
  | .map entries => do return (← UpdateDocument.readEntries ⟨s, table⟩ none entries {}).update
  | v => Mapping.misuse (.updateNotObject v.kindName)

end ItemMapper
