import ItemMapper.Memory.Refusal
import ItemMapper.Text.Blank
import ItemMapper.Text.Split

/-!
# Expressions in memory

The part of the expression language that the memory store evaluates, on the text of an expression and the tables
of its tokens: comparisons, tests for presence and beginnings joined by AND; assignments of values and sums; and
removals. All of it concerns top-level attributes only.
-/

namespace ItemMapper

structure Bindings where
  names : List (String × String) := []
  values : List (String × Wire) := []

/-- The order of two stored values. Texts and numbers have one; of all others only equality is known. -/
def Wire.order? : Wire → Wire → Option Ordering
  | .s x, .s y => some (compare x y)
  | .n x, .n y => do
    let left ← NumberReader.float? x.toList
    let right ← NumberReader.float? y.toList
    left.compare? right
  | x, y => if x.same y then some .eq else none

def Wire.combine (subtract : Bool) : Wire → Wire → Except Refusal Wire
  | .n x, .n y =>
    match NumberReader.float? x.toList, NumberReader.float? y.toList with
    | some left, some right => .ok (.n (if subtract then left.sub right else left.add right).shortestText)
    | none, _ => .error (.invalidNumber x)
    | _, none => .error (.invalidNumber y)
  | _, _ => .error .wrongOperand

namespace MemoryExpression

def joint : List Char := ") AND (".toList

def conjuncts (text : List Char) : List (List Char) :=
  match (Text.after? ['('] text).bind (Text.before? [')']) with
  | some inner => if Text.contains joint text then Text.splitAt joint inner else [text]
  | none => [text]

def arguments? (function : String) (conjunct : List Char) : Option (List Char) := do
  let rest ← Text.after? function.toList conjunct
  let rest ← Text.after? ['('] rest
  Text.before? [')'] rest

def verdict? (operator : List Char) (order : Option Ordering) : Option Bool :=
  match operator with
  | ['='] => some (order == some .eq)
  | ['<', '>'] => some (order != some .eq)
  | ['<'] => some (order == some .lt)
  | ['<', '='] => some (order == some .lt || order == some .eq)
  | ['>'] => some (order == some .gt)
  | ['>', '='] => some (order == some .gt || order == some .eq)
  | _ => none

def startsWith (stored begin : Wire) : Bool :=
  match stored, begin with
  | .s text, .s front => (Text.after? front.toList text.toList).isSome
  | _, _ => false

def unsupported {α : Type} (text : List Char) : Except Refusal α := .error (.unsupported (String.ofList text))

end MemoryExpression

namespace Bindings

open MemoryExpression

def name (b : Bindings) (token : List Char) : Except Refusal String :=
  match Entries.get? (String.ofList token) b.names with
  | some name => .ok name
  | none => .error (.unknownName (String.ofList token))

def value (b : Bindings) (token : List Char) : Except Refusal Wire :=
  match Entries.get? (String.ofList token) b.values with
  | some v => .ok v
  | none => .error (.unknownValue (String.ofList token))

def attributeOf (b : Bindings) (item : Option Item) (token : List Char) : Except Refusal (Option Wire) := do
  let name ← b.name token
  return item.bind (Entries.get? name)

def comparison (b : Bindings) (item : Option Item) (conjunct : List Char) : Except Refusal Bool :=
  match Text.words conjunct with
  | [path, operator, value] => do
    let right ← b.value value
    match ← b.attributeOf item path with
    | none => return false
    | some left =>
      match verdict? operator (left.order? right) with
      | some holds => return holds
      | none => unsupported conjunct
  | _ => unsupported conjunct

def beginning (b : Bindings) (item : Option Item) (conjunct arguments : List Char) : Except Refusal Bool :=
  match Text.splitOnce? ", ".toList arguments with
  | none => unsupported conjunct
  | some (path, front) => do
    let stored ← b.attributeOf item path
    let front ← b.value front
    return (stored.map fun v => startsWith v front).getD false

def conjunct (b : Bindings) (item : Option Item) (text : List Char) : Except Refusal Bool :=
  match arguments? "attribute_exists" text, arguments? "attribute_not_exists" text, arguments? "begins_with" text with
  | some path, _, _ => do return (← b.attributeOf item path).isSome
  | none, some path, _ => do return (← b.attributeOf item path).isNone
  | none, none, some arguments => b.beginning item text arguments
  | none, none, none => b.comparison item text

def allHold (b : Bindings) (item : Option Item) : List (List Char) → Except Refusal Bool
  | [] => .ok true
  | t :: rest => do if ← b.conjunct item t then b.allHold item rest else return false

def holds (b : Bindings) (item : Option Item) (condition : Option String) : Except Refusal Bool :=
  match condition with
  | some text => b.allHold item (conjuncts text.toList)
  | none => .ok true

end Bindings

namespace MemoryExpression

def keywords : List (List Char) := [" SET ", " REMOVE ", " ADD ", " DELETE "].map String.toList

def clauseLength (body : List Char) : Nat :=
  ((keywords.filterMap fun k => (Text.splitOnce? k body).map fun (front, _) => front.length).min?).getD body.length

def clausesFrom : Nat → List Char → List (List Char × List Char)
  | 0, _ => []
  | fuel + 1, text =>
    match Text.splitOnce? [' '] text with
    | none => []
    | some (keyword, body) =>
      let n := clauseLength body
      (keyword, Text.trim (body.take n)) :: clausesFrom fuel (Text.trim (body.drop n))

/-- The clauses of an update, each a keyword and its actions. Every clause takes at least one character. -/
def clauses (text : List Char) : List (List Char × List Char) := clausesFrom text.length (Text.trim text)

def actions (body : List Char) : List (List Char) := Text.splitAt ", ".toList body

def kept (b : Bindings) (projection : String) : List String :=
  (Text.splitAt ", ".toList projection.toList).filterMap fun path =>
    Entries.get? (String.ofList (path.takeWhile fun c => c != '.' && c != '[')) b.names

def project (b : Bindings) (projection : Option String) (item : Item) : Item :=
  match projection with
  | some text => item.filter fun (name, _) => (kept b text).contains name
  | none => item

end MemoryExpression

namespace Bindings

open MemoryExpression

def assign (b : Bindings) (item : Item) (action : List Char) : Except Refusal Item :=
  match Text.words action with
  | [path, ['='], value] => do
    let name ← b.name path
    return Entries.insert name (← b.value value) item
  | [path, ['='], source, [sign], value] =>
    if source = path ∧ (sign = '+' ∨ sign = '-') then do
      let name ← b.name path
      match Entries.get? name item with
      | none => .error (.notSet name)
      | some current => return Entries.insert name (← current.combine (sign == '-') (← b.value value)) item
    else unsupported action
  | _ => unsupported action

def remove (b : Bindings) (item : Item) (path : List Char) : Except Refusal Item := do
  return Entries.erase (← b.name (Text.trim path)) item

def clause (b : Bindings) (text : List Char) (item : Item) (c : List Char × List Char) : Except Refusal Item :=
  if c.1 = "SET".toList then (actions c.2).foldlM b.assign item
  else if c.1 = "REMOVE".toList then (actions c.2).foldlM b.remove item
  else unsupported text

def update (b : Bindings) (text : String) (item : Item) : Except Refusal Item :=
  (clauses text.toList).foldlM (b.clause text.toList) item

end Bindings

end ItemMapper
