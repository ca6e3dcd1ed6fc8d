import ItemMapper.MappingFailure
import ItemMapper.Schema.Prediction

/-!
# Surveys

The walk that the first four phases of validation share, and the choice of union variants that it rests on. A
union is checked itself and then entered by the variant that was picked at its path; picks last for one operation,
so every pass sees the same variant. Where prediction cannot tell matching variants apart, the one with the fewest
type violations is picked.
-/

namespace ItemMapper

/-- Picks of union variants by path; a union directly inside a union has the path with a bar behind it. -/
abbrev Picks := List (String × Option Nat)

structure Survey where
  picks : Picks := []
  violations : Violations := []

namespace Survey

def addAll (path : String) (vs : List Violation) (s : Survey) : Survey :=
  { s with violations := vs.foldl (fun out v => out.add path v) s.violations }

end Survey

def memberPath (parent name : String) : String := if parent = "" then name else parent ++ "." ++ name

def elementPath (parent : String) (i : Nat) : String := parent ++ "[" ++ intText i ++ "]"

def nestedKey (key : String) : String := key ++ "|"

namespace Phase

def checkRequired (n : Node) (v : Value) : List Violation := if n.required && v.isUndefined then [.absent] else []

def checkType (n : Node) (v : Value) : List Violation :=
  match n with
  | .any _ => []
  | .union _ variants =>
    if variants.any fun u => u.accepts v then [] else [.wrongKind n.typeName v.kindName]
  | n =>
    if n.accepts v then []
    else if n.isDate then [.noDate v.kindName v.text]
    else [.wrongKind n.typeName v.kindName]

def checkEnum (n : Node) (v : Value) (path : String) : List Violation :=
  if n.isEnumerated && !Value.isMember v n.modifiers.enumValues then
    [.notListed v.text path (n.modifiers.enumValues.map Value.text)]
  else []

def numberBound (bound : Option Value) : Option Binary64 := bound.bind Value.asNumber?

def outside (m : Modifiers) (x : Binary64) (below above : String → Violation) : List Violation :=
  (match numberBound m.min with
    | some b => if x.lt b then [below b.storedText] else []
    | none => []) ++
  (match numberBound m.max with
    | some b => if b.lt x then [above b.storedText] else []
    | none => [])

def checkLength (m : Modifiers) (length : Nat) : List Violation :=
  (match m.minLength with
    | some least => if length < least then [.shorter least length] else []
    | none => []) ++
  (match m.maxLength with
    | some greatest => if greatest < length then [.longer greatest length] else []
    | none => [])

def checkDate (n : Node) (v : Value) : List Violation :=
  match n.millis? v with
  | none => []
  | some ms =>
    let shown := ((Instant.ofMillis? ms).map Instant.text).getD v.text
    (match n.modifiers.min with
      | some b => if ((n.millis? b).map fun t => decide (ms < t)).getD false then [.below b.text shown] else []
      | none => []) ++
    (match n.modifiers.max with
      | some b => if ((n.millis? b).map fun t => decide (t < ms)).getD false then [.above b.text shown] else []
      | none => [])

def checkRange (n : Node) (v : Value) : List Violation :=
  match n, v with
  | .scalar m .string, .string s => checkLength m s.length
  | .scalar m .number, .number x => outside m x (.below · v.text) (.above · v.text)
  | .scalar m .number, .bigInt i => outside m (.ofInt i) (.below · v.text) (.above · v.text)
  | .scalar m .bigInt, .number x => outside m x (.below · v.text) (.above · v.text)
  | .scalar m .bigInt, .bigInt i => outside m (.ofInt i) (.below · v.text) (.above · v.text)
  | .scalar m .binary, .binary bytes =>
    outside m (.ofInt bytes.length) (.smaller · bytes.length) (.larger · bytes.length)
  | .scalar _ .date, v => checkDate n v
  | _, _ => []

def check (phase : Phase) (n : Node) (v : Value) (path : String) : List Violation :=
  match phase with
  | required => checkRequired n v
  | type => checkType n v
  | enum => checkEnum n v path
  | range => checkRange n v
  | custom => []

/-- The type phase stops where a value has the wrong kind, and at nodes that take any value. -/
def descends (phase : Phase) (n : Node) (v : Value) : Bool :=
  match phase, n with
  | type, .any _ => false
  | type, n => (checkType n v).isEmpty
  | _, _ => true

def visits (phase : Phase) (v : Value) : Bool := phase == required || !v.isUndefined

def visitsMembers (phase : Phase) : Bool := phase == enum || phase == range

end Phase

namespace Survey

def enter (phase : Phase) (inUnion : Bool) (path : String) (v : Value) (s : Survey) (n : Node) : Bool × Survey :=
  if !phase.visits v then (false, s)
  else if inUnion && n.isUnion then (true, s)
  else (phase.descends n v, s.addAll path (phase.check n v path))

def predictedOr (variants : List Node) (v : Value) (found : Unit → Option (Nat × Nat)) : Option Nat :=
  match Node.bestVariant? variants v with
  | some i => some i
  | none => (found ()).map Prod.fst

mutual

def visit (phase : Phase) (inUnion : Bool) (key path : String) (v : Value) (s : Survey) : Node → Survey
  | .object m fields isOpen =>
    match enter phase inUnion path v s (.object m fields isOpen), v with
    | (true, s), .map entries => visitFields phase path entries s fields
    | (_, s), _ => s
  | .list m items =>
    match enter phase inUnion path v s (.list m items), v with
    | (true, s), .list elements =>
      elements.zipIdx.foldl (fun s (e, i) => visit phase false (elementPath path i) (elementPath path i) e s items) s
    | (_, s), _ => s
  | .set m items =>
    match enter phase inUnion path v s (.set m items), v with
    | (true, s), .set members =>
      if phase.visitsMembers then
        members.zipIdx.foldl (fun s (e, i) => visit phase false (elementPath path i) (elementPath path i) e s items) s
      else s
    | (_, s), _ => s
  | .union m variants =>
    match enter phase inUnion path v s (.union m variants) with
    | (true, s) =>
      if v.isUndefined then s
      else
        let pick := (Entries.get? key s.picks).getD
          (predictedOr variants v fun _ => fewestErrors path v variants)
        let s := { s with picks := Entries.insert key pick s.picks }
        match pick with
        | some i => visitVariant phase (nestedKey key) path v s i variants
        | none => s
    | (false, s) => s
  | .scalar m k => (enter phase inUnion path v s (.scalar m k)).2
  | .any m => (enter phase inUnion path v s (.any m)).2
  | .undefined m => (enter phase inUnion path v s (.undefined m)).2

def visitFields (phase : Phase) (path : String) (entries : List (String × Value)) (s : Survey) :
    List (String × Node) → Survey
  | [] => s
  | (name, n) :: rest =>
    let child := memberPath path name
    let v := (Entries.get? name entries).getD .undefined
    visitFields phase path entries (visit phase false child child v s n) rest

def visitVariant (phase : Phase) (key path : String) (v : Value) (s : Survey) : Nat → List Node → Survey
  | _, [] => s
  | 0, n :: _ => visit phase true key path v s n
  | i + 1, _ :: rest => visitVariant phase key path v s i rest

/-- The place and count of the matching variant with the fewest type violations, the first one on a tie. -/
def fewestErrors (path : String) (v : Value) : List Node → Option (Nat × Nat)
  | [] => none
  | n :: rest =>
    let later := (fewestErrors path v rest).map fun (i, count) => (i + 1, count)
    if n.accepts v then
      let count := (visit .type false path path v {} n).violations.length
      match later with
      | some (i, least) => if count ≤ least then some (0, count) else some (i, least)
      | none => some (0, count)
    else later

end

/-- The variant for a value: the predicted one, else the matching one with the fewest type violations. -/
def variantOf (path : String) (v : Value) (variants : List Node) : Option Nat :=
  predictedOr variants v fun _ => fewestErrors path v variants

end Survey

end ItemMapper
