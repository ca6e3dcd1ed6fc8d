import ItemMapper.Item.Pass

/-!
# Reading an item

An item on its way back from the store. Dates and big integers return to their own kinds; getters are called from
the inside out, each with the item as it was stored, and only where a value has the kind of its node.
-/

namespace ItemMapper.Node

def restoreOwn (n : Node) (v : Value) : Value :=
  match n, v with
  | scalar _ .bigInt, .number x =>
    if x.isIntegral then .bigInt (x.clampTo (-twoPow 127) (twoPow 127 - 1)) else v
  | scalar _ .date, .number x => (((n.dateFormat.decode? x).bind Instant.ofMillis?).map .date).getD v
  | _, v => v

mutual

/-- A value with its dates and big integers restored. A union is entered by the variant that its value predicts,
and only once. -/
def restore (inUnion : Bool) (v : Value) : Node → Value
  | object _ fields _ =>
    match v with
    | .map entries => .map (restoreFields entries fields)
    | v => v
  | list _ items =>
    match v with
    | .list elements => .list (elements.map fun e => restore false e items)
    | v => v
  | set _ items =>
    match v with
    | .set members => .set (members.map fun e => restore false e items)
    | v => v
  | union _ variants =>
    if inUnion then v
    else match bestVariant? variants v with
      | some i => restoreVariant v i variants
      | none => v
  | scalar m k => restoreOwn (scalar m k) v
  | any _ => v
  | undefined _ => v

def restoreFields (entries : List (String × Value)) : List (String × Node) → List (String × Value)
  | [] => entries
  | (name, n) :: rest =>
    match Entries.get? name entries with
    | some v => restoreFields (Entries.insert name (restore false v n) entries) rest
    | none => restoreFields entries rest

def restoreVariant (v : Value) : Nat → List Node → Value
  | _, [] => v
  | 0, n :: _ => restore true v n
  | i + 1, _ :: rest => restoreVariant v i rest

end

def getOwn (item context : Value) (m : Modifiers) (v : Value) : Passing Value :=
  match m.getter with
  | some f => Passing.record (f.onValue v item context)
  | none => return v

mutual

def getValue (item context : Value) (key path : String) (v : Value) : Node → Passing Value
  | object m fields isOpen => do
    if !accepts (object m fields isOpen) v then return v
    match v with
    | .map entries => getOwn item context m (.map (← getFields item context path entries fields))
    | v => getOwn item context m v
  | list m items => do
    if !accepts (list m items) v then return v
    match v with
    | .list elements =>
      let read ← elements.zipIdx.mapM fun (e, i) =>
        getValue item context (elementPath path i) (elementPath path i) e items
      getOwn item context m (.list read)
    | v => getOwn item context m v
  | set m items => do
    if !accepts (set m items) v then return v
    match v with
    | .set members => getOwn item context m (.set (← members.mapM fun e => getValue item context path path e items))
    | v => getOwn item context m v
  | union _ variants => do
    match ← Passing.pick key path variants v with
    | some i => getVariant item context (nestedKey key) path v i variants
    | none => return v
  | scalar m k =>
    let v := restoreOwn (scalar m k) v
    if accepts (scalar m k) v then getOwn item context m v else return v
  | any m => if accepts (any m) v then getOwn item context m v else return v
  | undefined m => if accepts (undefined m) v then getOwn item context m v else return v

def getFields (item context : Value) (path : String) (entries : List (String × Value)) :
    List (String × Node) → Passing (List (String × Value))
  | [] => return entries
  | (name, n) :: rest => do
    match Entries.get? name entries with
    | some v =>
      let read ← getValue item context (memberPath path name) (memberPath path name) v n
      getFields item context path (Entries.insert name read entries) rest
    | none => getFields item context path entries rest

def getVariant (item context : Value) (key path : String) (v : Value) : Nat → List Node → Passing Value
  | _, [] => return v
  | 0, n :: _ => getValue item context key path v n
  | i + 1, _ :: rest => getVariant item context key path v i rest

end

def forCaller (n : Node) (item context : Value) : Passing Value := fun s =>
  let (read, s') := (n.getValue item context "" "" item).run { calls := s.calls }
  (read, { s with calls := s'.calls })

end ItemMapper.Node
