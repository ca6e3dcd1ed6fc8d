import ItemMapper.Item.Pass

/-!
# Filling and pruning

Which attributes an item has. Absent ones get their defaults, computed ones from the item as it was given; then
keys that no closed object declares are dropped.
-/

namespace ItemMapper.Node

def withDefault (m : Modifiers) (item v : Value) : Passing Value :=
  if !v.isUndefined then return v
  else match m.default with
    | some (.fixed d) => return d
    | some (.computed f) => Passing.record (f.onItem item)
    | none => return v

mutual

/-- A value with defaults wherever its maps and lists lead; the key is the one under which a variant is picked. -/
def fill (item : Value) (key path : String) (v : Value) : Node → Passing Value
  | object m fields _ => do
    match ← withDefault m item v with
    | .map entries => return .map (← fillFields item path entries fields)
    | v => return v
  | list m items => do
    match ← withDefault m item v with
    | .list elements =>
      return .list (← elements.zipIdx.mapM fun (e, i) =>
        fill item (elementPath path i) (elementPath path i) e items)
    | v => return v
  | union m variants => do
    let v ← withDefault m item v
    match ← Passing.pick key path variants v with
    | some i => fillVariant item (nestedKey key) path v i variants
    | none => return v
  | scalar m _ => withDefault m item v
  | any m => withDefault m item v
  | set m _ => withDefault m item v
  | undefined m => withDefault m item v

def fillFields (item : Value) (path : String) (entries : List (String × Value)) :
    List (String × Node) → Passing (List (String × Value))
  | [] => return entries
  | (name, n) :: rest => do
    let filled ← fill item (memberPath path name) (memberPath path name) ((Entries.get? name entries).getD .undefined) n
    fillFields item path (if filled.isUndefined then entries else Entries.insert name filled entries) rest

def fillVariant (item : Value) (key path : String) (v : Value) : Nat → List Node → Passing Value
  | _, [] => return v
  | 0, n :: _ => fill item key path v n
  | i + 1, _ :: rest => fillVariant item key path v i rest

end

def keptEntries (fields : List (String × Node)) (isOpen : Bool) (entries : List (String × Value)) :
    List (String × Value) :=
  if isOpen then entries else entries.filter fun (key, _) => Entries.has key fields

mutual

def prune (key path : String) (v : Value) : Node → Passing Value
  | object _ fields isOpen =>
    match v with
    | .map entries => do
      return .map (← (keptEntries fields isOpen entries).mapM fun (name, v) => do
        return (name, ← pruneField path name v fields))
    | v => return v
  | list _ items =>
    match v with
    | .list elements => do
      return .list (← elements.zipIdx.mapM fun (e, i) => prune (elementPath path i) (elementPath path i) e items)
    | v => return v
  | union _ variants => do
    match ← Passing.pick key path variants v with
    | some i => pruneVariant (nestedKey key) path v i variants
    | none => return v
  | scalar _ _ => return v
  | any _ => return v
  | set _ _ => return v
  | undefined _ => return v

def pruneField (path name : String) (v : Value) : List (String × Node) → Passing Value
  | [] => return v
  | (field, n) :: rest =>
    if field = name then prune (memberPath path name) (memberPath path name) v n else pruneField path name v rest

def pruneVariant (key path : String) (v : Value) : Nat → List Node → Passing Value
  | _, [] => return v
  | 0, n :: _ => prune key path v n
  | i + 1, _ :: rest => pruneVariant key path v i rest

end

end ItemMapper.Node
