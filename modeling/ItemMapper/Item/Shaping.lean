import ItemMapper.Item.Pass
import ItemMapper.Text.Blank
import ItemMapper.Text.Case

/-!
# Shaping

The values of an item in the form that their nodes ask for: texts trimmed and in the declared case, then setters
called and dates turned into stored numbers. Sets lose the repetitions that this leads to.
-/

namespace ItemMapper

def Modifiers.shapeText (m : Modifiers) (s : String) : String :=
  let cs := if m.trim then Text.trim s.toList else s.toList
  let cs := if m.lowercase then Text.lower cs else if m.uppercase then Text.upper cs else cs
  String.ofList (if m.capitalize then Text.capitalize cs else cs)

namespace Node

mutual

def shape (key path : String) (v : Value) : Node → Passing Value
  | scalar m .string =>
    match v with
    | .string s => return .string (m.shapeText s)
    | v => return v
  | scalar _ _ => return v
  | object _ fields _ =>
    match v with
    | .map entries => do return .map (← shapeFields path entries fields)
    | v => return v
  | list _ items =>
    match v with
    | .list elements => do
      return .list (← elements.zipIdx.mapM fun (e, i) => shape (elementPath path i) (elementPath path i) e items)
    | v => return v
  | set _ items =>
    match v with
    | .set members => do return .set (Value.distinct (← members.mapM fun e => shape path path e items))
    | v => return v
  | union _ variants => do
    match ← Passing.pick key path variants v with
    | some i => shapeVariant (nestedKey key) path v i variants
    | none => return v
  | any _ => return v
  | undefined _ => return v

def shapeFields (path : String) (entries : List (String × Value)) :
    List (String × Node) → Passing (List (String × Value))
  | [] => return entries
  | (name, n) :: rest => do
    match Entries.get? name entries with
    | some v =>
      let shaped ← shape (memberPath path name) (memberPath path name) v n
      shapeFields path (Entries.insert name shaped entries) rest
    | none => shapeFields path entries rest

def shapeVariant (key path : String) (v : Value) : Nat → List Node → Passing Value
  | _, [] => return v
  | 0, n :: _ => shape key path v n
  | i + 1, _ :: rest => shapeVariant key path v i rest

end

structure Surroundings where
  item : Value
  context : Value

def setOwn (around : Surroundings) (n : Node) (v : Value) : Passing Value := do
  let v ← match n.modifiers.setter with
    | some f => Passing.record (f.onValue v around.item around.context)
    | none => pure v
  return if n.isDate && v.truthy then n.storedForm v else v

mutual

def setValue (around : Surroundings) (key path : String) (v : Value) : Node → Passing Value
  | object m fields isOpen => do
    if v.isUndefined then return .undefined
    match ← setOwn around (object m fields isOpen) v with
    | .map entries => return .map (← setFields around path entries fields)
    | v => return v
  | list m items => do
    if v.isUndefined then return .undefined
    match ← setOwn around (list m items) v with
    | .list elements =>
      return .list (← elements.zipIdx.mapM fun (e, i) =>
        setValue around (elementPath path i) (elementPath path i) e items)
    | v => return v
  | set m items => do
    if v.isUndefined then return .undefined
    match ← setOwn around (set m items) v with
    | .set members => return .set (Value.distinct (← members.mapM fun e => setValue around path path e items))
    | v => return v
  | union _ variants => do
    match ← Passing.pick key path variants v with
    | some i => setVariant around (nestedKey key) path v i variants
    | none => return v
  | scalar m k => if v.isUndefined then return .undefined else setOwn around (scalar m k) v
  | any m => if v.isUndefined then return .undefined else setOwn around (any m) v
  | undefined m => if v.isUndefined then return .undefined else setOwn around (undefined m) v

def setFields (around : Surroundings) (path : String) (entries : List (String × Value)) :
    List (String × Node) → Passing (List (String × Value))
  | [] => return entries
  | (name, n) :: rest => do
    match Entries.get? name entries with
    | some v =>
      let assigned ← setValue around (memberPath path name) (memberPath path name) v n
      setFields around path (Entries.insert name assigned entries) rest
    | none => setFields around path entries rest

def setVariant (around : Surroundings) (key path : String) (v : Value) : Nat → List Node → Passing Value
  | _, [] => return v
  | 0, n :: _ => setValue around key path v n
  | i + 1, _ :: rest => setVariant around key path v i rest

end

end Node

end ItemMapper
