import ItemMapper.MappingFailure
import ItemMapper.Expression.Tokens
import ItemMapper.Item.Pass
import ItemMapper.Schema.Lookup

/-!
# Mappings

Computations that may fail, over what lasts between them: the cache of paths and the record of callback calls.
Both survive a failure.
-/

namespace ItemMapper

structure Session where
  cache : PathCache := []
  calls : List Call := []

abbrev Mapping := ExceptT MappingFailure (StateM Session)

namespace Mapping

def ofMisuse {α : Type} (x : Except Misuse α) : Mapping α := fun s =>
  (match x with
    | .ok a => .ok a
    | .error e => .error (.misuse e), s)

def misuse {α : Type} (m : Misuse) : Mapping α := throw (.misuse m)

def ofMarshal {α : Type} (x : Except MarshalError α) : Mapping α := fun s =>
  (match x with
    | .ok a => .ok a
    | .error e => .error (.marshal e), s)

def node (schema : Schema) (path : String) : Mapping Node := fun s =>
  let (n, cache) := schema.nodeAtText path s.cache
  (match n with
    | .ok n => .ok n
    | .error e => .error (.misuse e), { s with cache })

def passes {α : Type} (p : Passing α) : Mapping α := fun s =>
  let (x, after) := p.run { calls := s.calls }
  (.ok x, { s with calls := after.calls })

def rendered {α : Type} (r : Rendering α) (t : Tokens) : Mapping (α × Tokens) := fun s =>
  (match r.run t with
    | (.ok a, t) => .ok (a, t)
    | (.error e, _) => .error (.marshal e), s)

end Mapping

namespace Schema

def storedKey (s : Schema) : List (String × Value) → Except Misuse (List (String × Value))
  | [] => .ok []
  | (name, v) :: rest =>
    if v.isUndefined then .error (.undefinedCondition ⟨none, name⟩)
    else do
      let es ← storedKey s rest
      return (name, ((s.field? name).map fun n => n.storedForm v).getD v) :: es

def marshalKey (s : Schema) (options : MarshalOptions) (key : Value) : Except MappingFailure Item := do
  let entries := match key with
    | .map entries => entries
    | v => [(s.primaryKey, v)]
  match s.storedKey entries with
  | .error e => .error (.misuse e)
  | .ok stored =>
    match Item.ofValue options (.map stored) with
    | .error e => .error (.marshal e)
    | .ok item => .ok item

end Schema

end ItemMapper
