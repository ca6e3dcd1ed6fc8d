import ItemMapper.Expression.Path
import ItemMapper.Schema.Compile

/-!
# Nodes at paths

The node that a path leads to. Textual paths are looked up in a cache first, where paths that differ in their
indices only share an entry.
-/

namespace ItemMapper

namespace Node

/-- One step of a path; a node that can not be entered has none. An undeclared child of an object is any value if
the object keeps it. -/
def step? (n : Node) (e : PathStep) : Option Node :=
  match n, e with
  | object _ fields isOpen, .name s => some ((Entries.get? s fields).getD (if isOpen then anything else nowhere))
  | object _ _ isOpen, .index _ => some (if isOpen then anything else nowhere)
  | list _ items, .index _ => some items
  | set _ items, .index _ => some items
  | _, _ => none

def walk (n : Node) : List PathStep → Node
  | [] => n
  | e :: rest =>
    match n.step? e with
    | some child => walk child rest
    | none => n

end Node

abbrev PathCache := List (String × Node)

namespace Schema

def nodeAtText [DigitClass] (s : Schema) (text : String) (cache : PathCache) : Except Misuse Node × PathCache :=
  match DocumentPath.pattern text with
  | .error e => (.error e, cache)
  | .ok key =>
    match Entries.get? key cache with
    | some n => (.ok n, cache)
    | none =>
      match DocumentPath.parse text with
      | .error e => (.error e, cache)
      | .ok p =>
        let n := s.root.walk p.elements
        (.ok n, Entries.insert key n cache)

def nodeAtPath [DigitClass] (s : Schema) (p : DocumentPath) (cache : PathCache) : Node × PathCache :=
  match DocumentPath.pattern p.text with
  | .error _ => (s.root.walk p.elements, cache)
  | .ok key =>
    match Entries.get? key cache with
    | some n => (n, cache)
    | none =>
      let n := s.root.walk p.elements
      (n, Entries.insert key n cache)

end Schema

end ItemMapper
