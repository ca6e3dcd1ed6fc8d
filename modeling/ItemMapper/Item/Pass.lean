import ItemMapper.Schema.Survey

/-!
# Passes over an item

Every pass that rewrites or checks an item goes through the schema with it. The variants picked for its unions and
the record of callback calls last from one pass to the next.
-/

namespace ItemMapper

structure Pass where
  picks : Picks := []
  calls : List Call := []

abbrev Passing := StateM Pass

namespace Passing

def record {α : Type} (call : α × Call) : Passing α := fun s => (call.1, { s with calls := s.calls ++ [call.2] })

/-- The variant picked under a key, now if not before. An absent value has none, and none is kept for it. -/
def pick (key path : String) (variants : List Node) (v : Value) : Passing (Option Nat) := fun s =>
  if v.isUndefined then (none, s)
  else match Entries.get? key s.picks with
    | some picked => (picked, s)
    | none =>
      let picked := Survey.variantOf path v variants
      (picked, { s with picks := Entries.insert key picked s.picks })

end Passing

namespace Node

mutual

/-- The variants picked for a value from here down to a node that is no union, and that node. -/
def picked (key path : String) (v : Value) : Node → Passing (Option (List Nat × Node))
  | union _ variants => do
    match ← Passing.pick key path variants v with
    | some i => return (← pickedVariant (nestedKey key) path v i variants).map fun (places, n) => (i :: places, n)
    | none => return none
  | n => return some ([], n)

def pickedVariant (key path : String) (v : Value) : Nat → List Node → Passing (Option (List Nat × Node))
  | _, [] => return none
  | 0, n :: _ => picked key path v n
  | i + 1, _ :: rest => pickedVariant key path v i rest

end

end Node

end ItemMapper
