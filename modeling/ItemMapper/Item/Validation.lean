import ItemMapper.Item.Pass

/-!
# Validation

Five phases over one value, each only if those before it found nothing. A phase reports everything that it finds.
-/

namespace ItemMapper

namespace Phase

def all : List Phase := [required, type, enum, range, custom]

end Phase

namespace Node

def objection (m : Modifiers) (path : String) (v : Value) : Passing (List (String × Violation)) :=
  match m.validator with
  | some f => do
    match ← Passing.record (f.objection v) with
    | some message => return [(path, .objection message)]
    | none => return []
  | none => return []

mutual

/-- The objections of validators, from the outside in. A union leaves it to the picked variant; of the items of a
set only their own validator is called. -/
def objections (key path : String) (v : Value) : Node → Passing (List (String × Violation))
  | object m fields _ => do
    if v.isUndefined then return []
    let own ← objection m path v
    match v with
    | .map entries => return own ++ (← fieldObjections path entries fields)
    | _ => return own
  | list m items => do
    if v.isUndefined then return []
    let own ← objection m path v
    match v with
    | .list elements =>
      let inner ← elements.zipIdx.mapM fun (e, i) => objections (elementPath path i) (elementPath path i) e items
      return own ++ inner.flatten
    | _ => return own
  | set m items => do
    if v.isUndefined then return []
    let own ← objection m path v
    match v with
    | .set members =>
      let inner ← members.zipIdx.mapM fun (e, i) => objection items.modifiers (elementPath path i) e
      return own ++ inner.flatten
    | _ => return own
  | union _ variants => do
    match ← Passing.pick key path variants v with
    | some i => variantObjections (nestedKey key) path v i variants
    | none => return []
  | scalar m _ => if v.isUndefined then return [] else objection m path v
  | any m => if v.isUndefined then return [] else objection m path v
  | undefined m => if v.isUndefined then return [] else objection m path v

def fieldObjections (path : String) (entries : List (String × Value)) :
    List (String × Node) → Passing (List (String × Violation))
  | [] => return []
  | (name, n) :: rest => do
    let own ← match Entries.get? name entries with
      | some v => objections (memberPath path name) (memberPath path name) v n
      | none => pure []
    return own ++ (← fieldObjections path entries rest)

def variantObjections (key path : String) (v : Value) : Nat → List Node → Passing (List (String × Violation))
  | _, [] => return []
  | 0, n :: _ => objections key path v n
  | i + 1, _ :: rest => variantObjections key path v i rest

end

def surveyed (n : Node) (phase : Phase) (path : String) (v : Value) : Passing Violations := fun s =>
  let r := Survey.visit phase false path path v { picks := s.picks } n
  (r.violations, { s with picks := r.picks })

def violationsOf (n : Node) (path : String) (v : Value) : Phase → Passing Violations
  | .custom => do return (← n.objections path path v).foldl (fun out (path, v) => out.add path v) []
  | phase => n.surveyed phase path v

def failure? (n : Node) (path table : String) (v : Value) : List Phase → Passing (Option Rejection)
  | [] => return none
  | phase :: rest => do
    let found ← n.violationsOf path v phase
    if found.isEmpty then n.failure? path table v rest else return some ⟨phase, table, found⟩

def validate (n : Node) (path table : String) (v : Value) : Passing (Option Rejection) :=
  n.failure? path table v Phase.all

end Node

end ItemMapper
