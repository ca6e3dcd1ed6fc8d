import ItemMapper.Expression.Path
import ItemMapper.Wire.Marshal

/-!
# Substitution tokens

The names and values of one request's expressions stand in tables of their own, under tokens numbered from a
common count. Two more tables lead from the names and from the keys of values back to their tokens. A name is entered
once. So are texts, numbers, booleans and nulls; a composite value is entered anew each time.
-/

namespace ItemMapper

structure Tokens where
  options : MarshalOptions := {}
  names : List (String × String) := []
  values : List (String × Wire) := []
  nameTokens : List (String × String) := []
  valueTokens : List (String × String) := []
  counter : Nat := 0

namespace Tokens

def isEmpty (t : Tokens) : Bool := t.names.isEmpty && t.values.isEmpty

def nameToken (i : Nat) : String := "#n" ++ intText i

def valueToken (i : Nat) : String := ":v" ++ intText i

def addField (name : String) (t : Tokens) : String × Tokens :=
  match Entries.get? name t.nameTokens with
  | some token => (token, t)
  | none =>
    let token := nameToken t.counter
    (token, { t with
      names := Entries.insert token name t.names
      nameTokens := Entries.insert name token t.nameTokens
      counter := t.counter + 1 })

def addElements : List PathStep → String → Tokens → String × Tokens
  | [], out, t => (out, t)
  | .name s :: rest, out, t =>
    let (token, t) := addField s t
    addElements rest (if out.isEmpty then token else out ++ "." ++ token) t
  | .index i :: rest, out, t => addElements rest (out ++ String.ofList (DocumentPath.indexChars i)) t

def addPath (p : DocumentPath) (t : Tokens) : String × Tokens := addElements p.elements "" t

/-- A value without a key of its own leaves no way back from it to its token. -/
def addWire (w : Wire) (t : Tokens) : String × Tokens :=
  match w.identity?.bind (Entries.get? · t.valueTokens) with
  | some token => (token, t)
  | none =>
    let token := valueToken t.counter
    (token, { t with
      values := Entries.insert token w t.values
      valueTokens := w.identity?.elim t.valueTokens (Entries.insert · token t.valueTokens)
      counter := t.counter + 1 })

/-- An undefined value has no token, even where undefined values are left out. -/
def addValue (v : Value) (t : Tokens) : Except MarshalError String × Tokens :=
  match Wire.ofValue t.options v with
  | .ok (some w) =>
    let (token, t) := t.addWire w
    (.ok token, t)
  | .ok none => (.error .undefined, t)
  | .error e => (.error e, t)

end Tokens

abbrev Rendering := ExceptT MarshalError (StateM Tokens)

namespace Rendering

def path (p : DocumentPath) : Rendering String := fun t =>
  let (token, t) := t.addPath p
  (.ok token, t)

def value (v : Value) : Rendering String := fun t => t.addValue v

end Rendering

end ItemMapper
