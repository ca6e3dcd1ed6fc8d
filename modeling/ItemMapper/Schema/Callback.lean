import ItemMapper.Value.Basic

/-!
# Callbacks

Functions that a schema attaches to its nodes. Every call is recorded with its arguments; a callback may have a
tag by which its calls are recognised.
-/

namespace ItemMapper

structure Callback (function : Type) where
  tag : Option String := none
  run : function

abbrev ComputedDefault := Callback (Value → Value)

/-- Replaces a value on its way to or from the store, given the value, the whole item and the caller's context. -/
abbrev Transform := Callback (Value → Value → Value → Value)

abbrev Validator := Callback (Value → Option String)

structure Call where
  tag : Option String
  arguments : List Value

namespace Callback

def onItem (f : ComputedDefault) (item : Value) : Value × Call := (f.run item, ⟨f.tag, [item]⟩)

def onValue (f : Transform) (value item context : Value) : Value × Call :=
  (f.run value item context, ⟨f.tag, [value, item, context]⟩)

def objection (f : Validator) (value : Value) : Option String × Call := (f.run value, ⟨f.tag, [value]⟩)

end Callback

end ItemMapper
