import ItemMapper.Memory.Expression
import ItemMapper.Proofs.Entries
import ItemMapper.Proofs.Rendered
import ItemMapper.Proofs.ReadUpdates

/-!
# The meaning of updates

What an update makes of an item, if all its actions look at the item as it was before: assigned attributes keep their
place, new ones stand behind the others, and removed ones are gone.
-/

namespace ItemMapper

def DocumentPath.topLevel? : DocumentPath → Option String
  | ⟨[.name name]⟩ => some name
  | _ => none

/-- An assignment to a top-level attribute of a literal, or of the attribute's own sum or difference with one. -/
inductive Assignment.Plain : Assignment → Prop
  | literal (name : String) (v : Value) : Plain ⟨.field name, .operand (.literal v)⟩
  | plus (name : String) (v : Value) : Plain ⟨.field name, .plus (.path (.field name)) (.literal v)⟩
  | minus (name : String) (v : Value) : Plain ⟨.field name, .minus (.path (.field name)) (.literal v)⟩

structure Update.Plain (u : Update) : Prop where
  sets : ∀ a ∈ u.sets, a.Plain
  removes : ∀ p ∈ u.removes, ∃ name, p = .field name
  adds : u.adds = []
  deletes : u.deletes = []

section Meaning

variable (options : MarshalOptions) (item : Item)

def Assigned.value? : Assigned → Option Wire
  | operand (.literal v) => options.wire? v
  | plus (.path ⟨[.name source]⟩) (.literal v) => do
    ((← Entries.get? source item).combine false (← options.wire? v)).toOption
  | minus (.path ⟨[.name source]⟩) (.literal v) => do
    ((← Entries.get? source item).combine true (← options.wire? v)).toOption
  | _ => none

def Assignment.change? (a : Assignment) : Option (String × Wire) := do
  return (← a.path.topLevel?, ← a.value.value? options item)

def Update.changes (u : Update) : List (String × Wire) := u.sets.filterMap (Assignment.change? options item)

def Update.removedNames (u : Update) : List String := u.removes.filterMap DocumentPath.topLevel?

/-- The item with all actions applied to it at once. -/
def Update.applied (u : Update) : Item :=
  let changes := u.changes options item
  let changed := item.map fun e => (e.1, (Entries.get? e.1 changes).getD e.2)
  let added := changes.filter fun c => !Entries.has c.1 item
  (changed ++ added).filter fun e => e.1 ∉ u.removedNames

/-- The attribute that is counted up or down is a number, and so is what it is counted by. -/
def Assigned.Computable (value : Assigned) : Prop := ∀ name v,
  value = .plus (.path (.field name)) (.literal v) ∨ value = .minus (.path (.field name)) (.literal v) →
    ∃ x y left right, Entries.get? name item = some (.n x) ∧ options.wire? v = some (.n y) ∧
      NumberReader.float? x.toList = some left ∧ NumberReader.float? y.toList = some right

end Meaning

variable {options : MarshalOptions} {item : Item} {u : Update} {a : Assignment} {as : List Assignment} {name : String}
  {w : Wire}

@[simp] theorem DocumentPath.topLevel?_field : (DocumentPath.field name).topLevel? = some name := rfl

theorem DocumentPath.text_field : (DocumentPath.field name).text = name := by
  simp [text, chars, field, restChars]

theorem Assignment.Plain.target (h : a.Plain) : ∃ name, a.path = .field name := by
  cases h <;> exact ⟨_, rfl⟩

theorem Assignment.Plain.value_ne_none {g : Value → Wire} (h : a.Plain)
    (hwire : a.value.outline some options.wire? = a.value.outline (some : String → Option String) fun v => some (g v))
    (hc : a.value.Computable options item) : ∃ w, a.value.value? options item = some w := by
  cases h with
  | literal name v => exact ⟨g v, Term.literal.inj (Source.term.inj hwire)⟩
  | plus name v =>
    obtain ⟨x, y, left, right, hx, hy, hleft, hright⟩ := hc name v (.inl rfl)
    simp [Assigned.value?, DocumentPath.field, hx, hy, Wire.combine, hleft, hright, Except.toOption]
  | minus name v =>
    obtain ⟨x, y, left, right, hx, hy, hleft, hright⟩ := hc name v (.inr rfl)
    simp [Assigned.value?, DocumentPath.field, hx, hy, Wire.combine, hleft, hright, Except.toOption]

theorem Assignment.change?_field (hp : a.path = .field name) (hw : a.value.value? options item = some w) :
    a.change? options item = some (name, w) := by
  rw [change?, hp, DocumentPath.topLevel?_field, hw]
  rfl

theorem Assignment.keys_changes (h : ∀ a ∈ as, a.Plain) (hw : ∀ a ∈ as, ∃ w, a.value.value? options item = some w) :
    Entries.keys (as.filterMap (change? options item)) = as.map fun a => a.path.text := by
  induction as with
  | nil => rfl
  | cons a rest ih =>
    obtain ⟨ha, hrest⟩ := List.forall_mem_cons.1 h
    obtain ⟨⟨w, haw⟩, hrestw⟩ := List.forall_mem_cons.1 hw
    obtain ⟨name, hp⟩ := ha.target
    rw [List.filterMap_cons_some (change?_field hp haw), Entries.keys, List.map_cons, ← Entries.keys, ih hrest hrestw,
      List.map_cons, hp, DocumentPath.text_field]

end ItemMapper
