import ItemMapper.Memory.Expression
import ItemMapper.Proofs.UniqueReading

/-!
# The meaning of conditions

What a condition says of an item, by recursion over the condition, where some conditions on one top-level attribute have
their meaning and all others are given one from outside. A connective over a single condition means what the condition
means, so a condition may be collapsed.
-/

namespace ItemMapper

def Comparison.holds (op : Comparison) (order : Option Ordering) : Bool :=
  match op with
  | eq => order == some .eq
  | ne => order != some .eq
  | lt => order == some .lt
  | le => order == some .lt || order == some .eq
  | gt => order == some .gt
  | ge => order == some .gt || order == some .eq

def Wire.beginsWith : Wire → Wire → Bool
  | .s text, .s front => front.toList.isPrefixOf text.toList
  | _, _ => false

namespace Condition

/-- A comparison of one top-level attribute with a literal, or a test of its presence or of how it begins. -/
def isSupported : Condition → Bool
  | compare (.path ⟨[.name _]⟩) _ (.literal _) => true
  | function .attributeExists ⟨[.name _]⟩ none => true
  | function .attributeNotExists ⟨[.name _]⟩ none => true
  | function .beginsWith ⟨[.name _]⟩ (some (.literal _)) => true
  | _ => false

/-- A supported condition, or several that must all hold. -/
inductive Evaluable : Condition → Prop
  | single {c : Condition} (h : c.isSupported = true) : Evaluable c
  | all {cs : List Condition} (hlen : 2 ≤ cs.length) (h : ∀ c ∈ cs, c.isSupported = true) : Evaluable (logical .and cs)

section Meaning

variable (options : MarshalOptions) (item : Option Item) (other : Condition → Bool)

/-- The meaning of the conditions that are supported. An absent attribute meets no comparison. -/
def supported? : Condition → Option Bool
  | compare (.path ⟨[.name name]⟩) op (.literal v) =>
    (options.wire? v).map fun w =>
      match item.bind (Entries.get? name) with
      | none => false
      | some stored => op.holds (stored.order? w)
  | function .attributeExists ⟨[.name name]⟩ none => some (item.bind (Entries.get? name)).isSome
  | function .attributeNotExists ⟨[.name name]⟩ none => some (item.bind (Entries.get? name)).isNone
  | function .beginsWith ⟨[.name name]⟩ (some (.literal v)) =>
    (options.wire? v).map fun w => ((item.bind (Entries.get? name)).map fun stored => stored.beginsWith w).getD false
  | _ => none

mutual

/-- What a condition says of an item; conditions that are not supported mean whatever `other` says. -/
def eval : Condition → Bool
  | logical .and cs => evalAll cs
  | logical .or cs => evalAny cs
  | not inner => !eval inner
  | c => (c.supported? options item).getD (other c)

def evalAll : List Condition → Bool
  | [] => true
  | c :: rest => eval c && evalAll rest

def evalAny : List Condition → Bool
  | [] => false
  | c :: rest => eval c || evalAny rest

end

end Meaning

def joined (op : Connective) : List Condition → Condition
  | [c] => c
  | cs => logical op cs

mutual

def collapse : Condition → Condition
  | logical op cs => joined op (collapseAll cs)
  | not inner => not (collapse inner)
  | c => c

def collapseAll : List Condition → List Condition
  | [] => []
  | c :: rest => collapse c :: collapseAll rest

end

mutual

def Collapsed : Condition → Prop
  | logical _ cs => cs.length ≠ 1 ∧ AllCollapsed cs
  | not inner => Collapsed inner
  | _ => True

def AllCollapsed : List Condition → Prop
  | [] => True
  | c :: rest => Collapsed c ∧ AllCollapsed rest

end

variable {options : MarshalOptions} {item : Option Item} {other : Condition → Bool} {op : Connective}
  {cs : List Condition} {c : Condition} {ν β : Type} {f : String → ν} {g : Value → β}

theorem eval_joined : (joined op cs).eval options item other = (logical op cs).eval options item other := by
  rcases cs with _ | ⟨c, _ | ⟨d, rest⟩⟩
  · rfl
  · cases op <;> simp [joined, eval, evalAll, evalAny]
  · rfl

mutual

theorem eval_collapse : ∀ c : Condition, c.collapse.eval options item other = c.eval options item other
  | logical .and cs => by rw [collapse, eval_joined, eval, eval, evalAll_collapse cs]
  | logical .or cs => by rw [collapse, eval_joined, eval, eval, evalAny_collapse cs]
  | not inner => by rw [collapse, eval, eval, eval_collapse inner]
  | compare .. => rfl
  | between .. => rfl
  | isIn .. => rfl
  | function .. => rfl

theorem evalAll_collapse : ∀ cs : List Condition,
    evalAll options item other (collapseAll cs) = evalAll options item other cs
  | [] => rfl
  | c :: rest => by rw [collapseAll, evalAll, evalAll, eval_collapse c, evalAll_collapse rest]

theorem evalAny_collapse : ∀ cs : List Condition,
    evalAny options item other (collapseAll cs) = evalAny options item other cs
  | [] => rfl
  | c :: rest => by rw [collapseAll, evalAny, evalAny, eval_collapse c, evalAny_collapse rest]

end

theorem outline_joined : (joined op cs).outline f g = (logical op cs).outline f g := by
  rcases cs with _ | ⟨c, _ | ⟨d, rest⟩⟩ <;> rfl

mutual

theorem outline_collapse : ∀ c : Condition, c.collapse.outline f g = c.outline f g
  | logical op cs => by rw [collapse, outline_joined, outline, outline, outlines_collapse cs]
  | not inner => by rw [collapse, outline, outline, outline_collapse inner]
  | compare .. => rfl
  | between .. => rfl
  | isIn .. => rfl
  | function .. => rfl

theorem outlines_collapse : ∀ cs : List Condition, outlines f g (collapseAll cs) = outlines f g cs
  | [] => rfl
  | c :: rest => by rw [collapseAll, outlines, outlines, outline_collapse c, outlines_collapse rest]

end

theorem joined_collapsed (h : AllCollapsed cs) : (joined op cs).Collapsed := by
  rcases cs with _ | ⟨c, _ | ⟨d, rest⟩⟩
  · exact ⟨by simp, h⟩
  · exact h.1
  · exact ⟨by simp, h⟩

mutual

theorem collapse_collapsed : ∀ c : Condition, c.collapse.Collapsed
  | logical _ cs => joined_collapsed (collapseAll_collapsed cs)
  | not inner => collapse_collapsed inner
  | compare .. => trivial
  | between .. => trivial
  | isIn .. => trivial
  | function .. => trivial

theorem collapseAll_collapsed : ∀ cs : List Condition, AllCollapsed (collapseAll cs)
  | [] => trivial
  | c :: rest => ⟨collapse_collapsed c, collapseAll_collapsed rest⟩

end

end Condition

end ItemMapper
