import ItemMapper.Expression.Update

/-!
# Outlines of expressions

The trees of expressions over whatever stands for their names and literals: the names and wire values themselves, or
the numbers of their tokens. A connective over a single condition is that condition, as it is in the text. An outline
over numbers has one text, and a tree has one outline for what its names and literals become.
-/

namespace ItemMapper

inductive Step (ν : Type) where
  | name (x : ν)
  | index (i : Nat)

inductive Term (ν β : Type) where
  | path (steps : List (Step ν))
  | literal (x : β)
  | size (steps : List (Step ν))

inductive Outline (ν β : Type) where
  | compare (left : Term ν β) (op : Comparison) (right : Term ν β)
  | between (value low high : Term ν β)
  | isIn (value : Term ν β) (candidates : List (Term ν β))
  | logical (op : Connective) (parts : List (Outline ν β))
  | not (inner : Outline ν β)
  | function (name : Predicate) (steps : List (Step ν)) (argument : Option (Term ν β))

inductive Source (ν β : Type) where
  | term (x : Term ν β)
  | plus (left right : Term ν β)
  | minus (left right : Term ν β)
  | ifNotExists (steps : List (Step ν)) (otherwise : Term ν β)
  | listAppend (left right : Term ν β)

structure UpdateOutline (ν β : Type) where
  sets : List (List (Step ν) × Source ν β)
  removes : List (List (Step ν))
  adds : List (List (Step ν) × Term ν β)
  deletes : List (List (Step ν) × Term ν β)

variable {ν ν' β β' : Type}

section Maps

variable (f : ν → ν') (g : β → β')

def Step.map : Step ν → Step ν'
  | name x => name (f x)
  | index i => index i

def Term.map : Term ν β → Term ν' β'
  | path steps => path (steps.map (Step.map f))
  | literal x => literal (g x)
  | size steps => size (steps.map (Step.map f))

def Source.map : Source ν β → Source ν' β'
  | term x => term (x.map f g)
  | plus a b => plus (a.map f g) (b.map f g)
  | minus a b => minus (a.map f g) (b.map f g)
  | ifNotExists steps x => ifNotExists (steps.map (Step.map f)) (x.map f g)
  | listAppend a b => listAppend (a.map f g) (b.map f g)

def UpdateOutline.map (u : UpdateOutline ν β) : UpdateOutline ν' β' where
  sets := u.sets.map fun a => (a.1.map (Step.map f), a.2.map f g)
  removes := u.removes.map (List.map (Step.map f))
  adds := u.adds.map fun a => (a.1.map (Step.map f), a.2.map f g)
  deletes := u.deletes.map fun a => (a.1.map (Step.map f), a.2.map f g)

mutual

def Outline.map : Outline ν β → Outline ν' β'
  | .compare l op r => .compare (l.map f g) op (r.map f g)
  | .between v l h => .between (v.map f g) (l.map f g) (h.map f g)
  | .isIn v cs => .isIn (v.map f g) (cs.map (Term.map f g))
  | .logical op parts => .logical op (Outline.mapAll parts)
  | .not inner => .not (Outline.map inner)
  | .function name steps a => .function name (steps.map (Step.map f)) (a.map (Term.map f g))

def Outline.mapAll : List (Outline ν β) → List (Outline ν' β')
  | [] => []
  | p :: rest => Outline.map p :: Outline.mapAll rest

end

end Maps

section Trees

variable (f : String → ν) (g : Value → β)

def PathStep.outline : PathStep → Step ν
  | .name s => .name (f s)
  | .index i => .index i

def DocumentPath.outline (p : DocumentPath) : List (Step ν) := p.elements.map (PathStep.outline f)

def Operand.outline : Operand → Term ν β
  | .path p => .path (p.outline f)
  | .literal v => .literal (g v)
  | .size p => .size (p.outline f)

def Assigned.outline : Assigned → Source ν β
  | .operand o => .term (o.outline f g)
  | .plus a b => .plus (a.outline f g) (b.outline f g)
  | .minus a b => .minus (a.outline f g) (b.outline f g)
  | .ifNotExists p o => .ifNotExists (p.outline f) (o.outline f g)
  | .listAppend a b => .listAppend (a.outline f g) (b.outline f g)

def Update.outline (u : Update) : UpdateOutline ν β where
  sets := u.sets.map fun a => (a.path.outline f, a.value.outline f g)
  removes := u.removes.map (DocumentPath.outline f)
  adds := u.adds.map fun a => (a.path.outline f, a.value.outline f g)
  deletes := u.deletes.map fun a => (a.path.outline f, a.value.outline f g)

def Outline.joined (op : Connective) : List (Outline ν β) → Outline ν β
  | [part] => part
  | parts => .logical op parts

mutual

def Condition.outline : Condition → Outline ν β
  | .compare l op r => .compare (l.outline f g) op (r.outline f g)
  | .between v l h => .between (v.outline f g) (l.outline f g) (h.outline f g)
  | .isIn v cs => .isIn (v.outline f g) (cs.map (Operand.outline f g))
  | .logical op cs => .joined op (Condition.outlines cs)
  | .not inner => .not (Condition.outline inner)
  | .function name p a => .function name (p.outline f) (a.map (Operand.outline f g))

def Condition.outlines : List Condition → List (Outline ν β)
  | [] => []
  | c :: rest => Condition.outline c :: Condition.outlines rest

end

end Trees

def nameChars (k : Nat) : List Char := '#' :: 'n' :: NumberLayout.natDigits k

def valueChars (k : Nat) : List Char := ':' :: 'v' :: NumberLayout.natDigits k

def Step.restChars : List (Step Nat) → List Char
  | [] => []
  | .name k :: rest => '.' :: nameChars k ++ restChars rest
  | .index i :: rest => DocumentPath.indexChars i ++ restChars rest

def Step.chars : List (Step Nat) → List Char
  | .name k :: rest => nameChars k ++ restChars rest
  | steps => restChars steps

def inParentheses (text : List Char) : List Char := '(' :: text ++ [')']

def call (function : String) (arguments : List Char) : List Char := function.toList ++ inParentheses arguments

def linked (link : String) (x y : List Char) : List Char := x ++ link.toList ++ y

def Connective.between (op : Connective) : List Char := ' ' :: op.text.toList ++ [' ']

def Term.chars : Term Nat Nat → List Char
  | path steps => Step.chars steps
  | literal k => valueChars k
  | size steps => call "size" (Step.chars steps)

def Source.chars : Source Nat Nat → List Char
  | term x => x.chars
  | plus a b => linked " + " a.chars b.chars
  | minus a b => linked " - " a.chars b.chars
  | ifNotExists steps x => call "if_not_exists" (linked ", " (Step.chars steps) x.chars)
  | listAppend a b => call "list_append" (linked ", " a.chars b.chars)

mutual

def Outline.chars : Outline Nat Nat → List Char
  | .compare l op r => linked (" " ++ op.text ++ " ") l.chars r.chars
  | .between v l h => linked " BETWEEN " v.chars (linked " AND " l.chars h.chars)
  | .isIn v cs => v.chars ++ call " IN " (", ".toList.intercalate (cs.map Term.chars))
  | .logical op parts => op.between.intercalate (Outline.allChars parts)
  | .not inner => call "NOT " (Outline.chars inner)
  | .function name steps none => call name.text (Step.chars steps)
  | .function name steps (some a) => call name.text (linked ", " (Step.chars steps) a.chars)

def Outline.allChars : List (Outline Nat Nat) → List (List Char)
  | [] => []
  | p :: rest => inParentheses (Outline.chars p) :: Outline.allChars rest

end

namespace UpdateOutline

def setChars (a : List (Step Nat) × Source Nat Nat) : List Char := linked " = " (Step.chars a.1) a.2.chars

def memberChars (a : List (Step Nat) × Term Nat Nat) : List Char := linked " " (Step.chars a.1) a.2.chars

def clauseChars (keyword : String) (actions : List (List Char)) : List (List Char) :=
  if actions.isEmpty then [] else [keyword.toList ++ ' ' :: ", ".toList.intercalate actions]

def clauses (u : UpdateOutline Nat Nat) : List (List Char) :=
  clauseChars "SET" (u.sets.map setChars) ++ clauseChars "REMOVE" (u.removes.map Step.chars) ++
    clauseChars "ADD" (u.adds.map memberChars) ++ clauseChars "DELETE" (u.deletes.map memberChars)

def chars (u : UpdateOutline Nat Nat) : List Char := [' '].intercalate u.clauses

end UpdateOutline

section Lists

variable {f : ν → ν'} {g : β → β'}

theorem Outline.mapAll_eq {parts : List (Outline ν β)} : Outline.mapAll f g parts = parts.map (Outline.map f g) := by
  induction parts with
  | nil => rfl
  | cons p rest ih => rw [Outline.mapAll, ih, List.map_cons]

theorem Outline.allChars_eq {parts : List (Outline Nat Nat)} :
    Outline.allChars parts = parts.map fun p => inParentheses p.chars := by
  induction parts with
  | nil => rfl
  | cons p rest ih => rw [Outline.allChars, ih, List.map_cons]

theorem Condition.outlines_eq {f : String → ν} {g : Value → β} {cs : List Condition} :
    Condition.outlines f g cs = cs.map (Condition.outline f g) := by
  induction cs with
  | nil => rfl
  | cons c rest ih => rw [Condition.outlines, ih, List.map_cons]

theorem Outline.joined_of_length {op : Connective} {parts : List (Outline ν β)} (h : parts.length ≠ 1) :
    Outline.joined op parts = .logical op parts := by
  rcases parts with _ | ⟨x, _ | ⟨y, rest⟩⟩
  · rfl
  · simp at h
  · rfl

end Lists

section Maps

variable {ν'' β'' : Type} {f : ν → ν'} {g : β → β'} {f' : ν' → ν''} {g' : β' → β''} {name : ν'} {w : β'}

theorem Step.map_map : Step.map f' ∘ Step.map f = Step.map (ν := ν) (f' ∘ f) := by
  funext s
  cases s <;> rfl

theorem Term.map_map (x : Term ν β) : (x.map f g).map f' g' = x.map (f' ∘ f) (g' ∘ g) := by
  cases x <;> simp [Term.map, Step.map_map]

theorem Step.of_map_name {p : List (Step ν)} (h : p.map (Step.map f) = [.name name]) :
    ∃ k, p = [.name k] ∧ f k = name := by
  obtain ⟨s, rfl, hs⟩ := List.map_eq_singleton_iff.1 h
  cases s with
  | name k => exact ⟨k, rfl, Step.name.inj hs⟩
  | index i => cases hs

theorem Term.of_map_name {x : Term ν β} (h : x.map f g = .path [.name name]) : ∃ k, x = .path [.name k] ∧ f k = name := by
  cases x with
  | path p =>
    obtain ⟨k, rfl, hk⟩ := Step.of_map_name (Term.path.inj h)
    exact ⟨k, rfl, hk⟩
  | literal v => cases h
  | size p => cases h

theorem Term.of_map_literal {x : Term ν β} (h : x.map f g = .literal w) : ∃ j, x = .literal j ∧ g j = w := by
  cases x with
  | path p => cases h
  | literal j => exact ⟨j, rfl, Term.literal.inj h⟩
  | size p => cases h

theorem Term.map_comp : Term.map f' g' ∘ Term.map f g = Term.map (f' ∘ f) (g' ∘ g) := funext Term.map_map

mutual

theorem Outline.map_map : ∀ x : Outline ν β, (x.map f g).map f' g' = x.map (f' ∘ f) (g' ∘ g)
  | .compare l op r => by simp [Outline.map, Term.map_map]
  | .between v l h => by simp [Outline.map, Term.map_map]
  | .isIn v cs => by simp [Outline.map, Term.map_map, Term.map_comp]
  | .logical op parts => by rw [Outline.map, Outline.map, Outline.map, Outline.mapAll_mapAll parts]
  | .not inner => by rw [Outline.map, Outline.map, Outline.map, Outline.map_map inner]
  | .function name steps a => by simp [Outline.map, Step.map_map, Term.map_comp]

theorem Outline.mapAll_mapAll : ∀ xs : List (Outline ν β),
    Outline.mapAll f' g' (Outline.mapAll f g xs) = Outline.mapAll (f' ∘ f) (g' ∘ g) xs
  | [] => rfl
  | x :: rest => by rw [Outline.mapAll, Outline.mapAll, Outline.mapAll, Outline.map_map x, Outline.mapAll_mapAll rest]

end

end Maps

section Trees

variable {f : String → ν} {g : Value → β} {f' : ν → ν'} {g' : β → β'}

theorem DocumentPath.map_outline (p : DocumentPath) : (p.outline f).map (Step.map f') = p.outline (f' ∘ f) := by
  rw [DocumentPath.outline, DocumentPath.outline, List.map_map]
  refine List.map_congr_left fun s _ => ?_
  cases s <;> rfl

theorem Operand.map_outline (o : Operand) : (o.outline f g).map f' g' = o.outline (f' ∘ f) (g' ∘ g) := by
  cases o <;> simp [Operand.outline, Term.map, DocumentPath.map_outline]

theorem Outline.map_joined {op : Connective} {parts : List (Outline ν β)} :
    (Outline.joined op parts).map f' g' = Outline.joined op (Outline.mapAll f' g' parts) := by
  rcases parts with _ | ⟨x, _ | ⟨y, rest⟩⟩ <;> rfl

mutual

theorem Condition.map_outline : ∀ c : Condition, (c.outline f g).map f' g' = c.outline (f' ∘ f) (g' ∘ g)
  | .compare l op r => by simp [Condition.outline, Outline.map, Operand.map_outline]
  | .between v l h => by simp [Condition.outline, Outline.map, Operand.map_outline]
  | .isIn v cs => by simp [Condition.outline, Outline.map, Operand.map_outline]
  | .logical op cs => by rw [Condition.outline, Condition.outline, Outline.map_joined, Condition.mapAll_outlines cs]
  | .not inner => by rw [Condition.outline, Condition.outline, Outline.map, Condition.map_outline inner]
  | .function name p a => by
    simp [Condition.outline, Outline.map, DocumentPath.map_outline, Function.comp_def, Operand.map_outline]

theorem Condition.mapAll_outlines : ∀ cs : List Condition,
    Outline.mapAll f' g' (Condition.outlines f g cs) = Condition.outlines (f' ∘ f) (g' ∘ g) cs
  | [] => rfl
  | c :: rest => by
    rw [Condition.outlines, Condition.outlines, Outline.mapAll, Condition.map_outline c, Condition.mapAll_outlines rest]

end

end Trees

end ItemMapper
