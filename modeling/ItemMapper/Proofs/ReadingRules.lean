import ItemMapper.Expression.ConditionDocument
import ItemMapper.Proofs.Outcomes

/-!
# Rules of reading

A condition document is read by recursion over its entries, down to leaves that are on one path each. What is to hold of
all readings is settled here once, from rules for their steps and from what holds of paths and leaves.
-/

namespace ItemMapper

namespace Mapping

variable {α β : Type} {p : Mapping α} {q : α → Mapping β} {P : α → Prop} {Q : β → Prop} {a : α} {s s' : Session}

theorem of_misuse {m : Misuse} (h : (misuse m).run s = (.ok a, s')) : False := by
  cases h

theorem of_ofMisuse {x : Except Misuse α} (h : (ofMisuse x).run s = (.ok a, s')) : x = .ok a := by
  cases x with
  | error e => cases h
  | ok a' =>
    cases h
    rfl

structure Judgement (J : ∀ α : Type, Mapping α → (α → Prop) → Prop) : Prop where
  pure : ∀ {α : Type} {P : α → Prop} {a : α}, P a → J α (Pure.pure a) P
  misuse : ∀ {α : Type} {P : α → Prop} (m : Misuse), J α (misuse m) P
  ofMisuse : ∀ {α : Type} {P : α → Prop} {x : Except Misuse α}, (∀ a, x = .ok a → P a) → J α (ofMisuse x) P
  bind : ∀ {α β : Type} {P : α → Prop} {Q : β → Prop} {p : Mapping α} {q : α → Mapping β},
    J α p P → (∀ a, P a → J β (q a) Q) → J β (p >>= q) Q

theorem Judgement.mapM {J : ∀ α : Type, Mapping α → (α → Prop) → Prop} (hJ : Judgement J) {f : α → Mapping β}
    (hf : ∀ a, J β (f a) Q) (as : List α) : J (List β) (as.mapM f) fun bs => ∀ b ∈ bs, Q b := by
  induction as with
  | nil => exact hJ.pure (List.forall_mem_nil _)
  | cons a rest ih =>
    rw [List.mapM_cons]
    exact hJ.bind (hf a) fun b hb => hJ.bind ih fun bs hbs => hJ.pure (List.forall_mem_cons.2 ⟨hb, hbs⟩)

def Yields (p : Mapping α) (P : α → Prop) : Prop := ∀ s a t, p.run s = (.ok a, t) → P a

theorem Yields.any : p.Yields fun _ => True := fun _ _ _ _ => trivial

theorem Yields.bind (hp : p.Yields P) (hq : ∀ a, P a → (q a).Yields Q) : (p >>= q).Yields Q := by
  intro s b t hrun
  obtain ⟨a, u, ha, hb⟩ := of_bind hrun
  exact hq a (hp s a u ha) u b t hb

theorem yields_judgement : Judgement fun _ p P => p.Yields P where
  pure h _ _ _ hrun := (of_pure hrun).1 ▸ h
  misuse _ _ _ _ hrun := (of_misuse hrun).elim
  ofMisuse h _ a _ hrun := h a (of_ofMisuse hrun)
  bind := .bind

/-- A judgement on the course of computations alone, kept together with what they give. -/
theorem judgement_of_course {K : ∀ α : Type, Mapping α → Prop} (hpure : ∀ {α : Type} (a : α), K α (pure a))
    (hmisuse : ∀ {α : Type} (m : Misuse), K α (misuse m)) (hofMisuse : ∀ {α : Type} (x : Except Misuse α), K α (ofMisuse x))
    (hbind : ∀ {α β : Type} {p : Mapping α} {q : α → Mapping β}, K α p →
      (∀ a, (∃ s t, p.run s = (.ok a, t)) → K β (q a)) → K β (p >>= q)) :
    Judgement fun α p P => K α p ∧ p.Yields P where
  pure h := ⟨hpure _, yields_judgement.pure h⟩
  misuse m := ⟨hmisuse m, yields_judgement.misuse m⟩
  ofMisuse h := ⟨hofMisuse _, yields_judgement.ofMisuse h⟩
  bind hp hq := ⟨hbind hp.1 fun a ⟨s, t, ha⟩ => (hq a (hp.2 s a t ha)).1, hp.2.bind fun a ha => (hq a ha).2⟩

end Mapping

namespace ConditionDocument

open Mapping

def readEquality (schema : Schema) (path : String) (v : Value) : Mapping Condition := do
  let v ← inStoredForm schema path v
  return .comparePath (← Mapping.ofMisuse (DocumentPath.parse path)) .eq v

inductive LeafOn (p : DocumentPath) : Condition → Prop
  | compare {o : Operand} (ho : o = .path p ∨ o = .size p) (op : Comparison) (v : Value) :
    LeafOn p (.compare o op (.literal v))
  | isIn {o : Operand} (ho : o = .path p ∨ o = .size p) {vs : List Value} (hne : vs ≠ []) :
    LeafOn p (.isIn o (vs.map .literal))
  | between {o : Operand} (ho : o = .path p ∨ o = .size p) (low high : Value) :
    LeafOn p (.between o (.literal low) (.literal high))
  | function (name : Predicate) (argument : Option Value) : LeafOn p (.function name p (argument.map .literal))

/-- What is to be known for a judgement on all readings: how it is composed, what holds of the parents of entries, of the
paths that are parsed and of the conditions that are given. -/
structure Traversal (schema : Schema) (J : ∀ α : Type, Mapping α → (α → Prop) → Prop) (T : Option String → Prop)
    (R : DocumentPath → Prop) (Q : Condition → Prop) : Prop where
  rules : Judgement J
  below : ∀ {parent key}, T parent → T (some (pathBelow parent key))
  path : ∀ {text p}, T (some text) → DocumentPath.parse text = .ok p → R p
  stored : ∀ {p v}, R p → J Value (inStoredForm schema p.text v) fun _ => True
  equality : ∀ {path v}, T (some path) → J Condition (readEquality schema path v) Q
  leaf : ∀ {p c}, R p → LeafOn p c → Q c
  not : ∀ {c}, Q c → Q (.not c)
  logical : ∀ {op cs}, cs ≠ [] → (∀ c ∈ cs, Q c) → Q (.logical op cs)

variable {schema : Schema} {J : ∀ α : Type, Mapping α → (α → Prop) → Prop} {T : Option String → Prop}
  {R : DocumentPath → Prop} {Q : Condition → Prop} {parent : Option String} {key path : String} {v : Value}
  {p : DocumentPath} {cs : List Condition}

theorem judge_equality (hJ : Judgement J) (hstored : J Value (inStoredForm schema path v) fun _ => True)
    (hpath : ∀ p, DocumentPath.parse path = .ok p → R p) (hleaf : ∀ {p c}, R p → LeafOn p c → Q c) :
    J Condition (readEquality schema path v) Q :=
  hJ.bind hstored fun _ _ => hJ.bind (hJ.ofMisuse hpath) fun _ hp => hJ.pure (hleaf hp (.compare (.inl rfl) _ _))

namespace Traversal

variable (h : Traversal schema J T R Q)

include h

theorem operandPath (hparent : T parent) : J DocumentPath (operandPath parent key) R := by
  cases parent with
  | none => exact h.rules.misuse _
  | some text => exact h.rules.ofMisuse fun p hp => h.path hparent hp

theorem candidates : J (List Operand) (candidates parent v) fun os => ∃ vs : List Value, vs ≠ [] ∧ os = vs.map .literal := by
  unfold ConditionDocument.candidates
  split
  · split
    · exact h.rules.misuse _
    · rename_i items hne
      simp only [Bool.or_eq_true, not_or, List.isEmpty_iff] at hne
      exact h.rules.pure ⟨items, hne.1, rfl⟩
  · exact h.rules.misuse _

theorem isIn {o : Operand} (hp : R p) (ho : o = .path p ∨ o = .size p) {os : List Operand}
    (hos : ∃ vs : List Value, vs ≠ [] ∧ os = vs.map .literal) : Q (.isIn o os) := by
  obtain ⟨vs, hne, rfl⟩ := hos
  exact h.leaf hp (.isIn ho hne)

theorem sizeEntry (hp : R p) : J Condition (sizeEntry parent p key v) Q := by
  unfold ConditionDocument.sizeEntry
  split
  · exact h.rules.pure (h.leaf hp (.compare (.inr rfl) _ _))
  · exact h.rules.bind h.candidates fun os hos => h.rules.pure (h.isIn hp (.inr rfl) hos)
  · split
    · split
      · exact h.rules.pure (h.leaf hp (.between (.inr rfl) _ _))
      · exact h.rules.misuse _
    · exact h.rules.misuse _
  · exact h.rules.misuse _

theorem conjunction (hcs : ∀ c ∈ cs, Q c) : ∀ c ∈ conjunction cs, Q c := by
  intro c hc
  rcases cs with _ | ⟨d, _ | ⟨e, rest⟩⟩
  · cases hc
  · cases hc
    exact hcs _ List.mem_cons_self
  · cases hc
    exact h.logical (List.cons_ne_nil _ _) hcs

theorem sizeCondition (hparent : T parent) : J Condition (sizeCondition parent v) Q := by
  rw [ConditionDocument.sizeCondition]
  refine h.rules.bind (h.operandPath hparent) fun p hp => ?_
  split
  · refine h.rules.bind (h.rules.mapM (fun e => h.sizeEntry hp) _) fun cs hcs => ?_
    split
    · rename_i c hc
      exact h.rules.pure (h.conjunction hcs c hc)
    · exact h.rules.misuse _
  · exact h.rules.pure (h.leaf hp (.compare (.inr rfl) _ _))

theorem function {name : Predicate} {argument : Option Value} (hparent : T parent) :
    J Condition (function parent key name argument) Q :=
  h.rules.bind (h.operandPath hparent) fun _ hp => h.rules.pure (h.leaf hp (.function name argument))

theorem readLeaf (hparent : T parent) : J Condition (ConditionDocument.leaf schema parent key v) Q := by
  rw [ConditionDocument.leaf]
  split
  · exact h.equality (h.below hparent)
  · exact h.rules.misuse _
  · split <;> exact h.rules.misuse _
  · exact h.rules.bind (h.operandPath hparent) fun p hp => h.rules.bind (h.stored hp) fun w _ =>
      h.rules.pure (h.leaf hp (.compare (.inl rfl) _ _))
  · exact h.rules.bind (h.operandPath hparent) fun p hp => h.rules.bind (h.stored hp) fun w _ =>
      h.rules.bind h.candidates fun os hos => h.rules.pure (h.isIn hp (.inl rfl) hos)
  · refine h.rules.bind (h.operandPath hparent) fun p hp => h.rules.bind (h.stored hp) fun w _ => ?_
    split
    · split
      · exact h.rules.misuse _
      · exact h.rules.pure (h.leaf hp (.between (.inl rfl) _ _))
    · exact h.rules.misuse _
  · exact h.sizeCondition hparent
  · exact h.function hparent
  · exact h.function hparent
  · exact h.function hparent
  · exact h.rules.bind (h.rules.ofMisuse fun _ _ => trivial) fun _ (_ : True) => h.function hparent
  · exact h.rules.misuse _

omit h

end Traversal

mutual

theorem Traversal.read (h : Traversal schema J T R Q) : ∀ (doc : Value) {parent : Option String}, T parent →
    J (Option Condition) (read schema parent doc) fun o => ∀ c ∈ o, Q c
  | .map entries, parent, hparent => by
    rw [ConditionDocument.read]
    exact h.rules.bind (h.readEntries entries hparent) fun cs hcs => h.rules.pure (h.conjunction hcs)
  | .undefined, _, _ | .null, _, _ => h.rules.pure (by simp)
  | .bool _, _, _ | .number _, _, _ | .bigInt _, _, _ | .string _, _, _ | .binary _, _, _ | .date _, _, _
  | .list _, _, _ | .set _, _, _ => h.rules.misuse _

theorem Traversal.readEntries (h : Traversal schema J T R Q) :
    ∀ (entries : List (String × Value)) {parent : Option String}, T parent →
      J (List Condition) (readEntries schema parent entries) fun cs => ∀ c ∈ cs, Q c
  | [], parent, _ => by
    rw [ConditionDocument.readEntries]
    exact h.rules.pure (List.forall_mem_nil _)
  | (key, v) :: rest, parent, hparent => by
    rw [ConditionDocument.readEntries]
    exact h.rules.bind (h.readEntry v key hparent) fun c hc => h.rules.bind (h.readEntries rest hparent) fun cs hcs =>
      h.rules.pure (List.forall_mem_cons.2 ⟨hc, hcs⟩)

theorem Traversal.readEntry (h : Traversal schema J T R Q) : ∀ (v : Value) (key : String) {parent : Option String},
    T parent → J Condition (readEntry schema parent key v) Q
  | .map entries, key, parent, hparent => by
    rw [ConditionDocument.readEntry]
    split
    · refine h.rules.bind (h.readEntries entries (h.below hparent)) fun cs hcs => ?_
      split
      · rename_i c hc
        exact h.rules.pure (h.conjunction hcs c hc)
      · exact h.rules.misuse _
    · refine h.rules.bind (h.readEntries entries hparent) fun cs hcs => ?_
      split
      · rename_i c hc
        exact h.rules.pure (h.not (h.conjunction hcs c hc))
      · exact h.rules.misuse _
    · exact h.readLeaf hparent
  | .list items, key, parent, hparent => by
    rw [ConditionDocument.readEntry]
    split
    · refine h.rules.bind (h.readItems items _ hparent) fun cs hcs => ?_
      split
      · exact h.rules.misuse _
      · rename_i hne
        exact h.rules.pure (h.logical (by simpa using hne) hcs)
    · exact h.readLeaf hparent
  | .undefined, _, _, _ => h.rules.misuse _
  | .null, _, _, hparent | .bool _, _, _, hparent | .number _, _, _, hparent | .bigInt _, _, _, hparent
  | .string _, _, _, hparent | .binary _, _, _, hparent | .date _, _, _, hparent | .set _, _, _, hparent =>
    h.readLeaf hparent

theorem Traversal.readItems (h : Traversal schema J T R Q) : ∀ (items : List Value) (op : Connective)
    {parent : Option String}, T parent → J (List Condition) (readItems schema parent op items) fun cs => ∀ c ∈ cs, Q c
  | [], op, parent, _ => by
    rw [ConditionDocument.readItems]
    exact h.rules.pure (List.forall_mem_nil _)
  | v :: rest, op, parent, hparent => by
    rw [ConditionDocument.readItems]
    refine h.rules.bind (h.read v hparent) fun o ho => ?_
    split
    · exact h.rules.bind (h.readItems rest op hparent) fun cs hcs =>
        h.rules.pure (List.forall_mem_cons.2 ⟨ho _ rfl, hcs⟩)
    · exact h.rules.misuse _

end

end ConditionDocument

end ItemMapper
