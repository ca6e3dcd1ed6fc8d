import ItemMapper.Proofs.KeyFields
import ItemMapper.Proofs.Picks
import ItemMapper.Proofs.ReachedPositions
import ItemMapper.Proofs.Validated

/-!
# Called validators

The last phase of validation calls the validators of the positions that a value is led to. A union leaves it to its
variant, so its own validator is never called.
-/

namespace ItemMapper

namespace Position

variable {choose : Chooser} {members : Bool} {x y : Position} {Q : Node → Prop}

def validator? (x : Position) : Option Validator := if x.node.isUnion then none else x.node.modifiers.validator

theorem validator?_eq_some_iff {f : Validator} :
    x.validator? = some f ↔ x.node.isUnion = false ∧ x.node.modifiers.validator = some f := by
  rw [validator?]
  cases x.node.isUnion <;> simp

def call (f : Validator) (x : Position) : Call := ⟨f.tag, [x.value]⟩

theorem reaches_iff : x.Reaches choose members y ↔ y = x ∨ ∃ z ∈ x.next choose members, z.Reaches choose members y := by
  rw [Reaches, Relation.ReflTransGen.cases_head_iff, eq_comm]

theorem Reaches.throughout (h : x.Reaches choose members y) (hx : x.node.Throughout Q) : y.node.Throughout Q := by
  induction h with
  | refl => exact hx
  | tail _ hstep ih => exact ih.child (next_children hstep)

theorem reaches_of_next_eq_nil (h : x.next choose members = []) : x.Reaches choose members y ↔ y = x := by
  rw [reaches_iff, h]
  simp

end Position

/-- The validators that are called, each with its position. They are those of all positions that have a value, and
there is an objection exactly if one of them objects. -/
structure Heard (At : Position → Prop) (found : List (String × Violation)) (heard : List (Position × Validator)) :
    Prop where
  source : ∀ h ∈ heard, At h.1 ∧ h.1.validator? = some h.2
  complete : ∀ x f, At x → x.value.isUndefined = false → x.validator? = some f → (x, f) ∈ heard
  quiet : found = [] ↔ ∀ h ∈ heard, h.2.run h.1.value = none

def Heard.calls (heard : List (Position × Validator)) : List Call := heard.map fun h => h.1.call h.2

namespace Passing

variable {t : Picks} {p q : Passing (List (String × Violation))} {A B : Position → Prop} {x : Position}

/-- A pass that calls validators and finds their objections, as far as the table holds the picks that it makes. -/
structure Hears (t : Picks) (p : Passing (List (String × Violation))) (At : Position → Prop) : Prop where
  grows : p.Grows
  heard : ∀ s, (p s).2.picks <+: t → ∃ heard, (p s).2.calls = s.calls ++ Heard.calls heard ∧ Heard At (p s).1 heard

theorem Hears.congr (h : Hears t p A) (hab : ∀ x, x.validator?.isSome = true → (A x ↔ B x)) : Hears t p B where
  grows := h.grows
  heard s hs := by
    obtain ⟨heard, hcalls, hheard⟩ := h.heard s hs
    refine ⟨heard, hcalls, ?_, ?_, hheard.quiet⟩
    · intro c hc
      obtain ⟨ha, hf⟩ := hheard.source c hc
      exact ⟨(hab c.1 (by simp [hf])).1 ha, hf⟩
    · intro x f hx hv hf
      exact hheard.complete x f ((hab x (by simp [hf])).2 hx) hv hf

theorem Hears.nothing (h : ∀ x, A x → x.value.isUndefined = true ∨ x.validator? = none) : Hears t (pure []) A where
  grows := Grows.pure
  heard s _ := by
    refine ⟨[], (List.append_nil _).symm, by simp, ?_, by simp [pure_apply]⟩
    intro x f hx hv hf
    rcases h x hx with hundefined | hnone
    · cases hundefined.symm.trans hv
    · cases hnone.symm.trans hf

theorem Hears.append (hp : Hears t p A) (hq : Hears t q B) :
    Hears t (p >>= fun a => q >>= fun b => pure (a ++ b)) fun x => A x ∨ B x where
  grows := hp.grows.bind fun _ => hq.grows.bind fun _ => Grows.pure
  heard s hs := by
    rw [bind_apply, bind_apply] at hs ⊢
    obtain ⟨first, hfirst, ha⟩ := hp.heard s ((hq.grows _).trans hs)
    obtain ⟨second, hsecond, hb⟩ := hq.heard (p s).2 hs
    refine ⟨first ++ second, ?_, ?_, ?_, ?_⟩
    · rw [Heard.calls, List.map_append, ← List.append_assoc, ← Heard.calls, ← hfirst]
      exact hsecond
    · intro c hc
      rcases List.mem_append.1 hc with hc | hc
      · exact (ha.source c hc).imp_left .inl
      · exact (hb.source c hc).imp_left .inr
    · intro x f hx hv hf
      rcases hx with hx | hx
      · exact List.mem_append_left _ (ha.complete x f hx hv hf)
      · exact List.mem_append_right _ (hb.complete x f hx hv hf)
    · rw [List.forall_mem_append, ← ha.quiet, ← hb.quiet]
      exact List.append_eq_nil_iff

theorem Hears.flatten {α : Type} {f : α → Passing (List (String × Violation))} {A : α → Position → Prop} {xs : List α}
    (h : ∀ x ∈ xs, Hears t (f x) (A x)) :
    Hears t (xs.mapM f >>= fun inner => pure inner.flatten) fun y => ∃ x ∈ xs, A x y := by
  induction xs with
  | nil => exact Hears.nothing (by simp)
  | cons x rest ih =>
    have hrest := ih fun z hz => h z (List.mem_cons_of_mem _ hz)
    have hall := (Hears.append (h x List.mem_cons_self) hrest).congr fun y _ =>
      (List.exists_mem_cons_iff (fun z => A z y) x rest).symm
    simpa only [List.mapM_cons, bind_assoc, pure_bind, List.flatten_cons] using hall

theorem Hears.objection {path : String} (x : Position) (hx : x.node.isUnion = false) :
    Hears t (Node.objection x.node.modifiers path x.value) fun y => y = x where
  grows := by
    rw [Node.objection]
    split
    · refine (Grows.record _).bind fun message => ?_
      split <;> exact Grows.pure
    · exact Grows.pure
  heard s _ := by
    have hvalidator : x.validator? = x.node.modifiers.validator := by simp [Position.validator?, hx]
    rw [Node.objection]
    cases hf : x.node.modifiers.validator with
    | none =>
      refine ⟨[], (List.append_nil _).symm, by simp, ?_, by simp [pure_apply]⟩
      intro y g hy _ hg
      rw [hy] at hg
      cases (hvalidator.trans hf).symm.trans hg
    | some f =>
      refine ⟨[(x, f)], ?_, ?_, ?_, ?_⟩
      · cases hr : f.run x.value <;>
          simp [bind_apply, pure_apply, record, Callback.objection, hr, Heard.calls, Position.call]
      · intro c hc
        rw [List.mem_singleton.1 hc]
        exact ⟨rfl, hvalidator.trans hf⟩
      · intro y g hy _ hg
        rw [hy] at hg ⊢
        obtain rfl : f = g := Option.some.inj ((hvalidator.trans hf).symm.trans hg)
        exact List.mem_singleton_self _
      · cases hr : f.run x.value <;> simp [bind_apply, pure_apply, record, Callback.objection, hr]

theorem Hears.node {path : String} (x : Position) (hx : x.node.isUnion = false)
    (hq : Hears t q fun y => ∃ z ∈ x.next t.resolver true, z.Reaches t.resolver true y) :
    Hears t (Node.objection x.node.modifiers path x.value >>= fun own => q >>= fun inner => pure (own ++ inner))
      (x.Reaches t.resolver true) :=
  ((Hears.objection x hx).append hq).congr fun _ _ => Position.reaches_iff.symm

theorem Hears.elements {path : String} (x : Position) (hx : x.node.isUnion = false) {elements : List Value}
    {items : Node} {f : Value × Nat → Passing (List (String × Violation))}
    (hnext : x.next t.resolver true = elements.zipIdx.map fun e => Position.place (elementPath x.path e.2) e.1 items)
    (hf : ∀ e, Hears t (f e) ((Position.place (elementPath x.path e.2) e.1 items).Reaches t.resolver true)) :
    Hears t (Node.objection x.node.modifiers path x.value >>= fun own => elements.zipIdx.mapM f >>= fun inner =>
      pure (own ++ inner.flatten)) (x.Reaches t.resolver true) := by
  have hbelow : Hears t (elements.zipIdx.mapM f >>= fun inner => pure inner.flatten) fun y =>
      ∃ z ∈ x.next t.resolver true, z.Reaches t.resolver true y := by
    refine (Hears.flatten fun e _ => hf e).congr fun y _ => ?_
    rw [hnext]
    simp
  have hall : Hears t (Node.objection x.node.modifiers path x.value >>= fun own => _) _ := Hears.node x hx hbelow
  simpa only [bind_assoc, pure_bind] using hall

theorem Gives.resolver (key path : String) (variants : List Node) (v : Value) :
    Gives t (Passing.pick key path variants v) (t.resolver key path variants v) := by
  intro s hs
  simp only [Passing.pick, Picks.resolver] at hs ⊢
  split
  · rfl
  · rename_i hv
    rw [if_neg hv] at hs
    cases h : Entries.get? key s.picks with
    | some picked =>
      simp only [h] at hs
      simp [Entries.get?_of_prefix hs h]
    | none =>
      simp only [h, Entries.insert_of_get?_eq_none h] at hs
      simp [Entries.get?_of_prefix hs (Entries.get?_append_self h)]

theorem Hears.pick {key path : String} {variants : List Node} {v : Value}
    {q : Option Nat → Passing (List (String × Violation))} {A : Option Nat → Position → Prop}
    (hq : ∀ place, Hears t (q place) (A place)) :
    Hears t (pick key path variants v >>= q) (A (t.resolver key path variants v)) where
  grows := (Grows.pick _ _ _ _).bind fun place => (hq place).grows
  heard s hs := by
    rw [bind_apply] at hs ⊢
    have hpicked := Gives.resolver key path variants v s (((hq _).grows _).trans hs)
    obtain ⟨heard, hnew, hheard⟩ := (hq _).heard _ hs
    have hcalls : (Passing.pick key path variants v s).2.calls = s.calls := by
      rw [Passing.pick]
      split
      · rfl
      · split <;> rfl
    rw [hpicked] at hheard
    exact ⟨heard, hcalls ▸ hnew, by rwa [hpicked]⟩

theorem Hears.last {path : String} (x : Position) (hx : x.node.isUnion = false) (hnext : x.next t.resolver true = []) :
    Hears t (Node.objection x.node.modifiers path x.value) (x.Reaches t.resolver true) :=
  (Hears.objection x hx).congr fun _ _ => (Position.reaches_of_next_eq_nil hnext).symm

theorem Hears.absent (x : Position) (hx : x.value.isUndefined = true) :
    Hears t (pure []) (x.Reaches t.resolver true) := by
  apply Hears.nothing
  intro y hy
  rw [Position.reaches_of_next_eq_nil (Position.next_of_undefined hx)] at hy
  exact .inl (hy ▸ hx)

theorem Hears.leaf {path : String} (x : Position) (hx : x.node.isUnion = false) (hnext : x.next t.resolver true = []) :
    Hears t (if x.value.isUndefined then pure [] else Node.objection x.node.modifiers path x.value)
      (x.Reaches t.resolver true) := by
  split
  · exact Hears.absent x ‹_›
  · exact Hears.last x hx hnext

end Passing

namespace Node

open Position (place)

variable {n : Node} {key path : String} {v : Value} {t : Picks} {inUnion : Bool} {fields : List (String × Node)}
  {entries : List (String × Value)} {variants : List Node}

/-- The validators of set items are called, but none below them; there is none to call in sets that hold scalars. -/
def Shallow (n : Node) : Prop := ∀ m items, n = set m items →
  items.isMemberNode = true ∨ items.Throughout fun u => u.modifiers.validator = none

theorem objections_undefined : objections key path .undefined n = pure [] := by
  cases n <;> rfl

theorem fieldObjections_cons {f : String × Node} {rest : List (String × Node)} :
    fieldObjections path entries (f :: rest) =
      objections (memberPath path f.1) (memberPath path f.1) ((Entries.get? f.1 entries).getD .undefined) f.2 >>=
        fun own => fieldObjections path entries rest >>= fun inner => pure (own ++ inner) := by
  rw [fieldObjections]
  cases Entries.get? f.1 entries with
  | none => rw [Option.getD_none, objections_undefined]
  | some v => rfl

theorem fieldObjections_hears (h : ∀ f ∈ fields, ∀ path v, Passing.Hears t (objections path path v f.2)
    ((place path v f.2).Reaches t.resolver true)) : Passing.Hears t (fieldObjections path entries fields) fun y =>
      ∃ f ∈ fields,
        (place (memberPath path f.1) ((Entries.get? f.1 entries).getD .undefined) f.2).Reaches t.resolver true y := by
  induction fields with
  | nil => exact Passing.Hears.nothing (by simp)
  | cons f rest ih =>
    have hrest := ih fun g hg => h g (List.mem_cons_of_mem _ hg)
    rw [fieldObjections_cons]
    refine (Passing.Hears.append (h f List.mem_cons_self _ _) hrest).congr fun y _ => ?_
    simp

theorem variantObjections_eq {i : Nat} : variantObjections key path v i variants =
    atVariant (objections key path v) (pure []) variants i := by
  induction variants generalizing i with
  | nil => rfl
  | cons n rest ih =>
    cases i with
    | zero => rfl
    | succ i => exact ih

theorem member_hears (h : n.isMemberNode = true ∨ n.Throughout fun u => u.modifiers.validator = none) :
    Passing.Hears t (objection n.modifiers path v) ((place key v n).Reaches t.resolver true) := by
  rcases h with h | h
  · cases n with
    | scalar m k => exact Passing.Hears.last (place key v (scalar m k)) rfl rfl
    | _ => cases h
  · rw [objection, h.self]
    refine Passing.Hears.nothing fun y hy => .inr ?_
    have hnone : y.node.modifiers.validator = none := (hy.throughout h).self
    rw [Position.validator?, hnone, ite_self]

theorem objections_hears (hn : n.Throughout Shallow) : Passing.Hears t (objections key path v n)
    ((⟨key, path, v, n, inUnion⟩ : Position).Reaches t.resolver true) := by
  induction n generalizing key path v inUnion with
  | object m fields isOpen ih =>
    rw [objections]
    split
    · exact Passing.Hears.absent ⟨key, path, v, object m fields isOpen, inUnion⟩ ‹_›
    cases v with
    | map entries =>
      refine Passing.Hears.node ⟨key, path, .map entries, object m fields isOpen, inUnion⟩ rfl ?_
      refine (fieldObjections_hears fun f hf path v => ih f hf (hn.field hf)).congr fun y _ => ?_
      simp [Position.next]
    | _ => exact Passing.Hears.last ⟨key, path, _, object m fields isOpen, inUnion⟩ rfl rfl
  | list m items ih =>
    rw [objections]
    split
    · exact Passing.Hears.absent ⟨key, path, v, list m items, inUnion⟩ ‹_›
    cases v with
    | list elements =>
      exact Passing.Hears.elements ⟨key, path, .list elements, list m items, inUnion⟩ rfl rfl fun e => ih hn.item
    | _ => exact Passing.Hears.last ⟨key, path, _, list m items, inUnion⟩ rfl rfl
  | set m items ih =>
    rw [objections]
    split
    · exact Passing.Hears.absent ⟨key, path, v, set m items, inUnion⟩ ‹_›
    cases v with
    | set elements =>
      exact Passing.Hears.elements ⟨key, path, .set elements, set m items, inUnion⟩ rfl rfl fun e =>
        member_hears (hn.self m items rfl)
    | _ => exact Passing.Hears.last ⟨key, path, _, set m items, inUnion⟩ rfl rfl
  | union m variants ih =>
    -- Nothing is called at the union itself, so only what is below it has to be heard.
    have hne {y : Position} (hy : y.validator?.isSome = true) : y ≠ ⟨key, path, v, union m variants, inUnion⟩ := by
      rintro rfl
      cases hy
    rw [objections]
    refine (Passing.Hears.pick (A := fun chosen y => ∃ n, (chosen.bind fun i => variants[i]?) = some n ∧
      (⟨nestedKey key, path, v, n, true⟩ : Position).Reaches t.resolver true y) fun chosen => ?_).congr fun y hy => ?_
    · cases chosen with
      | none => exact Passing.Hears.nothing (by simp)
      | some i =>
        simp only [variantObjections_eq, atVariant]
        cases hi : variants[i]? with
        | none => exact Passing.Hears.nothing (by simp [hi])
        | some n =>
          have hmem := List.mem_of_getElem? hi
          have hinside : Passing.Hears t (objections (nestedKey key) path v n)
              ((⟨nestedKey key, path, v, n, true⟩ : Position).Reaches t.resolver true) := ih n hmem (hn.variant hmem)
          exact hinside.congr fun y _ => by simp [hi]
    · rw [Position.reaches_iff, or_iff_right (hne hy)]
      simp only [Position.next]
      cases (t.resolver key path variants v).bind fun i => variants[i]? <;> simp
  | scalar m k =>
    rw [objections]
    exact Passing.Hears.leaf ⟨key, path, v, scalar m k, inUnion⟩ rfl rfl
  | any m =>
    rw [objections]
    exact Passing.Hears.leaf ⟨key, path, v, any m, inUnion⟩ rfl rfl
  | undefined m =>
    rw [objections]
    exact Passing.Hears.leaf ⟨key, path, v, undefined m, inUnion⟩ rfl rfl

end Node

/-- A run that calls the validators of all nodes but unions, at every position that has a value, and no others. None of
them objects. -/
structure Position.Cleared (root : Position) (s s' : Pass) (heard : List (Position × Validator)) : Prop where
  calls : s'.calls = s.calls ++ Heard.calls heard
  accepts : ∀ h ∈ heard, root.Reaches s'.picks.resolver true h.1 ∧ h.1.node.modifiers.validator = some h.2 ∧
    h.2.run h.1.value = none
  called_iff : ∀ x f, root.Reaches s'.picks.resolver true x → x.value.isUndefined = false →
    x.node.modifiers.validator = some f → ((x, f) ∈ heard ↔ x.node.isUnion = false)

namespace Schema

open Position (place)

variable {decl : SchemaDeclaration} {sch : Schema} {path table : String} {v : Value} {s : Pass}

theorem root_shallow (hdecl : ofDeclaration decl = .ok sch) : sch.root.Throughout Node.Shallow :=
  (root_holdsMembers hdecl).mono fun _ hn m items he => .inl (hn m items he)

/-- Validation of a valid value skips no validator but those that unions have themselves. -/
theorem validate_calls (hdecl : ofDeclaration decl = .ok sch) (hvalid : (sch.root.validate path table v s).1 = none) :
    ∃ heard, (place path v sch.root).Cleared s (sch.root.validate path table v s).2 heard := by
  obtain ⟨s', hcalls, hfound, hend⟩ := Node.objections_of_validate hvalid
  have hhears : Passing.Hears (sch.root.validate path table v s).2.picks (sch.root.objections path path v)
      ((place path v sch.root).Reaches (sch.root.validate path table v s).2.picks.resolver true) :=
    Node.objections_hears (root_shallow hdecl)
  obtain ⟨heard, hadded, hheard⟩ := hhears.heard s' (hend ▸ List.prefix_rfl)
  refine ⟨heard, ?_, ?_, ?_⟩
  · rw [hend, hadded, hcalls]
  · intro h hh
    obtain ⟨hreached, hf⟩ := hheard.source h hh
    exact ⟨hreached, (Position.validator?_eq_some_iff.1 hf).2, hheard.quiet.1 hfound h hh⟩
  · intro x f hx hv hf
    constructor
    · intro hh
      exact (Position.validator?_eq_some_iff.1 (hheard.source _ hh).2).1
    · intro hunion
      exact hheard.complete x f hx hv (Position.validator?_eq_some_iff.2 ⟨hunion, hf⟩)

def noteFields (note text : Modifiers) : SchemaDeclaration :=
  [("id", .typed .string none none false { memberships := { primary := true } }),
    ("note", .typedUnion [.typed .string none none false text, .tag .number] note)]

def notes (note text : Modifiers) : Schema where
  root := .object { required := true } [
    ("id", .scalar { required := true, memberships := { primary := true } } .string),
    ("note", .union note [.scalar text .string, .scalar {} .number])] false
  primaryKey := "id"
  sortKey := none
  attributeDefinitions := [⟨"id", .s⟩]
  localIndexes := []
  globalIndexes := []

def reminder : Value := .map [("id", .string "a"), ("note", .string "call")]

def atMostTen : Modifiers :=
  { validator := some ⟨some "atMostTen", fun v => if 10 < v.text.length then some "too long" else none⟩ }

def refusal : Validator := ⟨some "refusal", fun _ => some "refused"⟩

theorem reminder_calls : ofDeclaration (noteFields {} atMostTen) = .ok (notes {} atMostTen) ∧
    ((notes {} atMostTen).root.validate "" "notes" reminder {}).1 = none ∧
    ((notes {} atMostTen).root.validate "" "notes" reminder {}).2.calls = [⟨some "atMostTen", [.string "call"]⟩] ∧
    ∃ heard, (place "" reminder (notes {} atMostTen).root).Cleared {}
      ((notes {} atMostTen).root.validate "" "notes" reminder {}).2 heard := by
  have hdecl : ofDeclaration (noteFields {} atMostTen) = .ok (notes {} atMostTen) := rfl
  exact ⟨hdecl, rfl, rfl, validate_calls hdecl rfl⟩

/-- A text that the validator of its union would refuse is valid, without a call. -/
theorem refused_reminder_valid : ofDeclaration (noteFields { validator := some refusal } {}) =
      .ok (notes { validator := some refusal } {}) ∧
    ((notes { validator := some refusal } {}).root.validate "" "notes" reminder {}).1 = none ∧
    ((notes { validator := some refusal } {}).root.validate "" "notes" reminder {}).2.calls = [] ∧
    ∃ x, (place "" reminder (notes { validator := some refusal } {}).root).Reaches
        ((notes { validator := some refusal } {}).root.validate "" "notes" reminder {}).2.picks.resolver true x ∧
      x.value.isUndefined = false ∧ x.node.modifiers.validator = some refusal ∧
      refusal.run x.value = some "refused" := by
  refine ⟨rfl, rfl, rfl, place "note" (.string "call")
    (.union { validator := some refusal } [.scalar {} .string, .scalar {} .number]), ?_, rfl, rfl, rfl⟩
  exact Relation.ReflTransGen.single (.tail _ (.head _))

end Schema

end ItemMapper
