import ItemMapper.Proofs.Outcomes
import ItemMapper.Proofs.Positions
import ItemMapper.Schema.Compile

/-!
# Compiled nodes

What declarations compile to: only top-level scalars that can be keys belong to indexes, no item of a list is
required, and sets hold texts, numbers or bytes, wherever they stand.
-/

namespace ItemMapper

namespace Node

def children : Node → List Node
  | object _ fields _ => fields.map Prod.snd
  | list _ items => [items]
  | set _ items => [items]
  | union _ variants => variants
  | _ => []

def belongs (n : Node) : Bool := n.modifiers.memberships.any

structure Composed (n : Node) : Prop where
  apart : ∀ u ∈ n.children, u.belongs = false
  optional : ∀ m items, n = list m items → items.required = false
  members : ∀ m items, n = set m items → items.isMemberNode = true

def HoldsMembers (n : Node) : Prop := ∀ m items, n = set m items → items.isMemberNode = true

def Placed (top : Bool) (n : Node) : Prop :=
  n.belongs = true → top = true ∧ ∃ m k, n = scalar m k ∧ k.canBeKey = true

variable {n u : Node} {path : String} {top : Bool} {m : Modifiers} {Q : Node → Prop}

theorem Throughout.child (h : n.Throughout Q) (hu : u ∈ n.children) : u.Throughout Q := by
  cases n with
  | object m fields isOpen =>
    obtain ⟨f, hf, rfl⟩ := List.mem_map.1 hu
    exact h.field hf
  | list m items => exact List.mem_singleton.1 hu ▸ h.item
  | set m items => exact List.mem_singleton.1 hu ▸ h.member
  | union m variants => exact h.variant hu
  | _ => cases hu

theorem throughout_iff : n.Throughout Q ↔ Q n ∧ ∀ u ∈ n.children, u.Throughout Q := by
  refine ⟨fun h => ⟨h.self, fun u hu => h.child hu⟩, fun h => ?_⟩
  obtain ⟨hn, hchildren⟩ := h
  cases n with
  | object m fields isOpen =>
    rw [Throughout]
    exact ⟨hn, fieldsThroughout_iff.2 fun f hf => hchildren f.2 (List.mem_map_of_mem hf)⟩
  | list m items =>
    rw [Throughout]
    exact ⟨hn, hchildren items (List.mem_singleton_self _)⟩
  | set m items =>
    rw [Throughout]
    exact ⟨hn, hchildren items (List.mem_singleton_self _)⟩
  | union m variants =>
    rw [Throughout]
    exact ⟨hn, variantsThroughout_iff.2 hchildren⟩
  | _ => exact hn

theorem induct_children {P : Node → Prop} (step : ∀ n, (∀ u ∈ n.children, P u) → P n) (n : Node) : P n := by
  induction n with
  | object m fields isOpen ih =>
    apply step
    intro u hu
    obtain ⟨f, hf, rfl⟩ := List.mem_map.1 hu
    exact ih f hf
  | list m items ih => exact step _ fun u hu => List.mem_singleton.1 hu ▸ ih
  | set m items ih => exact step _ fun u hu => List.mem_singleton.1 hu ▸ ih
  | union m variants ih => exact step _ ih
  | _ => exact step _ fun u hu => by cases hu

/-- What holds throughout a node also does so throughout each node inside. -/
theorem Throughout.throughout (h : n.Throughout Q) : n.Throughout fun u => u.Throughout Q := by
  induction n using induct_children with
  | step n ih => exact throughout_iff.2 ⟨h, fun u hu => ih u hu (h.child hu)⟩

theorem children_withModifiers : (n.withModifiers m).children = n.children := by
  cases n <;> rfl

theorem Composed.withModifiers (h : n.Composed) : (n.withModifiers m).Composed where
  apart u hu := h.apart u (children_withModifiers ▸ hu)
  optional m' items he := by
    cases n with
    | list m₀ items₀ =>
      cases he
      exact h.optional m₀ items rfl
    | _ => cases he
  members m' items he := by
    cases n with
    | set m₀ items₀ =>
      cases he
      exact h.members m₀ items rfl
    | _ => cases he

theorem Throughout.withModifiers (h : n.Throughout Composed) : (n.withModifiers m).Throughout Composed := by
  rw [throughout_iff, children_withModifiers]
  exact ⟨h.self.withModifiers, (throughout_iff.1 h).2⟩

theorem composed_of_no_items (hu : ∀ u ∈ n.children, u.belongs = false) (hl : ∀ m items, n ≠ list m items)
    (hs : ∀ m items, n ≠ set m items) : n.Composed :=
  ⟨hu, fun m items he => absurd he (hl m items), fun m items he => absurd he (hs m items)⟩

theorem composed_of_leaf (h : n.children = []) : n.Throughout Composed := by
  have hself : n.Composed := by
    refine ⟨by simp [h], ?_, ?_⟩ <;>
    · rintro m items rfl
      cases h
  exact throughout_iff.2 ⟨hself, by simp [h]⟩

theorem of_checkMemberships (h : checkMemberships path top u = .ok n) : n = u ∧ n.Placed top := by
  rw [checkMemberships.eq_def] at h
  by_cases hm : u.modifiers.memberships.any = true
  case neg =>
    rw [if_neg hm] at h
    cases h
    exact ⟨rfl, fun hb => absurd hb hm⟩
  rw [if_pos hm] at h
  cases top with
  | false => cases h
  | true =>
    cases u with
    | scalar m k =>
      simp only [Bool.not_true, Bool.false_eq_true, if_false] at h
      split at h
      · cases h
        exact ⟨rfl, fun _ => ⟨rfl, m, k, rfl, ‹_›⟩⟩
      · cases h
    | _ => cases h

structure Compiled (top : Bool) (n : Node) : Prop where
  composed : n.Throughout Composed
  placed : n.Placed top

theorem Compiled.apart (h : n.Compiled false) : n.belongs = false := by
  cases hn : n.belongs with
  | false => rfl
  | true => cases (h.placed hn).1

theorem compiled_of_checkMemberships (h : checkMemberships path top u = .ok n) (hu : u.Throughout Composed) :
    n.Compiled top := by
  obtain ⟨rfl, hplaced⟩ := of_checkMemberships h
  exact ⟨hu, hplaced⟩

theorem composed_object {fields : List (String × Node)} {isOpen : Bool} (h : ∀ f ∈ fields, f.2.Compiled false) :
    (object m fields isOpen).Throughout Composed := by
  have hchildren : ∀ u ∈ (object m fields isOpen).children, u.Compiled false := by
    intro u hu
    obtain ⟨f, hf, rfl⟩ := List.mem_map.1 hu
    exact h f hf
  exact throughout_iff.2 ⟨composed_of_no_items (fun u hu => (hchildren u hu).apart) (by simp) (by simp),
    fun u hu => (hchildren u hu).composed⟩

theorem composed_union {variants : List Node} (h : ∀ n ∈ variants, n.Compiled false) :
    (union m variants).Throughout Composed :=
  throughout_iff.2 ⟨composed_of_no_items (fun u hu => (h u hu).apart) (by simp) (by simp),
    fun u hu => (h u hu).composed⟩

theorem belongs_withRequired {flag : Bool} : (n.withRequired flag).belongs = n.belongs := by
  cases n <;> rfl

theorem required_withRequired {flag : Bool} : (n.withRequired flag).required = flag := by
  cases n <;> rfl

theorem Compiled.withRequired {flag : Bool} (h : n.Compiled false) : (n.withRequired flag).Compiled false where
  composed := h.composed.withModifiers
  placed hb := by
    rw [belongs_withRequired, h.apart] at hb
    cases hb

theorem composed_list (h : n.Compiled false) (hr : n.required = false) : (list m n).Throughout Composed := by
  refine throughout_iff.2 ⟨⟨?_, ?_, by simp⟩, ?_⟩
  · exact fun u hu => List.mem_singleton.1 hu ▸ h.apart
  · rintro _ _ ⟨⟩
    exact hr
  · exact fun u hu => List.mem_singleton.1 hu ▸ h.composed

theorem composed_setOf (hu : u.Compiled false) (h : setOf m path u = .ok n) : n.Throughout Composed := by
  rw [setOf] at h
  split at h
  · rename_i hmember
    cases h
    refine throughout_iff.2 ⟨⟨?_, by simp, ?_⟩, ?_⟩
    · exact fun v hv => List.mem_singleton.1 hv ▸ hu.apart
    · rintro _ _ ⟨⟩
      exact hmember
    · exact fun v hv => List.mem_singleton.1 hv ▸ hu.composed
  · cases h

theorem composed_ofTag {t : BaseType} (h : ofTag m path t = .ok n) : n.Throughout Composed ∧ n.modifiers = m := by
  cases t with
  | array =>
    cases h
    exact ⟨composed_list ⟨composed_of_leaf rfl, fun hb => by cases hb⟩ rfl, rfl⟩
  | set => cases h
  | _ =>
    cases h
    exact ⟨composed_of_leaf rfl, rfl⟩

theorem compiled_of_checked {α : Type} {p : Except Misuse α} {f : α → Node}
    (h : (p >>= fun a => checkMemberships path top (f a)) = .ok n) (hp : ∀ a, p = .ok a → (f a).Throughout Composed) :
    n.Compiled top := by
  obtain ⟨a, ha, h⟩ := Outcome.of_bind h
  exact compiled_of_checkMemberships h (hp a ha)

theorem variantsOfDecls_cons {d : FieldDeclaration} {rest : List FieldDeclaration} {ns : List Node}
    (h : variantsOfDecls path (d :: rest) = .ok ns) : ∃ u us, ofDecl path false d = .ok u ∧
      variantsOfDecls path rest = .ok us ∧ (ns = u :: us ∨ ns = u.withRequired false :: us) := by
  rw [variantsOfDecls] at h
  obtain ⟨u, hu, h⟩ := Outcome.of_bind h
  obtain ⟨us, hus, h⟩ := Outcome.of_bind h
  refine ⟨u, us, hu, hus, ?_⟩
  cases h
  split
  · exact .inr rfl
  · exact .inl rfl

theorem fieldsOfDecls_cons {name : String} {d : FieldDeclaration} {rest : List (String × FieldDeclaration)}
    {fs : List (String × Node)} (h : fieldsOfDecls path ((name, d) :: rest) = .ok fs) :
    ∃ u us, ofDecl (path ++ "." ++ name) false d = .ok u ∧ fieldsOfDecls path rest = .ok us ∧ fs = (name, u) :: us := by
  rw [fieldsOfDecls] at h
  obtain ⟨u, hu, h⟩ := Outcome.of_bind h
  obtain ⟨us, hus, h⟩ := Outcome.of_bind h
  cases h
  exact ⟨u, us, hu, hus, rfl⟩

theorem ofDecl_tag_compiled {t : BaseType} (h : ofDecl path top (.tag t) = .ok n) : n.Compiled top := by
  rw [ofDecl] at h
  split at h
  · cases h
    exact ⟨composed_of_leaf rfl, fun hb => by cases hb⟩
  · obtain ⟨hcomposed, hm⟩ := composed_ofTag h
    exact ⟨hcomposed, fun hb => by rw [belongs, hm] at hb; cases hb⟩

theorem ofDecl_compiled {d : FieldDeclaration} : ∀ n, ofDecl path top d = .ok n → n.Compiled top := by
  refine ofDecl.induct
    (motive_1 := fun path top d => ∀ n, ofDecl path top d = .ok n → n.Compiled top)
    (motive_2 := fun path fields => ∀ fs, fieldsOfDecls path fields = .ok fs → ∀ f ∈ fs, f.2.Compiled false)
    (motive_3 := fun path ds => ∀ ns, variantsOfDecls path ds = .ok ns → ∀ n ∈ ns, n.Compiled false)
    ?openObject ?tag ?noVariants ?variants ?noTypedVariants ?typedVariants ?object ?array ?set ?other ?noneLeft
    ?moreVariants ?noFields ?moreFields path top d
  case openObject => exact fun path top n h => ofDecl_tag_compiled h
  case tag => exact fun path top t _ n h => ofDecl_tag_compiled h
  case noVariants =>
    intro path top variants hempty n h
    rw [ofDecl, if_pos hempty] at h
    cases h
  case variants =>
    intro path top variants hempty ih n h
    rw [ofDecl, if_neg hempty] at h
    obtain ⟨ns, hns, rfl⟩ := Outcome.of_map h
    exact ⟨composed_union (ih ns hns), fun hb => by cases hb⟩
  case noTypedVariants =>
    intro path top variants m hempty n h
    rw [ofDecl, if_pos hempty] at h
    cases h
  case typedVariants =>
    intro path top variants m hempty ih n h
    rw [ofDecl, if_neg hempty] at h
    exact compiled_of_checked h fun ns hns => composed_union (ih ns hns)
  case object =>
    intro path top fields items isOpen m ih n h
    rw [ofDecl] at h
    exact compiled_of_checked h fun fs hfs => composed_object (ih fs hfs)
  case array =>
    intro path top fields items isOpen m ih n h
    rw [ofDecl] at h
    exact compiled_of_checked h fun u hu => composed_list (ih u hu).withRequired required_withRequired
  case set =>
    intro path top fields items isOpen m ih n h
    rw [ofDecl] at h
    obtain ⟨u, hu, h⟩ := Outcome.of_bind h
    exact compiled_of_checked h fun s hs => composed_setOf (ih u hu) hs
  case other =>
    intro path top t fields items isOpen m _ _ _ n h
    rw [ofDecl.eq_def] at h
    simp only at h
    exact compiled_of_checked h fun u hu => (composed_ofTag hu).1
  case noneLeft =>
    rintro path _ ⟨⟩
    simp
  case moreVariants =>
    intro path d rest ihd ihrest ns h
    obtain ⟨u, us, hu, hus, rfl | rfl⟩ := variantsOfDecls_cons h
    · exact List.forall_mem_cons.2 ⟨ihd u hu, ihrest us hus⟩
    · exact List.forall_mem_cons.2 ⟨(ihd u hu).withRequired, ihrest us hus⟩
  case noFields =>
    rintro path _ ⟨⟩
    simp
  case moreFields =>
    intro path name d rest ihd ihrest fs h
    obtain ⟨u, us, hu, hus, rfl⟩ := fieldsOfDecls_cons h
    exact List.forall_mem_cons.2 ⟨ihd u hu, ihrest us hus⟩

theorem Throughout.none_belongs (h : n.Throughout Composed) (hn : n.belongs = false) :
    n.Throughout fun u => u.belongs = false := by
  induction n using induct_children with
  | step n ih => exact throughout_iff.2 ⟨hn, fun u hu => ih u hu (h.child hu) (h.self.apart u hu)⟩

end Node

namespace Schema

variable {decl : SchemaDeclaration} {s : Schema} {fields : List (String × Node)}

theorem fieldsOf_compiled (h : fieldsOf decl = .ok fields) : ∀ f ∈ fields, f.2.Compiled true := by
  induction decl generalizing fields with
  | nil =>
    cases h
    simp
  | cons d rest ih =>
    rw [fieldsOf] at h
    obtain ⟨n, hn, h⟩ := Outcome.of_bind h
    obtain ⟨fs, hfs, h⟩ := Outcome.of_bind h
    cases h
    exact List.forall_mem_cons.2 ⟨Node.ofDecl_compiled n hn, ih hfs⟩

end Schema

end ItemMapper
