import ItemMapper.Proofs.CompiledNodes
import Mathlib.Logic.Relation

/-!
# Reached positions

A value is led to further positions by the objects, lists and sets of its node, and from a union to the variant that
is chosen for it. A phase of validation demands something of the value at each position, and what does not meet the
demand violates the phase there.
-/

namespace ItemMapper

def Picks.resolver (t : Picks) : Chooser := fun key path variants v =>
  if v.isUndefined then none else (Entries.get? key t).getD (Survey.variantOf path v variants)

/-- A value at its node. The key is that of the picks: the path, with a bar for each union right around the node. -/
structure Position where
  key : String
  path : String
  value : Value
  node : Node
  inUnion : Bool

namespace Phase

def Takes (n : Node) (v : Value) : Prop :=
  match n with
  | .any _ => True
  | .union _ variants => ∃ u ∈ variants, u.accepts v = true
  | n => n.accepts v = true

def HasLength (m : Modifiers) (length : Nat) : Prop :=
  (∀ least, m.minLength = some least → least ≤ length) ∧ ∀ greatest, m.maxLength = some greatest → length ≤ greatest

def HasSize (m : Modifiers) (x : Binary64) : Prop :=
  (∀ b, numberBound m.min = some b → x.lt b = false) ∧ ∀ b, numberBound m.max = some b → b.lt x = false

def InTime (n : Node) (ms : Int) : Prop :=
  (∀ t, n.modifiers.min.bind n.millis? = some t → t ≤ ms) ∧ ∀ t, n.modifiers.max.bind n.millis? = some t → ms ≤ t

/-- Texts are bounded by their lengths, numbers by themselves, bytes by their number and dates by their instants. -/
def Bounded (n : Node) (v : Value) : Prop :=
  match n, v with
  | .scalar m .string, .string s => HasLength m s.length
  | .scalar m .number, .number x => HasSize m x
  | .scalar m .number, .bigInt i => HasSize m (.ofInt i)
  | .scalar m .bigInt, .number x => HasSize m x
  | .scalar m .bigInt, .bigInt i => HasSize m (.ofInt i)
  | .scalar m .binary, .binary bytes => HasSize m (.ofInt bytes.length)
  | .scalar m .date, v => ∀ ms, (Node.scalar m .date).millis? v = some ms → InTime (.scalar m .date) ms
  | _, _ => True

/-- What a phase demands of a value at a node. Only the first one demands that there is a value. -/
def Demand (phase : Phase) (n : Node) (v : Value) : Prop :=
  match phase with
  | required => n.required = true → v.isUndefined = false
  | type => v.isUndefined = false → Takes n v
  | enum => v.isUndefined = false → n.modifiers.enumValues = [] ∨ Value.isMember v n.modifiers.enumValues = true
  | range => v.isUndefined = false → Bounded n v
  | custom => True

variable {phase : Phase} {n : Node} {v : Value} {m : Modifiers}

theorem checkType_eq_nil_iff : checkType n v = [] ↔ Takes n v := by
  cases n with
  | any m => simp [checkType, Takes]
  | union m variants => simp [checkType, Takes]
  | _ =>
    simp only [checkType, Takes]
    split
    · simp [*]
    · split <;> simp [*]

theorem checkLength_eq_nil_iff {length : Nat} : checkLength m length = [] ↔ HasLength m length := by
  cases hl : m.minLength <;> cases hg : m.maxLength <;> simp [checkLength, HasLength, hl, hg]

theorem outside_eq_nil_iff {x : Binary64} {below above : String → Violation} :
    outside m x below above = [] ↔ HasSize m x := by
  cases hl : numberBound m.min <;> cases hg : numberBound m.max <;> simp [outside, HasSize, hl, hg]

theorem checkDate_eq_nil_iff : checkDate n v = [] ↔ ∀ ms, n.millis? v = some ms → InTime n ms := by
  cases hv : n.millis? v with
  | none => simp [checkDate, hv]
  | some ms =>
    simp only [checkDate, hv, List.append_eq_nil_iff, Option.some.injEq, forall_eq', InTime]
    refine and_congr ?_ ?_
    · cases n.modifiers.min with
      | none => simp
      | some b => cases ht : n.millis? b <;> simp [ht]
    · cases n.modifiers.max with
      | none => simp
      | some b => cases ht : n.millis? b <;> simp [ht]

theorem checkRange_eq_nil_iff : checkRange n v = [] ↔ Bounded n v := by
  cases n with
  | scalar m k =>
    cases k with
    | date => exact checkDate_eq_nil_iff
    | _ => cases v <;> simp [checkRange, Bounded, checkLength_eq_nil_iff, outside_eq_nil_iff]
  | _ => simp [checkRange, Bounded]

theorem descends_eq_false_iff : phase.descends n v = false ↔ phase = .type ∧ ((∃ m, n = .any m) ∨ ¬ Takes n v) := by
  cases phase with
  | type =>
    cases n with
    | any m => simp [descends]
    | _ => simp [descends, ← checkType_eq_nil_iff]
  | _ => simp [descends]

theorem demand_iff (path : String) : phase.Demand n v ↔ (phase.visits v = true → phase.check n v path = []) := by
  cases phase with
  | required => cases v.isUndefined <;> cases hn : n.required <;> simp [Demand, visits, check, checkRequired, *]
  | type => simp [Demand, visits, check, checkType_eq_nil_iff]
  | enum =>
    simp only [Demand, visits, check, checkEnum, Node.isEnumerated]
    cases v.isUndefined <;> cases Value.isMember v n.modifiers.enumValues <;> simp
  | range => simp [Demand, visits, check, checkRange_eq_nil_iff]
  | custom => simp [Demand, check]

end Phase

namespace Position

variable {choose : Chooser} {members : Bool} {phase : Phase} {x y : Position}

def place (path : String) (v : Value) (n : Node) : Position := ⟨path, path, v, n, false⟩

def next (choose : Chooser) (members : Bool) (x : Position) : List Position :=
  match x.node, x.value with
  | .object _ fields _, .map entries =>
    fields.map fun f => place (memberPath x.path f.1) ((Entries.get? f.1 entries).getD .undefined) f.2
  | .list _ items, .list elements => elements.zipIdx.map fun e => place (elementPath x.path e.2) e.1 items
  | .set _ items, .set elements =>
    if members then elements.zipIdx.map fun e => place (elementPath x.path e.2) e.1 items else []
  | .union _ variants, v =>
    (((choose x.key x.path variants v).bind fun i => variants[i]?).map fun n =>
      ⟨nestedKey x.key, x.path, v, n, true⟩).toList
  | _, _ => []

def Reaches (choose : Chooser) (members : Bool) : Position → Position → Prop :=
  Relation.ReflTransGen fun x y => y ∈ x.next choose members

/-- A union right inside a union stands for its variant only. -/
def Violates (phase : Phase) (x : Position) : Prop :=
  (x.inUnion && x.node.isUnion) = false ∧ ¬ phase.Demand x.node x.value

/-- A violation that a phase comes to. The type phase does not look below a violation. -/
def Reported (choose : Chooser) (phase : Phase) (x y : Position) : Prop :=
  Relation.ReflTransGen (fun x y => y ∈ x.next choose phase.visitsMembers ∧ ¬ (phase = .type ∧ x.Violates .type)) x y ∧
    y.Violates phase

theorem next_children (h : y ∈ x.next choose members) : y.node ∈ x.node.children := by
  obtain ⟨key, path, v, n, inUnion⟩ := x
  cases n with
  | object m fields isOpen =>
    cases v with
    | map entries =>
      obtain ⟨f, hf, rfl⟩ := List.mem_map.1 h
      exact List.mem_map_of_mem hf
    | _ => cases h
  | list m items =>
    cases v with
    | list elements =>
      obtain ⟨e, -, rfl⟩ := List.mem_map.1 h
      exact List.mem_singleton_self _
    | _ => cases h
  | set m items =>
    cases v with
    | set elements =>
      simp only [next] at h
      split at h
      · obtain ⟨e, -, rfl⟩ := List.mem_map.1 h
        exact List.mem_singleton_self _
      · cases h
    | _ => cases h
  | union m variants =>
    obtain ⟨n, hn, rfl⟩ := Option.map_eq_some_iff.1 (Option.mem_toList.1 h)
    obtain ⟨i, -, hn⟩ := Option.bind_eq_some_iff.1 hn
    exact List.mem_of_getElem? hn
  | _ => cases h

theorem next_cases (h : y ∈ x.next choose members) :
    y = place y.path y.value y.node ∨ ∃ m variants i, x.node = .union m variants ∧
      choose x.key x.path variants x.value = some i ∧ variants[i]? = some y.node ∧ y.inUnion = true := by
  obtain ⟨key, path, v, n, inUnion⟩ := x
  cases n with
  | object m fields isOpen =>
    cases v with
    | map entries =>
      obtain ⟨f, -, rfl⟩ := List.mem_map.1 h
      exact .inl rfl
    | _ => cases h
  | list m items =>
    cases v with
    | list elements =>
      obtain ⟨e, -, rfl⟩ := List.mem_map.1 h
      exact .inl rfl
    | _ => cases h
  | set m items =>
    cases v with
    | set elements =>
      cases members with
      | true =>
        obtain ⟨e, -, rfl⟩ := List.mem_map.1 h
        exact .inl rfl
      | false => cases h
    | _ => cases h
  | union m variants =>
    obtain ⟨u, hu, rfl⟩ := Option.map_eq_some_iff.1 (Option.mem_toList.1 h)
    obtain ⟨i, hi, hu⟩ := Option.bind_eq_some_iff.1 hu
    exact .inr ⟨m, variants, i, rfl, hi, hu, rfl⟩
  | _ => cases h

theorem next_mono (h : y ∈ x.next choose members) : y ∈ x.next choose true := by
  cases members with
  | true => exact h
  | false =>
    obtain ⟨key, path, v, n, inUnion⟩ := x
    cases n with
    | set m items => cases v <;> cases h
    | _ => cases v <;> exact h

theorem Reaches.key_eq (hx : y.Reaches choose members x) (hroot : y.key = y.path)
    (hout : x.inUnion = false) : x.key = x.path := by
  cases hx with
  | refl => exact hroot
  | tail _ hnext =>
    rcases next_cases hnext with hplace | ⟨m, variants, i, hunion, hi, hu, hin⟩
    · rw [hplace]
      rfl
    · cases hin.symm.trans hout

theorem next_of_undefined {t : Picks} (hx : x.value.isUndefined = true) : x.next t.resolver members = [] := by
  obtain ⟨key, path, v, n, inUnion⟩ := x
  cases v with
  | undefined => cases n <;> rfl
  | _ => cases hx

theorem reported_iff : x.Reported choose phase y ↔ (y = x ∧ x.Violates phase) ∨
    (¬ (phase = .type ∧ x.Violates .type) ∧ ∃ z ∈ x.next choose phase.visitsMembers, z.Reported choose phase y) := by
  rw [Reported, Relation.ReflTransGen.cases_head_iff]
  constructor
  · intro h
    obtain ⟨rfl | ⟨z, ⟨hz, hstop⟩, hzy⟩, hy⟩ := h
    · exact .inl ⟨rfl, hy⟩
    · exact .inr ⟨hstop, z, hz, hzy, hy⟩
  · intro h
    rcases h with ⟨rfl, hy⟩ | ⟨hstop, z, hz, hzy, hy⟩
    · exact ⟨.inl rfl, hy⟩
    · exact ⟨.inr ⟨z, ⟨hz, hstop⟩, hzy⟩, hy⟩

theorem not_violates_iff : (∀ y, ¬ x.Reported choose phase y) ↔
    ∀ y, x.Reaches choose phase.visitsMembers y → ¬ y.Violates phase := by
  constructor
  · intro h y hy
    have hfree : Relation.ReflTransGen (fun x y => y ∈ x.next choose phase.visitsMembers ∧
        ¬ (phase = .type ∧ x.Violates .type)) x y := by
      induction hy with
      | refl => exact .refl
      | tail hab hbc ih =>
        refine ih.tail ⟨hbc, fun hstop => ?_⟩
        obtain ⟨rfl, hb⟩ := hstop
        exact h _ ⟨ih, hb⟩
    exact fun hviolates => h y ⟨hfree, hviolates⟩
  · intro h y hy
    exact h y (Relation.ReflTransGen.mono (fun _ _ hstep => hstep.1) _ _ hy.1) hy.2

end Position

end ItemMapper
