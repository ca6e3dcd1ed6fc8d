import ItemMapper.Proofs.WellKeyed

/-!
# Validated values

What the first four phases of validation leave to be said of a value that they let pass: at every position that
objects and lists lead to, the phase has nothing against the value there.
-/

namespace ItemMapper

namespace Phase

def surveys : List Phase := [required, type, enum, range]

def Lets (phase : Phase) (n : Node) (v : Value) : Prop := phase.visits v = true → ∀ path, phase.check n v path = []

theorem check_eq_nil {phase : Phase} {n : Node} {v : Value} {path : String} (h : phase.check n v path = [])
    (other : String) : phase.check n v other = [] := by
  cases phase with
  | enum =>
    simp only [check, checkEnum] at h ⊢
    split at h
    · cases h
    · rw [if_neg ‹_›]
  | _ => exact h

theorem descends_of_check {phase : Phase} {n : Node} {v : Value} {path : String} (hn : ∀ m, n ≠ .any m)
    (h : phase.check n v path = []) : phase.descends n v = true := by
  cases phase with
  | type =>
    have hv : (checkType n v).isEmpty = true := by rw [show checkType n v = [] from h]; rfl
    cases n with
    | any m => exact absurd rfl (hn m)
    | _ => exact hv
  | _ => rfl

end Phase

namespace Violations

theorem add_ne_nil {path : String} {v : Violation} {vs : Violations} : vs.add path v ≠ [] := by
  cases vs with
  | nil => simp [add, Entries.insert]
  | cons e rest =>
    rw [add, Entries.insert]
    split <;> simp

theorem foldl_add_eq_nil_iff {found : List (String × Violation)} {out : Violations} :
    found.foldl (fun out f => out.add f.1 f.2) out = [] ↔ out = [] ∧ found = [] := by
  induction found generalizing out with
  | nil => simp
  | cons f rest ih => simp [ih, add_ne_nil]

end Violations

namespace Survey

variable {phase : Phase} {inUnion : Bool} {key path : String} {v : Value} {s : Survey} {n : Node}
  {vs : List Violation} {entries : List (String × Value)} {fields : List (String × Node)}

theorem addAll_eq_nil_iff : (s.addAll path vs).violations = [] ↔ s.violations = [] ∧ vs = [] := by
  cases vs with
  | nil => simp [addAll]
  | cons x rest =>
    suffices h : ∀ (rest : List Violation) (out : Violations), out ≠ [] →
        rest.foldl (fun out x => out.add path x) out ≠ [] by
      simpa [addAll] using h rest _ Violations.add_ne_nil
    intro rest
    induction rest with
    | nil => exact fun out hout => hout
    | cons y rest ih => exact fun out _ => ih _ Violations.add_ne_nil

theorem enter_violations (h : (enter phase inUnion path v s n).2.violations = []) : s.violations = [] := by
  rw [enter] at h
  split at h
  · exact h
  · split at h
    · exact h
    · exact (addAll_eq_nil_iff.1 h).1

theorem enter_lets (h : (enter phase false path v s n).2.violations = []) : phase.Lets n v := by
  intro hv other
  simp only [enter, hv, Bool.not_true, Bool.false_and, Bool.false_eq_true, if_false] at h
  exact Phase.check_eq_nil (addAll_eq_nil_iff.1 h).2 other

theorem enter_descends (hn : ∀ m, n ≠ .any m) (hv : phase.visits v = true)
    (h : (enter phase false path v s n).2.violations = []) : (enter phase false path v s n).1 = true := by
  have hd := Phase.descends_of_check hn (enter_lets h hv path)
  simp [enter, hv, hd]

theorem visitFields_violations (h : ∀ f ∈ fields, ∀ inUnion key path v s,
    (visit phase inUnion key path v s f.2).violations = [] → s.violations = [])
    (hv : (visitFields phase path entries s fields).violations = []) : s.violations = [] := by
  induction fields generalizing s with
  | nil => exact hv
  | cons f rest ih =>
    rw [visitFields] at hv
    exact h f List.mem_cons_self _ _ _ _ _ (ih (fun g hg => h g (List.mem_cons_of_mem _ hg)) hv)

theorem visitVariant_violations {variants : List Node} {i : Nat} (h : ∀ n ∈ variants, ∀ inUnion key path v s,
    (visit phase inUnion key path v s n).violations = [] → s.violations = [])
    (hv : (visitVariant phase key path v s i variants).violations = []) : s.violations = [] := by
  induction variants generalizing i with
  | nil => simpa [visitVariant] using hv
  | cons n rest ih =>
    cases i with
    | zero => exact h n List.mem_cons_self _ _ _ _ _ (by simpa [visitVariant] using hv)
    | succ i => exact ih (fun u hu => h u (List.mem_cons_of_mem _ hu)) (by simpa [visitVariant] using hv)

theorem foldl_violations {items : Node} {es : List (Value × Nat)}
    (hmono : ∀ key path v s, (visit phase false key path v s items).violations = [] → s.violations = [])
    (h : (es.foldl (fun s (e, i) => visit phase false (elementPath path i) (elementPath path i) e s items) s).violations
      = []) : s.violations = [] ∧ ∀ e ∈ es, ∃ s', (visit phase false (elementPath path e.2) (elementPath path e.2)
        e.1 s' items).violations = [] := by
  induction es generalizing s with
  | nil => exact ⟨h, by simp⟩
  | cons e rest ih =>
    rw [List.foldl_cons] at h
    obtain ⟨hs, hrest⟩ := ih h
    exact ⟨hmono _ _ _ _ hs, List.forall_mem_cons.2 ⟨⟨s, hs⟩, hrest⟩⟩

theorem visit_object {m : Modifiers} {isOpen : Bool} : visit phase inUnion key path v s (.object m fields isOpen) =
    match (enter phase inUnion path v s (.object m fields isOpen)).1, v with
    | true, .map entries =>
      visitFields phase path entries (enter phase inUnion path v s (.object m fields isOpen)).2 fields
    | _, _ => (enter phase inUnion path v s (.object m fields isOpen)).2 := by
  cases he : enter phase inUnion path v s (.object m fields isOpen) with
  | mk go s' => cases go <;> cases v <;> simp [visit, he]

theorem visit_list {m : Modifiers} {items : Node} : visit phase inUnion key path v s (.list m items) =
    match (enter phase inUnion path v s (.list m items)).1, v with
    | true, .list elements => elements.zipIdx.foldl
        (fun s (e, i) => visit phase false (elementPath path i) (elementPath path i) e s items)
        (enter phase inUnion path v s (.list m items)).2
    | _, _ => (enter phase inUnion path v s (.list m items)).2 := by
  cases he : enter phase inUnion path v s (.list m items) with
  | mk go s' => cases go <;> cases v <;> simp [visit, he]

theorem visit_set {m : Modifiers} {items : Node} : visit phase inUnion key path v s (.set m items) =
    match (enter phase inUnion path v s (.set m items)).1 && phase.visitsMembers, v with
    | true, .set members => members.zipIdx.foldl
        (fun s (e, i) => visit phase false (elementPath path i) (elementPath path i) e s items)
        (enter phase inUnion path v s (.set m items)).2
    | _, _ => (enter phase inUnion path v s (.set m items)).2 := by
  cases he : enter phase inUnion path v s (.set m items) with
  | mk go s' => cases go <;> cases hp : phase.visitsMembers <;> cases v <;> simp [visit, he, hp]

theorem visit_union_violations {m : Modifiers} {variants : List Node}
    (hmono : ∀ n ∈ variants, ∀ inUnion key path v s,
      (visit phase inUnion key path v s n).violations = [] → s.violations = [])
    (h : (visit phase inUnion key path v s (.union m variants)).violations = []) :
    (enter phase inUnion path v s (.union m variants)).2.violations = [] := by
  cases he : enter phase inUnion path v s (.union m variants) with
  | mk go s' =>
    simp only [visit, he] at h
    cases go with
    | false => exact h
    | true =>
      simp only at h
      split at h
      · exact h
      · split at h
        · have hs := visitVariant_violations hmono h
          exact hs
        · exact h

theorem visit_violations (h : (visit phase inUnion key path v s n).violations = []) : s.violations = [] := by
  induction n generalizing inUnion key path v s with
  | object m fields isOpen ih =>
    have he : (enter phase inUnion path v s (.object m fields isOpen)).2.violations = [] := by
      rw [visit_object] at h
      split at h
      · exact visitFields_violations (fun f hf _ _ _ _ _ => ih f hf) h
      · exact h
    exact enter_violations he
  | list m items ih =>
    have he : (enter phase inUnion path v s (.list m items)).2.violations = [] := by
      rw [visit_list] at h
      split at h
      · exact (foldl_violations (fun _ _ _ _ => ih) h).1
      · exact h
    exact enter_violations he
  | set m items ih =>
    have he : (enter phase inUnion path v s (.set m items)).2.violations = [] := by
      rw [visit_set] at h
      split at h
      · exact (foldl_violations (fun _ _ _ _ => ih) h).1
      · exact h
    exact enter_violations he
  | union m variants ih =>
    exact enter_violations (visit_union_violations (fun n hn _ _ _ _ _ => ih n hn) h)
  | scalar m k => exact enter_violations h
  | any m => exact enter_violations h
  | undefined m => exact enter_violations h

theorem visitFields_everywhere {entries : List (String × Value)} {fields : List (String × Node)}
    (ih : ∀ f ∈ fields, ∀ key path v s, (visit phase false key path v s f.2).violations = [] →
      f.2.Everywhere .never phase.Lets key path v)
    (h : (visitFields phase path entries s fields).violations = []) : ∀ f ∈ fields,
      f.2.Everywhere .never phase.Lets (memberPath path f.1) (memberPath path f.1)
        ((Entries.get? f.1 entries).getD .undefined) := by
  induction fields generalizing s with
  | nil => simp
  | cons f rest ihf =>
    rw [visitFields] at h
    have hf := visitFields_violations (fun _ _ _ _ _ _ _ => visit_violations) h
    exact List.forall_mem_cons.2 ⟨ih f List.mem_cons_self _ _ _ _ hf,
      ihf (fun g hg => ih g (List.mem_cons_of_mem _ hg)) h⟩

theorem eq_undefined_of_not_visits (h : phase.visits v = false) : v = .undefined := by
  cases v <;> simp_all [Phase.visits, Value.isUndefined]

theorem everywhere_of_not_visits (h : phase.visits v = false) : n.Everywhere .never phase.Lets key path v := by
  obtain rfl := eq_undefined_of_not_visits h
  exact Node.everywhere_undefined fun _ hv => absurd hv (by simp [h])

theorem visit_everywhere (h : (visit phase false key path v s n).violations = []) :
    n.Everywhere .never phase.Lets key path v := by
  by_cases hvis : phase.visits v = true
  case neg => exact everywhere_of_not_visits (Bool.not_eq_true _ ▸ hvis)
  induction n generalizing key path v s with
  | object m fields isOpen ih =>
    have hent : (enter phase false path v s (.object m fields isOpen)).2.violations = [] := by
      rw [visit_object] at h
      split at h
      · exact visitFields_violations (fun _ _ _ _ _ _ _ => visit_violations) h
      · exact h
    refine Node.everywhere_object.2 ⟨enter_lets hent, ?_⟩
    rintro entries rfl
    rw [visit_object, enter_descends (by simp) hvis hent] at h
    refine visitFields_everywhere (fun f hf key path v s hv => ?_) h
    by_cases hvis : phase.visits v = true
    · exact ih f hf hv hvis
    · exact everywhere_of_not_visits (Bool.not_eq_true _ ▸ hvis)
  | list m items ih =>
    have hent : (enter phase false path v s (.list m items)).2.violations = [] := by
      rw [visit_list] at h
      split at h
      · exact (foldl_violations (fun _ _ _ _ => visit_violations) h).1
      · exact h
    refine Node.everywhere_list.2 ⟨enter_lets hent, ?_⟩
    rintro elements rfl e he
    rw [visit_list, enter_descends (by simp) hvis hent] at h
    obtain ⟨s', hs⟩ := (foldl_violations (fun _ _ _ _ => visit_violations) h).2 e he
    by_cases hvis : phase.visits e.1 = true
    · exact ih hs hvis
    · exact everywhere_of_not_visits (Bool.not_eq_true _ ▸ hvis)
  | union m variants ih =>
    refine Node.everywhere_union.2 ⟨?_, by simp [Chooser.never]⟩
    exact enter_lets (visit_union_violations (fun _ _ _ _ _ _ _ => visit_violations) h)
  | set m items =>
    rw [visit_set] at h
    split at h
    · exact enter_lets (foldl_violations (fun _ _ _ _ => visit_violations) h).1
    · exact enter_lets h
  | scalar m k => exact enter_lets h
  | any m => exact enter_lets h
  | undefined m => exact enter_lets h

end Survey

namespace Node

variable {n : Node} {path table : String} {v : Value} {s : Pass}

theorem failure?_cons {phase : Phase} {rest : List Phase} : n.failure? path table v (phase :: rest) s =
    if (n.violationsOf path v phase s).1.isEmpty then n.failure? path table v rest (n.violationsOf path v phase s).2
    else (some ⟨phase, table, (n.violationsOf path v phase s).1⟩, (n.violationsOf path v phase s).2) := by
  rw [failure?, Passing.bind_apply]
  split <;> rfl

theorem violationsOf_eq_surveyed {phase : Phase} (hp : phase ≠ .custom) :
    n.violationsOf path v phase = n.surveyed phase path v := by
  cases phase with
  | custom => exact absurd rfl hp
  | _ => rfl

theorem violationsOf_of_failure?_eq_none {phases : List Phase} (h : (n.failure? path table v phases s).1 = none) :
    ∀ phase ∈ phases, ∃ s', (n.violationsOf path v phase s').1 = [] := by
  induction phases generalizing s with
  | nil => simp
  | cons phase rest ih =>
    rw [failure?_cons] at h
    split at h
    · exact List.forall_mem_cons.2 ⟨⟨s, List.isEmpty_iff.1 ‹_›⟩, ih h⟩
    · cases h

theorem objections_of_failure?_eq_none {phases : List Phase} (hp : Phase.custom ∉ phases)
    (h : (n.failure? path table v (phases ++ [.custom]) s).1 = none) :
    ∃ s', s'.calls = s.calls ∧ (n.objections path path v s').1 = [] ∧
      (n.failure? path table v (phases ++ [.custom]) s).2 = (n.objections path path v s').2 := by
  induction phases generalizing s with
  | nil =>
    rw [List.nil_append, failure?_cons] at h ⊢
    split at h
    · rename_i hempty
      have hfound : (n.objections path path v s).1.foldl (fun out f => Violations.add f.1 f.2 out) [] = [] :=
        List.isEmpty_iff.1 hempty
      rw [if_pos hempty]
      exact ⟨s, rfl, (Violations.foldl_add_eq_nil_iff.1 hfound).2, rfl⟩
    · cases h
  | cons phase rest ih =>
    obtain ⟨hphase, hrest⟩ := List.ne_and_not_mem_of_not_mem_cons hp
    rw [List.cons_append, failure?_cons, violationsOf_eq_surveyed hphase.symm] at h ⊢
    split at h
    · obtain ⟨s', hs, hfound⟩ := ih hrest h
      rw [if_pos ‹_›]
      exact ⟨s', hs, hfound⟩
    · cases h

theorem objections_of_validate (h : (n.validate path table v s).1 = none) :
    ∃ s', s'.calls = s.calls ∧ (n.objections path path v s').1 = [] ∧
      (n.validate path table v s).2 = (n.objections path path v s').2 :=
  have hlast : Phase.custom ∉ Phase.surveys := by decide
  objections_of_failure?_eq_none hlast h

/-- A valid value has been let pass by each of the first four phases. -/
theorem everywhere_of_validate {phase : Phase} (hp : phase ≠ .custom) (h : (n.validate path table v s).1 = none) :
    n.Everywhere .never phase.Lets path path v := by
  have hmem : phase ∈ Phase.all := by cases phase <;> simp [Phase.all]
  obtain ⟨s', hs⟩ := violationsOf_of_failure?_eq_none h phase hmem
  cases phase with
  | custom => exact absurd rfl hp
  | _ => exact Survey.visit_everywhere hs

end Node

end ItemMapper
