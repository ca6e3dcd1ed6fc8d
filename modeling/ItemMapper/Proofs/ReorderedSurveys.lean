import ItemMapper.Proofs.ObjectScores
import ItemMapper.Proofs.ReorderedValues
import ItemMapper.Proofs.SteadyPasses
import Mathlib.Algebra.GroupWithZero.Nat

/-!
# Surveys of reordered values

The variant that a value predicts is chosen by sums over the entries of its maps, which do not depend on their order.
So a survey comes to the same positions of reordered values, with the same picks, and finds something at the same
paths. Only the texts of what it finds may differ.
-/

namespace ItemMapper

open Value (Reordered)

namespace Node

variable {n : Node} {v w : Value} {es fs : List (String × Value)} {xs ys : List Value} {fields : List (String × Node)}
  {variants : List Node} {items : List (Option Node)}

theorem dateVariant?_congr (h : v.Reordered w) : dateVariant? variants v = dateVariant? variants w := by
  simp only [dateVariant?, denotesDate, millis?, h.millis?_eq]

theorem itemIndex?_congr (h : v.Reordered w) : itemIndex? items v = itemIndex? items w := by
  simp only [itemIndex?, millis?, h.millis?_eq, h.kind?_eq]
  rfl

theorem isNested_congr (h : v.Reordered w) : isNested v = isNested w := by
  cases h <;> rfl

theorem scoreOf_congr (h : (Value.map es).Reordered (.map fs)) {matched : Nat} :
    n.scoreOf es matched = n.scoreOf fs matched := by
  have hundeclared (fields : List (String × Node)) : (es.filter fun e => !Entries.has e.1 fields).length =
      (fs.filter fun e => !Entries.has e.1 fields).length := (h.filter fun key => !Entries.has key fields).length_eq
  have hempty : es.isEmpty = fs.isEmpty := by
    rw [Bool.eq_iff_iff, List.isEmpty_iff_length_eq_zero, List.isEmpty_iff_length_eq_zero, h.length_eq]
  simp only [scoreOf, hundeclared, hempty]

theorem predictions_congr (h : v.Reordered w) : (∀ variants, bestVariant? variants v = bestVariant? variants w) ∧
    ∀ n, innerScore? n v = innerScore? n w := by
  induction v using Value.induct generalizing w with
  | list xs ih =>
    obtain ⟨ys, rfl, hxs⟩ := Value.reordered_list_iff.1 h
    have hscores (items : List (Option Node)) : listScores items xs = listScores items ys := by
      clear h
      induction hxs with
      | nil => rfl
      | @cons x y xs ys hxy _ ihrest =>
        obtain ⟨hbest, hinner⟩ := ih x List.mem_cons_self hxy
        simp only [listScores, itemIndex?_congr hxy, isNested_congr hxy, hxy.kind?_eq, hbest, hinner,
          ihrest fun v hv w => ih v (List.mem_cons_of_mem _ hv)]
    refine ⟨fun variants => ?_, fun n => ?_⟩
    · rw [bestVariant?, bestVariant?, dateVariant?_congr h]
      simp only [hscores]
    · rw [innerScore?, innerScore?, hscores]
  | map es ih =>
    obtain ⟨fs, rfl, -⟩ := Value.reordered_map_iff.1 h
    have hmatched (fields : List (String × Node)) : matchedScore fields es = matchedScore fields fs := by
      rw [matchedScore_eq_sum, matchedScore_eq_sum]
      refine (h.map_perm fun key v w hv hw => ?_).sum_nat
      have hvw := h.of_get? hv hw
      obtain ⟨hbest, hinner⟩ := ih (key, v) (Entries.mem_of_get? hv) hvw
      simp only [entryScore, denotesDate, millis?, hvw.millis?_eq, hvw.kind?_eq, hbest, hinner]
      rfl
    refine ⟨fun variants => ?_, fun n => ?_⟩
    · rw [bestVariant?, bestVariant?, dateVariant?_congr h]
      simp only [hmatched, scoreOf_congr h]
    · rw [innerScore?, innerScore?, hmatched, scoreOf_congr h]
  | set xs ih =>
    obtain ⟨ys, rfl, -⟩ := Value.reordered_set_iff.1 h
    refine ⟨fun variants => ?_, fun n => rfl⟩
    simp only [bestVariant?, dateVariant?_congr h, h.kind?_eq]
  | _ =>
    cases h
    exact ⟨fun _ => rfl, fun _ => rfl⟩

end Node

namespace Phase

variable {phase : Phase} {n : Node} {v w : Value} {path : String}

theorem checkType_congr (h : v.Reordered w) : checkType n v = [] ↔ checkType n w = [] := by
  cases n with
  | any m => exact Iff.rfl
  | union m variants =>
    simp only [checkType, h.accepts_eq]
    split <;> simp
  | _ =>
    simp only [checkType, h.accepts_eq]
    split
    · simp
    · split <;> simp

theorem checkRange_congr (h : v.Reordered w) : checkRange n v = checkRange n w := by
  cases h with
  | same => rfl
  | _ =>
    cases n with
    | scalar m k => cases k <;> rfl
    | _ => rfl

theorem check_congr (h : v.Reordered w) : phase.check n v path = [] ↔ phase.check n w path = [] := by
  cases phase with
  | required => simp only [check, checkRequired, h.isUndefined_eq]
  | type => exact checkType_congr h
  | enum =>
    have hmember : Value.isMember v n.modifiers.enumValues = Value.isMember w n.modifiers.enumValues := by
      simp only [Value.isMember, Value.same_congr_right h]
    simp only [check, checkEnum, hmember]
    split <;> simp
  | range => simp only [check, checkRange_congr h]
  | custom => exact Iff.rfl

theorem descends_congr (h : v.Reordered w) : phase.descends n v = phase.descends n w := by
  have htype : (checkType n v).isEmpty = (checkType n w).isEmpty := by
    rw [Bool.eq_iff_iff, List.isEmpty_iff, List.isEmpty_iff, checkType_congr h]
  cases phase with
  | type => cases n <;> first | rfl | exact htype
  | _ => rfl

theorem visits_congr (h : v.Reordered w) : phase.visits v = phase.visits w := by
  simp only [visits, h.isUndefined_eq]

end Phase

namespace Survey

variable {phase : Phase} {n : Node} {v w : Value} {key path : String} {inUnion : Bool} {s s' : Survey}
  {vs us : List Violation} {fields : List (String × Node)} {variants : List Node} {es fs : List (String × Value)}
  {xs ys : List Value}

structure Alike (s s' : Survey) : Prop where
  picks : s.picks = s'.picks
  paths : Entries.keys s.violations = Entries.keys s'.violations

theorem Alike.refl : s.Alike s := ⟨rfl, rfl⟩

theorem keys_addAll_eq : Entries.keys (s.addAll path vs).violations =
    if vs = [] ∨ Violations.shownPath path ∈ Entries.keys s.violations then Entries.keys s.violations
    else Entries.keys s.violations ++ [Violations.shownPath path] := by
  induction vs generalizing s with
  | nil => simp [Survey.addAll]
  | cons x vs ih =>
    have hstep : s.addAll path (x :: vs) = addAll path vs { s with violations := s.violations.add path x } := rfl
    rw [hstep, ih, if_pos (.inr (Entries.mem_keys_insert.2 (.inl rfl))), Violations.add]
    by_cases hk : Violations.shownPath path ∈ Entries.keys s.violations
    · rw [if_pos (.inr hk), Entries.keys_insert_of_has _ _ _ (Entries.has_iff.2 hk)]
    · rw [if_neg (by simp [hk]), Entries.keys_insert_of_not_mem hk]

theorem Alike.addAll (h : s.Alike s') (hv : vs = [] ↔ us = []) : (s.addAll path vs).Alike (s'.addAll path us) := by
  refine ⟨h.picks, ?_⟩
  rw [keys_addAll_eq, keys_addAll_eq]
  simp only [h.paths, hv]

theorem Alike.enter (hs : s.Alike s') (h : v.Reordered w) :
    (enter phase inUnion path v s n).1 = (enter phase inUnion path w s' n).1 ∧
      (enter phase inUnion path v s n).2.Alike (enter phase inUnion path w s' n).2 := by
  simp only [Survey.enter, Phase.visits_congr h]
  split
  · exact ⟨rfl, hs⟩
  · split
    · exact ⟨rfl, hs⟩
    · exact ⟨Phase.descends_congr h, hs.addAll (Phase.check_congr h)⟩

theorem Alike.visitItems {i : Nat} (hs : s.Alike s') (h : List.Forall₂ Reordered xs ys)
    (hn : ∀ {path v w s s'}, v.Reordered w → s.Alike s' →
      (visit phase false path path v s n).Alike (visit phase false path path w s' n)) :
    ((xs.zipIdx i).foldl (fun s (e, i) => visit phase false (elementPath path i) (elementPath path i) e s n) s).Alike
      ((ys.zipIdx i).foldl (fun s (e, i) => visit phase false (elementPath path i) (elementPath path i) e s n) s') := by
  induction h generalizing i s s' with
  | nil => exact hs
  | cons hx _ ih => exact ih (hn hx hs)

theorem Alike.visitFields (hs : s.Alike s') (h : (Value.map es).Reordered (.map fs))
    (hf : ∀ f ∈ fields, ∀ {path v w s s'}, v.Reordered w → s.Alike s' →
      (visit phase false path path v s f.2).Alike (visit phase false path path w s' f.2)) :
    (visitFields phase path es s fields).Alike (visitFields phase path fs s' fields) := by
  induction fields generalizing s s' with
  | nil => exact hs
  | cons f rest ih =>
    exact ih (hf f List.mem_cons_self (h.getD f.1) hs) fun g hg => hf g (List.mem_cons_of_mem _ hg)

theorem Alike.visitPicked {place : Option Nat} (hs : s.Alike s')
    (hn : ∀ u ∈ variants, ∀ {s s'}, s.Alike s' →
      (visit phase true (nestedKey key) path v s u).Alike (visit phase true (nestedKey key) path w s' u)) :
    (visitPicked phase key path v variants place s).Alike (visitPicked phase key path w variants place s') := by
  cases place with
  | none => exact hs
  | some i =>
    simp only [Survey.visitPicked, visitVariant_eq]
    cases hu : variants[i]? with
    | none => exact hs
    | some u => exact hn u (List.mem_of_getElem? hu) hs

theorem fewestErrors_congr (h : v.Reordered w) (hn : ∀ u ∈ variants,
      (visit .type false path path v {} u).Alike (visit .type false path path w {} u)) :
    fewestErrors path v variants = fewestErrors path w variants := by
  induction variants with
  | nil => rfl
  | cons u rest ih =>
    have hcount := Entries.length_eq_of_keys (hn u List.mem_cons_self).paths
    simp only [fewestErrors, h.accepts_eq, hcount, ih fun u hu => hn u (List.mem_cons_of_mem _ hu)]

theorem variantOf_congr_of (h : v.Reordered w) (hn : ∀ u ∈ variants,
      (visit .type false path path v {} u).Alike (visit .type false path path w {} u)) :
    variantOf path v variants = variantOf path w variants := by
  rw [variantOf, variantOf, predictedOr, predictedOr, (Node.predictions_congr h).1, fewestErrors_congr h hn]

theorem Alike.inside (hs : s.Alike s') (h : v.Reordered w)
    (hn : ∀ u ∈ n.children, ∀ {phase inUnion key path v w s s'}, v.Reordered w → s.Alike s' →
      (visit phase inUnion key path v s u).Alike (visit phase inUnion key path w s' u)) :
    (inside phase key path v n s).Alike (inside phase key path w n s') := by
  cases n with
  | object m fields isOpen =>
    cases v with
    | map es =>
      obtain ⟨fs, rfl, -⟩ := Value.reordered_map_iff.1 h
      exact hs.visitFields h fun f hf => hn f.2 (List.mem_map_of_mem hf)
    | _ => cases h <;> exact hs
  | list m items =>
    cases v with
    | list xs =>
      obtain ⟨ys, rfl, hxs⟩ := Value.reordered_list_iff.1 h
      exact hs.visitItems hxs (hn items (List.mem_singleton_self _))
    | _ => cases h <;> exact hs
  | set m items =>
    cases v with
    | set xs =>
      obtain ⟨ys, rfl, hxs⟩ := Value.reordered_set_iff.1 h
      simp only [Survey.inside]
      split
      · exact hs.visitItems hxs (hn items (List.mem_singleton_self _))
      · exact hs
    | _ => cases h <;> exact hs
  | union m variants =>
    have hvariant : variantOf path v variants = variantOf path w variants :=
      variantOf_congr_of h fun u hu => hn u hu h .refl
    rw [inside_union, inside_union, h.isUndefined_eq, hs.picks, hvariant]
    split
    · exact hs
    · exact Alike.visitPicked ⟨rfl, hs.paths⟩ fun u hu => hn u hu h
  | _ => exact hs

/-- A survey makes the same picks for a reordered value, and finds something at the same paths. -/
theorem visit_alike (h : v.Reordered w) (hs : s.Alike s') :
    (visit phase inUnion key path v s n).Alike (visit phase inUnion key path w s' n) := by
  induction n using Node.induct_children generalizing phase inUnion key path v w s s' with
  | step n ih =>
    obtain ⟨hgo, hentered⟩ := hs.enter (n := n) h
    rw [visit_eq, visit_eq, hgo]
    split
    · exact hentered.inside h fun u hu _ _ _ _ _ _ _ _ => ih u hu
    · exact hentered

theorem variantOf_congr (h : v.Reordered w) : variantOf path v variants = variantOf path w variants :=
  variantOf_congr_of h fun _ _ => visit_alike h .refl

end Survey

end ItemMapper
