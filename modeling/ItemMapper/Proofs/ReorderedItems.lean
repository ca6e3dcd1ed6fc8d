import ItemMapper.Proofs.CompleteReports
import ItemMapper.Proofs.ReorderedSurveys
import ItemMapper.Proofs.SettledPicks
import ItemMapper.Proofs.StoredAgain

/-!
# Reordered items

Passes without callbacks do with a reordered item what they do with the item: they pick the same variants, and give the
same value but for the order of entries. Most passes go through a map in the order in which its fields are declared;
pruning goes through it in its own order, but picks nothing that has not been picked. So the order in which a caller
has the keys of an item shows neither in what is stored nor in what is said against it.
-/

namespace ItemMapper

open Value (Reordered)

namespace Passing

variable {α β γ δ : Type} {R : α → β → Prop} {S : γ → δ → Prop} {p : Passing α} {q : Passing β}
  {es fs : List (String × Value)} {xs ys : List Value} {fields : List (String × Node)}

def Alike (R : α → β → Prop) (p : Passing α) (q : Passing β) : Prop := ∀ s, R (p s).1 (q s).1 ∧ (p s).2 = (q s).2

theorem Alike.pure {a : α} {b : β} (h : R a b) : Alike R (Pure.pure a) (Pure.pure b) := fun _ => ⟨h, rfl⟩

theorem Alike.bind {f : α → Passing γ} {g : β → Passing δ} (h : Alike R p q) (hf : ∀ a b, R a b → Alike S (f a) (g b)) :
    Alike S (p >>= f) (q >>= g) := by
  intro s
  obtain ⟨hr, hs⟩ := h s
  rw [bind_apply, bind_apply, hs]
  exact hf _ _ hr _

theorem pick_congr {key path : String} {variants : List Node} {v w : Value} (h : v.Reordered w) :
    pick key path variants v = pick key path variants w := by
  funext s
  simp only [Passing.pick, h.isUndefined_eq, Survey.variantOf_congr h]

theorem Alike.mapM {f : γ → Passing α} {g : δ → Passing β} {cs : List γ} {ds : List δ} (h : List.Forall₂ S cs ds)
    (hf : ∀ c d, S c d → Alike R (f c) (g d)) : Alike (List.Forall₂ R) (cs.mapM f) (ds.mapM g) := by
  induction h with
  | nil => exact Alike.pure .nil
  | cons hcd _ ih =>
    rw [List.mapM_cons, List.mapM_cons]
    exact (hf _ _ hcd).bind fun a b hab => ih.bind fun as bs habs => Alike.pure (.cons hab habs)

theorem zipIdx_reordered (h : List.Forall₂ Reordered xs ys) (i : Nat) :
    List.Forall₂ (fun c d => c.1.Reordered d.1 ∧ c.2 = d.2) (xs.zipIdx i) (ys.zipIdx i) := by
  induction h generalizing i with
  | nil => exact .nil
  | cons hx _ ih => exact .cons ⟨hx, rfl⟩ (ih (i + 1))

theorem Alike.atVariant {enter enter' : Node → Passing α} {otherwise otherwise' : Passing α} {T : α → α → Prop}
    {variants : List Node} {i : Nat} (h : ∀ n ∈ variants, Alike T (enter n) (enter' n)) (ho : Alike T otherwise otherwise') :
    Alike T (Node.atVariant enter otherwise variants i) (Node.atVariant enter' otherwise' variants i) := by
  rw [Node.atVariant, Node.atVariant]
  cases hn : variants[i]? with
  | none => exact ho
  | some n => exact h n (List.mem_of_getElem? hn)

theorem Alike.union {key path : String} {variants : List Node} {v w : Value} {enter enter' : Node → Passing Value}
    {f g : Option Nat → Passing Value} (h : v.Reordered w) (hn : ∀ n ∈ variants, Alike Reordered (enter n) (enter' n))
    (hv : f none = Pure.pure v ∧ ∀ i, f (some i) = Node.atVariant enter (Pure.pure v) variants i)
    (hw : g none = Pure.pure w ∧ ∀ i, g (some i) = Node.atVariant enter' (Pure.pure w) variants i) :
    Alike Reordered (pick key path variants v >>= f) (pick key path variants w >>= g) := by
  intro s
  rw [bind_apply, bind_apply, pick_congr h]
  cases (pick key path variants w s).1 with
  | none =>
    rw [hv.1, hw.1]
    exact Alike.pure h _
  | some i =>
    rw [hv.2, hw.2]
    exact Alike.atVariant hn (Alike.pure h) _

theorem Alike.elements {f g : Value × Nat → Passing Value} (h : List.Forall₂ Reordered xs ys)
    (hf : ∀ e d i, e.Reordered d → Alike Reordered (f (e, i)) (g (d, i))) :
    Alike Reordered (do return .list (← xs.zipIdx.mapM f)) (do return .list (← ys.zipIdx.mapM g)) := by
  refine Alike.bind (.mapM (zipIdx_reordered h 0) ?_) fun xs ys hxs => Alike.pure (.list hxs)
  rintro ⟨e, i⟩ ⟨d, -⟩ ⟨hed, rfl⟩
  exact hf e d i hed

theorem Alike.members {f g : Value → Passing Value} (h : List.Forall₂ Reordered xs ys)
    (hf : ∀ e d, e.Reordered d → Alike Reordered (f e) (g d)) :
    Alike Reordered (do return .set (Value.distinct (← xs.mapM f))) (do return .set (Value.distinct (← ys.mapM g))) :=
  Alike.bind (.mapM h hf) fun _ _ hxs => Alike.pure (.set (Value.distinct_reordered hxs))

def EntriesAlike (es fs : List (String × Value)) : Prop := (Value.map es).Reordered (.map fs)

theorem Alike.entries {p q : Passing (List (String × Value))} (h : Alike EntriesAlike p q) :
    Alike Reordered (do return .map (← p)) (do return .map (← q)) :=
  h.bind fun _ _ hes => Alike.pure hes

theorem Alike.overFields {f g : String → Node → Value → Passing Value} (h : EntriesAlike es fs)
    (hf : ∀ u ∈ fields, ∀ v w, v.Reordered w → Alike Reordered (f u.1 u.2 v) (g u.1 u.2 w)) :
    Alike EntriesAlike (Node.overFields f es fields) (Node.overFields g fs fields) := by
  induction fields generalizing es fs with
  | nil => exact Alike.pure h
  | cons u rest ih =>
    obtain ⟨hu, hrest⟩ := List.forall_mem_cons.1 hf
    rw [Node.overFields, Node.overFields]
    have hget := h.get? u.1
    revert hget
    cases Entries.get? u.1 es <;> cases Entries.get? u.1 fs <;> rintro (hvw | -)
    · exact ih h hrest
    · exact (hu _ _ hvw).bind fun v w hvw => ih (h.insert hvw) hrest

end Passing

namespace Node

variable {n : Node} {item item' v w : Value} {key path : String} {around around' : Surroundings} {m : Modifiers}
  {fields : List (String × Node)} {es fs : List (String × Value)} {t : Picks}

open Passing (Alike EntriesAlike)

theorem withDefault_alike (hm : m.WellKeyed) (hd : ∀ f, m.default ≠ some (.computed f)) (h : v.Reordered w) :
    Alike Reordered (withDefault m item v) (withDefault m item' w) := by
  rw [withDefault, withDefault, h.isUndefined_eq]
  split
  · exact Alike.pure h
  · cases hdefault : m.default with
    | none => exact Alike.pure h
    | some d =>
      cases d with
      | fixed d => exact Alike.pure (.same (hm.fixed d hdefault))
      | computed f => exact absurd hdefault (hd f)

theorem fillFields_alike (h : EntriesAlike es fs) (hf : ∀ u ∈ fields, ∀ path v w, v.Reordered w →
      Alike Reordered (fill item path path v u.2) (fill item' path path w u.2)) :
    Alike EntriesAlike (fillFields item path es fields) (fillFields item' path fs fields) := by
  induction fields generalizing es fs with
  | nil => exact Alike.pure h
  | cons u rest ih =>
    obtain ⟨hu, hrest⟩ := List.forall_mem_cons.1 hf
    rw [fillFields, fillFields]
    refine (hu _ _ _ (h.getD u.1)).bind fun v w hvw => ?_
    rw [hvw.isUndefined_eq]
    split
    · exact ih h hrest
    · exact ih (h.insert hvw) hrest

theorem fill_alike (hk : n.Throughout WellKeyed) (hn : n.Throughout CallbackFree) (h : v.Reordered w) :
    Alike Reordered (fill item key path v n) (fill item' key path w n) := by
  induction n generalizing key path v w with
  | object m fields isOpen ih =>
    rw [fill, fill]
    refine (withDefault_alike hk.self.sources hn.self.default h).bind fun v w h => ?_
    cases v with
    | map es =>
      obtain ⟨fs, rfl, -⟩ := Value.reordered_map_iff.1 h
      exact (fillFields_alike h fun u hu path v w hvw => ih u hu (hk.field hu) (hn.field hu) hvw).entries
    | _ => have hvw := h; cases h <;> exact Alike.pure hvw
  | list m items ih =>
    rw [fill, fill]
    refine (withDefault_alike hk.self.sources hn.self.default h).bind fun v w h => ?_
    cases v with
    | list xs =>
      obtain ⟨ys, rfl, hxs⟩ := Value.reordered_list_iff.1 h
      exact Alike.elements hxs fun e d i hed => ih hk.item hn.item hed
    | _ => have hvw := h; cases h <;> exact Alike.pure hvw
  | union m variants ih =>
    rw [fill, fill]
    refine (withDefault_alike hk.self.sources hn.self.default h).bind fun v w h => ?_
    exact Alike.union h (fun u hu => ih u hu (hk.variant hu) (hn.variant hu) h) ⟨rfl, fun i => fillVariant_eq⟩
      ⟨rfl, fun i => fillVariant_eq⟩
  | _ => exact withDefault_alike hk.self.sources hn.self.default h

theorem shape_alike (h : v.Reordered w) : Alike Reordered (shape key path v n) (shape key path w n) := by
  induction n generalizing key path v w with
  | scalar m k =>
    rw [shape_scalar, shape_scalar]
    refine Alike.pure ?_
    cases h with
    | same hv => cases k <;> cases v <;> exact .same hv
    | list h => cases k <;> exact .list h
    | set h => cases k <;> exact .set h
    | map hd hk h => cases k <;> exact .map hd hk h
  | object m fields isOpen ih =>
    cases v with
    | map es =>
      obtain ⟨fs, rfl, -⟩ := Value.reordered_map_iff.1 h
      rw [shape, shape, shapeFields_eq, shapeFields_eq]
      exact (Alike.overFields h fun u hu v w hvw => ih u hu hvw).entries
    | _ => have hvw := h; cases h <;> exact Alike.pure hvw
  | list m items ih =>
    cases v with
    | list xs =>
      obtain ⟨ys, rfl, hxs⟩ := Value.reordered_list_iff.1 h
      exact Alike.elements hxs fun e d i hed => ih hed
    | _ => have hvw := h; cases h <;> exact Alike.pure hvw
  | set m items ih =>
    cases v with
    | set xs =>
      obtain ⟨ys, rfl, hxs⟩ := Value.reordered_set_iff.1 h
      exact Alike.members hxs fun x y hxy => ih hxy
    | _ => have hvw := h; cases h <;> exact Alike.pure hvw
  | union m variants ih =>
    rw [shape, shape]
    exact Alike.union h (fun u hu => ih u hu h) ⟨rfl, fun i => shapeVariant_eq⟩
      ⟨rfl, fun i => shapeVariant_eq⟩
  | any m => exact Alike.pure h
  | undefined m => exact Alike.pure h

theorem storedForm_reordered (h : v.Reordered w) : (n.storedForm v).Reordered (n.storedForm w) := by
  rw [storedForm, storedForm]
  split
  · rw [DateFormat.stored?, DateFormat.stored?, h.millis?_eq]
    cases n.dateFormat.millis? w with
    | none => exact h
    | some ms => exact .same rfl
  · exact h

theorem setOwn_alike (hn : n.modifiers.setter = none) (h : v.Reordered w) :
    Alike Reordered (setOwn around n v) (setOwn around' n w) := by
  rw [setOwn_eq hn, setOwn_eq hn, h.truthy_eq]
  split
  · exact Alike.pure (storedForm_reordered h)
  · exact Alike.pure h

theorem setValue_alike (hn : n.Throughout CallbackFree) (h : v.Reordered w) :
    Alike Reordered (setValue around key path v n) (setValue around' key path w n) := by
  induction n generalizing key path v w with
  | object m fields isOpen ih =>
    rw [setValue, setValue, h.isUndefined_eq]
    split
    · exact Alike.pure (.same rfl)
    · refine (setOwn_alike hn.self.setter h).bind fun v w h => ?_
      cases v with
      | map es =>
        obtain ⟨fs, rfl, -⟩ := Value.reordered_map_iff.1 h
        simp only [setFields_eq]
        exact (Alike.overFields h fun u hu v w hvw => ih u hu (hn.field hu) hvw).entries
      | _ => have hvw := h; cases h <;> exact Alike.pure hvw
  | list m items ih =>
    rw [setValue, setValue, h.isUndefined_eq]
    split
    · exact Alike.pure (.same rfl)
    · refine (setOwn_alike hn.self.setter h).bind fun v w h => ?_
      cases v with
      | list xs =>
        obtain ⟨ys, rfl, hxs⟩ := Value.reordered_list_iff.1 h
        exact Alike.elements hxs fun e d i hed => ih hn.item hed
      | _ => have hvw := h; cases h <;> exact Alike.pure hvw
  | set m items ih =>
    rw [setValue, setValue, h.isUndefined_eq]
    split
    · exact Alike.pure (.same rfl)
    · refine (setOwn_alike hn.self.setter h).bind fun v w h => ?_
      cases v with
      | set xs =>
        obtain ⟨ys, rfl, hxs⟩ := Value.reordered_set_iff.1 h
        exact Alike.members hxs fun x y hxy => ih hn.member hxy
      | _ => have hvw := h; cases h <;> exact Alike.pure hvw
  | union m variants ih =>
    rw [setValue, setValue]
    exact Alike.union h (fun u hu => ih u hu (hn.variant hu) h) ⟨rfl, fun i => setVariant_eq⟩
      ⟨rfl, fun i => setVariant_eq⟩
  | _ =>
    rw [setValue, setValue, h.isUndefined_eq]
    split
    · exact Alike.pure (.same rfl)
    · exact setOwn_alike hn.self.setter h

theorem rewrite_pruned_reordered (h : v.Reordered w) : (n.rewrite t.chooser pruned key path v).Reordered
    (n.rewrite t.chooser pruned key path w) := by
  induction n generalizing key path v w with
  | object m fields isOpen ih =>
    cases v with
    | map es =>
      obtain ⟨fs, rfl, -⟩ := Value.reordered_map_iff.1 h
      have hkept : (Value.map (keptEntries fields isOpen es)).Reordered (.map (keptEntries fields isOpen fs)) := by
        cases isOpen with
        | true => exact h
        | false => exact h.filter fun key => Entries.has key fields
      rw [rewrite_object (show pruned (object m fields isOpen) (.map es) = _ from rfl),
        rewrite_object (show pruned (object m fields isOpen) (.map fs) = _ from rfl)]
      refine hkept.mapEntries fun name v w hv hw => ?_
      simp only [rewriteField_eq]
      cases hu : Entries.get? name fields with
      | none => exact hkept.of_get? hv hw
      | some u => exact ih (name, u) (Entries.mem_of_get? hu) (hkept.of_get? hv hw)
    | _ => have hvw := h; cases h <;> exact hvw
  | list m items ih =>
    cases v with
    | list xs =>
      obtain ⟨ys, rfl, hxs⟩ := Value.reordered_list_iff.1 h
      refine .list (List.rel_map ?_ (Passing.zipIdx_reordered hxs 0))
      rintro ⟨e, i⟩ ⟨d, -⟩ ⟨hed, rfl⟩
      exact ih hed
    | _ => have hvw := h; cases h <;> exact hvw
  | union m variants ih =>
    have hsame (v : Value) : pruned (union m variants) v = v := rfl
    rw [rewrite, rewrite, hsame, hsame, chooser_congr h.isUndefined_eq]
    cases t.chooser key path variants w with
    | none => exact h
    | some i =>
      simp only [rewriteVariant_eq]
      cases hu : variants[i]? with
      | none => exact h
      | some u => exact ih u (List.mem_of_getElem? hu) h
  | _ => exact h

theorem prune_setValue_alike (hk : n.Throughout WellKeyed) (hn : n.Throughout CallbackFree) (hp : n.Throughout Plain)
    (h : v.Reordered w) : Alike Reordered (setValue around key path v n >>= fun x => prune key path x n)
      (setValue around' key path w n >>= fun x => prune key path x n) := by
  intro s
  have halike : Alike Reordered (setValue around key path v n) (setValue around' key path w n) := setValue_alike hn h
  obtain ⟨hvalue, hstate⟩ := halike s
  rw [prune_setValue hk hp h.wellKeyed.1, prune_setValue hk hp h.wellKeyed.2, hstate]
  exact ⟨rewrite_pruned_reordered hvalue, rfl⟩

theorem forStore_alike {context : Value} (hk : n.Throughout WellKeyed) (hn : n.Throughout CallbackFree)
    (hp : n.Throughout Plain) (h : item.Reordered item') :
    Alike Reordered (n.forStore item context) (n.forStore item' context) := by
  rw [forStore, forStore]
  refine (fill_alike hk hn h).bind fun v w h => (shape_alike h).bind fun v w h => ?_
  exact prune_setValue_alike hk hn hp h

end Node

structure Rejection.Alike (e e' : Rejection) : Prop where
  phase : e.phase = e'.phase
  table : e.table = e'.table
  paths : Entries.keys e.violations = Entries.keys e'.violations

namespace Node

variable {n : Node} {v w : Value} {path table : String} {phase : Phase} {phases : List Phase} {s : Pass}

theorem surveyed_alike (h : v.Reordered w) : Passing.Alike (fun vs ws => Entries.keys vs = Entries.keys ws)
    (n.surveyed phase path v) (n.surveyed phase path w) := by
  intro s
  have hvisit : (Survey.visit phase false path path v { picks := s.picks } n).Alike
      (Survey.visit phase false path path w { picks := s.picks } n) := Survey.visit_alike h .refl
  simp only [surveyed, hvisit.picks]
  exact ⟨hvisit.paths, trivial⟩

theorem failure?_alike (hp : Phase.custom ∉ phases) (hv : n.Throughout fun n => n.modifiers.validator = none)
    (h : v.Reordered w) : Option.Rel Rejection.Alike (n.failure? path table v (phases ++ [.custom]) s).1
      (n.failure? path table w (phases ++ [.custom]) s).1 := by
  induction phases generalizing s with
  | nil =>
    have hnone (v : Value) : (n.failure? path table v [.custom] s).1 = none := by
      rw [failure?_cons, violationsOf, Passing.bind_apply, objections_of_no_validator hv]
      rfl
    rw [List.nil_append, hnone, hnone]
    exact .none
  | cons phase rest ih =>
    obtain ⟨hphase, hrest⟩ := List.ne_and_not_mem_of_not_mem_cons hp
    have halike : Passing.Alike (fun vs ws => Entries.keys vs = Entries.keys ws) (n.surveyed phase path v)
        (n.surveyed phase path w) := surveyed_alike h
    obtain ⟨hkeys, hstate⟩ := halike s
    have hempty : (n.surveyed phase path v s).1.isEmpty = (n.surveyed phase path w s).1.isEmpty := by
      rw [Bool.eq_iff_iff, List.isEmpty_iff_length_eq_zero, List.isEmpty_iff_length_eq_zero,
        Entries.length_eq_of_keys hkeys]
    simp only [List.cons_append, failure?_cons, violationsOf_eq_surveyed hphase.symm, hempty, hstate]
    split
    · exact ih hrest
    · exact .some ⟨rfl, rfl, hkeys⟩

theorem validate_alike (hv : n.Throughout fun n => n.modifiers.validator = none) (h : v.Reordered w) :
    Option.Rel Rejection.Alike (n.validate path table v s).1 (n.validate path table w s).1 := by
  have hsurveys : Phase.custom ∉ Phase.surveys := by decide
  exact failure?_alike hsurveys hv h

end Node

namespace Schema

variable {decl : SchemaDeclaration} {s : Schema} {item item' : Value}

def JudgesAlike (s : Schema) (table : String) (v w : Value) : Prop :=
  ∀ p, Option.Rel Rejection.Alike (s.root.validate "" table v p).1 (s.root.validate "" table w p).1

/-- Without callbacks, the order in which an item and the maps in it have their keys does not matter: what is to be
stored is the same but for such an order, with the same picks, and validation says the same of it and of the item. -/
theorem forStore_reordered (table : String) (hdecl : ofDeclaration decl = .ok s) (hk : s.WellKeyed)
    (hn : s.root.Throughout Node.CallbackFree) (hv : s.root.Throughout fun n => n.modifiers.validator = none)
    (h : item.Reordered item') : s.JudgesAlike table item item' ∧ ∀ context p,
      (s.root.forStore item context p).1.Reordered (s.root.forStore item' context p).1 ∧
      (s.root.forStore item context p).2 = (s.root.forStore item' context p).2 ∧
      s.JudgesAlike table (s.root.forStore item context p).1 (s.root.forStore item' context p).1 := by
  have hplain : s.root.Throughout Node.Plain :=
    (hn.and (root_holdsMembers hdecl)).mono fun n hn => ⟨hn.1.setter, hn.2⟩
  refine ⟨fun p => Node.validate_alike hv h, fun context p => ?_⟩
  have halike : Passing.Alike Reordered (s.root.forStore item context) (s.root.forStore item' context) :=
    Node.forStore_alike hk hn hplain h
  obtain ⟨hstored, hstate⟩ := halike p
  exact ⟨hstored, hstate, fun q => Node.validate_alike hv hstored⟩

def shipmentFields : SchemaDeclaration := [
  ("id", .typed .string none none false { memberships := { primary := true } }),
  ("target", .union [
    .typed .object (some [("street", .tag .string), ("city", .tag .string)]) none false {},
    .typed .object (some [("lat", .tag .number), ("lon", .tag .number)]) none false {}])]

def requiredScalar (k : Scalar) : Node := .scalar { required := true } k

def shipments : Schema where
  root := .object { required := true } [
    ("id", .scalar { required := true, memberships := { primary := true } } .string),
    ("target", .union {} [
      .object {} [("street", requiredScalar .string), ("city", requiredScalar .string)] false,
      .object {} [("lat", requiredScalar .number), ("lon", requiredScalar .number)] false])] false
  primaryKey := "id"
  sortKey := none
  attributeDefinitions := [⟨"id", .s⟩]
  localIndexes := []
  globalIndexes := []

theorem shipments_wellKeyed : shipments.WellKeyed :=
  ⟨.of_object (by decide) (.of_none rfl rfl), .of_none rfl rfl rfl, ⟨.of_none rfl rfl rfl,
    ⟨.of_object (by decide) (.of_none rfl rfl), .of_none rfl rfl rfl, .of_none rfl rfl rfl, trivial⟩,
    ⟨.of_object (by decide) (.of_none rfl rfl), .of_none rfl rfl rfl, .of_none rfl rfl rfl, trivial⟩, trivial⟩, trivial⟩

theorem shipments_callbackFree : shipments.root.Throughout Node.CallbackFree :=
  ⟨.of_none rfl rfl, .of_none rfl rfl, ⟨.of_none rfl rfl,
    ⟨.of_none rfl rfl, .of_none rfl rfl, .of_none rfl rfl, trivial⟩,
    ⟨.of_none rfl rfl, .of_none rfl rfl, .of_none rfl rfl, trivial⟩, trivial⟩, trivial⟩

def shipment : List (String × Value) :=
  [("id", .string "s"), ("target", .map [("lat", .number (.ofInt 52)), ("lon", .number (.ofInt 13)), ("zoom", .null)])]

def shipmentReordered : List (String × Value) :=
  [("target", .map [("zoom", .null), ("lon", .number (.ofInt 13)), ("lat", .number (.ofInt 52))]), ("id", .string "s")]

theorem shipment_reordered : (Value.map shipment).Reordered (.map shipmentReordered) := by
  have htarget : (Value.map [("lat", .number (.ofInt 52)), ("lon", .number (.ofInt 13)), ("zoom", .null)]).Reordered
      (.map [("zoom", .null), ("lon", .number (.ofInt 13)), ("lat", .number (.ofInt 52))]) :=
    Value.reordered_of_perm rfl (List.reverse_perm _).symm
  refine .map (by decide) (by decide) fun key v w hv hw => ?_
  by_cases hkey : key = "id"
  · subst hkey
    cases hv
    cases hw
    exact .same rfl
  · by_cases hkey' : key = "target"
    · subst hkey'
      cases hv
      cases hw
      exact htarget
    · simp [shipment, Entries.get?, Ne.symm hkey, Ne.symm hkey'] at hv

theorem shipment_stored_alike : ofDeclaration shipmentFields = .ok shipments ∧
    (shipments.root.forStore (.map shipment) .undefined {}).1.Reordered
      (shipments.root.forStore (.map shipmentReordered) .undefined {}).1 ∧
    shipments.JudgesAlike "shipments" (.map shipment) (.map shipmentReordered) ∧
    (shipments.root.forStore (.map shipmentReordered) .undefined {}).1 = .map [("target",
      .map [("lon", .number (.ofInt 13)), ("lat", .number (.ofInt 52))]), ("id", .string "s")] := by
  have hdecl : ofDeclaration shipmentFields = .ok shipments := rfl
  have hv : shipments.root.Throughout fun n => n.modifiers.validator = none := by
    simp [shipments, requiredScalar, Node.Throughout, Node.fieldsThroughout, Node.variantsThroughout, Node.modifiers]
  have hboth := forStore_reordered "shipments" hdecl shipments_wellKeyed shipments_callbackFree hv shipment_reordered
  exact ⟨hdecl, (hboth.2 .undefined {}).1, hboth.1, rfl⟩

end Schema

end ItemMapper
