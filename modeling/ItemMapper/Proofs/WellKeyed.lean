import ItemMapper.Proofs.DistinctMembers
import ItemMapper.Proofs.Passing
import ItemMapper.Schema.Compile

/-!
# Distinct keys

The keys of a map differ, in the values that callers give, in the objects of a schema, and in what its defaults and
callbacks return. The passes over an item keep it so.
-/

namespace ItemMapper

namespace Value

mutual

def wellKeyed : Value → Bool
  | .map entries => decide (Entries.keys entries).Nodup && entriesWellKeyed entries
  | .list items => itemsWellKeyed items
  | .set members => itemsWellKeyed members
  | _ => true

def itemsWellKeyed : List Value → Bool
  | [] => true
  | v :: rest => wellKeyed v && itemsWellKeyed rest

def entriesWellKeyed : List (String × Value) → Bool
  | [] => true
  | (_, v) :: rest => wellKeyed v && entriesWellKeyed rest

end

theorem itemsWellKeyed_iff {items : List Value} : itemsWellKeyed items = true ↔ ∀ v ∈ items, v.wellKeyed = true := by
  induction items with
  | nil => simp [itemsWellKeyed]
  | cons v rest ih => simp [itemsWellKeyed, ih]

theorem entriesWellKeyed_iff {entries : List (String × Value)} :
    entriesWellKeyed entries = true ↔ ∀ e ∈ entries, e.2.wellKeyed = true := by
  induction entries with
  | nil => simp [entriesWellKeyed]
  | cons e rest ih => simp [entriesWellKeyed, ih]

theorem wellKeyed_map {entries : List (String × Value)} : (Value.map entries).wellKeyed = true ↔
    (Entries.keys entries).Nodup ∧ ∀ e ∈ entries, e.2.wellKeyed = true := by
  simp [wellKeyed, entriesWellKeyed_iff]

theorem wellKeyed_list {items : List Value} :
    (Value.list items).wellKeyed = true ↔ ∀ v ∈ items, v.wellKeyed = true := by
  rw [wellKeyed, itemsWellKeyed_iff]

theorem wellKeyed_set {members : List Value} :
    (Value.set members).wellKeyed = true ↔ ∀ v ∈ members, v.wellKeyed = true := by
  rw [wellKeyed, itemsWellKeyed_iff]

theorem wellKeyed_get? {key : String} {entries : List (String × Value)} {v : Value}
    (hm : (Value.map entries).wellKeyed = true) (hv : Entries.get? key entries = some v) : v.wellKeyed = true :=
  (wellKeyed_map.1 hm).2 _ (Entries.mem_of_get? hv)

theorem wellKeyed_getD {key : String} {entries : List (String × Value)} (hm : (Value.map entries).wellKeyed = true) :
    ((Entries.get? key entries).getD .undefined).wellKeyed = true := by
  cases hv : Entries.get? key entries with
  | none => rfl
  | some v => exact wellKeyed_get? hm hv

theorem wellKeyed_insert {key : String} {entries : List (String × Value)} {v : Value}
    (hm : (Value.map entries).wellKeyed = true) (hv : v.wellKeyed = true) :
    (Value.map (Entries.insert key v entries)).wellKeyed = true := by
  rw [wellKeyed_map] at hm ⊢
  refine ⟨Entries.nodup_keys_insert hm.1, fun e he => ?_⟩
  rcases Entries.mem_insert he with rfl | he
  · exact hv
  · exact hm.2 e he

end Value

structure Modifiers.WellKeyed (m : Modifiers) : Prop where
  fixed : ∀ d, m.default = some (.fixed d) → d.wellKeyed = true
  computed : ∀ f, m.default = some (.computed f) → ∀ item, item.wellKeyed = true → (f.run item).wellKeyed = true
  setter : ∀ f, m.setter = some f → ∀ v item context, v.wellKeyed = true → item.wellKeyed = true →
    context.wellKeyed = true → (f.run v item context).wellKeyed = true

theorem Modifiers.WellKeyed.of_none {m : Modifiers} (hd : m.default = none) (hs : m.setter = none) : m.WellKeyed :=
  ⟨by simp [hd], by simp [hd], by simp [hs]⟩

structure Node.WellKeyed (n : Node) : Prop where
  names : ∀ fields, n.fields? = some fields → (Entries.keys fields).Nodup
  sources : n.modifiers.WellKeyed

theorem Node.WellKeyed.of_object {m : Modifiers} {fields : List (String × Node)} {isOpen : Bool}
    (hk : (Entries.keys fields).Nodup) (hm : m.WellKeyed) : (Node.object m fields isOpen).WellKeyed :=
  ⟨by rintro _ ⟨⟩; exact hk, hm⟩

theorem Node.WellKeyed.of_leaf {n : Node} (hf : n.fields? = none) (hm : n.modifiers.WellKeyed) : n.WellKeyed :=
  ⟨by simp [hf], hm⟩

theorem Node.WellKeyed.of_none {n : Node} (hf : n.fields? = none) (hd : n.modifiers.default = none)
    (hs : n.modifiers.setter = none) : n.WellKeyed := .of_leaf hf (.of_none hd hs)

/-- Every schema whose objects and values are maps with distinct keys. -/
def Schema.WellKeyed (s : Schema) : Prop := s.root.Throughout Node.WellKeyed

namespace Node

theorem Throughout.nodup_fields {m : Modifiers} {fields : List (String × Node)} {isOpen : Bool}
    (h : (object m fields isOpen).Throughout WellKeyed) : (Entries.keys fields).Nodup := h.self.names fields rfl

variable {n : Node} {item v : Value} {around : Surroundings} {key path : String} {m : Modifiers}

theorem withDefault_wellKeyed (hm : m.WellKeyed) (hi : item.wellKeyed = true) (hv : v.wellKeyed = true) :
    (withDefault m item v).Ensures fun w => w.wellKeyed = true := by
  rw [withDefault]
  split
  · exact Passing.Ensures.pure hv
  · split
    · exact Passing.Ensures.pure (hm.fixed _ ‹_›)
    · exact fun s => hm.computed _ ‹_› item hi
    · exact Passing.Ensures.pure hv

theorem storedForm_wellKeyed (hv : v.wellKeyed = true) : (n.storedForm v).wellKeyed = true := by
  rw [storedForm]
  split
  · cases h : n.dateFormat.stored? v with
    | none => exact hv
    | some w =>
      obtain ⟨ms, -, rfl⟩ := Option.map_eq_some_iff.1 h
      rfl
  · exact hv

theorem setOwn_wellKeyed (hn : n.WellKeyed) (hi : around.item.wellKeyed = true)
    (hc : around.context.wellKeyed = true) (hv : v.wellKeyed = true) :
    (setOwn around n v).Ensures fun w => w.wellKeyed = true := by
  have hstore : ∀ w : Value, w.wellKeyed = true →
      Passing.Ensures (pure (if n.isDate && w.truthy then n.storedForm w else w)) fun w => w.wellKeyed = true := by
    intro w hw
    refine Passing.Ensures.pure ?_
    split
    · exact storedForm_wellKeyed hw
    · exact hw
  rw [setOwn]
  cases hf : n.modifiers.setter with
  | none => exact hstore v hv
  | some f =>
    have hset : (Passing.record (f.onValue v around.item around.context)).Ensures fun w => w.wellKeyed = true :=
      fun _ => hn.sources.setter f hf _ _ _ hv hi hc
    exact Passing.Ensures.bind hset hstore

theorem fillFields_wellKeyed {entries : List (String × Value)} {fields : List (String × Node)}
    (hm : (Value.map entries).wellKeyed = true) (h : ∀ f ∈ fields, ∀ key path v, v.wellKeyed = true →
      (fill item key path v f.2).Ensures fun w => w.wellKeyed = true) :
    (fillFields item path entries fields).Ensures fun es => (Value.map es).wellKeyed = true := by
  induction fields generalizing entries with
  | nil => exact Passing.Ensures.pure hm
  | cons f rest ih =>
    rw [fillFields]
    refine Passing.Ensures.bind (h f List.mem_cons_self _ _ _ (Value.wellKeyed_getD hm)) fun w hw => ?_
    refine ih ?_ fun g hg => h g (List.mem_cons_of_mem _ hg)
    split
    · exact hm
    · exact Value.wellKeyed_insert hm hw

theorem fill_wellKeyed (hi : item.wellKeyed = true) (hn : n.Throughout WellKeyed) (hv : v.wellKeyed = true) :
    (fill item key path v n).Ensures fun w => w.wellKeyed = true := by
  induction n generalizing key path v with
  | object m fields isOpen ih =>
    rw [fill]
    refine Passing.Ensures.bind (withDefault_wellKeyed hn.self.sources hi hv) fun w hw => ?_
    cases w with
    | map entries =>
      refine Passing.Ensures.bind (P := fun es => (Value.map es).wellKeyed = true) ?_ fun es hes =>
        Passing.Ensures.pure hes
      exact fillFields_wellKeyed hw fun f hf key path v hv => ih f hf (hn.field hf) hv
    | _ => exact Passing.Ensures.pure hw
  | list m items ih =>
    rw [fill]
    refine Passing.Ensures.bind (withDefault_wellKeyed hn.self.sources hi hv) fun w hw => ?_
    cases w with
    | list elements =>
      refine Passing.Ensures.bind (Passing.Ensures.mapM fun e he => ?_) fun es hes =>
        Passing.Ensures.pure (Value.wellKeyed_list.2 hes)
      exact ih hn.item (Value.wellKeyed_list.1 hw e.1 (List.fst_mem_of_mem_zipIdx he))
    | _ => exact Passing.Ensures.pure hw
  | union m variants ih =>
    rw [fill]
    refine Passing.Ensures.bind (withDefault_wellKeyed hn.self.sources hi hv) fun w hw => ?_
    exact Passing.Ensures.enter (fun u hu => ih u hu (hn.variant hu) hw) (.pure hw) rfl fun i => fillVariant_eq
  | _ => exact withDefault_wellKeyed hn.self.sources hi hv

theorem overFields_wellKeyed {rewrite : String → Node → Value → Passing Value} {entries : List (String × Value)}
    {fields : List (String × Node)} (hm : (Value.map entries).wellKeyed = true)
    (h : ∀ f ∈ fields, ∀ v, v.wellKeyed = true → (rewrite f.1 f.2 v).Ensures fun w => w.wellKeyed = true) :
    (overFields rewrite entries fields).Ensures fun es => (Value.map es).wellKeyed = true := by
  induction fields generalizing entries with
  | nil => exact Passing.Ensures.pure hm
  | cons f rest ih =>
    have hrest := fun g hg => h g (List.mem_cons_of_mem f hg)
    rw [overFields]
    cases hv : Entries.get? f.1 entries with
    | none => exact ih hm hrest
    | some v =>
      refine Passing.Ensures.bind (h f List.mem_cons_self v (Value.wellKeyed_get? hm hv)) fun w hw => ?_
      exact ih (Value.wellKeyed_insert hm hw) hrest

theorem wellKeyed_distinct {members : List Value} (h : ∀ v ∈ members, v.wellKeyed = true) :
    (Value.set (Value.distinct members)).wellKeyed = true :=
  Value.wellKeyed_set.2 fun v hv => h v (Value.mem_of_mem_distinct hv)

theorem shape_wellKeyed (hv : v.wellKeyed = true) :
    (shape key path v n).Ensures fun w => w.wellKeyed = true := by
  induction n generalizing key path v with
  | scalar m k =>
    cases k <;> cases v <;> exact Passing.Ensures.pure hv
  | object m fields isOpen ih =>
    cases v with
    | map entries =>
      rw [shape, shapeFields_eq]
      refine Passing.Ensures.bind (overFields_wellKeyed hv fun f hf v hv => ih f hf hv) fun es hes => ?_
      exact Passing.Ensures.pure hes
    | _ => exact Passing.Ensures.pure hv
  | list m items ih =>
    cases v with
    | list elements =>
      rw [shape]
      refine Passing.Ensures.bind (Passing.Ensures.mapM fun e he => ?_) fun es hes =>
        Passing.Ensures.pure (Value.wellKeyed_list.2 hes)
      exact ih (Value.wellKeyed_list.1 hv e.1 (List.fst_mem_of_mem_zipIdx he))
    | _ => exact Passing.Ensures.pure hv
  | set m items ih =>
    cases v with
    | set members =>
      rw [shape]
      refine Passing.Ensures.bind (Passing.Ensures.mapM fun e he => ?_) fun es hes =>
        Passing.Ensures.pure (wellKeyed_distinct hes)
      exact ih (Value.wellKeyed_set.1 hv e he)
    | _ => exact Passing.Ensures.pure hv
  | union m variants ih =>
    exact Passing.Ensures.enter (fun u hu => ih u hu hv) (.pure hv) rfl fun i => shapeVariant_eq
  | any m => exact Passing.Ensures.pure hv
  | undefined m => exact Passing.Ensures.pure hv

theorem setValue_wellKeyed (hi : around.item.wellKeyed = true) (hc : around.context.wellKeyed = true)
    (hn : n.Throughout WellKeyed) (hv : v.wellKeyed = true) :
    (setValue around key path v n).Ensures fun w => w.wellKeyed = true := by
  induction n generalizing key path v with
  | object m fields isOpen ih =>
    refine Passing.Ensures.ite (.pure rfl) (.bind (setOwn_wellKeyed hn.self hi hc hv) fun w hw => ?_)
    cases w with
    | map entries =>
      simp only [setFields_eq]
      refine Passing.Ensures.bind (overFields_wellKeyed hw fun f hf v hv => ih f hf (hn.field hf) hv) fun es hes => ?_
      exact Passing.Ensures.pure hes
    | _ => exact Passing.Ensures.pure hw
  | list m items ih =>
    refine Passing.Ensures.ite (.pure rfl) (.bind (setOwn_wellKeyed hn.self hi hc hv) fun w hw => ?_)
    cases w with
    | list elements =>
      refine Passing.Ensures.bind (Passing.Ensures.mapM fun e he => ?_) fun es hes =>
        Passing.Ensures.pure (Value.wellKeyed_list.2 hes)
      exact ih hn.item (Value.wellKeyed_list.1 hw e.1 (List.fst_mem_of_mem_zipIdx he))
    | _ => exact Passing.Ensures.pure hw
  | set m items ih =>
    refine Passing.Ensures.ite (.pure rfl) (.bind (setOwn_wellKeyed hn.self hi hc hv) fun w hw => ?_)
    cases w with
    | set members =>
      refine Passing.Ensures.bind (Passing.Ensures.mapM fun e he => ?_) fun es hes =>
        Passing.Ensures.pure (wellKeyed_distinct hes)
      exact ih hn.member (Value.wellKeyed_set.1 hw e he)
    | _ => exact Passing.Ensures.pure hw
  | union m variants ih =>
    exact Passing.Ensures.enter (fun u hu => ih u hu (hn.variant hu) hv) (.pure hv) rfl fun i => setVariant_eq
  | scalar m k =>
    exact Passing.Ensures.ite (.pure rfl) (setOwn_wellKeyed hn.self hi hc hv)
  | any m =>
    exact Passing.Ensures.ite (.pure rfl) (setOwn_wellKeyed hn.self hi hc hv)
  | undefined m =>
    exact Passing.Ensures.ite (.pure rfl) (setOwn_wellKeyed hn.self hi hc hv)

theorem keptEntries_subset {fields : List (String × Node)} {isOpen : Bool} {entries : List (String × Value)} :
    keptEntries fields isOpen entries ⊆ entries := by
  rw [keptEntries]
  split
  · exact fun _ h => h
  · exact fun _ h => (List.mem_filter.1 h).1

theorem nodup_keys_keptEntries {fields : List (String × Node)} {isOpen : Bool} {entries : List (String × Value)}
    (h : (Entries.keys entries).Nodup) : (Entries.keys (keptEntries fields isOpen entries)).Nodup := by
  rw [keptEntries]
  split
  · exact h
  · exact (Entries.keys_filter fun key => Entries.has key fields) ▸ h.filter _

theorem prune_wellKeyed (hv : v.wellKeyed = true) :
    (prune key path v n).Ensures fun w => w.wellKeyed = true := by
  induction n generalizing key path v with
  | object m fields isOpen ih =>
    cases v with
    | map entries =>
      rw [prune]
      refine Passing.Ensures.bind (Passing.Ensures.mapEntries (g := fun name v => pruneField path name v fields)
        (Q := fun _ w => w.wellKeyed = true) fun e he => ?_) fun es hes => ?_
      · rw [pruneField_eq]
        have he' : e.2.wellKeyed = true := (Value.wellKeyed_map.1 hv).2 e (keptEntries_subset he)
        cases hf : Entries.get? e.1 fields with
        | none => exact Passing.Ensures.pure he'
        | some u => exact ih (e.1, u) (Entries.mem_of_get? hf) he'
      · refine Passing.Ensures.pure (Value.wellKeyed_map.2 ⟨?_, hes.2⟩)
        rw [hes.1]
        exact nodup_keys_keptEntries (Value.wellKeyed_map.1 hv).1
    | _ => exact Passing.Ensures.pure hv
  | list m items ih =>
    cases v with
    | list elements =>
      rw [prune]
      refine Passing.Ensures.bind (Passing.Ensures.mapM fun e he => ?_) fun es hes =>
        Passing.Ensures.pure (Value.wellKeyed_list.2 hes)
      exact ih (Value.wellKeyed_list.1 hv e.1 (List.fst_mem_of_mem_zipIdx he))
    | _ => exact Passing.Ensures.pure hv
  | union m variants ih =>
    exact Passing.Ensures.enter (fun u hu => ih u hu hv) (.pure hv) rfl fun i => pruneVariant_eq
  | _ => exact Passing.Ensures.pure hv

theorem forStore_wellKeyed {context : Value} (hn : n.Throughout WellKeyed) (hi : item.wellKeyed = true)
    (hc : context.wellKeyed = true) : (n.forStore item context).Ensures fun w => w.wellKeyed = true := by
  rw [forStore]
  refine Passing.Ensures.bind (fill_wellKeyed hi hn hi) fun filled hf => ?_
  refine Passing.Ensures.bind (shape_wellKeyed hf) fun shaped hs => ?_
  refine Passing.Ensures.bind (setValue_wellKeyed hi hc hn hs) fun assigned ha => ?_
  exact prune_wellKeyed ha

end Node

end ItemMapper
