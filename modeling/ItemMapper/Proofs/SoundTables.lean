import ItemMapper.Proofs.Outcomes
import ItemMapper.Proofs.WireEquality
import Mathlib.Data.List.Pairwise

/-!
# Sound tables

In a sound table every item has all attributes of the key, and no two items have one key. What is found under a key is
then the only item of that key. Putting an item replaces the only item of its key or adds one, erasing a key drops the
only item of the key, and the table stays sound.
-/

namespace ItemMapper

namespace Entries

variable {α : Type} {key : String} {value : α} {e : String × α} {entries pairs : List (String × α)}

theorem mem_keys_foldl_insert :
    key ∈ keys (pairs.foldl (fun es p => insert p.1 p.2 es) entries) ↔ key ∈ keys entries ∨ key ∈ keys pairs := by
  induction pairs generalizing entries with
  | nil => simp [keys]
  | cons p rest ih =>
    rw [List.foldl_cons, ih, mem_keys_insert, keys, keys, keys, List.map_cons, List.mem_cons]
    tauto

theorem mem_foldl_insert (h : e ∈ pairs.foldl (fun es p => insert p.1 p.2 es) entries) : e ∈ entries ∨ e ∈ pairs := by
  induction pairs generalizing entries with
  | nil => exact .inl h
  | cons p rest ih =>
    rcases ih h with hold | hnew
    · rcases mem_insert hold with rfl | hold
      · exact .inr List.mem_cons_self
      · exact .inl hold
    · exact .inr (List.mem_cons_of_mem _ hnew)

theorem mem_keys_ofList : key ∈ keys (ofList pairs) ↔ key ∈ keys pairs := by
  rw [ofList, mem_keys_foldl_insert]
  simp [keys]

theorem mem_of_mem_ofList (h : e ∈ ofList pairs) : e ∈ pairs :=
  (mem_foldl_insert h).resolve_left List.not_mem_nil

theorem get?_ofList {whole : List (String × α)} (hpairs : ∀ e ∈ pairs, get? e.1 whole = some e.2)
    (hkey : key ∈ keys pairs) : get? key (ofList pairs) = get? key whole := by
  have hhas : has key (ofList pairs) = true := has_iff.2 (mem_keys_ofList.2 hkey)
  obtain ⟨v, hv⟩ := Option.isSome_iff_exists.1 hhas
  rw [hv, hpairs _ (mem_of_mem_ofList (mem_of_get? hv))]

end Entries

namespace MemoryTable

variable {t : MemoryTable} {x y item key k : Item} {attributes : Item} {names : List String}

def Complete (t : MemoryTable) (item : Item) : Prop := ∀ name ∈ t.key, Entries.has name item = true

theorem of_attributesOf (h : attributesOf item names = .ok attributes) :
    Entries.keys attributes = names ∧ ∀ e ∈ attributes, Entries.get? e.1 item = some e.2 := by
  induction names generalizing attributes with
  | nil =>
    obtain rfl := Except.ok.inj h
    simp [Entries.keys]
  | cons name rest ih =>
    rw [attributesOf] at h
    cases hv : Entries.get? name item with
    | none =>
      rw [hv] at h
      cases h
    | some v =>
      rw [hv] at h
      obtain ⟨others, hothers, rfl⟩ := Outcome.of_map h
      obtain ⟨hkeys, hvalues⟩ := ih hothers
      exact ⟨congrArg (name :: ·) hkeys, List.forall_mem_cons.2 ⟨hv, hvalues⟩⟩

theorem get?_keyOf (h : t.keyOf item = .ok key) {name : String} (hname : name ∈ t.key) :
    Entries.get? name key = Entries.get? name item := by
  obtain ⟨attributes, hattributes, rfl⟩ := Outcome.of_map h
  obtain ⟨hkeys, hvalues⟩ := of_attributesOf hattributes
  exact Entries.get?_ofList hvalues (hkeys ▸ hname)

theorem complete_of_keyOf (h : t.keyOf item = .ok key) : t.Complete item := by
  intro name hname
  obtain ⟨attributes, hattributes, rfl⟩ := Outcome.of_map h
  obtain ⟨hkeys, hvalues⟩ := of_attributesOf hattributes
  have hmem : name ∈ Entries.keys attributes := hkeys ▸ hname
  obtain ⟨e, he, rfl⟩ := List.mem_map.1 hmem
  rw [Entries.has, hvalues e he, Option.isSome_some]

theorem exists_keyOf (h : t.Complete item) : ∃ key, t.keyOf item = .ok key := by
  have hattributes (names : List String) (hnames : ∀ name ∈ names, Entries.has name item = true) :
      ∃ attributes, attributesOf item names = .ok attributes := by
    induction names with
    | nil => exact ⟨[], rfl⟩
    | cons name rest ih =>
      obtain ⟨hname, hrest⟩ := List.forall_mem_cons.1 hnames
      obtain ⟨v, hv⟩ := Option.isSome_iff_exists.1 hname
      obtain ⟨others, hothers⟩ := ih hrest
      exact ⟨(name, v) :: others, by rw [attributesOf, hv, hothers]; rfl⟩
  obtain ⟨attributes, hkey⟩ := hattributes t.key h
  exact ⟨Entries.ofList attributes, by rw [keyOf, hkey]; rfl⟩

theorem sameKey_keyOf (h : t.keyOf item = .ok key) : t.sameKey x key = t.sameKey x item := by
  rw [Bool.eq_iff_iff, sameKey_iff, sameKey_iff]
  exact forall₂_congr fun name hname => by rw [get?_keyOf h hname]

section Store

variable {same : Item → Bool} {items : List Item}

theorem mem_of_mem_store (h : x ∈ store same item items) : x = item ∨ x ∈ items := by
  induction items with
  | nil => exact .inl (List.mem_singleton.1 h)
  | cons first rest ih =>
    by_cases hfirst : same first = true
    · rw [store, if_pos hfirst, List.mem_cons] at h
      exact h.imp_right (List.mem_cons_of_mem _)
    · rw [store, if_neg hfirst, List.mem_cons] at h
      rcases h with rfl | h
      · exact .inr List.mem_cons_self
      · exact (ih h).imp_right (List.mem_cons_of_mem _)

theorem filter_store_others (hitem : same item = true) :
    (store same item items).filter (fun x => !same x) = items.filter fun x => !same x := by
  induction items with
  | nil => simp [store, hitem]
  | cons first rest ih =>
    by_cases hfirst : same first = true
    · simp [store, hfirst, hitem]
    · simp [store, hfirst, ih]

variable (hone : items.Pairwise fun x y => same x = true → same y = false)

include hone

theorem filter_store_self (hitem : same item = true) : (store same item items).filter same = [item] := by
  induction items with
  | nil => simp [store, hitem]
  | cons first rest ih =>
    obtain ⟨hothers, hrest⟩ := List.pairwise_cons.1 hone
    by_cases hfirst : same first = true
    · have hnone : rest.filter same = [] := List.filter_eq_nil_iff.2 fun x hx => by simp [hothers x hx hfirst]
      simp [store, hfirst, hitem, hnone]
    · simp [store, hfirst, ih hrest]

theorem eraseP_eq_filter : items.eraseP same = items.filter fun x => !same x := by
  induction items with
  | nil => rfl
  | cons first rest ih =>
    obtain ⟨hothers, hrest⟩ := List.pairwise_cons.1 hone
    by_cases hfirst : same first = true
    · have hall : rest.filter (fun x => !same x) = rest :=
        List.filter_eq_self.2 fun x hx => by simp [hothers x hx hfirst]
      simp [hfirst, hall]
    · simp [hfirst, ih hrest]

end Store

structure Sound (t : MemoryTable) : Prop where
  wellKeyed : ∀ x ∈ t.items, x.WellKeyed
  complete : ∀ x ∈ t.items, t.Complete x
  distinct : t.items.Pairwise fun x y => t.sameKey x y = false

namespace Sound

theorem empty (key : List String) : Sound { key } := ⟨by simp, by simp, .nil⟩

variable (h : t.Sound)

include h

/-- At most one item has a given key. -/
theorem one (key : Item) : t.items.Pairwise fun x y => t.sameKey x key = true → t.sameKey y key = false := by
  refine h.distinct.imp_of_mem fun {x y} hx hy hxy hsame => ?_
  rw [← sameKey_eq_of_sameKey (h.wellKeyed x hx) (h.wellKeyed y hy) hsame]
  exact hxy

theorem eq_of_sameKey (hx : x ∈ t.items) (hy : y ∈ t.items) (hxk : t.sameKey x key = true)
    (hyk : t.sameKey y key = true) : x = y := by
  by_contra hne
  have hboth : t.items.Pairwise fun x y => t.sameKey x key = false ∨ t.sameKey y key = false :=
    (h.one key).imp fun {x y} hxy => by
      cases hx : t.sameKey x key with
      | false => exact .inl rfl
      | true => exact .inr (hxy hx)
  have hsymm : Std.Symm fun x y => t.sameKey x key = false ∨ t.sameKey y key = false := ⟨fun _ _ => Or.symm⟩
  rcases hboth.forall hx hy hne with hno | hno
  · simp [hxk] at hno
  · simp [hyk] at hno

theorem find?_eq_some_iff : t.find? key = some x ↔ x ∈ t.items ∧ t.sameKey x key = true := by
  constructor
  · intro hfind
    exact ⟨List.mem_of_find?_eq_some hfind, List.find?_some (p := fun x => t.sameKey x key) hfind⟩
  · rintro ⟨hx, hsame⟩
    cases hfind : t.find? key with
    | none => exact absurd hsame (List.find?_eq_none.1 hfind x hx)
    | some y =>
      have hy : t.sameKey y key = true := List.find?_some (p := fun x => t.sameKey x key) hfind
      rw [h.eq_of_sameKey (List.mem_of_find?_eq_some hfind) hx hy hsame]

theorem mem_put (hkey : t.keyOf item = .ok key) (hitem : item.WellKeyed) :
    x ∈ (t.put key item).items ↔ x = item ∨ x ∈ t.items ∧ t.sameKey x item = false := by
  have hself : t.sameKey item item = true := sameKey_self hitem
  have hitems : (t.put key item).items = store (t.sameKey · item) item t.items := by
    simp only [put, sameKey_keyOf hkey]
  have hothers : (store (t.sameKey · item) item t.items).filter (fun x => !t.sameKey x item) =
      t.items.filter fun x => !t.sameKey x item := filter_store_others hself
  have hsame := filter_store_self (h.one item) hself
  rw [← hitems] at hothers hsame
  have hmem : x ∈ (t.put key item).items ↔ x ∈ (t.put key item).items.filter (t.sameKey · item) ∨
      x ∈ (t.put key item).items.filter fun x => !t.sameKey x item := by
    rw [List.mem_filter, List.mem_filter]
    cases t.sameKey x item <;> simp
  rw [hmem, hothers, hsame, List.mem_filter, List.mem_singleton]
  simp

theorem mem_erase : x ∈ (t.erase key).items ↔ x ∈ t.items ∧ t.sameKey x key = false := by
  rw [erase, eraseP_eq_filter (h.one key), List.mem_filter]
  simp

theorem put (hkey : t.keyOf item = .ok key) (hitem : item.WellKeyed) : (t.put key item).Sound := by
  have hstored : ∀ x ∈ (t.put key item).items, x = item ∨ x ∈ t.items := fun x hx => mem_of_mem_store hx
  refine ⟨fun x hx => ?_, fun x hx => ?_, ?_⟩
  · rcases hstored x hx with rfl | hx
    · exact hitem
    · exact h.wellKeyed x hx
  · rcases hstored x hx with rfl | hx
    · exact complete_of_keyOf hkey
    · exact h.complete x hx
  · simp only [MemoryTable.put, sameKey_keyOf hkey]
    -- the items of other keys differ from the new one, and one of its key differs from the others as it does
    have hdistinct := h.distinct
    have hwell := h.wellKeyed
    change (store (t.sameKey · item) item t.items).Pairwise fun x y => t.sameKey x y = false
    generalize t.items = items at hdistinct hwell
    induction items with
    | nil => exact List.pairwise_singleton _ _
    | cons first rest ih =>
      obtain ⟨hothers, hrest⟩ := List.pairwise_cons.1 hdistinct
      obtain ⟨hwfirst, hwrest⟩ := List.forall_mem_cons.1 hwell
      by_cases hfirst : t.sameKey first item = true
      · rw [store, if_pos hfirst, List.pairwise_cons]
        refine ⟨fun y hy => ?_, hrest⟩
        rw [← sameKey_congr hwfirst hfirst, hothers y hy]
      · rw [store, if_neg hfirst, List.pairwise_cons]
        refine ⟨fun y hy => ?_, ih hrest hwrest⟩
        rcases mem_of_mem_store hy with rfl | hy
        · simpa using hfirst
        · exact hothers y hy

theorem erase (key : Item) : (t.erase key).Sound := by
  have hsublist : (t.erase key).items.Sublist t.items := List.eraseP_sublist
  exact ⟨fun x hx => h.wellKeyed x (hsublist.subset hx), fun x hx => h.complete x (hsublist.subset hx),
    h.distinct.sublist hsublist⟩

end Sound

end MemoryTable

end ItemMapper
