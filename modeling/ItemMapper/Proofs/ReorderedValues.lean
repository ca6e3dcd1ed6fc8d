import ItemMapper.Proofs.DistinctMembers
import ItemMapper.Proofs.WellKeyed
import ItemMapper.Schema.Survey
import Mathlib.Data.List.Forall2

/-!
# Reordered values

Two values may be the same but for the order in which their maps have their entries. What a schema looks at in a value
is then the same for both: its kind, the instant that it denotes, and whether it equals another value.
-/

namespace ItemMapper

theorem Entries.eq_map_keys {α : Type} {entries : List (String × α)} (hd : (keys entries).Nodup) (otherwise : α) :
    entries = (keys entries).map fun key => (key, (get? key entries).getD otherwise) := by
  rw [keys, List.map_map]
  refine (List.map_id entries).symm.trans (List.map_congr_left fun e he => ?_)
  rw [Function.comp_apply, get?_of_mem hd he]
  rfl

@[simp] theorem Entries.length_keys {α : Type} {entries : List (String × α)} : (keys entries).length = entries.length :=
  List.length_map _

theorem Entries.length_eq_of_keys {α β : Type} {entries : List (String × α)} {others : List (String × β)}
    (h : keys entries = keys others) : entries.length = others.length := by
  rw [← length_keys, h, length_keys]

namespace Value

/-- The same value, but for the order of the entries of its maps. Maps have distinct keys, at any depth. -/
inductive Reordered : Value → Value → Prop
  | same {v : Value} (h : v.wellKeyed = true) : Reordered v v
  | list {xs ys : List Value} (h : List.Forall₂ Reordered xs ys) : Reordered (.list xs) (.list ys)
  | set {xs ys : List Value} (h : List.Forall₂ Reordered xs ys) : Reordered (.set xs) (.set ys)
  | map {es fs : List (String × Value)} (hd : (Entries.keys es).Nodup) (hk : (Entries.keys es).Perm (Entries.keys fs))
      (h : ∀ key v w, Entries.get? key es = some v → Entries.get? key fs = some w → Reordered v w) :
      Reordered (.map es) (.map fs)

@[elab_as_elim]
theorem induct {P : Value → Prop} (undefined : P undefined) (null : P null) (bool : ∀ b, P (bool b))
    (number : ∀ x, P (number x)) (bigInt : ∀ i, P (bigInt i)) (string : ∀ s, P (string s))
    (binary : ∀ bytes, P (binary bytes)) (date : ∀ t, P (date t)) (list : ∀ items, (∀ v ∈ items, P v) → P (list items))
    (map : ∀ entries, (∀ e ∈ entries, P e.2) → P (map entries)) (set : ∀ members, (∀ v ∈ members, P v) → P (set members))
    (v : Value) : P v := by
  refine Value.rec (motive_1 := P) (motive_2 := fun items => ∀ v ∈ items, P v)
    (motive_3 := fun entries => ∀ e ∈ entries, P e.2) (motive_4 := fun e => P e.2)
    undefined null bool number bigInt string binary date list map set ?_ ?_ ?_ ?_ ?_ v
  · simp
  · exact fun v rest hv hrest => List.forall_mem_cons.2 ⟨hv, hrest⟩
  · simp
  · exact fun e rest he hrest => List.forall_mem_cons.2 ⟨he, hrest⟩
  · exact fun _ _ h => h

variable {v w u : Value} {xs ys : List Value} {es fs : List (String × Value)} {key : String}

theorem reordered_list_iff : (list xs).Reordered w ↔ ∃ ys, w = .list ys ∧ List.Forall₂ Reordered xs ys := by
  constructor
  · intro h
    cases h with
    | same hv => exact ⟨xs, rfl, List.forall₂_same.2 fun x hx => .same (wellKeyed_list.1 hv x hx)⟩
    | list h => exact ⟨_, rfl, h⟩
  · rintro ⟨ys, rfl, h⟩
    exact .list h

theorem reordered_set_iff : (set xs).Reordered w ↔ ∃ ys, w = .set ys ∧ List.Forall₂ Reordered xs ys := by
  constructor
  · intro h
    cases h with
    | same hv => exact ⟨xs, rfl, List.forall₂_same.2 fun x hx => .same (wellKeyed_set.1 hv x hx)⟩
    | set h => exact ⟨_, rfl, h⟩
  · rintro ⟨ys, rfl, h⟩
    exact .set h

theorem reordered_map_iff : (map es).Reordered w ↔ ∃ fs, w = .map fs ∧ (Entries.keys es).Nodup ∧
    (Entries.keys es).Perm (Entries.keys fs) ∧
      ∀ key v w, Entries.get? key es = some v → Entries.get? key fs = some w → v.Reordered w := by
  constructor
  · intro h
    cases h with
    | same hv =>
      refine ⟨es, rfl, (wellKeyed_map.1 hv).1, .refl _, fun key v w hv' hw => ?_⟩
      obtain rfl := Option.some.inj (hv'.symm.trans hw)
      exact .same (wellKeyed_get? hv hv')
    | map hd hk h => exact ⟨_, rfl, hd, hk, h⟩
  · rintro ⟨fs, rfl, hd, hk, h⟩
    exact .map hd hk h

theorem reordered_maps_iff : (map es).Reordered (.map fs) ↔ (Entries.keys es).Nodup ∧
    (Entries.keys es).Perm (Entries.keys fs) ∧
      ∀ key v w, Entries.get? key es = some v → Entries.get? key fs = some w → v.Reordered w := by
  rw [reordered_map_iff]
  simp

theorem reordered_of_perm (h : (map es).wellKeyed = true) (hp : es.Perm fs) : (map es).Reordered (.map fs) := by
  obtain ⟨hd, hvalues⟩ := wellKeyed_map.1 h
  have hd' : (Entries.keys fs).Nodup := (hp.map Prod.fst).nodup_iff.1 hd
  refine .map hd (hp.map Prod.fst) fun key v w hv hw => ?_
  have hmem : (key, v) ∈ fs := hp.mem_iff.1 (Entries.mem_of_get? hv)
  obtain rfl := Option.some.inj ((Entries.get?_of_mem hd' hmem).symm.trans hw)
  exact .same (wellKeyed_get? h hv)

namespace Reordered

section Maps

variable (h : (Value.map es).Reordered (.map fs))

include h

theorem nodup : (Entries.keys es).Nodup := (reordered_maps_iff.1 h).1

theorem keys_perm : (Entries.keys es).Perm (Entries.keys fs) := (reordered_maps_iff.1 h).2.1

theorem nodup_right : (Entries.keys fs).Nodup := h.keys_perm.nodup_iff.1 h.nodup

theorem of_get? (hv : Entries.get? key es = some v) (hw : Entries.get? key fs = some w) : v.Reordered w :=
  (reordered_maps_iff.1 h).2.2 key v w hv hw

theorem get? (key : String) : Option.Rel Reordered (Entries.get? key es) (Entries.get? key fs) := by
  cases hv : Entries.get? key es with
  | none =>
    have hno : Entries.get? key fs = none :=
      Entries.get?_eq_none_iff.2 fun hk => Entries.get?_eq_none_iff.1 hv (h.keys_perm.mem_iff.2 hk)
    rw [hno]
    exact .none
  | some v =>
    have hk : key ∈ Entries.keys fs := h.keys_perm.mem_iff.1 (Entries.has_iff.1 (by rw [Entries.has, hv]; rfl))
    obtain ⟨w, hw⟩ := Option.isSome_iff_exists.1 (Entries.has_iff.2 hk)
    rw [hw]
    exact .some (h.of_get? hv hw)

theorem any_eq {p : Value → Bool} (hp : ∀ v w, v.Reordered w → p v = p w) :
    (Entries.get? key es).any p = (Entries.get? key fs).any p := by
  have hrel := h.get? key
  revert hrel
  generalize Entries.get? key es = v, Entries.get? key fs = w
  rintro (hvw | -)
  · exact hp _ _ hvw
  · rfl

theorem getD (key : String) :
    ((Entries.get? key es).getD .undefined).Reordered ((Entries.get? key fs).getD .undefined) := by
  have hrel := h.get? key
  revert hrel
  generalize Entries.get? key es = v, Entries.get? key fs = w
  rintro (hvw | -)
  · exact hvw
  · exact .same rfl

theorem map_perm {β : Type} {g g' : String × Value → β} (hg : ∀ key v w, Entries.get? key es = some v →
    Entries.get? key fs = some w → g (key, v) = g' (key, w)) : (es.map g).Perm (fs.map g') := by
  rw [Entries.eq_map_keys h.nodup .undefined, Entries.eq_map_keys h.nodup_right .undefined, List.map_map, List.map_map]
  have hsame : (Entries.keys es).map (g ∘ fun key => (key, (Entries.get? key es).getD .undefined)) =
      (Entries.keys es).map (g' ∘ fun key => (key, (Entries.get? key fs).getD .undefined)) := by
    refine List.map_congr_left fun key hk => ?_
    obtain ⟨v, hv⟩ := Option.isSome_iff_exists.1 (Entries.has_iff.2 hk)
    obtain ⟨w, hw⟩ := Option.isSome_iff_exists.1 (Entries.has_iff.2 (h.keys_perm.mem_iff.1 hk))
    simp only [Function.comp_apply, hv, hw, Option.getD_some]
    exact hg key v w hv hw
  rw [hsame]
  exact h.keys_perm.map _

theorem length_eq : es.length = fs.length := by
  rw [← Entries.length_keys, h.keys_perm.length_eq, Entries.length_keys]

theorem all_entries_eq {g g' : String × Value → Bool} (hg : ∀ key v w, Entries.get? key es = some v →
    Entries.get? key fs = some w → g (key, v) = g' (key, w)) : es.all g = fs.all g' := by
  have hall := (h.map_perm hg).all_eq (f := id)
  rwa [List.all_map, List.all_map] at hall

theorem insert (hvw : v.Reordered w) :
    (Value.map (Entries.insert key v es)).Reordered (.map (Entries.insert key w fs)) := by
  refine .map (Entries.nodup_keys_insert h.nodup) ?_ fun k x y hx hy => ?_
  · refine (List.perm_ext_iff_of_nodup (Entries.nodup_keys_insert h.nodup) (Entries.nodup_keys_insert h.nodup_right)).2
      fun k => ?_
    rw [Entries.mem_keys_insert, Entries.mem_keys_insert, h.keys_perm.mem_iff]
  · rw [Entries.get?_insert] at hx hy
    split at hx
    · cases hx
      rw [if_pos ‹_›] at hy
      cases hy
      exact hvw
    · rw [if_neg ‹_›] at hy
      exact h.of_get? hx hy

theorem filter (p : String → Bool) :
    (Value.map (es.filter fun e => p e.1)).Reordered (.map (fs.filter fun e => p e.1)) := by
  refine .map ?_ ?_ fun k x y hx hy => ?_
  · rw [Entries.keys_filter]
    exact h.nodup.filter p
  · rw [Entries.keys_filter, Entries.keys_filter]
    exact h.keys_perm.filter p
  · rw [Entries.get?_filter] at hx hy
    split at hx
    · rw [if_pos ‹_›] at hy
      exact h.of_get? hx hy
    · cases hx

theorem mapEntries {g g' : String × Value → Value} (hg : ∀ key v w, Entries.get? key es = some v →
    Entries.get? key fs = some w → (g (key, v)).Reordered (g' (key, w))) :
    (Value.map (es.map fun e => (e.1, g e))).Reordered (.map (fs.map fun e => (e.1, g' e))) := by
  refine .map ?_ ?_ fun k x y hx hy => ?_
  · rw [Entries.keys_map]
    exact h.nodup
  · rw [Entries.keys_map, Entries.keys_map]
    exact h.keys_perm
  · rw [Entries.get?_map] at hx hy
    obtain ⟨v, hv, rfl⟩ := Option.map_eq_some_iff.1 hx
    obtain ⟨w, hw, rfl⟩ := Option.map_eq_some_iff.1 hy
    exact hg k v w hv hw

end Maps

theorem isUndefined_eq (h : v.Reordered w) : v.isUndefined = w.isUndefined := by
  cases h <;> rfl

theorem truthy_eq (h : v.Reordered w) : v.truthy = w.truthy := by
  cases h <;> rfl

theorem millis?_eq (h : v.Reordered w) {format : DateFormat} : format.millis? v = format.millis? w := by
  cases h <;> rfl

theorem all_eq {p : Value → Bool} (hp : ∀ v w, v.Reordered w → p v = p w) (h : List.Forall₂ Reordered xs ys) :
    xs.all p = ys.all p := by
  induction h with
  | nil => rfl
  | cons hx _ ih => rw [List.all_cons, List.all_cons, hp _ _ hx, ih]

theorem kind?_eq (h : v.Reordered w) : v.kind? = w.kind? := by
  cases h with
  | set h =>
    have hnumber := all_eq (p := isSetNumber) (fun v w h => by cases h <;> rfl) h
    have hstring := all_eq (p := isString) (fun v w h => by cases h <;> rfl) h
    have hbinary := all_eq (p := isBinary) (fun v w h => by cases h <;> rfl) h
    have hdate := all_eq (p := isDate) (fun v w h => by cases h <;> rfl) h
    simp only [Value.kind?, memberKind?, hnumber, hstring, hbinary, hdate]
  | _ => rfl

theorem accepts_eq (h : v.Reordered w) {n : Node} : n.accepts v = n.accepts w := by
  simp only [Node.accepts, Node.millis?, h.millis?_eq, h.kind?_eq]

end Reordered

theorem forall_wellKeyed (hx : ∀ x ∈ xs, ∀ y, x.Reordered y → x.wellKeyed = true ∧ y.wellKeyed = true)
    (h : List.Forall₂ Reordered xs ys) : (∀ x ∈ xs, x.wellKeyed = true) ∧ ∀ y ∈ ys, y.wellKeyed = true := by
  induction h with
  | nil => simp
  | cons hxy _ ih =>
    obtain ⟨hx, hxs⟩ := List.forall_mem_cons.1 hx
    obtain ⟨hleft, hright⟩ := hx _ hxy
    exact ⟨List.forall_mem_cons.2 ⟨hleft, (ih hxs).1⟩, List.forall_mem_cons.2 ⟨hright, (ih hxs).2⟩⟩

theorem Reordered.wellKeyed (h : v.Reordered w) : v.wellKeyed = true ∧ w.wellKeyed = true := by
  induction v using induct generalizing w with
  | list xs ih =>
    obtain ⟨ys, rfl, hxs⟩ := reordered_list_iff.1 h
    obtain ⟨hleft, hright⟩ := forall_wellKeyed (fun x hx y hxy => ih x hx hxy) hxs
    exact ⟨wellKeyed_list.2 hleft, wellKeyed_list.2 hright⟩
  | map es ih =>
    obtain ⟨fs, rfl, -⟩ := reordered_map_iff.1 h
    have hvalues (key : String) (v w : Value) (hv : Entries.get? key es = some v) (hw : Entries.get? key fs = some w) :
        v.wellKeyed = true ∧ w.wellKeyed = true := ih (key, v) (Entries.mem_of_get? hv) (h.of_get? hv hw)
    constructor
    · refine wellKeyed_map.2 ⟨h.nodup, fun e he => ?_⟩
      obtain ⟨w, hw⟩ := Option.isSome_iff_exists.1
        (Entries.has_iff.2 (h.keys_perm.mem_iff.1 (List.mem_map_of_mem (f := Prod.fst) he)))
      exact (hvalues e.1 e.2 w (Entries.get?_of_mem h.nodup he) hw).1
    · refine wellKeyed_map.2 ⟨h.nodup_right, fun e he => ?_⟩
      obtain ⟨v, hv⟩ := Option.isSome_iff_exists.1
        (Entries.has_iff.2 (h.keys_perm.mem_iff.2 (List.mem_map_of_mem (f := Prod.fst) he)))
      exact (hvalues e.1 v e.2 hv (Entries.get?_of_mem h.nodup_right he)).2
  | set xs ih =>
    obtain ⟨ys, rfl, hxs⟩ := reordered_set_iff.1 h
    obtain ⟨hleft, hright⟩ := forall_wellKeyed (fun x hx y hxy => ih x hx hxy) hxs
    exact ⟨wellKeyed_set.2 hleft, wellKeyed_set.2 hright⟩
  | _ =>
    cases h
    exact ⟨rfl, rfl⟩

theorem sameEntries_eq_all :
    sameEntries es fs = es.all fun e => (Entries.get? e.1 fs).any (same e.2) := by
  induction es with
  | nil => rfl
  | cons e rest ih =>
    rw [sameEntries, ih, List.all_cons]
    cases Entries.get? e.1 fs <;> rfl

theorem sameItems_congr_right {us : List Value} (hu : ∀ u ∈ us, ∀ v w, v.Reordered w → same u v = same u w)
    (h : List.Forall₂ Reordered xs ys) : sameItems us xs = sameItems us ys := by
  induction h generalizing us with
  | nil => rfl
  | cons hx _ ih =>
    cases us with
    | nil => rfl
    | cons u us =>
      obtain ⟨hu, hus⟩ := List.forall_mem_cons.1 hu
      rw [sameItems, sameItems, hu _ _ hx, ih hus]

theorem sameItems_congr_left {us : List Value} (hx : ∀ x ∈ xs, ∀ y u, x.Reordered y → same x u = same y u)
    (h : List.Forall₂ Reordered xs ys) : sameItems xs us = sameItems ys us := by
  induction h generalizing us with
  | nil => rfl
  | cons hxy _ ih =>
    obtain ⟨hx, hxs⟩ := List.forall_mem_cons.1 hx
    cases us with
    | nil => rfl
    | cons u us => rw [sameItems, sameItems, hx _ _ hxy, ih hxs]

theorem same_congr_right (h : v.Reordered w) : same u v = same u w := by
  induction u using induct generalizing v w with
  | list us ih =>
    cases h with
    | list h => exact sameItems_congr_right (fun u hu v w => ih u hu) h
    | _ => rfl
  | set us ih =>
    cases h with
    | set h => exact sameItems_congr_right (fun u hu v w => ih u hu) h
    | _ => rfl
  | map us ih =>
    cases h with
    | @map es fs hd hk h =>
      have hmaps := Reordered.map hd hk h
      have hall : sameEntries us es = sameEntries us fs := by
        rw [sameEntries_eq_all, sameEntries_eq_all, Bool.eq_iff_iff, List.all_eq_true, List.all_eq_true]
        refine forall₂_congr fun e he => ?_
        rw [hmaps.any_eq fun v w hvw => ih e he hvw]
      rw [same, same, hmaps.length_eq, hall]
    | _ => rfl
  | _ => cases h <;> rfl

theorem same_congr_left (h : v.Reordered w) : same v u = same w u := by
  induction v using induct generalizing w u with
  | list us ih =>
    obtain ⟨ys, rfl, hxs⟩ := reordered_list_iff.1 h
    cases u with
    | list us => exact sameItems_congr_left (fun x hx y u => ih x hx) hxs
    | _ => rfl
  | set us ih =>
    obtain ⟨ys, rfl, hxs⟩ := reordered_set_iff.1 h
    cases u with
    | set us => exact sameItems_congr_left (fun x hx y u => ih x hx) hxs
    | _ => rfl
  | map es ih =>
    obtain ⟨fs, rfl, -⟩ := reordered_map_iff.1 h
    cases u with
    | map us =>
      have hall : sameEntries es us = sameEntries fs us := by
        rw [sameEntries_eq_all, sameEntries_eq_all]
        refine h.all_entries_eq fun key v w hv hw => ?_
        simp only [funext fun y => ih (key, v) (Entries.mem_of_get? hv) (u := y) (h.of_get? hv hw)]
      rw [same, same, h.length_eq, hall]
    | _ => rfl
  | _ =>
    cases h
    rfl

theorem same_congr {v' w' : Value} (h : v.Reordered w) (h' : v'.Reordered w') : same v v' = same w w' :=
  (same_congr_left h).trans (same_congr_right h')

theorem isMember_congr (h : v.Reordered w) (hs : List.Forall₂ Reordered xs ys) : isMember v xs = isMember w ys := by
  induction hs with
  | nil => rfl
  | cons hx _ ih => simp only [isMember, List.any_cons, same_congr hx h] at ih ⊢; rw [ih]

theorem distinct_reordered (h : List.Forall₂ Reordered xs ys) : List.Forall₂ Reordered (distinct xs) (distinct ys) := by
  suffices hfrom : ∀ before before', List.Forall₂ Reordered before before' →
      List.Forall₂ Reordered (distinctFrom before xs) (distinctFrom before' ys) by
    rw [distinct_eq_distinctFrom, distinct_eq_distinctFrom]
    exact hfrom [] [] .nil
  induction h with
  | nil => exact fun _ _ _ => .nil
  | cons hx _ ih =>
    intro before before' hbefore
    rw [distinctFrom, distinctFrom, hx.isUndefined_eq, isMember_congr hx hbefore]
    split
    · exact ih before before' hbefore
    · exact .cons hx (ih _ _ (List.rel_append hbefore (.cons hx .nil)))

end Value

end ItemMapper
