import ItemMapper.Proofs.Prepared

/-!
# Settled picks

The setters come to every union that pruning comes to after them. So pruning picks no variant itself, and changes
nothing but the value: what it makes of a map is known entry by entry, whatever the order of the entries.
-/

namespace ItemMapper

namespace Passing

variable {α β : Type} {t : Picks} {p : Passing α} {q : α → Passing β} {a : α} {key path : String} {variants : List Node}
  {v : Value} {fields : List (String × Node)} {entries : List (String × Value)}

def Ran (t : Picks) (p : Passing α) : Prop := ∃ s, (p s).2.picks <+: t

theorem Ran.bind (h : Ran t (p >>= q)) (hq : ∀ a, (q a).Grows) : ∃ s, (p s).2.picks <+: t ∧ Ran t (q (p s).1) := by
  obtain ⟨s, hs⟩ := h
  exact ⟨s, (hq _ _).trans hs, _, hs⟩

theorem Ran.of_bind (h : Ran t (p >>= q)) (hq : ∀ a, (q a).Grows) : Ran t p := by
  obtain ⟨s, hs, -⟩ := h.bind hq
  exact ⟨s, hs⟩

theorem Ran.pick (h : Ran t (pick key path variants v)) (hv : v.isUndefined = false) :
    ∃ place, Entries.get? key t = some place := by
  obtain ⟨s, hs⟩ := h
  simp only [Passing.pick, hv, Bool.false_eq_true, if_false] at hs
  cases hpicked : Entries.get? key s.picks with
  | some place =>
    simp only [hpicked] at hs
    exact ⟨place, Entries.get?_of_prefix hs hpicked⟩
  | none =>
    simp only [hpicked] at hs
    exact ⟨_, Entries.get?_of_prefix hs Entries.get?_insert_self⟩

theorem Ran.mapM {f : α → Passing β} {xs : List α} (h : Ran t (xs.mapM f)) (hf : ∀ x, (f x).Grows) :
    ∀ x ∈ xs, Ran t (f x) := by
  induction xs with
  | nil => simp
  | cons x rest ih =>
    rw [List.mapM_cons] at h
    obtain ⟨s, hs, hrest⟩ := h.bind fun y => (Grows.mapM hf).bind fun ys => Grows.pure
    exact List.forall_mem_cons.2 ⟨⟨s, hs⟩, ih (hrest.of_bind fun ys => Grows.pure)⟩

theorem Ran.overFields {rewrite : String → Node → Value → Passing Value} (h : Ran t (Node.overFields rewrite entries fields))
    (hd : (Entries.keys fields).Nodup) (hg : ∀ f ∈ fields, ∀ v, (rewrite f.1 f.2 v).Grows) :
    ∀ f ∈ fields, ∀ v, Entries.get? f.1 entries = some v → Ran t (rewrite f.1 f.2 v) := by
  induction fields generalizing entries with
  | nil => simp
  | cons f rest ih =>
    obtain ⟨hf, hrest⟩ := List.nodup_cons.1 hd
    obtain ⟨hgf, hgrest⟩ := List.forall_mem_cons.1 hg
    rw [Node.overFields] at h
    cases hv : Entries.get? f.1 entries with
    | none =>
      simp only [hv] at h
      refine List.forall_mem_cons.2 ⟨fun v hget => ?_, ih h hrest hgrest⟩
      rw [hv] at hget
      cases hget
    | some v =>
      simp only [hv] at h
      obtain ⟨s, hs, hran⟩ := h.bind fun w => Grows.overFields hgrest
      refine List.forall_mem_cons.2 ⟨fun x hx => ?_, fun g hg' x hx => ?_⟩
      · obtain rfl := Option.some.inj (hv.symm.trans hx)
        exact ⟨s, hs⟩
      · have hne : f.1 ≠ g.1 := fun he => hf (he ▸ List.mem_map_of_mem (f := Prod.fst) hg')
        exact ih hran hrest hgrest g hg' x ((Entries.get?_insert_of_ne hne).trans hx)

def Quiet (t : Picks) (p : Passing α) : Prop := ∀ s : Pass, s.picks = t → (p s).2 = s

theorem Quiet.pure : Quiet t (Pure.pure a) := fun _ _ => rfl

theorem Quiet.bind (hp : Quiet t p) (hq : ∀ s : Pass, s.picks = t → Quiet t (q (p s).1)) : Quiet t (p >>= q) := by
  intro s hs
  rw [bind_apply, hp s hs]
  exact hq s hs s hs

theorem Quiet.mapM {f : α → Passing β} {xs : List α} (h : ∀ x ∈ xs, Quiet t (f x)) : Quiet t (xs.mapM f) := by
  induction xs with
  | nil => exact Quiet.pure
  | cons x rest ih =>
    obtain ⟨hx, hrest⟩ := List.forall_mem_cons.1 h
    rw [List.mapM_cons]
    exact hx.bind fun _ _ => (ih hrest).bind fun _ _ => Quiet.pure

theorem Quiet.pick (h : v.isUndefined = false → ∃ place, Entries.get? key t = some place) :
    Quiet t (pick key path variants v) := by
  rintro s rfl
  rw [Passing.pick]
  split
  · rfl
  · rename_i hv
    obtain ⟨place, hplace⟩ := h (Bool.not_eq_true _ ▸ hv)
    rw [hplace]

theorem Quiet.gives (h : Quiet t p) (hp : Gives t p a) {s : Pass} (hs : s.picks = t) : p s = (a, s) := by
  have hpicks : (p s).2.picks = t := (congrArg Pass.picks (h s hs)).trans hs
  exact Prod.ext (hp s (hpicks ▸ List.prefix_rfl)) (h s hs)

end Passing

namespace Node

variable {n : Node} {v : Value} {key path name : String} {t : Picks} {around : Surroundings}
  {fields : List (String × Node)}

theorem pruneField_quiet (h : ∀ u, Entries.get? name fields = some u →
      (prune (memberPath path name) (memberPath path name) v u).Quiet t) :
    (pruneField path name v fields).Quiet t := by
  rw [pruneField_eq]
  cases hu : Entries.get? name fields with
  | none => exact Passing.Quiet.pure
  | some u => exact h u hu

theorem setPicked_grows {variants : List Node} (place : Option Nat) : (match place with
    | some i => setVariant around (nestedKey key) path v i variants
    | none => pure v : Passing Value).Grows := by
  cases place with
  | none => exact Passing.Grows.pure
  | some i =>
    simp only [setVariant_eq]
    exact Passing.Grows.atVariant (fun u _ => setValue_grows) Passing.Grows.pure

/-- Wherever pruning goes after the setters, the variants have been picked. -/
theorem prune_quiet (hk : n.Throughout WellKeyed) (hn : n.Throughout Plain) (hv : v.wellKeyed = true)
    (h : (setValue around key path v n).Ran t) :
    (prune key path (n.rewrite t.chooser assigned key path v) n).Quiet t := by
  induction n generalizing key path v with
  | object m fields isOpen ih =>
    cases v with
    | map es =>
      rw [setValue, setOwn_of_not_date hn.self.setter rfl, pure_bind] at h
      simp only [Value.isUndefined, Bool.false_eq_true, if_false, setFields_eq] at h
      have hran := (h.of_bind fun es => Passing.Grows.pure).overFields hk.nodup_fields fun f _ v => setValue_grows
      rw [rewrite_object (show assigned (object m fields isOpen) (.map es) = _ from rfl), prune]
      refine Passing.Quiet.bind (.mapM fun e he => ?_) fun _ _ => Passing.Quiet.pure
      obtain ⟨⟨name, x⟩, hx, rfl⟩ := List.mem_map.1 (keptEntries_subset he)
      refine Passing.Quiet.bind (pruneField_quiet fun u hu => ?_) fun _ _ => Passing.Quiet.pure
      have hmem := Entries.mem_of_get? hu
      have hget := Entries.get?_of_mem (Value.wellKeyed_map.1 hv).1 hx
      simp only [rewriteField_eq, hu]
      exact ih (name, u) hmem (hk.field hmem) (hn.field hmem) (Value.wellKeyed_get? hv hget) (hran (name, u) hmem x hget)
    | _ => exact Passing.Quiet.pure
  | list m items ih =>
    cases v with
    | list xs =>
      rw [setValue, setOwn_of_not_date hn.self.setter rfl, pure_bind] at h
      simp only [Value.isUndefined, Bool.false_eq_true, if_false] at h
      have hran := (h.of_bind fun es => Passing.Grows.pure).mapM fun e => setValue_grows
      rw [rewrite_list (show assigned (list m items) (.list xs) = _ from rfl), prune]
      refine Passing.Quiet.bind (.mapM fun e he => ?_) fun _ _ => Passing.Quiet.pure
      rw [zipIdx_map_zipIdx] at he
      obtain ⟨x, hx, rfl⟩ := List.mem_map.1 he
      exact ih hk.item hn.item (Value.wellKeyed_list.1 hv x.1 (List.fst_mem_of_mem_zipIdx hx)) (hran x hx)
    | _ => exact Passing.Quiet.pure
  | union m variants ih =>
    have hsame : assigned (union m variants) v = v := assigned_of_not_date rfl (by simp)
    rw [setValue] at h
    obtain ⟨s, hs, hran⟩ := h.bind setPicked_grows
    have hplace : (Passing.pick key path variants v s).1 = t.chooser key path variants v :=
      Passing.Gives.pick key path variants v s hs
    rw [hplace] at hran
    have hdefined : ((union m variants).rewrite t.chooser assigned key path v).isUndefined = v.isUndefined := by
      rw [rewrite_isUndefined assigned_trims.keepsDefined, hsame]
    have hpick : (Passing.pick key path variants ((union m variants).rewrite t.chooser assigned key path v)).Quiet t :=
      .pick fun hw => Passing.Ran.pick ⟨s, hs⟩ (hdefined ▸ hw)
    rw [prune]
    refine hpick.bind fun s' hs' => ?_
    rw [hpick.gives (Passing.Gives.pick _ _ _ _) hs', chooser_congr hdefined, rewrite, hsame]
    cases hchosen : t.chooser key path variants v with
    | none => exact Passing.Quiet.pure
    | some i =>
      simp only [hchosen, setVariant_eq, pruneVariant_eq, rewriteVariant_eq, atVariant] at hran ⊢
      cases hu : variants[i]? with
      | none => exact Passing.Quiet.pure
      | some u =>
        simp only [hu] at hran
        have hmem := List.mem_of_getElem? hu
        exact ih u hmem (hk.variant hmem) (hn.variant hmem) hv hran
  | _ => exact Passing.Quiet.pure

theorem prune_setValue (hk : n.Throughout WellKeyed) (hn : n.Throughout Plain) (hv : v.wellKeyed = true) (s : Pass) :
    (setValue around key path v n >>= fun w => prune key path w n) s =
      (n.rewrite (setValue around key path v n s).2.picks.chooser pruned key path (setValue around key path v n s).1,
        (setValue around key path v n s).2) := by
  have hassigned : (setValue around key path v n s).1 =
      n.rewrite (setValue around key path v n s).2.picks.chooser assigned key path v :=
    setValue_gives hk hn hv s List.prefix_rfl
  rw [Passing.bind_apply, hassigned]
  exact (prune_quiet hk hn hv ⟨s, List.prefix_rfl⟩).gives prune_gives rfl

end Node

end ItemMapper
