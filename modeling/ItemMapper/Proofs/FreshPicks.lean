import ItemMapper.Proofs.Footprints
import ItemMapper.Proofs.Prepared
import ItemMapper.Proofs.StoredForms

/-!
# Fresh picks

The first pass over a value picks the variant for each of its unions from the value alone, if nothing has been picked
there before. Tables that hold these picks all lead to the same positions.
-/

namespace ItemMapper

def Chooser.fresh : Chooser := fun _ path variants v => if v.isUndefined then none else Survey.variantOf path v variants

namespace Passing

variable {α β : Type} {F G : String → Prop} {Q R : Picks → Prop} {p : Passing α} {q : α → Passing β} {a : α}

/-- A pass picks under certain keys only, and from a state without picks under them, tables that hold its picks have
a property. -/
structure Settles (F : String → Prop) (p : Passing α) (Q : Picks → Prop) : Prop where
  grows : p.Grows
  keys : ∀ s k, k ∈ Entries.keys (p s).2.picks → k ∈ Entries.keys s.picks ∨ F k
  holds : ∀ s t, (∀ k ∈ Entries.keys s.picks, ¬ F k) → (p s).2.picks <+: t → Q t

theorem Settles.pure (h : ∀ t, Q t) : Settles F (Pure.pure a) Q where
  grows := Grows.pure
  keys _ _ hk := .inl hk
  holds _ t _ _ := h t

theorem Settles.mono (h : Settles F p Q) (hf : ∀ k, F k → G k) (hq : ∀ t, Q t → R t) : Settles G p R where
  grows := h.grows
  keys s k hk := (h.keys s k hk).imp_right (hf k)
  holds s t hs ht := hq t (h.holds s t (fun k hk hfk => hs k hk (hf k hfk)) ht)

theorem Settles.bind (hp : Settles F p Q) (hq : ∀ a, Settles G (q a) R) (hd : ∀ k, F k → ¬ G k) :
    Settles (fun k => F k ∨ G k) (p >>= q) fun t => Q t ∧ R t where
  grows := hp.grows.bind fun a => (hq a).grows
  keys s k hk := by
    rw [bind_apply] at hk
    rcases (hq _).keys _ k hk with hk | hk
    · exact (hp.keys s k hk).imp_right .inl
    · exact .inr (.inr hk)
  holds s t hs ht := by
    rw [bind_apply] at ht
    refine ⟨hp.holds s t (fun k hk hf => hs k hk (.inl hf)) (((hq _).grows _).trans ht), ?_⟩
    refine (hq _).holds _ t (fun k hk hg => ?_) ht
    rcases hp.keys s k hk with hk | hk
    · exact hs k hk (.inr hg)
    · exact hd k hk hg

theorem Settles.bind_pure {g : α → β} (h : Settles F p Q) : Settles F (p >>= fun a => Pure.pure (g a)) Q where
  grows := h.grows.bind fun _ => Grows.pure
  keys := h.keys
  holds := h.holds

theorem Settles.mapM {f : α → Passing β} {F : α → String → Prop} {Q : α → Picks → Prop} {xs : List α}
    (hd : xs.Pairwise fun x y => ∀ k, F x k → ¬ F y k) (h : ∀ x ∈ xs, Settles (F x) (f x) (Q x)) :
    Settles (fun k => ∃ x ∈ xs, F x k) (xs.mapM f) fun t => ∀ x ∈ xs, Q x t := by
  induction xs with
  | nil => exact Settles.pure (by simp)
  | cons x rest ih =>
    obtain ⟨hx, hrest⟩ := List.pairwise_cons.1 hd
    have hothers := ih hrest fun y hy => h y (List.mem_cons_of_mem _ hy)
    rw [List.mapM_cons]
    refine (Settles.bind (h x List.mem_cons_self) (fun y => hothers.bind_pure) ?_).mono ?_ fun t ht =>
      List.forall_mem_cons.2 ht
    · rintro k hk ⟨y, hy, hyk⟩
      exact hx y hy k hk hyk
    · rintro k (hk | ⟨y, hy, hyk⟩)
      · exact ⟨x, List.mem_cons_self, hk⟩
      · exact ⟨y, List.mem_cons_of_mem _ hy, hyk⟩

theorem Settles.pick {key path : String} {variants : List Node} {v : Value} {q : Option Nat → Passing β}
    {R : Nat → Picks → Prop} (hsome : ∀ i, Settles G (q (some i)) (R i)) (hnone : Settles G (q none) fun _ => True)
    (hkey : ¬ G key) : Settles (fun k => k = key ∨ G k) (pick key path variants v >>= q) fun t =>
      t.chooser key path variants v = Chooser.fresh key path variants v ∧
        ∀ i, Chooser.fresh key path variants v = some i → R i t := by
  have hq (place : Option Nat) : Settles G (q place) fun t => ∀ i, place = some i → R i t := by
    cases place with
    | none => exact hnone.mono (fun _ h => h) (by simp)
    | some i => exact (hsome i).mono (fun _ h => h) fun t ht j hj => Option.some.inj hj ▸ ht
  refine ⟨(Grows.pick _ _ _ _).bind fun place => (hq place).grows, fun s k hk => ?_, fun s t hs ht => ?_⟩
  · rw [bind_apply] at hk
    rcases (hq _).keys _ k hk with hk | hk
    · rw [Passing.pick] at hk
      split at hk
      · exact .inl hk
      · cases hget : Entries.get? key s.picks with
        | some picked =>
          simp only [hget] at hk
          exact .inl hk
        | none =>
          simp only [hget, Entries.insert_of_get?_eq_none hget, Entries.keys, List.map_append, List.mem_append] at hk
          rcases hk with hk | hk
          · exact .inl hk
          · exact .inr (.inl (by simpa using hk))
    · exact .inr (.inr hk)
  · rw [bind_apply] at ht
    have hpicked := Gives.pick key path variants v s (((hq _).grows _).trans ht)
    have hget : Entries.get? key s.picks = none := Entries.get?_eq_none_iff.2 fun hk => hs key hk (.inl rfl)
    have hfresh : (Passing.pick key path variants v s).1 = Chooser.fresh key path variants v := by
      rw [Passing.pick, Chooser.fresh]
      split
      · rfl
      · simp only [hget]
    refine ⟨hpicked.symm.trans hfresh, fun i hi => ?_⟩
    refine (hq _).holds _ t (fun k hk hg => ?_) ht i (hfresh.trans hi)
    rw [Passing.pick] at hk
    split at hk
    · exact hs k hk (.inr hg)
    · simp only [hget, Entries.insert_of_get?_eq_none hget, Entries.keys, List.map_append, List.mem_append] at hk
      rcases hk with hk | hk
      · exact hs k hk (.inr hg)
      · obtain rfl : k = key := by simpa using hk
        exact hkey hg

theorem Settles.atVariant {enter : Node → Passing α} {variants : List Node} {i : Nat} {Q : Node → Picks → Prop}
    (h : ∀ n, variants[i]? = some n → Settles F (enter n) (Q n)) :
    Settles F (Node.atVariant enter (Pure.pure a) variants i) fun t => ∀ n, variants[i]? = some n → Q n t := by
  rw [Node.atVariant]
  cases hn : variants[i]? with
  | none => exact Settles.pure (by simp)
  | some n => exact (h n hn).mono (fun _ hk => hk) fun t ht u hu => Option.some.inj hu ▸ ht

end Passing

namespace Node

variable {n : Node} {v item : Value} {key path : String} {t : Picks} {m : Modifiers}

structure Follows (t : Picks) (key path : String) (v : Value) (n : Node) : Prop where
  rewrite : ∀ own : Treatment, own.Trims →
    n.rewrite t.chooser own key path v = n.rewrite Chooser.fresh own key path v
  everywhere : ∀ P, n.Everywhere t.chooser P key path v ↔ n.Everywhere Chooser.fresh P key path v

theorem Follows.object {fields : List (String × Node)} {isOpen : Bool}
    (h : ∀ es, v = .map es → (Entries.keys es).Nodup ∧ ∀ f ∈ fields,
      Follows t (memberPath path f.1) (memberPath path f.1) ((Entries.get? f.1 es).getD .undefined) f.2) :
    (object m fields isOpen).Follows t key path v where
  rewrite own ho := by
    obtain ⟨p, -, hmap, hno⟩ := ho.object m fields isOpen
    cases v with
    | map es =>
      rw [rewrite_object (hmap es), rewrite_object (hmap es)]
      refine congrArg Value.map (List.map_congr_left fun e he => Prod.ext rfl ?_)
      have hget : Entries.get? e.1 es = some e.2 := Entries.get?_of_mem (h es rfl).1 (List.mem_filter.1 he).1
      simp only [rewriteField_eq]
      cases hn : Entries.get? e.1 fields with
      | none => rfl
      | some u =>
        have hfollows := ((h es rfl).2 (e.1, u) (Entries.mem_of_get? hn)).rewrite own ho
        rwa [hget] at hfollows
    | _ =>
      rw [rewrite_object_of_no_map (by rw [hno _ rfl]; rfl), rewrite_object_of_no_map (by rw [hno _ rfl]; rfl)]
  everywhere P := by
    rw [everywhere_object, everywhere_object]
    refine and_congr_right fun _ => forall₂_congr fun es hes => forall₂_congr fun f hmem => ?_
    exact ((h es hes).2 f hmem).everywhere P

theorem Follows.list {items : Node} (h : ∀ elements, v = .list elements → ∀ e ∈ elements.zipIdx,
    Follows t (elementPath path e.2) (elementPath path e.2) e.1 items) : (list m items).Follows t key path v where
  rewrite own ho := by
    have hown := ho.list m items
    by_cases hl : ∃ elements, v = .list elements
    · obtain ⟨elements, rfl⟩ := hl
      rw [rewrite_list (hown _), rewrite_list (hown _)]
      exact congrArg Value.list (List.map_congr_left fun e he => (h elements rfl e he).rewrite own ho)
    · have hno : ∀ elements, v ≠ .list elements := fun elements he => hl ⟨elements, he⟩
      rw [rewrite_list_of_no_list (by rwa [hown]), rewrite_list_of_no_list (by rwa [hown])]
  everywhere P := by
    rw [everywhere_list, everywhere_list]
    refine and_congr_right fun _ => forall₂_congr fun elements hes => forall₂_congr fun e he => ?_
    exact (h elements hes e he).everywhere P

theorem Follows.union {variants : List Node}
    (hc : t.chooser key path variants v = Chooser.fresh key path variants v)
    (h : ∀ i, Chooser.fresh key path variants v = some i → ∀ n, variants[i]? = some n →
      n.Follows t (nestedKey key) path v) : (union m variants).Follows t key path v where
  rewrite own ho := by
    have hown := ho.union m variants v
    by_cases hi : ∃ i n, Chooser.fresh key path variants v = some i ∧ variants[i]? = some n
    · obtain ⟨i, n, hi, hn⟩ := hi
      rw [rewrite_union_of_some (by rw [hown, hc, hi]) hn, rewrite_union_of_some (by rw [hown, hi]) hn, hown]
      exact (h i hi n hn).rewrite own ho
    · have hnone : ∀ i n, Chooser.fresh key path variants v = some i → variants[i]? ≠ some n :=
        fun i n hi' hn' => hi ⟨i, n, hi', hn'⟩
      rw [rewrite_union_of_none (by rwa [hown, hc]), rewrite_union_of_none (by rwa [hown])]
  everywhere P := by
    rw [everywhere_union, everywhere_union, hc]
    refine and_congr_right fun _ => ⟨fun he i n hi hn => ?_, fun he i n hi hn => ?_⟩
    · exact ((h i hi n hn).everywhere P).1 (he i n hi hn)
    · exact ((h i hi n hn).everywhere P).2 (he i n hi hn)

theorem Follows.undefined : n.Follows t key path .undefined := by
  cases n with
  | object m fields isOpen =>
    refine ⟨fun own ho => ?_, fun P => ?_⟩
    · obtain ⟨p, -, -, hno⟩ := ho.object m fields isOpen
      rw [rewrite_object_of_no_map (by rw [hno _ rfl]; rfl), rewrite_object_of_no_map (by rw [hno _ rfl]; rfl)]
    · rw [everywhere_object, everywhere_object]
      simp
  | list m items => exact Follows.list (by simp)
  | union m variants => exact Follows.union rfl (by simp [Chooser.fresh, Value.isUndefined])
  | _ => exact ⟨fun _ _ => rfl, fun _ => Iff.rfl⟩

def NamesClear (n : Node) : Prop := ∀ fields, n.fields? = some fields → ∀ f ∈ fields, ClearName f.1

theorem NamesClear.of_leaf {n : Node} (hf : n.fields? = none) : n.NamesClear := by simp [NamesClear, hf]

theorem NamesClear.of_has {fields : List (String × Node)} {name : String} (hc : ∀ f ∈ fields, ClearName f.1)
    (h : Entries.has name fields = true) : ClearName name := by
  obtain ⟨f, hf, rfl⟩ := List.mem_map.1 (Entries.has_iff.1 h)
  exact hc f hf

theorem pairwise_zipIdx {elements : List Value} :
    elements.zipIdx.Pairwise fun x y => ∀ k, Under (elementPath path x.2) (elementPath path x.2) k →
      ¬ Under (elementPath path y.2) (elementPath path y.2) k := by
  have hindices : (elements.zipIdx.map Prod.snd).Nodup := by
    rw [List.zipIdx_map_snd]
    exact List.nodup_range'
  refine (List.pairwise_map.1 hindices).imp fun {x y} hne k hx hy => ?_
  exact hne (elements_disjoint hx hy)

theorem pairwise_fields {fields : List (String × Node)} (hf : (Entries.keys fields).Nodup)
    (hc : ∀ f ∈ fields, ClearName f.1) :
    fields.Pairwise fun f g => ∀ k, Under (memberPath path f.1) (memberPath path f.1) k →
      ¬ Under (memberPath path g.1) (memberPath path g.1) k := by
  refine (List.pairwise_map.1 hf).imp_of_mem fun {f g} hmem hmem' hne k hk hk' => ?_
  exact hne (members_disjoint (hc f hmem) (hc g hmem') hk hk')

theorem fillFields_settles {F : String × Node → String → Prop} {Q : String × Node → Value → Picks → Prop}
    {fields : List (String × Node)} {entries : List (String × Value)} (hk : (Entries.keys fields).Nodup)
    (hd : fields.Pairwise fun f g => ∀ k, F f k → ¬ F g k)
    (h : ∀ f ∈ fields, Passing.Settles (F f)
      (fill item (memberPath path f.1) (memberPath path f.1) ((Entries.get? f.1 entries).getD .undefined) f.2)
      (Q f ((Entries.get? f.1 entries).getD .undefined))) :
    Passing.Settles (fun k => ∃ f ∈ fields, F f k) (fillFields item path entries fields)
      fun t => ∀ f ∈ fields, Q f ((Entries.get? f.1 entries).getD .undefined) t := by
  induction fields generalizing entries with
  | nil => exact Passing.Settles.pure (by simp)
  | cons f rest ih =>
    obtain ⟨hf, hrest⟩ := List.nodup_cons.1 hk
    obtain ⟨hfd, hdrest⟩ := List.pairwise_cons.1 hd
    have hothers (es : List (String × Value)) (hsame : ∀ g ∈ rest, Entries.get? g.1 es = Entries.get? g.1 entries) :
        Passing.Settles (fun k => ∃ g ∈ rest, F g k) (fillFields item path es rest)
          fun t => ∀ g ∈ rest, Q g ((Entries.get? g.1 entries).getD .undefined) t := by
      refine Passing.Settles.mono (ih hrest hdrest fun g hg => ?_) (fun _ hk => hk) fun t ht g hg => ?_
      · rw [hsame g hg]
        exact h g (List.mem_cons_of_mem _ hg)
      · have hq := ht g hg
        rwa [hsame g hg] at hq
    have hfilled (w : Value) : ∀ g ∈ rest,
        Entries.get? g.1 (if w.isUndefined then entries else Entries.insert f.1 w entries) =
          Entries.get? g.1 entries := by
      intro g hg
      split
      · rfl
      · exact Entries.get?_insert_of_ne fun hfg => hf (hfg ▸ List.mem_map_of_mem (f := Prod.fst) hg)
    rw [fillFields]
    refine (Passing.Settles.bind (h f List.mem_cons_self) (fun w => hothers _ (hfilled w)) ?_).mono ?_ fun t ht =>
      List.forall_mem_cons.2 ht
    · rintro k hk ⟨g, hg, hgk⟩
      exact hfd g hg k hk hgk
    · rintro k (hk | ⟨g, hg, hgk⟩)
      · exact ⟨f, List.mem_cons_self, hk⟩
      · exact ⟨g, List.mem_cons_of_mem _ hg, hgk⟩

theorem settles_elements {elements : List Value} {items : Node} {run : Value × Nat → Passing Value}
    (h : ∀ e ∈ elements.zipIdx, Passing.Settles (Under (elementPath path e.2) (elementPath path e.2)) (run e)
      fun t => Follows t (elementPath path e.2) (elementPath path e.2) e.1 items) :
    Passing.Settles (Under key path) (do return Value.list (← elements.zipIdx.mapM run))
      fun t => (list m items).Follows t key path (.list elements) := by
  refine (Passing.Settles.mapM pairwise_zipIdx h).bind_pure.mono ?_ fun t ht => Follows.list ?_
  · rintro k ⟨e, -, hk⟩
    exact .inr hk.below_of_element
  · rintro _ ⟨⟩
    exact ht

theorem settles_enter {variants : List Node} {enter : Node → Passing Value} {q : Option Nat → Passing Value}
    (hb : Barred path key) (h : ∀ u ∈ variants, Passing.Settles (Under (nestedKey key) path) (enter u)
      fun t => u.Follows t (nestedKey key) path v)
    (hnone : q none = pure v) (hsome : ∀ i, q (some i) = atVariant enter (pure v) variants i) :
    Passing.Settles (Under key path) (Passing.pick key path variants v >>= q)
      fun t => (union m variants).Follows t key path v := by
  have hgone : Passing.Settles (Under (nestedKey key) path) (q none) fun _ => True :=
    hnone ▸ Passing.Settles.pure fun _ => trivial
  have hwent (i : Nat) : Passing.Settles (Under (nestedKey key) path) (q (some i))
      fun t => ∀ n, variants[i]? = some n → n.Follows t (nestedKey key) path v :=
    hsome i ▸ Passing.Settles.atVariant fun u hu => h u (List.mem_of_getElem? hu)
  refine (Passing.Settles.pick hwent hgone hb.not_under).mono ?_ fun t ht => Follows.union ht.1 ht.2
  rintro k (rfl | hk)
  · exact under_self
  · exact hk.of_nestedKey

theorem fill_settles (hn : n.Throughout Bare) (hc : n.Throughout NamesClear) (hw : n.Throughout WellKeyed)
    (hv : v.wellKeyed = true) (hp : path ≠ "") (hb : Barred path key) :
    Passing.Settles (Under key path) (fill item key path v n) fun t => n.Follows t key path v := by
  induction n generalizing key path v with
  | object m fields isOpen ih =>
    have hdefault : m.default = none := hn.self.default
    rw [fill, withDefault_of_none hdefault, pure_bind]
    cases v with
    | map es =>
      have hclear := hc.self fields rfl
      have hfields : Passing.Settles
          (fun k => ∃ f ∈ fields, Under (memberPath path f.1) (memberPath path f.1) k) (fillFields item path es fields)
          fun t => ∀ f ∈ fields, Follows t (memberPath path f.1) (memberPath path f.1)
            ((Entries.get? f.1 es).getD .undefined) f.2 := by
        refine fillFields_settles (Q := fun f x t => Follows t (memberPath path f.1) (memberPath path f.1) x f.2)
          hw.nodup_fields (pairwise_fields hw.nodup_fields hclear) fun f hf => ?_
        exact ih f hf (hn.field hf) (hc.field hf) (hw.field hf) (Value.wellKeyed_getD hv)
          (memberPath_ne_empty (hclear f hf)) barred_self
      refine hfields.bind_pure.mono ?_ fun t ht => Follows.object ?_
      · rintro k ⟨f, hf, hk⟩
        exact .inr (hk.below_of_member hp)
      · rintro _ ⟨⟩
        exact ⟨(Value.wellKeyed_map.1 hv).1, ht⟩
    | _ => exact Passing.Settles.pure fun t => Follows.object (by simp)
  | list m items ih =>
    have hdefault : m.default = none := hn.self.default
    rw [fill, withDefault_of_none hdefault, pure_bind]
    cases v with
    | list elements =>
      refine settles_elements fun e he => ?_
      exact ih hn.item hc.item hw.item (Value.wellKeyed_list.1 hv e.1 (List.fst_mem_of_mem_zipIdx he))
        elementPath_ne_empty barred_self
    | _ => exact Passing.Settles.pure fun t => Follows.list (by simp)
  | union m variants ih =>
    have hdefault : m.default = none := hn.self.default
    rw [fill, withDefault_of_none hdefault, pure_bind]
    refine settles_enter hb (fun u hu => ?_) rfl fun i => fillVariant_eq
    exact ih u hu (hn.variant hu) (hc.variant hu) (hw.variant hu) hv hp hb.nestedKey
  | _ =>
    have hdefault := hn.self.default
    simp only [modifiers] at hdefault
    rw [fill, withDefault_of_none hdefault]
    exact Passing.Settles.pure fun t => ⟨fun _ _ => rfl, fun _ => Iff.rfl⟩

theorem pruneField_settles {fields : List (String × Node)} {name : String}
    (h : ∀ u, Entries.get? name fields = some u → Passing.Settles (Under (memberPath path name) (memberPath path name))
      (prune (memberPath path name) (memberPath path name) v u)
      fun t => u.Follows t (memberPath path name) (memberPath path name) v) :
    Passing.Settles (fun k => Entries.has name fields = true ∧ Under (memberPath path name) (memberPath path name) k)
      (pruneField path name v fields) fun t => ∀ u, Entries.get? name fields = some u →
        u.Follows t (memberPath path name) (memberPath path name) v := by
  rw [pruneField_eq]
  cases hu : Entries.get? name fields with
  | none => exact Passing.Settles.pure (by simp)
  | some u =>
    refine (h u hu).mono (fun k hk => ⟨by simp [Entries.has, hu], hk⟩) fun t ht w hw => ?_
    exact Option.some.inj hw ▸ ht

theorem prune_settles (hc : n.Throughout NamesClear) (hw : n.Throughout WellKeyed) (hv : v.wellKeyed = true)
    (hp : path ≠ "") (hb : Barred path key) :
    Passing.Settles (Under key path) (prune key path v n) fun t => n.Follows t key path v := by
  induction n generalizing key path v with
  | object m fields isOpen ih =>
    cases v with
    | map es =>
      obtain ⟨hes, -⟩ := Value.wellKeyed_map.1 hv
      have hclear := hc.self fields rfl
      have hkept : (keptEntries fields isOpen es).Pairwise fun e d => ∀ k,
          (Entries.has e.1 fields = true ∧ Under (memberPath path e.1) (memberPath path e.1) k) →
          ¬ (Entries.has d.1 fields = true ∧ Under (memberPath path d.1) (memberPath path d.1) k) := by
        have hkeys : (Entries.keys (keptEntries fields isOpen es)).Nodup := nodup_keys_keptEntries hes
        refine (List.pairwise_map.1 hkeys).imp fun {e d} hne k he hd => hne ?_
        exact members_disjoint (NamesClear.of_has hclear he.1) (NamesClear.of_has hclear hd.1) he.2 hd.2
      have hfields : Passing.Settles (fun k => ∃ e ∈ keptEntries fields isOpen es,
          Entries.has e.1 fields = true ∧ Under (memberPath path e.1) (memberPath path e.1) k)
          ((keptEntries fields isOpen es).mapM fun e => do return (e.1, ← pruneField path e.1 e.2 fields))
          fun t => ∀ e ∈ keptEntries fields isOpen es, ∀ u, Entries.get? e.1 fields = some u →
            u.Follows t (memberPath path e.1) (memberPath path e.1) e.2 := by
        refine Passing.Settles.mapM hkept fun e he => Passing.Settles.bind_pure (pruneField_settles fun u hu => ?_)
        have hmem := Entries.mem_of_get? hu
        have hget := Entries.get?_of_mem hes (keptEntries_subset he)
        exact ih (e.1, u) hmem (hc.field hmem) (hw.field hmem) (Value.wellKeyed_get? hv hget)
          (memberPath_ne_empty (hclear _ hmem)) barred_self
      rw [prune]
      refine hfields.bind_pure.mono ?_ fun t ht => Follows.object ?_
      · rintro k ⟨e, -, -, hk⟩
        exact .inr (hk.below_of_member hp)
      · rintro _ ⟨⟩
        refine ⟨hes, fun f hf => ?_⟩
        cases hget : Entries.get? f.1 es with
        | none => exact Follows.undefined
        | some x =>
          refine ht (f.1, x) (Entries.mem_of_get? ?_) f.2 (Entries.get?_of_mem hw.nodup_fields hf)
          exact (get?_keptEntries (List.mem_map_of_mem (f := Prod.fst) hf)).trans hget
    | _ => exact Passing.Settles.pure fun t => Follows.object (by simp)
  | list m items ih =>
    cases v with
    | list elements =>
      refine settles_elements fun e he => ?_
      exact ih hc.item hw.item (Value.wellKeyed_list.1 hv e.1 (List.fst_mem_of_mem_zipIdx he))
        elementPath_ne_empty barred_self
    | _ => exact Passing.Settles.pure fun t => Follows.list (by simp)
  | union m variants ih =>
    refine settles_enter hb (fun u hu => ?_) rfl fun i => pruneVariant_eq
    exact ih u hu (hc.variant hu) (hw.variant hu) hv hp hb.nestedKey
  | _ => exact Passing.Settles.pure fun t => ⟨fun _ _ => rfl, fun _ => Iff.rfl⟩

end Node

end ItemMapper
