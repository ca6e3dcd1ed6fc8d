import ItemMapper.Proofs.FreshPicks
import ItemMapper.Proofs.PathPatterns
import ItemMapper.Proofs.PickedVariants
import ItemMapper.Proofs.ReturnedKeys
import ItemMapper.Proofs.WireEquality

/-!
# Fresh readings

Where every declared name is a single attribute, no two unions that a reading comes to have one key: it enters each of
them by the variant that its value is taken for, as if it kept no picks. Without getters, all that it does is to
restore dates and big integers.
-/

namespace ItemMapper

namespace Value

mutual

def kinded : Value → Bool
  | list items => itemsKinded items
  | map entries => entriesKinded entries
  | set members => (memberKind? members).isSome
  | _ => true

def itemsKinded : List Value → Bool
  | [] => true
  | v :: rest => kinded v && itemsKinded rest

def entriesKinded : List (String × Value) → Bool
  | [] => true
  | (_, v) :: rest => kinded v && entriesKinded rest

end

theorem itemsKinded_iff {items : List Value} : itemsKinded items = true ↔ ∀ v ∈ items, v.kinded = true := by
  induction items with
  | nil => simp [itemsKinded]
  | cons v rest ih => simp [itemsKinded, ih]

theorem entriesKinded_iff {entries : List (String × Value)} :
    entriesKinded entries = true ↔ ∀ e ∈ entries, e.2.kinded = true := by
  induction entries with
  | nil => simp [entriesKinded]
  | cons e rest ih => simp [entriesKinded, ih]

theorem kinded_getD {key : String} {entries : List (String × Value)} (h : entriesKinded entries = true) :
    ((Entries.get? key entries).getD .undefined).kinded = true := by
  cases hget : Entries.get? key entries with
  | none => rfl
  | some v => exact entriesKinded_iff.1 h (key, v) (Entries.mem_of_get? hget)

end Value

namespace Wire

def finiteText (digits : String) : Bool := ((NumberReader.float? digits.toList).map Binary64.isFinite).getD false

mutual

def finite : Wire → Bool
  | .n t => finiteText t
  | .ns ts => ts.all finiteText
  | .l items => itemsFinite items
  | .m entries => entriesFinite entries
  | _ => true

def itemsFinite : List Wire → Bool
  | [] => true
  | w :: rest => finite w && itemsFinite rest

def entriesFinite : List (String × Wire) → Bool
  | [] => true
  | (_, w) :: rest => finite w && entriesFinite rest

end

theorem isSetNumber_readNumber {digits : String} (h : finiteText digits = true) :
    (readNumber digits).isSetNumber = true := by
  rw [finiteText] at h
  cases hx : NumberReader.float? digits.toList with
  | none => simp [hx] at h
  | some x =>
    have hnumber : (Value.number x).isSetNumber = true := by cases x <;> simp_all [Value.isSetNumber, Binary64.isNaN,
      Binary64.isFinite]
    simp only [readNumber, hx, Option.getD_some]
    split
    · split
      · rfl
      · exact hnumber
    · exact hnumber

theorem itemsFinite_iff {ws : List Wire} : itemsFinite ws = true ↔ ∀ w ∈ ws, w.finite = true := by
  induction ws with
  | nil => simp [itemsFinite]
  | cons w rest ih => simp [itemsFinite, ih]

theorem entriesFinite_iff {es : Item} : entriesFinite es = true ↔ ∀ e ∈ es, e.2.finite = true := by
  induction es with
  | nil => simp [entriesFinite]
  | cons e rest ih => simp [entriesFinite, ih]

theorem itemsToValues_eq {ws : List Wire} : itemsToValues ws = ws.map toValue := by
  induction ws with
  | nil => rfl
  | cons w rest ih => rw [itemsToValues, ih, List.map_cons]

theorem kinded_toValue {w : Wire} (h : w.finite = true) : w.toValue.kinded = true := by
  induction w using induct with
  | ss ts => exact memberKind?_isSome_iff.2 (.inr (.inl (List.forall_mem_map.2 fun _ _ => rfl)))
  | bs ms => exact memberKind?_isSome_iff.2 (.inr (.inr (.inl (List.forall_mem_map.2 fun _ _ => rfl))))
  | ns ts =>
    refine memberKind?_isSome_iff.2 (.inl (List.forall_mem_map.2 fun t ht => ?_))
    exact isSetNumber_readNumber (List.all_eq_true.1 h t ht)
  | l items ih =>
    have hitems : Value.itemsKinded (itemsToValues items) = true := by
      rw [itemsToValues_eq, Value.itemsKinded_iff, List.forall_mem_map]
      exact fun w hw => ih w hw (itemsFinite_iff.1 h w hw)
    exact hitems
  | m entries ih =>
    have hentries : Value.entriesKinded (entriesToValues entries) = true := by
      rw [entriesToValues_eq, Value.entriesKinded_iff, List.forall_mem_map]
      exact fun e he => ih e he (entriesFinite_iff.1 h e he)
    exact hentries
  | n t =>
    rw [toValue, readNumber]
    split
    · split <;> rfl
    · rfl
  | _ => rfl

end Wire

def SingleName (name : String) : Prop := DocumentPath.parse? name = some (.field name)

/-- The key of a position strictly inside another one. Inside an item it is any but the empty one. -/
def Inner (path k : String) : Prop := (path = "" ∧ k ≠ "") ∨ Below path k

def AtOrInner (path k : String) : Prop := k = path ∨ Inner path k

variable {path k a b : String} {i j : Nat}

theorem SingleName.ne_empty (h : SingleName a) : a ≠ "" := by
  rintro rfl
  cases h

theorem SingleName.memberPath_ne_empty (h : SingleName a) : memberPath path a ≠ "" :=
  fun he => h.ne_empty (memberPath_eq_empty_iff.1 he).2

theorem not_inner_self : ¬ Inner path path := by
  rintro (⟨he, hne⟩ | ⟨c, rest, -, hk⟩)
  · exact hne he
  · have hlength := congrArg List.length hk
    simp at hlength

theorem AtOrInner.under (h : AtOrInner path k) (hp : path ≠ "") : Under path path k := by
  rcases h with rfl | ⟨he, -⟩ | h
  · exact under_self
  · exact absurd he hp
  · exact .inr h

theorem AtOrInner.inner_of_member (h : AtOrInner (memberPath path a) k) (ha : SingleName a) : Inner path k := by
  have hunder := h.under ha.memberPath_ne_empty
  by_cases hp : path = ""
  · refine .inl ⟨hp, ?_⟩
    rintro rfl
    obtain ⟨rest, hrest, -⟩ := hunder.append
    have hempty := (List.append_eq_nil_iff.1 hrest.symm).1
    exact ha.memberPath_ne_empty (String.toList_eq_nil_iff.1 hempty)
  · exact .inr (hunder.below_of_member hp)

theorem AtOrInner.inner_of_element (h : AtOrInner (elementPath path i) k) : Inner path k :=
  .inr (h.under elementPath_ne_empty).below_of_element

def endsName (c : Char) : Bool := c = '.' || c = '['

theorem AtOrInner.append (h : AtOrInner path k) (hp : path ≠ "") :
    ∃ rest, k.toList = path.toList ++ rest ∧ ∀ c, rest.head? = some c → endsName c = true := by
  rcases h with rfl | ⟨he, -⟩ | ⟨c, rest, hc, hk⟩
  · exact ⟨[], by simp, by simp⟩
  · exact absurd he hp
  · refine ⟨_, hk, fun d hd => ?_⟩
    obtain rfl := Option.some.inj hd
    rcases hc with rfl | rfl <;> rfl

theorem SingleName.endsName_eq_false (h : SingleName a) : ∀ c ∈ a.toList, endsName c = false := by
  obtain ⟨hpoint, hbracket⟩ := DocumentPath.plain_of_parse? h
  intro c hc
  have hne : c ≠ '.' ∧ c ≠ '[' := ⟨fun he => hpoint (he ▸ hc), fun he => hbracket (he ▸ hc)⟩
  simp [endsName, hne]

theorem single_members_disjoint (ha : SingleName a) (hb : SingleName b) (hka : AtOrInner (memberPath path a) k)
    (hkb : AtOrInner (memberPath path b) k) : a = b := by
  obtain ⟨rest, hrest, hr⟩ := hka.append ha.memberPath_ne_empty
  obtain ⟨rest', hrest', hr'⟩ := hkb.append hb.memberPath_ne_empty
  rw [hrest, toList_memberPath, toList_memberPath, List.append_assoc, List.append_assoc] at hrest'
  have hsame := congrArg (List.takeWhile (!endsName ·)) (List.append_cancel_left hrest')
  rw [takeWhile_append_separator ha.endsName_eq_false hr, takeWhile_append_separator hb.endsName_eq_false hr'] at hsame
  exact String.toList_inj.1 hsame

theorem single_elements_disjoint (hi : AtOrInner (elementPath path i) k) (hj : AtOrInner (elementPath path j) k) :
    i = j :=
  elements_disjoint (hi.under elementPath_ne_empty) (hj.under elementPath_ne_empty)

namespace Passing

variable {α β : Type} {F G : String → Prop} {p : Passing α} {q : α → Passing β} {a : α} {b : β}

/-- From a table that has no picks under certain keys, the pass gives a certain result, and it picks under those keys
only. -/
structure Anew (F : String → Prop) (p : Passing α) (a : α) : Prop where
  gives : ∀ s, (∀ k ∈ Entries.keys s.picks, ¬ F k) → (p s).1 = a
  keys : ∀ s, (∀ k ∈ Entries.keys s.picks, ¬ F k) →
    ∀ k ∈ Entries.keys (p s).2.picks, k ∈ Entries.keys s.picks ∨ F k

theorem Anew.pure : Anew F (Pure.pure a) a := ⟨fun _ _ => rfl, fun _ _ _ hk => .inl hk⟩

theorem Anew.mono (h : Anew F p a) (hf : ∀ k, F k → G k) : Anew G p a where
  gives s hs := h.gives s fun k hk hfk => hs k hk (hf k hfk)
  keys s hs k hk := (h.keys s (fun k hk hfk => hs k hk (hf k hfk)) k hk).imp_right (hf k)

theorem Anew.map {g : α → β} (h : Anew F p a) : Anew F (p >>= fun a => Pure.pure (g a)) (g a) where
  gives s hs := congrArg g (h.gives s hs)
  keys := h.keys

theorem Anew.bind (hp : Anew F p a) (hq : Anew G (q a) b) (hd : ∀ k, F k → ¬ G k) :
    Anew (fun k => F k ∨ G k) (p >>= q) b := by
  have hfirst (s : Pass) (hs : ∀ k ∈ Entries.keys s.picks, ¬ (F k ∨ G k)) : (p s).1 = a ∧
      (∀ k ∈ Entries.keys (p s).2.picks, k ∈ Entries.keys s.picks ∨ F k) ∧
        ∀ k ∈ Entries.keys (p s).2.picks, ¬ G k := by
    have hF : ∀ k ∈ Entries.keys s.picks, ¬ F k := fun k hk hf => hs k hk (.inl hf)
    refine ⟨hp.gives s hF, hp.keys s hF, fun k hk hg => ?_⟩
    rcases hp.keys s hF k hk with hk | hk
    · exact hs k hk (.inr hg)
    · exact hd k hk hg
  refine ⟨fun s hs => ?_, fun s hs k hk => ?_⟩
  · obtain ⟨ha, -, hG⟩ := hfirst s hs
    rw [bind_apply, ha]
    exact hq.gives _ hG
  · obtain ⟨ha, hkeys, hG⟩ := hfirst s hs
    rw [bind_apply, ha] at hk
    rcases hq.keys _ hG k hk with hk | hk
    · exact (hkeys k hk).imp_right .inl
    · exact .inr (.inr hk)

theorem Anew.mapM {f : α → Passing β} {F : α → String → Prop} {r : α → β} {xs : List α}
    (hd : xs.Pairwise fun x y => ∀ k, F x k → ¬ F y k) (h : ∀ x ∈ xs, Anew (F x) (f x) (r x)) :
    Anew (fun k => ∃ x ∈ xs, F x k) (xs.mapM f) (xs.map r) := by
  induction xs with
  | nil => exact Anew.pure
  | cons x rest ih =>
    obtain ⟨hx, hrest⟩ := List.pairwise_cons.1 hd
    have hothers := ih hrest fun y hy => h y (List.mem_cons_of_mem _ hy)
    rw [List.mapM_cons]
    refine (Anew.bind (h x List.mem_cons_self) hothers.map ?_).mono ?_
    · rintro k hk ⟨y, hy, hyk⟩
      exact hx y hy k hk hyk
    · rintro k (hk | ⟨y, hy, hyk⟩)
      · exact ⟨x, List.mem_cons_self, hk⟩
      · exact ⟨y, List.mem_cons_of_mem _ hy, hyk⟩

theorem Anew.pick {key path : String} {variants : List Node} {v : Value} :
    Anew (fun k => k = key) (pick key path variants v) (Chooser.fresh key path variants v) where
  gives s hs := by
    have hget : Entries.get? key s.picks = none := Entries.get?_eq_none_iff.2 fun hk => hs key hk rfl
    rw [Passing.pick, Chooser.fresh]
    split
    · rfl
    · simp only [hget]
  keys s _ k hk := by
    rw [Passing.pick] at hk
    split at hk
    · exact .inl hk
    · split at hk
      · exact .inl hk
      · exact (Entries.mem_keys_insert.1 hk).symm

end Passing

namespace Node

variable {n : Node} {v item context : Value} {key path : String} {m : Modifiers} {fields : List (String × Node)}
  {es : List (String × Value)}

def SingleNames (n : Node) : Prop := ∀ fields, n.fields? = some fields → ∀ f ∈ fields, SingleName f.1

theorem SingleNames.of_leaf (hf : n.fields? = none) : n.SingleNames := by simp [SingleNames, hf]

theorem SingleNames.of_object {isOpen : Bool} (h : ∀ f ∈ fields, SingleName f.1) :
    (object m fields isOpen).SingleNames := by
  rintro _ ⟨⟩
  exact h

/-- What is fitting for a reading: no getter, names that are single attributes and differ, and scalars in sets. -/
structure Readable (n : Node) : Prop where
  getter : n.modifiers.getter = none
  nodup : ∀ fields, n.fields? = some fields → (Entries.keys fields).Nodup
  names : n.SingleNames
  members : n.HoldsMembers

def restoring : Treatment := fun n v =>
  match n, v with
  | set _ items, .set members => .set (members.map items.restoreOwn)
  | n, v => n.restoreOwn v

theorem overFields_anew {rewrite : String → Node → Value → Passing Value} {g : String → Node → Value → Value}
    {F : String → String → Prop} (hd : (Entries.keys fields).Nodup) (he : (Entries.keys es).Nodup)
    (hF : ∀ f ∈ fields, ∀ h ∈ fields, ∀ k, F f.1 k → F h.1 k → f.1 = h.1)
    (hr : ∀ f ∈ fields, ∀ v, Entries.get? f.1 es = some v → (rewrite f.1 f.2 v).Anew (F f.1) (g f.1 f.2 v)) :
    (overFields rewrite es fields).Anew (fun k => ∃ f ∈ fields, F f.1 k)
      (es.map fun e => (e.1, Passing.fieldValue g fields e)) := by
  induction fields generalizing es with
  | nil =>
    have hmap : (es.map fun e => (e.1, Passing.fieldValue g [] e)) = es := List.map_id' es
    rw [hmap]
    exact Passing.Anew.pure
  | cons f rest ih =>
    obtain ⟨hf, hrest⟩ := List.nodup_cons.1 hd
    have hne : ∀ h ∈ rest, f.1 ≠ h.1 := fun h hh hfh => hf (hfh ▸ List.mem_map_of_mem (f := Prod.fst) hh)
    have hFrest := fun h hh h' hh' => hF h (List.mem_cons_of_mem f hh) h' (List.mem_cons_of_mem f hh')
    have hwiden : ∀ k, (∃ h ∈ rest, F h.1 k) → ∃ h ∈ f :: rest, F h.1 k := fun k ⟨h, hh, hk⟩ =>
      ⟨h, List.mem_cons_of_mem _ hh, hk⟩
    rw [overFields]
    cases hv : Entries.get? f.1 es with
    | none =>
      rw [Passing.map_fieldValue_cons (Entries.get?_eq_none_iff.1 hv)]
      exact (ih hrest he hFrest fun h hh => hr h (List.mem_cons_of_mem _ hh)).mono hwiden
    | some v =>
      have hothers (w : Value) := @ih (Entries.insert f.1 w es) hrest (Entries.nodup_keys_insert he) hFrest
        fun h hh x hx => hr h (List.mem_cons_of_mem _ hh) x (Entries.get?_insert_of_ne (hne h hh) ▸ hx)
      rw [Passing.map_fieldValue_insert hf he hv]
      refine (Passing.Anew.bind (hr f List.mem_cons_self v hv) (hothers _) ?_).mono ?_
      · rintro k hk ⟨h, hh, hhk⟩
        exact hne h hh (hF f List.mem_cons_self h (List.mem_cons_of_mem _ hh) k hk hhk)
      · rintro k (hk | hk)
        · exact ⟨f, List.mem_cons_self, hk⟩
        · exact hwiden k hk

theorem restoreOwn_of_not_scalar (h : ∀ m k, n ≠ scalar m k) : n.restoreOwn v = v := by
  cases n with
  | scalar m k => exact absurd rfl (h m k)
  | _ => rfl

theorem map_restoreOwn_of_not_accepts {items : Node} {members : List Value} (hi : items.isMemberNode = true)
    (hkind : (Value.memberKind? members).isSome = true) (h : (set m items).accepts (.set members) = false) :
    members.map items.restoreOwn = members := by
  cases items with
  | scalar md k =>
    have hsame (hown : ∀ e ∈ members, (scalar md k).restoreOwn e = e) : members.map (scalar md k).restoreOwn = members :=
      (List.map_congr_left hown).trans (List.map_id members)
    cases k with
    | bigInt =>
      have hall : members.all Value.isString = true ∨ members.all Value.isBinary = true := by
        simp only [accepts, isDate, kind?, plainKind?, Scalar.kind, setKindOf, Value.kind?, Value.memberKind?] at h hkind
        split_ifs at h hkind <;> simp_all
      refine hsame fun e he => ?_
      rcases hall with hall | hall
      · cases e <;> first | rfl | cases List.all_eq_true.1 hall _ he
      · cases e <;> first | rfl | cases List.all_eq_true.1 hall _ he
    | date => cases hi
    | _ => exact hsame fun _ _ => rfl
  | _ => cases hi

theorem pairwise_single_elements {elements : List Value} : elements.zipIdx.Pairwise fun x y => ∀ k,
    AtOrInner (elementPath path x.2) k → ¬ AtOrInner (elementPath path y.2) k := by
  have hindices : (elements.zipIdx.map Prod.snd).Nodup := by
    rw [List.zipIdx_map_snd]
    exact List.nodup_range'
  exact (List.pairwise_map.1 hindices).imp fun hne k hx hy => hne (single_elements_disjoint hx hy)

theorem getValue_of_not_accepts (ha : n.accepts v = false) (hu : n.isUnion = false) (hs : ∀ m k, n ≠ scalar m k) :
    getValue item context key path v n = pure v := by
  cases n with
  | scalar m k => exact absurd rfl (hs m k)
  | union m variants => cases hu
  | _ => simp [getValue, ha]

theorem rewrite_restoring_of_not_accepts {choose : Chooser} (ha : n.accepts v = false) (hu : n.isUnion = false)
    (hn : n.HoldsMembers) (hkinds : v.kinded = true) : n.rewrite choose restoring key path v = n.restoreOwn v := by
  cases n with
  | object m fields isOpen =>
    refine rewrite_object_of_no_map ?_
    cases v <;> first | rfl | cases ha
  | list m items =>
    refine rewrite_list_of_no_list fun elements he => ?_
    obtain rfl : v = .list elements := he
    cases ha
  | set m items =>
    cases v with
    | set members => exact congrArg Value.set (map_restoreOwn_of_not_accepts (hn m items rfl) hkinds ha)
    | _ => rfl
  | union m variants => cases hu
  | _ => rfl

theorem getValue_anew_of_not_accepts (ha : n.accepts v = false) (hu : n.isUnion = false) (hs : ∀ m k, n ≠ scalar m k)
    (hn : n.HoldsMembers) (hkinds : v.kinded = true) {F : String → Prop} :
    (getValue item context key path v n).Anew F (n.rewrite Chooser.fresh restoring key path v) := by
  rw [getValue_of_not_accepts ha hu hs, rewrite_restoring_of_not_accepts ha hu hn hkinds, restoreOwn_of_not_scalar hs]
  exact Passing.Anew.pure

theorem not_isUnion_of_fresh {variants : List Node} {i : Nat} (hi : Chooser.fresh key path variants v = some i)
    (hn : variants[i]? = some n) : n.isUnion = false := by
  rw [Chooser.fresh] at hi
  split at hi
  · cases hi
  · obtain ⟨u, hu, haccepts⟩ := Survey.variantOf_eq_some hi
    obtain rfl : n = u := Option.some.inj (hn.symm.trans hu)
    exact isUnion_of_accepts haccepts

/-- A reading that enters unions as if there had been no picks before, at any position but the inside of a union. -/
def ReadsAnew (item context v : Value) (n : Node) : Prop := ∀ key path, (n.isUnion = true → key = path) →
  (getValue item context key path v n).Anew (fun k => (n.isUnion = true ∧ k = path) ∨ Inner path k)
    (n.rewrite Chooser.fresh restoring key path v)

theorem ReadsAnew.at_path (h : ReadsAnew item context v n) : (getValue item context path path v n).Anew (AtOrInner path)
    (n.rewrite Chooser.fresh restoring path path v) :=
  (h path path fun _ => rfl).mono fun _ hk => hk.imp_left And.right

theorem getFields_anew (hd : (Entries.keys fields).Nodup) (hes : (Entries.keys es).Nodup)
    (hsingle : ∀ f ∈ fields, SingleName f.1)
    (h : ∀ f ∈ fields, ∀ x, Entries.get? f.1 es = some x → ReadsAnew item context x f.2) :
    (getFields item context path es fields).Anew (Inner path)
      (es.map fun e => (e.1, rewriteField Chooser.fresh restoring path e.1 e.2 fields)) := by
  have hfields : (getFields item context path es fields).Anew (fun k => ∃ f ∈ fields, AtOrInner (memberPath path f.1) k)
      (es.map fun e => (e.1, Passing.fieldValue (rewriteIn Chooser.fresh restoring path) fields e)) := by
    rw [getFields_eq]
    exact overFields_anew (F := fun name => AtOrInner (memberPath path name)) hd hes
      (fun f hf g hg k => single_members_disjoint (hsingle f hf) (hsingle g hg)) fun f hf x hx => (h f hf x hx).at_path
  simp only [fieldValue_rewriteIn] at hfields
  refine hfields.mono ?_
  rintro k ⟨f, hf, hk⟩
  exact hk.inner_of_member (hsingle f hf)

theorem elements_anew {elements : List Value} {items : Node} (h : ∀ v ∈ elements, ReadsAnew item context v items) :
    (elements.zipIdx.mapM fun e => getValue item context (elementPath path e.2) (elementPath path e.2) e.1 items).Anew
      (Inner path) (elements.zipIdx.map fun e =>
        items.rewrite Chooser.fresh restoring (elementPath path e.2) (elementPath path e.2) e.1) := by
  have hitems : (elements.zipIdx.mapM fun e =>
      getValue item context (elementPath path e.2) (elementPath path e.2) e.1 items).Anew
      (fun k => ∃ e ∈ elements.zipIdx, AtOrInner (elementPath path e.2) k) _ :=
    Passing.Anew.mapM pairwise_single_elements fun e he => (h e.1 (List.fst_mem_of_mem_zipIdx he)).at_path
  refine hitems.mono ?_
  rintro k ⟨e, -, hk⟩
  exact hk.inner_of_element

theorem getValue_members_restored {members : List Value} {items : Node} (hg : m.getter = none)
    (hgi : items.modifiers.getter = none) (hmember : items.isMemberNode = true)
    (ha : (set m items).accepts (.set members) = true) : getValue item context key path (.set members) (set m items) =
      pure (.set (members.map items.restoreOwn)) := by
  cases items with
  | scalar md k =>
    have hgm : md.getter = none := hgi
    rw [getValue]
    simp only [ha, Bool.not_true, Bool.false_eq_true, if_false, getValue_scalar hgm, List.mapM_pure, pure_bind, getOwn, hg]
  | _ => cases hmember

theorem atVariant_anew {variants : List Node}
    (h : ∀ i u, Chooser.fresh key key variants v = some i → variants[i]? = some u →
      (getValue item context (nestedKey key) key v u).Anew (Inner key)
        (u.rewrite Chooser.fresh restoring (nestedKey key) key v)) :
    (match Chooser.fresh key key variants v with
      | some i => atVariant (getValue item context (nestedKey key) key v) (pure v) variants i
      | none => pure v : Passing Value).Anew (Inner key)
        ((union m variants).rewrite Chooser.fresh restoring key key v) := by
  cases hi : Chooser.fresh key key variants v with
  | none =>
    have hnone : ∀ i u, Chooser.fresh key key variants v = some i → variants[i]? ≠ some u := by simp [hi]
    rw [rewrite_union_of_none hnone]
    exact Passing.Anew.pure
  | some i =>
    cases hu : variants[i]? with
    | none =>
      have hnone : ∀ j u, Chooser.fresh key key variants v = some j → variants[j]? ≠ some u := by
        intro j u hj
        obtain rfl := Option.some.inj (hi.symm.trans hj)
        simp [hu]
      rw [rewrite_union_of_none hnone]
      simp only [atVariant, hu]
      exact Passing.Anew.pure
    | some u =>
      rw [rewrite_union_of_some hi hu]
      simp only [atVariant, hu]
      exact h i u hi hu

/-- A reading enters unions as if there had been no picks before. -/
theorem getValue_anew (hn : n.Throughout Readable) (hv : v.wellKeyed = true) (hkinds : v.kinded = true)
    (hkey : n.isUnion = true → key = path) :
    (getValue item context key path v n).Anew (fun k => (n.isUnion = true ∧ k = path) ∨ Inner path k)
      (n.rewrite Chooser.fresh restoring key path v) := by
  induction n generalizing key path v with
  | scalar m k =>
    have hg : m.getter = none := hn.self.getter
    rw [getValue_scalar hg]
    exact Passing.Anew.pure
  | object m fields isOpen ih =>
    have hg : m.getter = none := hn.self.getter
    cases ha : (object m fields isOpen).accepts v with
    | false => exact getValue_anew_of_not_accepts ha rfl (by simp) hn.self.members hkinds
    | true =>
      obtain ⟨es, rfl⟩ := Wire.map_of_kind? (kind?_of_accepts ha rfl rfl)
      rw [getValue_object hg, rewrite_object rfl]
      refine (getFields_anew (hn.self.nodup fields rfl) (Value.wellKeyed_map.1 hv).1 (hn.self.names fields rfl)
        fun f hf x hx => ?_).map.mono fun k hk => .inr hk
      have hxkinds := Value.entriesKinded_iff.1 hkinds (f.1, x) (Entries.mem_of_get? hx)
      exact fun _ _ => ih f hf (hn.field hf) (Value.wellKeyed_get? hv hx) hxkinds
  | list m items ih =>
    have hg : m.getter = none := hn.self.getter
    cases ha : (list m items).accepts v with
    | false => exact getValue_anew_of_not_accepts ha rfl (by simp) hn.self.members hkinds
    | true =>
      obtain ⟨elements, rfl⟩ := Wire.list_of_kind? (kind?_of_accepts ha rfl rfl)
      rw [getValue_list hg, rewrite_list rfl]
      refine (elements_anew fun e he => ?_).map.mono fun k hk => .inr hk
      exact fun _ _ => ih hn.item (Value.wellKeyed_list.1 hv e he) (Value.itemsKinded_iff.1 hkinds e he)
  | set m items ih =>
    cases ha : (set m items).accepts v with
    | false => exact getValue_anew_of_not_accepts ha rfl (by simp) hn.self.members hkinds
    | true =>
      obtain ⟨members, rfl⟩ := set_of_accepts ha
      have hg : m.getter = none := hn.self.getter
      rw [getValue_members_restored hg hn.member.self.getter (hn.self.members m items rfl) ha]
      exact Passing.Anew.pure
  | union m variants ih =>
    obtain rfl := hkey rfl
    rw [getValue]
    simp only [getVariant_eq]
    refine (Passing.Anew.bind (G := Inner key) Passing.Anew.pick (atVariant_anew fun i u hi hu => ?_) ?_).mono ?_
    · have hmem := List.mem_of_getElem? hu
      have hnot : u.isUnion = false := not_isUnion_of_fresh hi hu
      exact (ih u hmem (hn.variant hmem) hv hkinds (by simp [hnot])).mono fun k hk => hk.resolve_left (by simp [hnot])
    · rintro k rfl
      exact not_inner_self
    · exact fun k hk => hk.imp_left fun he => ⟨rfl, he⟩
  | _ => exact getValue_anew_of_not_accepts rfl rfl (by simp) hn.self.members hkinds

end Node

end ItemMapper
