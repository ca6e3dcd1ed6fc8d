import ItemMapper.Proofs.KeyFields
import ItemMapper.Proofs.Prepared
import ItemMapper.Proofs.StoredForms

/-!
# Storing an item again

Without callbacks, the passes before a store are one rewriting. An item that they have prepared is left alone by the
same passes if and only if it is settled at every position that they lead to. It need not be: a count of seconds
without ten digits is taken for milliseconds when it comes back, a capital may be written with two letters of which
the second one is then lowered, and a prepared value may belong to another variant of its union than before.
-/

namespace ItemMapper

namespace Node

variable {n : Node} {item context v : Value} {key path : String} {t : Picks} {m : Modifiers}

theorem prepared_isUndefined : (prepared item n v).isUndefined = (n.modifiers.orDefault item v).isUndefined := by
  simp only [prepared, Treatment.andThen]
  rw [pruned_trims.isUndefined, assigned_trims.isUndefined, shaped_trims.isUndefined, filled_isUndefined]

theorem prepared_object {fields : List (String × Node)} {isOpen : Bool} {es : List (String × Value)}
    (h : m.orDefault item v = .map es) : prepared item (object m fields isOpen) v =
      .map (keptEntries fields isOpen (es ++ missing item es fields)) := by
  simp [prepared, Treatment.andThen, filled, h, shaped, shapedText, assigned, isDate, pruned]

theorem prepared_map {fields : List (String × Node)} {isOpen : Bool} {es : List (String × Value)} :
    prepared item (object m fields isOpen) (.map es) =
      .map (keptEntries fields isOpen (es ++ missing item es fields)) :=
  prepared_object (orDefault_of_defined rfl)

theorem prepared_orDefault : prepared item n (n.modifiers.orDefault item v) = prepared item n v := by
  have h : filled item n (n.modifiers.orDefault item v) = filled item n v := by
    cases n with
    | object m fields isOpen => simp only [filled, modifiers, orDefault_orDefault]
    | _ => exact orDefault_orDefault
  simp only [prepared, Treatment.andThen, h]

theorem prepared_of_defined (hv : v.isUndefined = false) (hs : ∀ m items, n ≠ set m items)
    (hk : ∀ m k, n ≠ scalar m k) (hm : n.fields? = none ∨ v.isMap = false) : prepared item n v = v := by
  cases n with
  | scalar m k => exact absurd rfl (hk m k)
  | set m items => exact absurd rfl (hs m items)
  | object m fields isOpen =>
    have hmap : v.isMap = false := hm.resolve_left (by simp [fields?])
    cases v <;> first
      | cases hmap; done
      | simp [prepared, Treatment.andThen, filled, Modifiers.orDefault, hv, shaped, shapedText, assigned, isDate, pruned]
  | _ =>
    simp [prepared, Treatment.andThen, filled, Modifiers.orDefault, hv, shaped, shapedText, assigned, isDate, pruned]

theorem missing_eq_nil_of_keys {fields : List (String × Node)} {isOpen : Bool} {es : List (String × Value)}
    (h : Entries.keys (keptEntries fields isOpen (es ++ missing item es fields)) = Entries.keys es) :
    missing item es fields = [] ∧ keptEntries fields isOpen es = es := by
  have hmissing : missing item es fields = [] := by
    refine List.eq_nil_iff_forall_not_mem.2 fun e he => ?_
    have hkept : e ∈ keptEntries fields isOpen (es ++ missing item es fields) := by
      have hmem := List.mem_append_right es he
      have hdeclared : e.1 ∈ Entries.keys fields :=
        keys_missing_sublist.subset (List.mem_map_of_mem (f := Prod.fst) he)
      rw [keptEntries]
      split
      · exact hmem
      · exact List.mem_filter.2 ⟨hmem, Entries.has_iff.2 hdeclared⟩
    have hkey : e.1 ∈ Entries.keys es := h ▸ List.mem_map_of_mem (f := Prod.fst) hkept
    obtain ⟨f, hf, rfl⟩ := List.mem_map.1 he
    have habsent := (List.mem_filter.1 hf).2
    simp [Entries.has_iff.2 hkey] at habsent
  rw [hmissing, List.append_nil] at h
  refine ⟨hmissing, ?_⟩
  rw [keptEntries] at h ⊢
  split
  · rfl
  · rename_i hopen
    rw [if_neg hopen] at h
    refine List.filter_sublist.eq_of_length ?_
    simpa [Entries.keys] using congrArg List.length h

theorem prepared_addsTo : (prepared item).AddsTo fun _ v => v where
  keepsDefined := filled_assigned_keepsDefined.andThen pruned_trims.keepsDefined
  trims := Treatment.Trims.untreated
  list _ _ _ hv := prepared_of_defined hv (by simp) (by simp) (.inl rfl)
  union _ _ _ hv := prepared_of_defined hv (by simp) (by simp) (.inl rfl)
  noMap _ _ _ _ hv hm := prepared_of_defined hv (by simp) (by simp) (.inr hm)
  map m fields isOpen es := by
    refine ⟨_, prepared_map, fun trimmed htrimmed hkeys => ?_⟩
    obtain rfl := Value.map.inj htrimmed
    obtain ⟨hmissing, hkept⟩ := missing_eq_nil_of_keys hkeys
    rw [hmissing, List.append_nil, hkept]
  absent m fields isOpen es h f hf hget := by
    rw [prepared_map, Value.map.injEq] at h
    have hmissing := (missing_eq_nil_of_keys (congrArg Entries.keys h)).1
    rw [Value.eq_undefined_iff, prepared_isUndefined]
    cases hd : (f.2.modifiers.orDefault item .undefined).isUndefined with
    | true => rfl
    | false =>
      have hmem : f ∈ fields.filter fun f =>
          !Entries.has f.1 es && !(f.2.modifiers.orDefault item .undefined).isUndefined :=
        List.mem_filter.2 ⟨hf, by simp [Entries.has, hget, hd]⟩
      rw [missing, List.map_eq_nil_iff] at hmissing
      rw [hmissing] at hmem
      cases hmem

/-- A value stays as it is if the treatment of its node leaves it alone at all positions. -/
theorem rewrite_prepared_eq_self_iff (hk : n.Throughout WellKeyed) (hv : v.wellKeyed = true) :
    n.rewrite t.chooser (prepared item) key path v = v ↔
      n.Everywhere t.chooser (fun n v => prepared item n v = v) key path v := by
  rw [← rewrite_eq_iff prepared_addsTo hk hv, rewrite_untreated]

structure CallbackFree (n : Node) : Prop where
  setter : n.modifiers.setter = none
  default : ∀ f, n.modifiers.default ≠ some (.computed f)

theorem CallbackFree.of_none (hs : n.modifiers.setter = none) (hd : n.modifiers.default = none) : n.CallbackFree :=
  ⟨hs, by simp [hd]⟩

/-- No default waits for the value, a closed object declares all of its keys, and the members of a set differ. -/
structure Complete (n : Node) (v : Value) : Prop where
  present : v = .undefined → ∀ d, n.modifiers.default = some (.fixed d) → d = .undefined
  closed : n.Closed v
  distinct : ∀ m items ms, n = set m items → v = .set ms → Value.AllDistinct ms

/-- Texts have their form, members of sets too, and what counts as true at a date node is its own stored form. -/
structure Formed (n : Node) (v : Value) : Prop where
  text : ∀ m s, n = scalar m .string → v = .string s → m.shapeText s = s
  date : n.isDate = true → v.truthy = true → n.storedForm v = v
  members : ∀ m items ms, n = set m items → v = .set ms → ∀ e ∈ ms, items.shapedText e = e

/-- The passes before a store have nothing to do with a value at its node. -/
def Settled (n : Node) (v : Value) : Prop := n.Complete v ∧ n.Formed v

theorem orDefault_isUndefined_iff (hn : n.CallbackFree) : (n.modifiers.orDefault item .undefined).isUndefined = true ↔
    ∀ d, n.modifiers.default = some (.fixed d) → d = .undefined := by
  rw [Modifiers.orDefault, if_neg (by simp [Value.isUndefined])]
  cases hd : n.modifiers.default with
  | none => simp [Value.isUndefined]
  | some d =>
    cases d with
    | fixed d => simp [Value.eq_undefined_iff]
    | computed f => exact absurd hd (hn.default f)

theorem distinct_map_eq_self_iff {members : List Value} {f : Value → Value} :
    Value.distinct (members.map f) = members ↔ Value.AllDistinct members ∧ ∀ e ∈ members, f e = e := by
  constructor
  · intro h
    -- dropping nothing in number, the repetitions drop nothing at all
    have hsame : Value.distinct (members.map f) = members.map f :=
      (Value.distinct_sublist _).eq_of_length (by rw [h, List.length_map])
    refine ⟨h ▸ Value.distinct_allDistinct _, ?_⟩
    have hmap : members.map f = members.map id := by rw [List.map_id, ← hsame, h]
    exact fun e he => List.map_inj_left.1 hmap e he
  · rintro ⟨hdistinct, hf⟩
    have hmap : members.map f = members := (List.map_congr_left hf).trans (List.map_id members)
    rw [hmap, Value.distinct_eq_self_iff]
    exact hdistinct

theorem prepared_set {items : Node} {ms : List Value} : prepared item (set m items) (.set ms) =
    .set (Value.distinct (ms.map items.shapedText)) := by
  simp [prepared, Treatment.andThen, filled, Modifiers.orDefault, Value.isUndefined, shaped, assigned, pruned,
    Value.distinct_distinct]

theorem prepared_set_of_no_set {items : Node} (hv : v.isUndefined = false) (hs : ∀ ms, v ≠ .set ms) :
    prepared item (set m items) v = v := by
  cases v with
  | set ms => exact absurd rfl (hs ms)
  | undefined => cases hv
  | _ =>
    simp [prepared, Treatment.andThen, filled, Modifiers.orDefault, Value.isUndefined, shaped, shapedText, assigned,
      isDate, pruned]

theorem prepared_scalar {k : Scalar} (hv : v.isUndefined = false) : prepared item (scalar m k) v =
    (if k = .date ∧ v.truthy = true then (scalar m k).storedForm v else (scalar m k).shapedText v) := by
  cases k <;> simp [prepared, Treatment.andThen, filled, Modifiers.orDefault, hv, shaped, shapedText, assigned, isDate,
    pruned]

theorem complete_of_prepared (hn : n.CallbackFree) (h : prepared item n v = v) : n.Complete v where
  present := by
    rintro rfl
    rw [← orDefault_isUndefined_iff hn, ← prepared_isUndefined, h]
    rfl
  closed := by
    cases n with
    | object m fields isOpen =>
      cases v with
      | map es =>
        rw [prepared_map, Value.map.injEq] at h
        have hkept := (missing_eq_nil_of_keys (congrArg Entries.keys h)).2
        exact closed_keptEntries (congrArg Entries.keys hkept.symm)
      | _ => exact closed_of_no_map rfl
    | _ => trivial
  distinct := by
    rintro m items ms rfl rfl
    rw [prepared_set, Value.set.injEq] at h
    exact (distinct_map_eq_self_iff.1 h).1

theorem formed_of_prepared (h : prepared item n v = v) : n.Formed v where
  text := by
    rintro m s rfl rfl
    rw [prepared_scalar rfl] at h
    simpa [shapedText] using h
  date hd hv := by
    cases n with
    | scalar m k =>
      obtain rfl : k = .date := by cases k <;> first | rfl | cases hd
      rw [prepared_scalar (by cases v <;> first | rfl | cases hv), if_pos ⟨rfl, hv⟩] at h
      exact h
    | _ => cases hd
  members := by
    rintro m items ms rfl rfl
    rw [prepared_set, Value.set.injEq] at h
    exact (distinct_map_eq_self_iff.1 h).2

theorem keptEntries_of_closed {fields : List (String × Node)} {isOpen : Bool} {es : List (String × Value)}
    (h : (object m fields isOpen).Closed (.map es)) : keptEntries fields isOpen es = es := by
  rw [keptEntries]
  split
  · rfl
  · rename_i hopen
    rw [Bool.not_eq_true] at hopen
    subst hopen
    exact List.filter_eq_self.2 fun e he => h e.1 (List.mem_map_of_mem (f := Prod.fst) he)

theorem prepared_eq_self_of_settled (hn : n.CallbackFree) (h : n.Settled v)
    (hm : ∀ m fields isOpen es, n = object m fields isOpen → v = .map es → missing item es fields = []) :
    prepared item n v = v := by
  cases hv : v.isUndefined with
  | true =>
    obtain rfl := Value.eq_undefined_iff.2 hv
    rw [Value.eq_undefined_iff, prepared_isUndefined, orDefault_isUndefined_iff hn]
    exact h.1.present rfl
  | false =>
    cases n with
    | scalar m k =>
      rw [prepared_scalar hv]
      split
      · rename_i hd
        obtain ⟨rfl, htruthy⟩ := hd
        exact h.2.date rfl htruthy
      · cases k <;> cases v <;> first | rfl | exact congrArg Value.string (h.2.text m _ rfl rfl)
    | object m fields isOpen =>
      cases v with
      | map es => rw [prepared_map, hm m fields isOpen es rfl rfl, List.append_nil, keptEntries_of_closed h.1.closed]
      | _ => exact prepared_of_defined hv (by simp) (by simp) (.inr rfl)
    | set m items =>
      cases v with
      | set ms =>
        rw [prepared_set,
          distinct_map_eq_self_iff.2 ⟨h.1.distinct m items ms rfl rfl, h.2.members m items ms rfl rfl⟩]
      | _ => exact prepared_set_of_no_set hv (by simp)
    | _ => exact prepared_of_defined hv (by simp) (by simp) (.inl rfl)

theorem Everywhere.prepared_of_settled (hn : n.Throughout CallbackFree)
    (h : n.Everywhere t.chooser Settled key path v) :
    n.Everywhere t.chooser (fun n v => prepared item n v = v) key path v := by
  induction n generalizing key path v with
  | object m fields isOpen ih =>
    refine everywhere_object.2 ⟨prepared_eq_self_of_settled hn.self h.self ?_, fun es hes f hf =>
      ih f hf (hn.field hf) ((everywhere_object.1 h).2 es hes f hf)⟩
    rintro _ _ _ es ⟨⟩ rfl
    rw [missing, List.map_eq_nil_iff, List.filter_eq_nil_iff]
    intro f hf hadded
    rw [Bool.and_eq_true, Bool.not_eq_true', Bool.not_eq_true'] at hadded
    have hpos := (everywhere_object.1 h).2 es rfl f hf
    have hget : Entries.get? f.1 es = none := Entries.get?_eq_none_iff.2 (Entries.has_eq_false_iff.1 hadded.1)
    rw [hget] at hpos
    rw [(orDefault_isUndefined_iff (hn.field hf).self).2 (hpos.self.1.present rfl)] at hadded
    cases hadded.2
  | list m items ih =>
    exact everywhere_list.2 ⟨prepared_eq_self_of_settled hn.self h.self (by simp), fun elements he e hmem =>
      ih hn.item ((everywhere_list.1 h).2 elements he e hmem)⟩
  | union m variants ih =>
    refine everywhere_union.2 ⟨prepared_eq_self_of_settled hn.self h.self (by simp), fun i n hi hget => ?_⟩
    have hmem := List.mem_of_getElem? hget
    exact ih n hmem (hn.variant hmem) ((everywhere_union.1 h).2 i n hi hget)
  | _ => exact prepared_eq_self_of_settled hn.self h.self (by simp)

theorem get?_keptEntries_missing {fields : List (String × Node)} {isOpen : Bool} {es : List (String × Value)}
    {f : String × Node} (hf : f ∈ fields)
    (h : Entries.get? f.1 (keptEntries fields isOpen (es ++ missing item es fields)) = none) :
    (f.2.modifiers.orDefault item .undefined).isUndefined = true := by
  rw [get?_keptEntries (List.mem_map_of_mem (f := Prod.fst) hf), Entries.get?_eq_none_iff] at h
  simp only [Entries.keys, List.map_append, List.mem_append, not_or] at h
  cases hd : (f.2.modifiers.orDefault item .undefined).isUndefined with
  | true => rfl
  | false =>
    refine absurd ?_ h.2
    have hmem : f ∈ fields.filter fun f =>
        !Entries.has f.1 es && !(f.2.modifiers.orDefault item .undefined).isUndefined :=
      List.mem_filter.2 ⟨hf, by simp [Entries.has_eq_false_iff.2 h.1, hd]⟩
    exact List.mem_map.2 ⟨_, List.mem_map_of_mem hmem, rfl⟩

theorem complete_of_undefined (hn : n.CallbackFree) (h : (n.modifiers.orDefault item .undefined).isUndefined = true) :
    n.Complete .undefined where
  present _ := (orDefault_isUndefined_iff hn).1 h
  closed := closed_undefined
  distinct := by simp

theorem complete_of_defined (hv : v.isUndefined = false) (ho : n.fields? = none ∨ v.isMap = false)
    (hs : ∀ m items ms, n = set m items → v = .set ms → Value.AllDistinct ms) : n.Complete v where
  present h := by
    rw [h] at hv
    cases hv
  closed := by
    cases n with
    | object m fields isOpen => exact closed_of_no_map (ho.resolve_left (by simp [fields?]))
    | _ => trivial
  distinct := hs

theorem everywhere_complete_of_defined (hn : n.CallbackFree) (h : ∀ w : Value, w.isUndefined = false →
    n.Everywhere t.chooser Complete key path (n.rewrite t.chooser (prepared item) key path w)) :
    n.Everywhere t.chooser Complete key path (n.rewrite t.chooser (prepared item) key path v) := by
  rw [← rewrite_congr (prepared_orDefault (v := v))]
  cases hw : (n.modifiers.orDefault item v).isUndefined with
  | false => exact h _ hw
  | true =>
    have hdefault : (n.modifiers.orDefault item .undefined).isUndefined = true := by
      rw [← Value.eq_undefined_iff.2 hw, orDefault_orDefault, hw]
    have hres : n.rewrite t.chooser (prepared item) key path (n.modifiers.orDefault item v) = .undefined := by
      rw [Value.eq_undefined_iff, rewrite_isUndefined prepared_addsTo.keepsDefined, prepared_isUndefined,
        orDefault_orDefault, hw]
    rw [hres, everywhere_undefined_iff]
    exact complete_of_undefined hn hdefault

theorem rewrite_prepared_complete (hn : n.Throughout CallbackFree) (hk : n.Throughout WellKeyed) :
    n.Everywhere t.chooser Complete key path (n.rewrite t.chooser (prepared item) key path v) := by
  induction n generalizing key path v with
  | object m fields isOpen ih =>
    refine everywhere_complete_of_defined hn.self fun w hw => ?_
    cases w with
    | map es =>
      rw [rewrite_object prepared_map, everywhere_object]
      refine ⟨⟨by simp, closed_keptEntries (Entries.keys_map _), by simp⟩, ?_⟩
      rintro _ ⟨⟩ f hf
      rw [Entries.get?_map fun e => rewriteField t.chooser (prepared item) path e.1 e.2 fields]
      cases hget : Entries.get? f.1 (keptEntries fields isOpen (es ++ missing item es fields)) with
      | none =>
        exact everywhere_undefined_iff.2 (complete_of_undefined (hn.field hf).self (get?_keptEntries_missing hf hget))
      | some x =>
        simp only [Option.map_some, Option.getD_some, rewriteField_eq, Entries.get?_of_mem hk.nodup_fields hf]
        exact ih f hf (hn.field hf) (hk.field hf)
    | _ =>
      rw [rewrite_object_of_no_map (by rw [prepared_of_defined hw (by simp) (by simp) (.inr rfl)]; rfl)]
      rw [prepared_of_defined hw (by simp) (by simp) (.inr rfl)]
      exact everywhere_object.2 ⟨complete_of_defined hw (.inr rfl) (by simp), by simp⟩
  | list m items ih =>
    refine everywhere_complete_of_defined hn.self fun w hw => ?_
    have hown : prepared item (list m items) w = w := prepared_of_defined hw (by simp) (by simp) (.inl rfl)
    by_cases hl : ∃ elements, w = .list elements
    · obtain ⟨elements, rfl⟩ := hl
      rw [rewrite_list hown, everywhere_list]
      refine ⟨complete_of_defined rfl (.inl rfl) (by simp), ?_⟩
      rintro _ ⟨⟩ e he
      rw [zipIdx_map_zipIdx, List.mem_map] at he
      obtain ⟨d, -, rfl⟩ := he
      exact ih hn.item hk.item
    · have hno : ∀ elements, w ≠ .list elements := fun elements he => hl ⟨elements, he⟩
      rw [rewrite_list_of_no_list (by rwa [hown]), hown, everywhere_list]
      exact ⟨complete_of_defined hw (.inl rfl) (by simp), by simp [hno]⟩
  | union m variants ih =>
    refine everywhere_complete_of_defined hn.self fun w hw => ?_
    have hown : prepared item (union m variants) w = w := prepared_of_defined hw (by simp) (by simp) (.inl rfl)
    by_cases hi : ∃ i n, t.chooser key path variants w = some i ∧ variants[i]? = some n
    · obtain ⟨i, n, hi, hget⟩ := hi
      have hmem := List.mem_of_getElem? hget
      rw [rewrite_union_of_some (by rwa [hown]) hget, hown]
      have hres : (n.rewrite t.chooser (prepared item) (nestedKey key) path w).isUndefined = w.isUndefined := by
        rw [rewrite_isUndefined prepared_addsTo.keepsDefined, prepared_addsTo.keepsDefined n w hw, hw]
      rw [everywhere_union_of_some ((chooser_congr hres).trans hi) hget]
      exact ⟨complete_of_defined (hres.trans hw) (.inl rfl) (by simp), ih n hmem (hn.variant hmem) (hk.variant hmem)⟩
    · have hnone : ∀ i n, t.chooser key path variants w = some i → variants[i]? ≠ some n :=
        fun i n hi' hn' => hi ⟨i, n, hi', hn'⟩
      rw [rewrite_union_of_none (by rwa [hown]), hown, everywhere_union_of_none hnone]
      exact complete_of_defined hw (.inl rfl) (by simp)
  | set m items =>
    refine everywhere_complete_of_defined hn.self fun w hw => complete_of_defined ?_ (.inl rfl) ?_
    · exact prepared_addsTo.keepsDefined _ _ hw
    · rintro _ _ ms ⟨⟩ hms
      by_cases hset : ∃ given, w = .set given
      · obtain ⟨given, rfl⟩ := hset
        obtain rfl := Value.set.inj (prepared_set.symm.trans hms)
        exact Value.distinct_allDistinct _
      · have hown : prepared item (set m items) w = .set ms := hms
        rw [prepared_set_of_no_set hw fun given he => hset ⟨given, he⟩] at hown
        exact absurd ⟨ms, hown⟩ hset
  | _ =>
    refine everywhere_complete_of_defined hn.self fun w hw => complete_of_defined ?_ (.inl rfl) (by simp)
    exact prepared_addsTo.keepsDefined _ _ hw

end Node

namespace Schema

variable {decl : SchemaDeclaration} {s : Schema} {item context context' once twice : Value} {p q : Pass}

/-- An item prepared for the store is prepared again as it is if and only if it is settled wherever the picks of the
second run lead. As long as these are the picks of the first run, only the forms of texts and dates count. -/
theorem forStore_again (hdecl : ofDeclaration decl = .ok s) (hk : s.WellKeyed)
    (hn : s.root.Throughout Node.CallbackFree) (hi : item.wellKeyed = true) (hc : context.wellKeyed = true)
    (h : s.root.forStore item context {} = (once, p)) (h' : s.root.forStore once context' {} = (twice, q)) :
    (twice = once ↔ s.root.Everywhere q.picks.chooser Node.Settled "" "" once) ∧
      (q.picks = p.picks → (twice = once ↔ s.root.Everywhere q.picks.chooser Node.Formed "" "" once)) := by
  have hplain : s.root.Throughout Node.Plain :=
    (hn.and (root_holdsMembers hdecl)).mono fun n hn => ⟨hn.1.setter, hn.2⟩
  have honce : once.wellKeyed = true := by
    have hw := Node.forStore_wellKeyed hk hi hc {}
    rwa [h] at hw
  have hfirst : s.root.rewrite p.picks.chooser (Node.prepared item) "" "" item = once :=
    Node.rewrite_of_forStore hk hplain hi h
  have hsecond : s.root.rewrite q.picks.chooser (Node.prepared once) "" "" once = twice :=
    Node.rewrite_of_forStore hk hplain honce h'
  have hsettled : twice = once ↔ s.root.Everywhere q.picks.chooser Node.Settled "" "" once := by
    rw [← hsecond, Node.rewrite_prepared_eq_self_iff hk honce]
    refine ⟨fun h => h.imp hn fun n v hn hv => ?_, fun h => h.prepared_of_settled hn⟩
    exact ⟨Node.complete_of_prepared hn hv, Node.formed_of_prepared hv⟩
  refine ⟨hsettled, fun hpicks => hsettled.trans ⟨fun h => h.imp hn fun _ _ _ hv => hv.2, fun h => ?_⟩⟩
  have hcomplete : s.root.Everywhere q.picks.chooser Node.Complete "" "" once := by
    rw [hpicks, ← hfirst]
    exact Node.rewrite_prepared_complete hn hk
  exact hcomplete.and h

def visitFields : SchemaDeclaration := [
  ("id", .typed .string none none false { trim := true, memberships := { primary := true } }),
  ("at", .typed .date none none false { format := some .epoch })]

def visits : Schema := .compiled visitFields

def visitAt (time : Value) : Value := .map [("id", .string "a"), ("at", time)]

theorem visits_wellKeyed : visits.WellKeyed :=
  ⟨.of_object (by decide) (.of_none rfl rfl), .of_none rfl rfl rfl, .of_none rfl rfl rfl, trivial⟩

theorem visits_callbackFree : visits.root.Throughout Node.CallbackFree :=
  ⟨.of_none rfl rfl, .of_none rfl rfl, .of_none rfl rfl, trivial⟩

theorem visit_forStore_again :
    visits.root.forStore (visitAt (.string "2023-11-14T22:13:20Z")) .undefined {} =
        (visitAt (.number (.ofInt 1700000000)), {}) ∧
      visits.root.forStore (visitAt (.number (.ofInt 1700000000))) .undefined {} =
        (visitAt (.number (.ofInt 1700000000)), {}) ∧
      visits.root.Everywhere (Picks.chooser []) Node.Settled "" "" (visitAt (.number (.ofInt 1700000000))) := by
  have hdecl : ofDeclaration visitFields = .ok visits := rfl
  have h : visits.root.forStore (visitAt (.string "2023-11-14T22:13:20Z")) .undefined {} =
      (visitAt (.number (.ofInt 1700000000)), {}) := rfl
  have h' : visits.root.forStore (visitAt (.number (.ofInt 1700000000))) .undefined {} =
      (visitAt (.number (.ofInt 1700000000)), {}) := rfl
  exact ⟨h, h', (forStore_again hdecl visits_wellKeyed visits_callbackFree rfl rfl h h').1.1 rfl⟩

/-- The first days of 1970 have fewer digits, and are then taken for milliseconds. -/
theorem visit_forStore_again_differs : ∃ once twice p q,
    visits.root.forStore (visitAt (.string "1970-01-02T00:00:00Z")) .undefined {} = (once, p) ∧
      visits.root.forStore once .undefined {} = (twice, q) ∧ twice ≠ once := by
  refine ⟨visitAt (.number (.ofInt 86400)), visitAt (.number (.ofInt 86)), {}, {}, rfl, rfl, fun h => ?_⟩
  have hat := congrArg (fun v => (v.get "at").asNumber?.map Binary64.storedText) h
  exact absurd hat (by decide)

end Schema

end ItemMapper
