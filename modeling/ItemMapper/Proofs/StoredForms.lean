import ItemMapper.Proofs.WellKeyed

/-!
# Stored forms

What holds of every item on its way to the store, whatever the callbacks did. What is established at the values that
lead no further, once their setters were called, is left alone by pruning, which closes the objects around them. So
outside unions, a value that denotes a date at a date node is a number, and no closed object has a key that it does not
declare.
-/

namespace ItemMapper.Node

def StoresDate (n : Node) (v : Value) : Prop :=
  n.isDate = true → (n.millis? v).isSome = true → ∃ x, v = .number x

def Closed : Node → Value → Prop
  | object _ fields false, .map entries => ∀ key ∈ Entries.keys entries, Entries.has key fields = true
  | _, _ => True

def InStoredForm (n : Node) (v : Value) : Prop := n.StoresDate v ∧ n.Closed v

variable {n : Node} {around : Surroundings} {key path : String} {v item context : Value}

theorem storesDate_undefined : n.StoresDate .undefined := by
  intro _ h
  simp [millis?, DateFormat.millis?] at h

theorem storesDate_of_not_date (h : n.isDate = false) : n.StoresDate v := fun hd => absurd hd (by simp [h])

theorem storesDate_of_not_truthy (h : v.truthy = false) : n.StoresDate v := by
  intro _ hms
  cases v with
  | number x => exact ⟨x, rfl⟩
  | string s =>
    obtain rfl : s = "" := by simpa [Value.truthy] using h
    simp [millis?, DateFormat.millis?, DateFormat.ofText?, Text.trim, Text.trimStart, Text.trimEnd] at hms
  | _ => simp_all [millis?, DateFormat.millis?, Value.truthy]

theorem storesDate_storedForm : n.StoresDate (n.storedForm v) := by
  intro hd hms
  rw [storedForm, if_pos hd] at hms ⊢
  cases hv : n.dateFormat.millis? v with
  | none => simp [DateFormat.stored?, millis?, hv] at hms
  | some ms => exact ⟨.ofInt (n.dateFormat.encode ms), by simp [DateFormat.stored?, hv]⟩

theorem setOwn_storesDate : (setOwn around n v).Ensures n.StoresDate := by
  have hstore (w : Value) : n.StoresDate (if n.isDate && w.truthy then n.storedForm w else w) := by
    split
    · exact storesDate_storedForm
    · rename_i h
      cases hd : n.isDate with
      | false => exact storesDate_of_not_date hd
      | true => exact storesDate_of_not_truthy (by simpa [hd] using h)
  rw [setOwn]
  cases n.modifiers.setter with
  | none => exact Passing.Ensures.pure (hstore v)
  | some f => exact Passing.Ensures.bind Passing.Ensures.any fun w _ => Passing.Ensures.pure (hstore w)

/-- A property that the setters and the removal of repeated members establish at values without further positions,
and that objects, lists and unions have whatever they contain. -/
structure Established (P : Node → Value → Prop) : Prop where
  undefined : ∀ n, P n .undefined
  object : ∀ m fields isOpen v, P (object m fields isOpen) v
  list : ∀ m items v, P (list m items) v
  union : ∀ m variants v, P (union m variants) v
  set : ∀ m items v, (∀ members, v = .set members → Value.AllDistinct members) → P (set m items) v
  own : ∀ around n v, n.fields? = none → n.items? = none → n.isUnion = false → (setOwn around n v).Ensures (P n)

theorem storesDate_established : Established StoresDate where
  undefined _ := storesDate_undefined
  object _ _ _ _ := storesDate_of_not_date rfl
  list _ _ _ := storesDate_of_not_date rfl
  union _ _ _ := storesDate_of_not_date rfl
  set _ _ _ _ := storesDate_of_not_date rfl
  own _ _ _ _ _ _ := setOwn_storesDate

section Established

variable {P : Node → Value → Prop}

theorem setValue_everywhere (hP : Established P) (hn : n.Throughout WellKeyed) :
    (setValue around key path v n).Ensures (n.Everywhere .never P "" "") := by
  induction n generalizing key path v with
  | object m fields isOpen ih =>
    rw [setValue]
    split
    · exact Passing.Ensures.pure (everywhere_undefined hP.undefined)
    · refine Passing.Ensures.bind Passing.Ensures.any fun w _ => ?_
      cases w with
      | map entries =>
        simp only [setFields_eq]
        refine Passing.Ensures.bind
          (Passing.Ensures.overFields (Q := fun f w => f.2.Everywhere .never P "" "" w)
          hn.nodup_fields fun f hf v _ => ih f hf (hn.field hf)) fun es hes => Passing.Ensures.pure ?_
        refine everywhere_object_never.2 ⟨hP.object _ _ _ _, ?_⟩
        rintro _ ⟨⟩ f hf
        cases hw : Entries.get? f.1 es with
        | none => exact everywhere_undefined hP.undefined
        | some w => exact hes.2.1 f hf w hw
      | _ => exact Passing.Ensures.pure (everywhere_object.2 ⟨hP.object _ _ _ _, by simp⟩)
  | list m items ih =>
    rw [setValue]
    split
    · exact Passing.Ensures.pure (everywhere_undefined hP.undefined)
    · refine Passing.Ensures.bind Passing.Ensures.any fun w _ => ?_
      cases w with
      | list elements =>
        refine Passing.Ensures.bind (Passing.Ensures.mapM fun e _ => ih hn.item) fun es hes =>
          Passing.Ensures.pure (everywhere_list_never.2 ⟨hP.list _ _ _, ?_⟩)
        rintro _ ⟨⟩
        exact hes
      | _ => exact Passing.Ensures.pure (everywhere_list.2 ⟨hP.list _ _ _, by simp⟩)
  | set m items =>
    rw [setValue]
    split
    · exact Passing.Ensures.pure (hP.undefined _)
    · refine Passing.Ensures.bind Passing.Ensures.any fun w _ => ?_
      cases w with
      | set members =>
        refine Passing.Ensures.bind Passing.Ensures.any fun es _ => Passing.Ensures.pure (hP.set _ _ _ ?_)
        rintro _ ⟨⟩
        exact Value.distinct_allDistinct es
      | _ => exact Passing.Ensures.pure (hP.set _ _ _ (by simp))
  | union m variants => exact fun s => everywhere_union.2 ⟨hP.union _ _ _, by simp [Chooser.never]⟩
  | _ =>
    rw [setValue]
    split
    · exact Passing.Ensures.pure (hP.undefined _)
    · exact hP.own _ _ _ rfl rfl rfl

end Established

theorem get?_keptEntries {fields : List (String × Node)} {isOpen : Bool} {entries : List (String × Value)}
    {name : String} (h : name ∈ Entries.keys fields) :
    Entries.get? name (keptEntries fields isOpen entries) = Entries.get? name entries := by
  rw [keptEntries]
  split
  · rfl
  · exact (Entries.get?_filter fun key => Entries.has key fields).trans (if_pos (Entries.has_iff.2 h))

theorem closed_keptEntries {m : Modifiers} {fields : List (String × Node)} {isOpen : Bool}
    {entries es : List (String × Value)} (h : Entries.keys es = Entries.keys (keptEntries fields isOpen entries)) :
    (object m fields isOpen).Closed (.map es) := by
  cases isOpen with
  | true => trivial
  | false =>
    intro name hname
    rw [h, keptEntries, if_neg Bool.false_ne_true, Entries.keys_filter fun key => Entries.has key fields] at hname
    exact (List.mem_filter.1 hname).2

theorem closed_undefined : n.Closed .undefined := by
  cases n with
  | object m fields isOpen => cases isOpen <;> trivial
  | _ => trivial

theorem closed_of_no_map {m : Modifiers} {fields : List (String × Node)} {isOpen : Bool} (h : v.isMap = false) :
    (object m fields isOpen).Closed v := by
  cases isOpen <;> cases v <;> trivial

section Established

variable {P : Node → Value → Prop}

theorem prune_everywhere (hP : Established P) (hn : n.Throughout WellKeyed) (hv : v.wellKeyed = true)
    (hd : n.Everywhere .never P "" "" v) :
    (prune key path v n).Ensures (n.Everywhere .never (fun n v => P n v ∧ n.Closed v) "" "") := by
  induction n generalizing key path v with
  | object m fields isOpen ih =>
    cases v with
    | map entries =>
      rw [prune]
      have hkept : (Entries.keys (keptEntries fields isOpen entries)).Nodup :=
        nodup_keys_keptEntries (Value.wellKeyed_map.1 hv).1
      refine Passing.Ensures.bind (Passing.Ensures.mapEntries (g := fun name v => pruneField path name v fields)
        (Q := fun name w => ∀ f ∈ fields, f.1 = name →
          f.2.Everywhere .never (fun n v => P n v ∧ n.Closed v) "" "" w) fun e he => ?_) fun es hes => ?_
      · rw [pruneField_eq]
        have hget : Entries.get? e.1 entries = some e.2 :=
          Entries.get?_of_mem (Value.wellKeyed_map.1 hv).1 (keptEntries_subset he)
        cases hu : Entries.get? e.1 fields with
        | none =>
          refine Passing.Ensures.pure fun f hf hfe => absurd (Entries.get?_eq_none_iff.1 hu) (not_not.2 ?_)
          exact hfe ▸ List.mem_map_of_mem (f := Prod.fst) hf
        | some u =>
          have hmem := Entries.mem_of_get? hu
          have hinner := (everywhere_object_never.1 hd).2 entries rfl (e.1, u) hmem
          simp only [hget, Option.getD_some] at hinner
          refine Passing.Ensures.mono (ih (e.1, u) hmem (hn.field hmem) (Value.wellKeyed_get? hv hget) hinner) ?_
          rintro w hw ⟨name, u'⟩ hf rfl
          obtain rfl : u = u' := by simpa [hu] using Entries.get?_of_mem hn.nodup_fields hf
          exact hw
      · refine Passing.Ensures.pure
          (everywhere_object_never.2 ⟨⟨hP.object _ _ _ _, closed_keptEntries hes.1⟩, ?_⟩)
        rintro _ ⟨⟩ f hf
        cases hw : Entries.get? f.1 es with
        | none => exact everywhere_undefined fun n => ⟨hP.undefined n, closed_undefined⟩
        | some w => exact hes.2 (f.1, w) (Entries.mem_of_get? hw) f hf rfl
    | _ => exact Passing.Ensures.pure (everywhere_object.2 ⟨⟨hP.object _ _ _ _, closed_of_no_map rfl⟩, by simp⟩)
  | list m items ih =>
    cases v with
    | list elements =>
      rw [prune]
      have hinner := (everywhere_list_never.1 hd).2 elements rfl
      refine Passing.Ensures.bind
        (Passing.Ensures.mapM (Q := items.Everywhere .never (fun n v => P n v ∧ n.Closed v) "" "")
        fun e he => ?_) fun es hes =>
        Passing.Ensures.pure (everywhere_list_never.2 ⟨⟨hP.list _ _ _, trivial⟩, ?_⟩)
      · have he' := List.fst_mem_of_mem_zipIdx he
        exact ih hn.item (Value.wellKeyed_list.1 hv e.1 he') (hinner e.1 he')
      · rintro _ ⟨⟩
        exact hes
    | _ => exact Passing.Ensures.pure (everywhere_list.2 ⟨⟨hP.list _ _ _, trivial⟩, by simp⟩)
  | union m variants => exact fun s => everywhere_union.2 ⟨⟨hP.union _ _ _, trivial⟩, by simp [Chooser.never]⟩
  | scalar m k => exact Passing.Ensures.pure ⟨hd.self, trivial⟩
  | any m => exact Passing.Ensures.pure ⟨hd.self, trivial⟩
  | set m items => exact Passing.Ensures.pure ⟨hd.self, trivial⟩
  | undefined m => exact Passing.Ensures.pure ⟨hd.self, trivial⟩

theorem forStore_everywhere (hP : Established P) (hn : n.Throughout WellKeyed) (hi : item.wellKeyed = true)
    (hc : context.wellKeyed = true) : (n.forStore item context).Ensures fun v => v.wellKeyed = true ∧
      n.Everywhere .never (fun n v => P n v ∧ n.Closed v) "" "" v := by
  rw [forStore]
  refine Passing.Ensures.bind (fill_wellKeyed hi hn hi) fun filled hf => ?_
  refine Passing.Ensures.bind (shape_wellKeyed hf) fun shaped hs => ?_
  refine Passing.Ensures.bind (P := fun v => v.wellKeyed = true ∧ n.Everywhere .never P "" "" v)
    (fun s => ⟨setValue_wellKeyed hi hc hn hs s, setValue_everywhere hP hn s⟩) fun assigned ha => ?_
  exact fun s => ⟨prune_wellKeyed ha.1 s, prune_everywhere hP hn ha.1 ha.2 s⟩

end Established

end ItemMapper.Node
