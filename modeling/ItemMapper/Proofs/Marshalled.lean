import ItemMapper.Proofs.Outcomes
import ItemMapper.Proofs.WellKeyed

/-!
# Marshalled values

A value that has a kind is marshalled to a wire value of that kind. A marshalled map has, under each key, what the
value there is marshalled to, and nothing where that value is undefined.
-/

namespace ItemMapper

namespace Wire

variable {options : MarshalOptions} {v : Value} {w : Wire} {kind : Kind} {members items : List Value}
  {entries : List (String × Value)} {ws : List Wire} {es : Item} {key : String}
  {o : Option Wire}

theorem filter_defined (h : ∀ v ∈ members, v.isUndefined = false) :
    members.filter (fun v => !(options.removeUndefined && v.isUndefined)) = members :=
  List.filter_eq_self.2 fun v hv => by simp [h v hv]

/-- The members of a set are stored in one way, which is the first of three that all of them have. -/
inductive StoresMembers : List Value → Wire → Prop where
  | numbers {kept : List Value} {ts : List String}
    (h : List.Forall₂ (fun v t => numberMember? v = some (.ok t)) kept ts) : StoresMembers kept (.ns ts)
  | texts (ts : List String) : StoresMembers (ts.map .string) (.ss ts)
  | blobs (bs : List (List UInt8)) : StoresMembers (bs.map .binary) (.bs bs)

theorem storesMembers_of_ofSet (h : ofSet members options = .ok w) :
    members.filter (fun v => !(options.removeUndefined && v.isUndefined)) ≠ [] ∧
      StoresMembers (members.filter fun v => !(options.removeUndefined && v.isUndefined)) w := by
  simp only [ofSet] at h
  split at h
  · cases h
  rename_i hempty
  refine ⟨by simpa using hempty, ?_⟩
  split at h
  · rename_i results hresults
    obtain ⟨ts, hts, rfl⟩ := Outcome.of_map h
    obtain rfl : results = ts.map .ok := eq_map_of_forall₂ (fun _ _ hr => hr) (Outcome.mapM_eq_ok_iff.1 hts)
    have hread := Outcome.mapM_eq_some_iff.1 hresults
    rw [List.forall₂_map_right_iff] at hread
    exact .numbers hread
  split at h
  · rename_i ts hts
    obtain rfl := Except.ok.inj h
    have htext : ∀ v t, textMember? v = some t → v = .string t := by
      intro v t hvt
      cases v <;> cases hvt
      rfl
    rw [eq_map_of_forall₂ htext (Outcome.mapM_eq_some_iff.1 hts)]
    exact .texts ts
  split at h
  · rename_i bs hbs
    obtain rfl := Except.ok.inj h
    have hbinary : ∀ v bytes, binaryMember? v = some bytes → v = .binary bytes := by
      intro v bytes hvb
      cases v <;> cases hvb
      rfl
    rw [eq_map_of_forall₂ hbinary (Outcome.mapM_eq_some_iff.1 hbs)]
    exact .blobs bs
  · cases h

theorem storesMembers_of_defined (hdef : ∀ v ∈ members, v.isUndefined = false) (h : ofSet members options = .ok w) :
    members ≠ [] ∧ StoresMembers members w := by
  have hstores := storesMembers_of_ofSet h
  rwa [filter_defined hdef] at hstores

theorem memberKind?_isSome_iff : (Value.memberKind? members).isSome = true ↔
    (∀ v ∈ members, v.isSetNumber = true) ∨ (∀ v ∈ members, v.isString = true) ∨
      (∀ v ∈ members, v.isBinary = true) ∨ ∀ v ∈ members, v.isDate = true := by
  simp only [← List.all_eq_true, Value.memberKind?]
  cases members.all Value.isSetNumber <;> cases members.all Value.isString <;> cases members.all Value.isBinary <;>
    cases members.all Value.isDate <;> simp

theorem members_of_memberKind? (hk : Value.memberKind? members = some kind) :
    (kind = .ns ∧ ∀ v ∈ members, (numberMember? v).isSome = true) ∨
      (kind = .ss ∧ ∀ v ∈ members, (textMember? v).isSome = true) ∨
      (kind = .bs ∧ ∀ v ∈ members, (binaryMember? v).isSome = true) := by
  have hread {p : Value → Bool} {β : Type} {f : Value → Option β} (hp : members.all p = true)
      (h : ∀ v, p v = true → (f v).isSome = true) : ∀ v ∈ members, (f v).isSome = true :=
    fun v hv => h v (List.all_eq_true.1 hp v hv)
  rw [Value.memberKind?] at hk
  split at hk
  · exact .inl ⟨(Option.some.inj hk).symm, hread ‹_› fun v hv => by cases v <;> first | rfl | cases hv⟩
  split at hk
  · exact .inr (.inl ⟨(Option.some.inj hk).symm, hread ‹_› fun v hv => by cases v <;> first | rfl | cases hv⟩)
  split at hk
  · exact .inr (.inr ⟨(Option.some.inj hk).symm, hread ‹_› fun v hv => by cases v <;> first | rfl | cases hv⟩)
  split at hk
  · exact .inl ⟨(Option.some.inj hk).symm, hread ‹_› fun v hv => by cases v <;> first | rfl | cases hv⟩
  · cases hk

theorem ofSet_kind (hk : Value.memberKind? members = some kind) (h : ofSet members options = .ok w) :
    w.kind = kind := by
  have hall := members_of_memberKind? hk
  have hdef : ∀ v ∈ members, v.isUndefined = false := by
    intro v hv
    cases v with
    | undefined => rcases hall with ⟨-, h⟩ | ⟨-, h⟩ | ⟨-, h⟩ <;> cases h _ hv
    | _ => rfl
  obtain ⟨hne, hstores⟩ := storesMembers_of_defined hdef h
  -- the first member tells in which way all of them are stored
  obtain ⟨v, hv⟩ := List.exists_mem_of_ne_nil members hne
  cases hstores with
  | numbers hnumbers =>
    obtain ⟨t, -, ht⟩ := exists_of_forall₂ hnumbers hv
    rcases hall with ⟨rfl, -⟩ | ⟨-, hm⟩ | ⟨-, hm⟩
    · rfl
    all_goals
      have ho := hm v hv
      cases v <;> first | (cases ht; done) | cases ho
  | texts ts =>
    obtain ⟨t, -, rfl⟩ := List.mem_map.1 hv
    rcases hall with ⟨-, hm⟩ | ⟨rfl, -⟩ | ⟨-, hm⟩
    · cases hm _ hv
    · rfl
    · cases hm _ hv
  | blobs bs =>
    obtain ⟨bytes, -, rfl⟩ := List.mem_map.1 hv
    rcases hall with ⟨-, hm⟩ | ⟨-, hm⟩ | ⟨rfl, -⟩
    · cases hm _ hv
    · cases hm _ hv
    · rfl

theorem isSet_of_memberKind? (hk : Value.memberKind? members = some kind) : kind.isSet = true := by
  rcases members_of_memberKind? hk with ⟨rfl, -⟩ | ⟨rfl, -⟩ | ⟨rfl, -⟩ <;> rfl

theorem map_of_kind? (h : v.kind? = some .m) : ∃ entries, v = .map entries := by
  cases v with
  | map entries => exact ⟨entries, rfl⟩
  | number x =>
    simp only [Value.kind?] at h
    split at h <;> cases h
  | set members => cases isSet_of_memberKind? h
  | _ => cases h

theorem list_of_kind? (h : v.kind? = some .l) : ∃ elements, v = .list elements := by
  cases v with
  | list elements => exact ⟨elements, rfl⟩
  | number x =>
    simp only [Value.kind?] at h
    split at h <;> cases h
  | set members => cases isSet_of_memberKind? h
  | _ => cases h

theorem ofValue_kind (hk : v.kind? = some kind) (h : ofValue options v = .ok (some w)) : w.kind = kind := by
  cases v with
  | undefined => cases hk
  | number x =>
    rw [ofValue] at h
    obtain ⟨t, -, ⟨⟩⟩ := Outcome.of_map h
    rw [Value.kind?] at hk
    split at hk
    · cases hk
    · exact Option.some.inj hk
  | list items =>
    rw [ofValue] at h
    obtain ⟨ws, -, ⟨⟩⟩ := Outcome.of_map h
    exact Option.some.inj hk
  | map entries =>
    rw [ofValue] at h
    obtain ⟨es, -, ⟨⟩⟩ := Outcome.of_map h
    exact Option.some.inj hk
  | set members =>
    rw [ofValue] at h
    obtain ⟨_, hw, ⟨⟩⟩ := Outcome.of_map h
    exact ofSet_kind hk hw
  | _ =>
    rw [ofValue] at h
    obtain rfl := Option.some.inj (Except.ok.inj h)
    exact Option.some.inj hk

theorem ofValue_undefined (h : ofValue options .undefined = .ok o) : o = none := by
  rw [ofValue] at h
  split at h
  · exact (Except.ok.inj h).symm
  · cases h

theorem ne_undefined_of_ofValue (h : ofValue options v = .ok (some w)) : v ≠ .undefined := by
  rintro rfl
  cases ofValue_undefined h

theorem ofValue_eq_none (h : ofValue options v = .ok none) : v = .undefined := by
  cases v with
  | undefined => rfl
  | _ =>
    rw [ofValue] at h
    first
    | cases h
    | obtain ⟨_, _, hw⟩ := Outcome.of_map h
      cases hw

theorem ofItems_cons (h : ofItems options (v :: items) = .ok ws) : ∃ o ws',
    ofValue options v = .ok o ∧ ofItems options items = .ok ws' ∧ ws = o.toList ++ ws' := by
  rw [ofItems] at h
  obtain ⟨o, ho, h⟩ := Outcome.of_bind h
  obtain ⟨ws', hws, h⟩ := Outcome.of_bind h
  exact ⟨o, ws', ho, hws, (Except.ok.inj h).symm⟩

theorem ofEntries_cons (h : ofEntries options ((key, v) :: entries) = .ok es) : ∃ o es',
    ofValue options v = .ok o ∧ ofEntries options entries = .ok es' ∧ es = (o.map fun w => (key, w)).toList ++ es' := by
  rw [ofEntries] at h
  obtain ⟨o, ho, h⟩ := Outcome.of_bind h
  obtain ⟨es', hes, h⟩ := Outcome.of_bind h
  exact ⟨o, es', ho, hes, (Except.ok.inj h).symm⟩

theorem mem_ofItems (h : ofItems options items = .ok ws) (hw : w ∈ ws) :
    ∃ v ∈ items, ofValue options v = .ok (some w) := by
  induction items generalizing ws with
  | nil =>
    obtain rfl := Except.ok.inj h
    cases hw
  | cons v rest ih =>
    obtain ⟨o, ws', ho, hrest, rfl⟩ := ofItems_cons h
    rcases List.mem_append.1 hw with hw | hw
    · cases o with
      | none => cases hw
      | some x =>
        obtain rfl : w = x := by simpa using hw
        exact ⟨v, List.mem_cons_self, ho⟩
    · obtain ⟨u, hu, hx⟩ := ih hrest hw
      exact ⟨u, List.mem_cons_of_mem _ hu, hx⟩

theorem keys_ofEntries (h : ofEntries options entries = .ok es) :
    (Entries.keys es).Sublist (Entries.keys entries) := by
  induction entries generalizing es with
  | nil =>
    obtain rfl := Except.ok.inj h
    exact List.Sublist.slnil
  | cons e rest ih =>
    obtain ⟨o, es', -, hrest, rfl⟩ := ofEntries_cons h
    cases o with
    | none => exact (ih hrest).cons _
    | some w => exact (ih hrest).cons_cons _

theorem get?_ofEntries (hd : (Entries.keys entries).Nodup) (h : ofEntries options entries = .ok es)
    (hv : Entries.get? key entries = some v) : ofValue options v = .ok (Entries.get? key es) := by
  induction entries generalizing es with
  | nil => cases hv
  | cons e rest ih =>
    obtain ⟨hnot, hrest⟩ := List.nodup_cons.1 hd
    obtain ⟨o, es', ho, hes, rfl⟩ := ofEntries_cons h
    by_cases he : e.1 = key
    · obtain rfl : e.2 = v := by simpa [Entries.get?, he] using hv
      rw [ho]
      cases o with
      | some w => simp [Entries.get?, he]
      | none =>
        have hkey : key ∉ Entries.keys es' := fun hk => hnot (he ▸ (keys_ofEntries hes).subset hk)
        exact congrArg Except.ok (Entries.get?_eq_none_iff.2 hkey).symm
    · rw [Entries.get?, if_neg he] at hv
      rw [ih hrest hes hv]
      cases o <;> simp [Entries.get?, he]

theorem get?_ofEntries_eq_none (h : ofEntries options entries = .ok es) (hk : Entries.get? key entries = none) :
    Entries.get? key es = none :=
  Entries.get?_eq_none_iff.2 fun hmem => Entries.get?_eq_none_iff.1 hk ((keys_ofEntries h).subset hmem)

end Wire

theorem Item.wire_of_ofValue {options : MarshalOptions} {v : Value} {item : Item} (h : ofValue options v = .ok item) :
    Wire.ofValue options v = .ok (some (.m item)) := by
  cases v with
  | map entries =>
    rw [Wire.ofValue, show Wire.ofEntries options entries = .ok item from h]
    rfl
  | _ => cases h

end ItemMapper
