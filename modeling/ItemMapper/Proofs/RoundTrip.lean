import ItemMapper.Proofs.KeyFields
import ItemMapper.Proofs.Restored

/-!
# From a put to a get

An item whose values are of the very kinds that a schema declares comes back from the wire as it was put, each date
cut to what its format counts. The schema must leave values to themselves: it has no callbacks, no defaults and no
forms of texts.
-/

namespace ItemMapper

namespace Wire

variable {options : MarshalOptions} {entries : List (String × Value)} {elements : List Value} {ws : List Wire}
  {es : Item} {key : String}

theorem entriesToValues_eq : entriesToValues es = es.map fun e => (e.1, e.2.toValue) := by
  induction es with
  | nil => rfl
  | cons e rest ih => rw [entriesToValues, ih, List.map_cons]

theorem keys_entriesToValues : Entries.keys (entriesToValues es) = Entries.keys es := by
  rw [entriesToValues_eq]
  exact Entries.keys_map fun e : String × Wire => e.2.toValue

theorem get?_entriesToValues : Entries.get? key (entriesToValues es) = (Entries.get? key es).map toValue := by
  rw [entriesToValues_eq]
  exact Entries.get?_map fun e : String × Wire => e.2.toValue

theorem keys_ofEntries_of_defined (hdef : ∀ e ∈ entries, e.2.isUndefined = false)
    (h : ofEntries options entries = .ok es) : Entries.keys es = Entries.keys entries := by
  induction entries generalizing es with
  | nil =>
    obtain rfl := Except.ok.inj h
    rfl
  | cons e rest ih =>
    obtain ⟨o, es', ho, hrest, rfl⟩ := ofEntries_cons h
    have htail := ih (fun d hd => hdef d (List.mem_cons_of_mem _ hd)) hrest
    cases o with
    | none =>
      have he := hdef e List.mem_cons_self
      rw [ofValue_eq_none ho] at he
      cases he
    | some w => exact congrArg (List.cons e.1) htail

theorem ensures_items {j : Nat} (stored restored : Nat → Value → Value) (read : Nat → Value → Passing Value)
    (hdef : ∀ v ∈ elements, ∀ i, (stored i v).isUndefined = false)
    (hread : ∀ v ∈ elements, ∀ i w, ofValue options (stored i v) = .ok (some w) →
      (read i w.toValue).Ensures fun u => u = restored i v)
    (h : ofItems options ((elements.zipIdx j).map fun e => stored e.2 e.1) = .ok ws) :
    Passing.Ensures (((itemsToValues ws).zipIdx j).mapM fun e => read e.2 e.1) fun us =>
      us = (elements.zipIdx j).map fun e => restored e.2 e.1 := by
  induction elements generalizing ws j with
  | nil =>
    obtain rfl := Except.ok.inj h
    exact Passing.Ensures.pure rfl
  | cons v rest ih =>
    rw [List.zipIdx_cons, List.map_cons] at h
    obtain ⟨o, ws', ho, hrest, rfl⟩ := ofItems_cons h
    cases o with
    | none =>
      have hv := hdef v List.mem_cons_self j
      rw [ofValue_eq_none ho] at hv
      cases hv
    | some w =>
      rw [Option.toList_some, List.singleton_append, itemsToValues, List.zipIdx_cons, List.mapM_cons]
      refine Passing.Ensures.bind (hread v List.mem_cons_self j w ho) fun u hu => ?_
      refine Passing.Ensures.bind (ih (fun x hx => hdef x (List.mem_cons_of_mem _ hx))
        (fun x hx => hread x (List.mem_cons_of_mem _ hx)) hrest) fun us hus => ?_
      exact Passing.Ensures.pure (by rw [hu, hus, List.zipIdx_cons, List.map_cons])

end Wire

namespace Node

variable {n : Node} {item context v : Value} {key path : String} {t : Picks} {m md : Modifiers} {k : Scalar}
  {w : Wire} {options : MarshalOptions} {members : List Value}

/-- Nothing of a node goes into its values: it has no setter and no getter, no default, and no form for texts. -/
structure Faithful (n : Node) : Prop extends Bare n where
  getter : n.modifiers.getter = none

theorem Faithful.of_none (hs : n.modifiers.setter = none) (hd : n.modifiers.default = none)
    (hg : n.modifiers.getter = none)
    (ht : (n.modifiers.trim || n.modifiers.lowercase || n.modifiers.uppercase || n.modifiers.capitalize) = false) :
    n.Faithful := ⟨.of_none hs hd ht, hg⟩

/-- The value is of the very kind of its node. Objects have declared and defined entries only, elements of lists are
defined, and sets have members that differ. An absent value is of every kind. -/
def Exact : Node → Value → Prop
  | _, .undefined => True
  | scalar _ k, v => k.Holds v
  | object _ fields _, .map entries => ∀ e ∈ entries, e.1 ∈ Entries.keys fields ∧ e.2.isUndefined = false
  | list _ _, .list elements => ∀ v ∈ elements, v.isUndefined = false
  | set _ (scalar _ k), .set members => members ≠ [] ∧ Value.AllDistinct members ∧ ∀ v ∈ members, k.Holds v
  | _, _ => False

theorem Exact.scalar (h : (scalar m k).Exact v) (hv : v.isUndefined = false) : k.Holds v := by
  cases v with
  | undefined => cases hv
  | _ => exact h

theorem Exact.object {fields : List (String × Node)} {isOpen : Bool} (h : (object m fields isOpen).Exact v)
    (hv : v.isUndefined = false) :
    ∃ es, v = .map es ∧ ∀ e ∈ es, e.1 ∈ Entries.keys fields ∧ e.2.isUndefined = false := by
  cases v with
  | undefined => cases hv
  | map es => exact ⟨es, rfl, h⟩
  | _ => cases h

theorem Exact.list {items : Node} (h : (list m items).Exact v) (hv : v.isUndefined = false) :
    ∃ elements, v = .list elements ∧ ∀ e ∈ elements, e.isUndefined = false := by
  cases v with
  | undefined => cases hv
  | list elements => exact ⟨elements, rfl, h⟩
  | _ => cases h

theorem Exact.set (h : (set m (Node.scalar md k)).Exact v) (hv : v.isUndefined = false) : ∃ members, v = .set members ∧
    members ≠ [] ∧ Value.AllDistinct members ∧ ∀ e ∈ members, k.Holds e := by
  cases v with
  | undefined => cases hv
  | set members => exact ⟨members, rfl, h⟩
  | _ => cases h

theorem getValue_scalar (hg : m.getter = none) :
    getValue item context key path v (scalar m k) = pure (restoreOwn (scalar m k) v) := by
  simp only [getValue, getOwn, hg]
  split <;> rfl

theorem getValue_object {fields : List (String × Node)} {isOpen : Bool} {es : List (String × Value)}
    (hg : m.getter = none) : getValue item context key path (.map es) (object m fields isOpen) = do
      return .map (← getFields item context path es fields) := by
  have haccepts : accepts (object m fields isOpen) (.map es) = true := rfl
  simp only [getValue, haccepts, Bool.not_true, Bool.false_eq_true, if_false, getOwn, hg]

theorem getValue_list {items : Node} {elements : List Value} (hg : m.getter = none) :
    getValue item context key path (.list elements) (list m items) = do
      return .list (← elements.zipIdx.mapM fun e =>
        getValue item context (elementPath path e.2) (elementPath path e.2) e.1 items) := by
  have haccepts : accepts (list m items) (.list elements) = true := rfl
  simp only [getValue, haccepts, Bool.not_true, Bool.false_eq_true, if_false, getOwn, hg]

theorem getValue_set (hg : m.getter = none) (hgm : md.getter = none) (hmember : (scalar md k).isMemberNode = true)
    (hne : members ≠ []) (hv : ∀ v ∈ members, k.Holds v) (h : Wire.ofSet members options = .ok w) :
    getValue item context key path w.toValue (set m (scalar md k)) = pure (.set members) := by
  have hk : k ≠ .date := by
    rintro rfl
    cases hmember
  have hback : (members.map Value.reread).map (restoreOwn (scalar md k)) = members := by
    rw [List.map_map]
    exact (List.map_congr_left fun v hmem => restoreOwn_reread (hv v hmem) hk).trans (List.map_id' members)
  rw [Wire.toValue_ofSet hv hk h, getValue]
  simp only [accepts_reread hmember hne hv, Bool.not_true, Bool.false_eq_true, if_false, getValue_scalar hgm,
    List.mapM_pure, pure_bind, hback, getOwn, hg]

theorem converted_object {fields : List (String × Node)} {isOpen : Bool} {es : List (String × Value)}
    (h : ∀ e ∈ es, e.1 ∈ Entries.keys fields) : converted (object m fields isOpen) (.map es) = .map es := by
  obtain ⟨p, hp, hes, -⟩ := converted_trims.object m fields isOpen
  rw [hes, List.filter_eq_self.2 fun e he => hp e.1 (h e he)]

theorem converted_set {items : Node} (h : Value.AllDistinct members) :
    converted (set m items) (.set members) = .set members := by
  change Value.set (Value.distinct members) = .set members
  rw [Value.distinct_eq_self_iff.2 h]

theorem rewrite_converted_defined (hv : v.isUndefined = false) :
    (n.rewrite t.chooser converted key path v).isUndefined = false := by
  rw [rewrite_isUndefined converted_trims.keepsDefined, converted_trims.isUndefined, hv]

theorem defined_of_ofValue (h : Wire.ofValue options (n.rewrite t.chooser converted key path v) = .ok (some w)) :
    v.isUndefined = false := by
  have hne := Wire.ne_undefined_of_ofValue h
  rw [ne_eq, Value.eq_undefined_iff, rewrite_isUndefined converted_trims.keepsDefined, converted_trims.isUndefined,
    Bool.not_eq_true] at hne
  exact hne

theorem getFields_toValue {fields : List (String × Node)} {es : List (String × Value)} {stored : Item}
    (back : String × Value → Value) (hnames : (Entries.keys fields).Nodup) (hd : (Entries.keys es).Nodup)
    (hkeys : Entries.keys stored = Entries.keys es) (hdeclared : ∀ e ∈ es, e.1 ∈ Entries.keys fields)
    (hread : ∀ f ∈ fields, ∀ v w, Entries.get? f.1 es = some v → Entries.get? f.1 stored = some w →
      (getValue item context (memberPath path f.1) (memberPath path f.1) w.toValue f.2).Ensures
        fun u => u = back (f.1, v)) :
    (getFields item context path (Wire.entriesToValues stored) fields).Ensures fun us =>
      us = es.map fun e => (e.1, back e) := by
  have hback : ∀ f ∈ fields, ∀ r, Entries.get? f.1 (Wire.entriesToValues stored) = some r →
      (getValue item context (memberPath path f.1) (memberPath path f.1) r f.2).Ensures
        fun u => ∀ v, Entries.get? f.1 es = some v → u = back (f.1, v) := by
    intro f hf r hr s v hv
    rw [Wire.get?_entriesToValues] at hr
    obtain ⟨w, hw, rfl⟩ := Option.map_eq_some_iff.1 hr
    exact hread f hf v w hv hw s
  rw [getFields_eq]
  refine Passing.Ensures.mono (Passing.Ensures.overFields hnames hback) fun us hus => ?_
  obtain ⟨hkeysUs, hfields, -⟩ := hus
  rw [Wire.keys_entriesToValues, hkeys] at hkeysUs
  refine Entries.ext (hkeysUs.trans (Entries.keys_map back).symm) (hkeysUs ▸ hd) fun name => ?_
  rw [Entries.get?_map back]
  cases hv : Entries.get? name es with
  | none =>
    rw [Entries.get?_eq_none_iff] at hv
    exact Entries.get?_eq_none_iff.2 (hkeysUs ▸ hv)
  | some v =>
    have hmem : name ∈ Entries.keys es := Entries.has_iff.1 (by rw [Entries.has, hv]; rfl)
    obtain ⟨r, hr⟩ := Option.isSome_iff_exists.1 (Entries.has_iff.2 (hkeysUs ▸ hmem))
    obtain ⟨n, hn⟩ := Option.isSome_iff_exists.1 (Entries.has_iff.2 (hdeclared _ (Entries.mem_of_get? hv)))
    rw [hr, Option.map_some, hfields (name, n) (Entries.mem_of_get? hn) r hr v hv]

theorem keys_stored {fields : List (String × Node)} {es : List (String × Value)} {stored : Item}
    (hes : ∀ e ∈ es, e.1 ∈ Entries.keys fields ∧ e.2.isUndefined = false)
    (h : Wire.ofEntries options (es.map fun e => (e.1, rewriteField t.chooser converted path e.1 e.2 fields)) =
      .ok stored) : Entries.keys stored = Entries.keys es := by
  rw [Wire.keys_ofEntries_of_defined ?_ h]
  · exact Entries.keys_map fun e => rewriteField t.chooser converted path e.1 e.2 fields
  · intro e hmem
    obtain ⟨d, hd, rfl⟩ := List.mem_map.1 hmem
    obtain ⟨n, hn⟩ := Option.isSome_iff_exists.1 (Entries.has_iff.2 (hes d hd).1)
    rw [rewriteField_eq, hn]
    exact rewrite_converted_defined (hes d hd).2

theorem ofValue_stored {fields : List (String × Node)} {es : List (String × Value)} {stored : Item}
    {f : String × Node} (hnames : (Entries.keys fields).Nodup) (hd : (Entries.keys es).Nodup)
    (h : Wire.ofEntries options (es.map fun e => (e.1, rewriteField t.chooser converted path e.1 e.2 fields)) =
      .ok stored) (hf : f ∈ fields) (hv : Entries.get? f.1 es = some v) (hw : Entries.get? f.1 stored = some w) :
    Wire.ofValue options (f.2.rewrite t.chooser converted (memberPath path f.1) (memberPath path f.1) v) =
      .ok (some w) := by
  have hget : Entries.get? f.1 (es.map fun e => (e.1, rewriteField t.chooser converted path e.1 e.2 fields)) =
      some (f.2.rewrite t.chooser converted (memberPath path f.1) (memberPath path f.1) v) := by
    rw [Entries.get?_map fun e => rewriteField t.chooser converted path e.1 e.2 fields, hv, Option.map_some,
      rewriteField_eq, Entries.get?_of_mem hnames hf]
  rw [Wire.get?_ofEntries (by rwa [Entries.keys_map]) h hget, hw]

/-- Only scalars are members, so a set is read without going inside. -/
theorem getValue_set_toValue {items : Node} {key' path' key'' path'' : String} (hf : (set m items).Throughout Faithful)
    (hm : (set m items).HoldsMembers) (he : (set m items).Everywhere .never Exact "" "" v)
    (h : Wire.ofValue options ((set m items).rewrite t.chooser converted key path v) = .ok (some w)) :
    getValue item context key' path' w.toValue (set m items) =
      pure ((set m items).rewrite .never floored key'' path'' v) := by
  have hg : m.getter = none := hf.self.getter
  have hmember := hm m items rfl
  cases items with
  | scalar md k =>
    have hgm : md.getter = none := hf.member.self.getter
    obtain ⟨members, rfl, hne, hdistinct, hholds⟩ := he.self.set (defined_of_ofValue h)
    rw [rewrite, converted_set hdistinct, Wire.ofValue] at h
    obtain ⟨u, hu, hw⟩ := Outcome.of_map h
    cases hw
    rw [getValue_set hg hgm hmember hne hholds hu]
    rfl
  | _ => cases hmember

/-- A value that is of the very kind of its node everywhere comes back from its stored form. -/
theorem getValue_toValue {key' path' key'' path'' : String} (hk : n.Throughout WellKeyed)
    (hf : n.Throughout Faithful) (hm : n.Throughout HoldsMembers) (hv : v.wellKeyed = true)
    (he : n.Everywhere .never Exact "" "" v)
    (h : Wire.ofValue options (n.rewrite t.chooser converted key path v) = .ok (some w)) :
    (getValue item context key' path' w.toValue n).Ensures
      fun u => u = n.rewrite .never floored key'' path'' v := by
  -- the write and the read keep track of paths by themselves, so that nothing may depend on them
  induction n generalizing v w key path key' path' key'' path'' with
  | scalar m k =>
    have hg : m.getter = none := hf.self.getter
    rw [getValue_scalar hg]
    exact Passing.Ensures.pure (restoreOwn_toValue (he.self.scalar (defined_of_ofValue h)) h)
  | object m fields isOpen ih =>
    have hg : m.getter = none := hf.self.getter
    obtain ⟨es, rfl, hes⟩ := he.self.object (defined_of_ofValue h)
    have hdeclared : ∀ e ∈ es, e.1 ∈ Entries.keys fields := fun e hmem => (hes e hmem).1
    have hd := (Value.wellKeyed_map.1 hv).1
    have hnames := hk.nodup_fields
    rw [rewrite_object (converted_object hdeclared), Wire.ofValue] at h
    obtain ⟨stored, hstored, hw⟩ := Outcome.of_map h
    cases hw
    -- maps are told by their look-ups, so each field is read on its own
    have hread : ∀ f ∈ fields, ∀ v w, Entries.get? f.1 es = some v → Entries.get? f.1 stored = some w →
        (getValue item context (memberPath path' f.1) (memberPath path' f.1) w.toValue f.2).Ensures
          fun u => u = rewriteField .never floored path'' f.1 v fields := by
      intro f hmem v w hget hw
      have hevery := (everywhere_object_never.1 he).2 es rfl f hmem
      rw [hget] at hevery
      simp only [rewriteField_eq, Entries.get?_of_mem hnames hmem]
      exact ih f hmem (hk.field hmem) (hf.field hmem) (hm.field hmem) (Value.wellKeyed_get? hv hget) hevery
        (ofValue_stored hnames hd hstored hmem hget hw)
    rw [Wire.toValue, getValue_object hg]
    refine Passing.Ensures.bind (getFields_toValue (fun e => rewriteField .never floored path'' e.1 e.2 fields)
      hnames hd (keys_stored hes hstored) hdeclared hread) fun us hus => ?_
    exact Passing.Ensures.pure (congrArg Value.map hus)
  | list m items ih =>
    have hg : m.getter = none := hf.self.getter
    obtain ⟨elements, rfl, hdef⟩ := he.self.list (defined_of_ofValue h)
    rw [rewrite_list (converted_trims.list m items _), Wire.ofValue] at h
    obtain ⟨ws, hws, hw⟩ := Outcome.of_map h
    cases hw
    rw [Wire.toValue, getValue_list hg]
    refine Passing.Ensures.bind (Wire.ensures_items
      (fun i e => items.rewrite t.chooser converted (elementPath path i) (elementPath path i) e)
      (fun i e => items.rewrite .never floored (elementPath path'' i) (elementPath path'' i) e)
      (fun i e => getValue item context (elementPath path' i) (elementPath path' i) e items)
      (fun e hmem i => rewrite_converted_defined (hdef e hmem)) (fun e hmem i w hw => ?_) hws) fun us hus => ?_
    · exact ih hk.item hf.item hm.item (Value.wellKeyed_list.1 hv e hmem)
        ((everywhere_list_never.1 he).2 elements rfl e hmem) hw
    · exact Passing.Ensures.pure (congrArg Value.list hus)
  | set m items =>
    rw [getValue_set_toValue hf hm.self he h]
    exact Passing.Ensures.pure rfl
  | _ =>
    -- nothing but an absent value is exact at the other nodes
    have hdef := defined_of_ofValue h
    have hself := he.self
    cases v with
    | undefined => cases hdef
    | _ => cases hself

end Node

namespace Mapper

variable {m : Mapper} {item context prepared : Value} {condition : Option Value} {options : WriteOptions}
  {request : Request.PutItem} {s s' : Session}

/-- Put and then get: the item comes back, each date cut to what its format counts. -/
theorem retrieved_put {decl : SchemaDeclaration} (hdecl : Schema.ofDeclaration decl = .ok m.schema)
    (hs : m.schema.WellKeyed) (hf : m.schema.root.Throughout Node.Faithful) (hi : item.wellKeyed = true)
    (he : m.schema.root.Everywhere .never Node.Exact "" "" item)
    (h : (m.putRequest item condition options).run s = (.ok (request, prepared), s')) (t : Session) :
    ∃ t', (m.retrieved context request.item).run t =
      (.ok (m.schema.root.rewrite .never Node.floored "" "" item), t') := by
  obtain ⟨u, hstorable, hmarshal⟩ := of_putRequest h
  obtain ⟨p, hstore, -⟩ := of_storable hstorable
  have hmembers := Schema.root_holdsMembers hdecl
  have hplain : m.schema.root.Throughout Node.Plain :=
    (hf.and hmembers).mono fun n hn => ⟨hn.1.setter, hn.2⟩
  have hprepared := Node.rewrite_of_forStore hs hplain hi hstore
  rw [Node.rewrite_eq_of_throughout (fun n hn v => Node.prepared_of_bare hn) (hf.mono fun n hn => hn.toBare)]
    at hprepared
  have hwire := Item.wire_of_ofValue hmarshal
  rw [← hprepared] at hwire
  have hread : (m.schema.root.getValue request.item.toValue context "" "" request.item.toValue { calls := t.calls }).1 =
      m.schema.root.rewrite .never Node.floored "" "" item :=
    Node.getValue_toValue hs hf hmembers hi he hwire { calls := t.calls }
  exact ⟨_, congrArg (fun v => (Except.ok v, _)) hread⟩

/-- Accounts with a date in seconds, and with big integers alone, in a set and beside dates in a list. -/
def accountFields : SchemaDeclaration := [
  ("id", .typed .string none none false { memberships := { primary := true } }),
  ("opened", .typed .date none none false { format := some .epoch }),
  ("total", .tag .bigInt),
  ("parts", .typed .set none (some (.tag .bigInt)) false {}),
  ("entries", .typed .array none (some (.typed .object (some [("paid", .tag .date), ("rate", .tag .number)]) none false
    {})) false {})]

def accounts : Mapper where
  table := "accounts"
  schema := .compiled accountFields

def account (opened paid : Instant) : Value := .map [
  ("id", .string "a"),
  ("opened", .date opened),
  ("total", .bigInt 5),
  ("parts", .set [.bigInt 7, .bigInt 9007199254740993]),
  ("entries", .list [.map [("paid", .date paid), ("rate", .number (.ofInt 3))]])]

theorem accounts_wellKeyed : accounts.schema.WellKeyed :=
  ⟨.of_object (by decide) (.of_none rfl rfl), .of_none rfl rfl rfl, .of_none rfl rfl rfl, .of_none rfl rfl rfl,
    ⟨.of_none rfl rfl rfl, .of_none rfl rfl rfl⟩,
    ⟨.of_none rfl rfl rfl, .of_object (by decide) (.of_none rfl rfl), .of_none rfl rfl rfl, .of_none rfl rfl rfl, trivial⟩,
    trivial⟩

theorem accounts_faithful : accounts.schema.root.Throughout Node.Faithful :=
  ⟨.of_none rfl rfl rfl rfl, .of_none rfl rfl rfl rfl, .of_none rfl rfl rfl rfl, .of_none rfl rfl rfl rfl,
    ⟨.of_none rfl rfl rfl rfl, .of_none rfl rfl rfl rfl⟩,
    ⟨.of_none rfl rfl rfl rfl, .of_none rfl rfl rfl rfl, .of_none rfl rfl rfl rfl, .of_none rfl rfl rfl rfl, trivial⟩,
    trivial⟩

theorem account_exact : accounts.schema.root.Everywhere .never Node.Exact "" ""
    (account ⟨-1499500000⟩ ⟨-1499500000⟩) := by
  have hdate : (Instant.mk (-1499500000)).InCalendar := ⟨by decide, by decide⟩
  have hparts : Value.AllDistinct [.bigInt 7, .bigInt 9007199254740993] := Value.distinct_eq_self_iff.1 rfl
  have hbig {i : Int} (h : NumberReader.leastBig ≤ i ∧ i ≤ NumberReader.greatestBig) :
      Scalar.bigInt.Holds (.bigInt i) := h
  have hrate : Scalar.number.Holds (.number (.ofInt 3)) := ⟨rfl, .inr rfl⟩
  refine ⟨?_, trivial, hdate, hbig (by decide), ⟨by simp, hparts, ?_⟩, ⟨?_, ?_⟩, trivial⟩
  · change ∀ e : String × Value, e ∈ _ → e.1 ∈ ["id", "opened", "total", "parts", "entries"] ∧ e.2.isUndefined = false
    simp [Value.isUndefined]
  · rintro v (_ | ⟨_, _ | ⟨_, ⟨⟩⟩⟩)
    · exact hbig (by decide)
    · exact hbig (by decide)
  · rintro v (_ | ⟨_, ⟨⟩⟩)
    rfl
  · rintro e (_ | ⟨_, ⟨⟩⟩)
    refine ⟨?_, hdate, hrate, trivial⟩
    change ∀ e : String × Value, e ∈ _ → e.1 ∈ ["paid", "rate"] ∧ e.2.isUndefined = false
    simp [Value.isUndefined]

theorem account_retrieved_put : ∃ request prepared s t,
    (accounts.putRequest (account ⟨-1499500000⟩ ⟨-1499500000⟩) none {}).run {} = (.ok (request, prepared), s) ∧
      request.item = [("id", .s "a"), ("opened", .n "-2"), ("total", .n "5"), ("parts", .ns ["7", "9007199254740993"]),
        ("entries", .l [.m [("paid", .n "-1500"), ("rate", .n "3")]])] ∧
      (accounts.retrieved .undefined request.item).run {} =
        (.ok (account (.ofMillis (-2000)) (.ofMillis (-1500))), t) := by
  have hdecl : Schema.ofDeclaration accountFields = .ok accounts.schema := rfl
  have hitem : ((accounts.putRequest (account ⟨-1499500000⟩ ⟨-1499500000⟩) none {}).run {}).1.toOption.map
      (fun r => r.1.item) = some [("id", .s "a"), ("opened", .n "-2"), ("total", .n "5"),
        ("parts", .ns ["7", "9007199254740993"]), ("entries", .l [.m [("paid", .n "-1500"), ("rate", .n "3")]])] := rfl
  cases h : (accounts.putRequest (account ⟨-1499500000⟩ ⟨-1499500000⟩) none {}).run {} with
  | mk r s =>
    rw [h] at hitem
    cases r with
    | error e => cases hitem
    | ok p =>
      have hback : ∃ t, (accounts.retrieved .undefined p.1.item).run {} =
          (.ok (account (.ofMillis (-2000)) (.ofMillis (-1500))), t) :=
        retrieved_put hdecl accounts_wellKeyed accounts_faithful rfl account_exact h {}
      obtain ⟨t, ht⟩ := hback
      exact ⟨p.1, p.2, s, t, rfl, Option.some.inj hitem, ht⟩

end Mapper

end ItemMapper
