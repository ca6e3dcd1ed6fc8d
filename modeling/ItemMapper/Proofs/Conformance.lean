import ItemMapper.Proofs.KeyFields
import ItemMapper.Proofs.Marshalled
import ItemMapper.Proofs.StoredForms
import ItemMapper.Proofs.Validated

/-!
# Conformance of stored items

An item that a put sends agrees with the schema in the tagged form of the wire: closed objects have declared keys
only, required fields are there, and every scalar and set has the kind of its node. What stands at a union or at a
node of any value is left open. Callbacks may have replaced any value by any other on the way.
-/

namespace ItemMapper

namespace Node

mutual

def Conforms (w : Wire) : Node → Prop
  | scalar _ k => w.kind = k.kind
  | object _ fields isOpen =>
    match w with
    | .m entries => (isOpen = false → ∀ key ∈ Entries.keys entries, Entries.has key fields = true) ∧
        fieldsConform entries fields
    | _ => False
  | any _ => True
  | list _ items =>
    match w with
    | .l elements => ∀ e ∈ elements, Conforms e items
    | _ => False
  | set _ items => w.kind = setKindOf items.kind?
  | union _ _ => True
  | undefined _ => False

def fieldsConform (entries : Item) : List (String × Node) → Prop
  | [] => True
  | (name, n) :: rest =>
    (match Entries.get? name entries with
      | some w => Conforms w n
      | none => n.required = false) ∧ fieldsConform entries rest

end

theorem fieldsConform_iff {entries : Item} {fields : List (String × Node)} : fieldsConform entries fields ↔
    ∀ f ∈ fields, (∀ w, Entries.get? f.1 entries = some w → f.2.Conforms w) ∧
      (Entries.get? f.1 entries = none → f.2.required = false) := by
  induction fields with
  | nil => simp [fieldsConform]
  | cons f rest ih =>
    rw [fieldsConform, List.forall_mem_cons, ih]
    cases Entries.get? f.1 entries <;> simp

variable {n : Node} {v : Value} {w : Wire} {options : MarshalOptions} {key path : String}

structure Fit (n : Node) (v : Value) : Prop where
  present : n.required = true → v ≠ .undefined
  accepted : v ≠ .undefined → Phase.checkType n v = []
  stored : n.InStoredForm v

theorem Fit.mk_of_lets (hr : Phase.required.Lets n v) (ht : Phase.type.Lets n v) (hs : n.InStoredForm v) : n.Fit v where
  present hn hv := by
    subst hv
    have h := hr rfl ""
    simp [Phase.check, Phase.checkRequired, hn, Value.isUndefined] at h
  accepted hv := ht (by cases v <;> first | rfl | contradiction) ""
  stored := hs

theorem accepts_of_checkType (hv : Phase.checkType n v = []) (ha : ∀ m, n ≠ .any m) (hu : n.isUnion = false) :
    n.accepts v = true := by
  cases n with
  | any m => exact absurd rfl (ha m)
  | union m variants => cases hu
  | _ =>
    simp only [Phase.checkType] at hv
    split at hv
    · assumption
    · split at hv <;> cases hv

theorem kind?_of_accepts {kind : Kind} (h : n.accepts v = true) (hd : n.isDate = false) (hk : n.kind? = some kind) :
    v.kind? = some kind := by
  rw [accepts, hd, if_neg Bool.false_ne_true, hk] at h
  cases hv : v.kind? with
  | none => simp [hv] at h
  | some actual =>
    simp only [hv, beq_iff_eq] at h
    rw [h]

theorem setKindOf_isSet (kind : Option Kind) : (setKindOf kind).isSet = true := by
  rw [setKindOf.eq_def]
  split <;> rfl

theorem set_of_accepts {m : Modifiers} {items : Node} (h : (set m items).accepts v = true) :
    ∃ members, v = .set members := by
  have hkind : v.kind? = some (setKindOf items.kind?) := kind?_of_accepts h rfl rfl
  have hset := setKindOf_isSet items.kind?
  generalize setKindOf items.kind? = kind at hkind hset
  cases v with
  | set members => exact ⟨members, rfl⟩
  | number x =>
    simp only [Value.kind?] at hkind
    split at hkind <;> cases hkind
    cases hset
  | _ => cases hkind <;> cases hset

theorem Fit.accepts (h : n.Fit v) (hw : Wire.ofValue options v = .ok (some w)) (ha : ∀ m, n ≠ .any m)
    (hu : n.isUnion = false) : n.accepts v = true :=
  accepts_of_checkType (h.accepted (Wire.ne_undefined_of_ofValue hw)) ha hu

theorem scalar_conforms {m : Modifiers} {k : Scalar} (h : (scalar m k).Fit v)
    (hw : Wire.ofValue options v = .ok (some w)) : w.kind = k.kind := by
  have haccepts := h.accepts hw (by simp) rfl
  by_cases hk : k = .date
  · subst hk
    -- the validator takes any form of a date; only a number can be left of it here
    obtain ⟨x, rfl⟩ := h.stored.1 rfl (by simpa [Node.accepts, isDate] using haccepts)
    rw [Wire.ofValue] at hw
    obtain ⟨t, -, ⟨⟩⟩ := Outcome.of_map hw
    rfl
  · refine Wire.ofValue_kind (kind?_of_accepts haccepts ?_ ?_) hw
    · cases k <;> first | rfl | contradiction
    · cases k <;> first | rfl | contradiction

/-- A marshalled value agrees with its node if the value fits it everywhere outside unions. -/
theorem conforms_of_fit (hv : v.wellKeyed = true) (h : n.Everywhere .never Fit key path v)
    (hw : Wire.ofValue options v = .ok (some w)) : n.Conforms w := by
  induction n generalizing key path v w with
  | scalar m k =>
    rw [Conforms]
    exact scalar_conforms h.self hw
  | object m fields isOpen ih =>
    obtain ⟨entries, rfl⟩ := Wire.map_of_kind? (kind?_of_accepts (h.self.accepts hw (by simp) rfl) rfl rfl)
    rw [Wire.ofValue] at hw
    obtain ⟨es, hes, ⟨⟩⟩ := Outcome.of_map hw
    rw [Conforms, fieldsConform_iff]
    refine ⟨?_, fun f hf => ?_⟩
    · rintro rfl name hname
      exact h.self.stored.2 name ((Wire.keys_ofEntries hes).subset hname)
    · have hfield := (everywhere_object.1 h).2 entries rfl f hf
      cases hget : Entries.get? f.1 entries with
      | none =>
        rw [Wire.get?_ofEntries_eq_none hes hget]
        rw [hget] at hfield
        exact ⟨by simp, fun _ => Bool.eq_false_iff.2 fun hreq => hfield.self.present hreq rfl⟩
      | some u =>
        rw [hget] at hfield
        have hu := Wire.get?_ofEntries (Value.wellKeyed_map.1 hv).1 hes hget
        refine ⟨fun x hx => ?_, fun hx => ?_⟩
        · rw [hx] at hu
          exact ih f hf (Value.wellKeyed_get? hv hget) hfield hu
        · rw [hx] at hu
          exact Bool.eq_false_iff.2 fun hreq => hfield.self.present hreq (Wire.ofValue_eq_none hu)
  | list m items ih =>
    obtain ⟨elements, rfl⟩ := Wire.list_of_kind? (kind?_of_accepts (h.self.accepts hw (by simp) rfl) rfl rfl)
    rw [Wire.ofValue] at hw
    obtain ⟨ws, hws, ⟨⟩⟩ := Outcome.of_map hw
    have hitems := (everywhere_list_never.1 (h.at "" "")).2 elements rfl
    rw [Conforms]
    intro x hx
    obtain ⟨u, hu, hux⟩ := Wire.mem_ofItems hws hx
    exact ih (Value.wellKeyed_list.1 hv u hu) (hitems u hu) hux
  | set m items =>
    rw [Conforms]
    exact Wire.ofValue_kind (kind?_of_accepts (h.self.accepts hw (by simp) rfl) rfl rfl) hw
  | any m =>
    rw [Conforms]
    trivial
  | union m variants =>
    rw [Conforms]
    trivial
  | undefined m =>
    have haccepts := h.self.accepts hw (by simp) rfl
    simp [accepts, isDate, kind?, plainKind?] at haccepts

end Node

namespace Mapper

variable {m : Mapper} {item context prepared : Value} {condition : Option Value} {options : WriteOptions}
  {request : Request.PutItem} {s s' : Session}

theorem established_of_putRequest {P : Node → Value → Prop} (hP : Node.Established P) (hs : m.schema.WellKeyed)
    (hi : item.wellKeyed = true) (hc : options.context.wellKeyed = true)
    (h : (m.putRequest item condition options).run s = (.ok (request, prepared), s')) :
    prepared.wellKeyed = true ∧ Item.ofValue m.config.marshalOptions prepared = .ok request.item ∧
      m.schema.root.Everywhere .never
        (fun n v => (Phase.required.Lets n v ∧ Phase.type.Lets n v) ∧ P n v ∧ n.Closed v) "" "" prepared := by
  obtain ⟨t, hstorable, hmarshal⟩ := of_putRequest h
  obtain ⟨u, hstore, hvalid⟩ := of_storable hstorable
  have hstored := Node.forStore_everywhere hP hs hi hc { calls := s.calls }
  rw [hstore] at hstored
  have hrequired := Node.everywhere_of_validate (show Phase.required ≠ .custom by simp) hvalid
  have htype := Node.everywhere_of_validate (show Phase.type ≠ .custom by simp) hvalid
  exact ⟨hstored.1, hmarshal, (hrequired.and htype).and hstored.2⟩

theorem fit_of_putRequest (hs : m.schema.WellKeyed) (hi : item.wellKeyed = true) (hc : options.context.wellKeyed = true)
    (h : (m.putRequest item condition options).run s = (.ok (request, prepared), s')) :
    prepared.wellKeyed = true ∧ Item.ofValue m.config.marshalOptions prepared = .ok request.item ∧
      m.schema.root.Everywhere .never Node.Fit "" "" prepared := by
  obtain ⟨hkeyed, hmarshal, hall⟩ := established_of_putRequest Node.storesDate_established hs hi hc h
  exact ⟨hkeyed, hmarshal, hall.imp hs fun n v _ hv => Node.Fit.mk_of_lets hv.1.1 hv.1.2 hv.2⟩

/-- The item that a put sends agrees with the schema, and each key is there in the kind that the attribute
definitions give. -/
theorem putRequest_conforms {decl : SchemaDeclaration} (hdecl : Schema.ofDeclaration decl = .ok m.schema)
    (hs : m.schema.WellKeyed) (hi : item.wellKeyed = true) (hc : options.context.wellKeyed = true)
    (h : (m.putRequest item condition options).run s = (.ok (request, prepared), s')) :
    m.schema.root.Conforms (.m request.item) ∧ ∀ name, m.schema.isKey name = true →
      ∃ w, Entries.get? name request.item = some w ∧
        (∃ x ∈ m.schema.attributeDefinitions, x.attributeName = name) ∧
        ∀ x ∈ m.schema.attributeDefinitions, x.attributeName = name → w.kind = x.attributeType.kind := by
  obtain ⟨hkeyed, hmarshal, hfit⟩ := fit_of_putRequest hs hi hc h
  have hconforms := Node.conforms_of_fit hkeyed hfit (Item.wire_of_ofValue hmarshal)
  refine ⟨hconforms, fun name hname => ?_⟩
  obtain ⟨md, k, hfield, hreq, hdef, hkind⟩ := Schema.key_field hdecl hs hname
  obtain ⟨fields, draft, -, -, -, -, -, hroot⟩ := Schema.of_ofDeclaration hdecl
  rw [Schema.field?, Node.field?, hroot] at hfield
  rw [hroot, Node.Conforms, Node.fieldsConform_iff] at hconforms
  obtain ⟨hpresent, habsent⟩ := hconforms.2 (name, .scalar md k) (Entries.mem_of_get? hfield)
  cases hw : Entries.get? name request.item with
  | none => exact absurd (habsent hw) (by simp [Node.required, Node.modifiers, hreq])
  | some w =>
    have hk := hpresent w hw
    rw [Node.Conforms] at hk
    exact ⟨w, rfl, hdef, fun x hx hxn => hk.trans (hkind x hx hxn).symm⟩

def readingFields : SchemaDeclaration := [
  ("sensor", .typed .string none none false { memberships := { primary := true } }),
  ("at", .typed .date none none false { format := some .epoch, memberships := { sortKey := true } }),
  ("tags", .typed .set none (some (.tag .string)) false {}),
  ("place", .typed .object (some [("room", .tag .number)]) none false
    { setter := some ⟨some "place", fun v _ _ => v⟩ })]

def readings : Mapper where
  table := "readings"
  schema := .compiled readingFields

def reading : Value := .map [("sensor", .string "a"), ("at", .string "1970-01-02T00:00:00Z"),
  ("tags", .set [.string "b", .string "c"]), ("place", .map [("room", .number (.ofInt 5)), ("floor", .null)])]

theorem readings_wellKeyed : readings.schema.WellKeyed := by
  have place : Modifiers.WellKeyed { setter := some ⟨some "place", fun v _ _ => v⟩ } := by
    refine ⟨by rintro _ ⟨⟩, by rintro _ ⟨⟩, ?_⟩
    rintro _ ⟨⟩ v _ _ hv _ _
    exact hv
  exact ⟨.of_object (by decide) (.of_none rfl rfl), .of_none rfl rfl rfl, .of_none rfl rfl rfl,
    ⟨.of_none rfl rfl rfl, .of_none rfl rfl rfl⟩, ⟨.of_object (by decide) place, .of_none rfl rfl rfl, trivial⟩, trivial⟩

theorem readings_put_conforms : ∃ request prepared s,
    (readings.putRequest reading none {}).run {} = (.ok (request, prepared), s) ∧
      request.item = [("sensor", .s "a"), ("at", .n "86400"), ("tags", .ss ["b", "c"]),
        ("place", .m [("room", .n "5")])] ∧
      readings.schema.root.Conforms (.m request.item) := by
  have hdecl : Schema.ofDeclaration readingFields = .ok readings.schema := rfl
  have hitem : ((readings.putRequest reading none {}).run {}).1.toOption.map (fun r => r.1.item) =
      some [("sensor", .s "a"), ("at", .n "86400"), ("tags", .ss ["b", "c"]), ("place", .m [("room", .n "5")])] := rfl
  cases h : (readings.putRequest reading none {}).run {} with
  | mk r s =>
    rw [h] at hitem
    cases r with
    | error e => cases hitem
    | ok p =>
      exact ⟨p.1, p.2, s, rfl, Option.some.inj hitem,
        (putRequest_conforms hdecl readings_wellKeyed rfl rfl h).1⟩

end Mapper

end ItemMapper
