import ItemMapper.Proofs.KeyValues
import ItemMapper.Proofs.RoundTrip

/-!
# Returned keys

A put returns the item with its key as it was stored, and a search returns the key to go on from, read back from its
stored form. Each of the two may be given as a key again.
-/

namespace ItemMapper

namespace Wire

variable {options : MarshalOptions} {entries : List (String × Value)} {es : Item} {f : String × Wire → Value}

theorem ofEntries_filter (p : String → Bool) (h : ofEntries options entries = .ok es) :
    ofEntries options (entries.filter fun e => p e.1) = .ok (es.filter fun e => p e.1) := by
  induction entries generalizing es with
  | nil =>
    obtain rfl := Except.ok.inj h
    rfl
  | cons e rest ih =>
    obtain ⟨o, es', ho, hes, rfl⟩ := ofEntries_cons h
    have hrest := ih hes
    rw [List.filter_append, List.filter_cons]
    by_cases hp : p e.1 = true
    · rw [if_pos hp, ofEntries, ho, hrest]
      cases o with
      | none => rfl
      | some w =>
        have hkept : ([(e.1, w)] : Item).filter (fun e => p e.1) = [(e.1, w)] := List.filter_cons_of_pos hp
        rw [Option.map_some, Option.toList_some, hkept]
        rfl
    · rw [if_neg hp, hrest]
      cases o <;> simp [hp]

theorem ofEntries_map_iff (hdef : ∀ e ∈ es, (f e).isUndefined = false) :
    ofEntries options (es.map fun e => (e.1, f e)) = .ok es ↔ ∀ e ∈ es, ofValue options (f e) = .ok (some e.2) := by
  induction es with
  | nil => simp [ofEntries]
  | cons e rest ih =>
    obtain ⟨he, hrest⟩ := List.forall_mem_cons.1 hdef
    rw [List.map_cons, List.forall_mem_cons, ← ih hrest]
    constructor
    · intro h
      obtain ⟨o, es', ho, hes, heq⟩ := ofEntries_cons h
      cases o with
      | none =>
        rw [ofValue_eq_none ho] at he
        cases he
      | some w =>
        obtain ⟨hfirst, rfl⟩ := List.cons.inj heq
        rw [hfirst] at ho ⊢
        exact ⟨ho, hes⟩
    · intro h
      rw [ofEntries, h.1, h.2]
      rfl

end Wire

namespace Node

theorem restoreFields_eq {entries : List (String × Value)} {fields : List (String × Node)}
    (hf : (Entries.keys fields).Nodup) (he : (Entries.keys entries).Nodup) : restoreFields entries fields =
      entries.map fun e => (e.1, ((Entries.get? e.1 fields).map fun n => n.restore false e.2).getD e.2) := by
  induction fields generalizing entries with
  | nil => simp [restoreFields, Entries.get?]
  | cons f rest ih =>
    obtain ⟨name, n⟩ := f
    obtain ⟨hnot, hrest⟩ := List.nodup_cons.1 hf
    have hnone : Entries.get? name rest = none := Entries.get?_eq_none_iff.2 hnot
    rw [restoreFields]
    cases hget : Entries.get? name entries with
    | none =>
      rw [ih hrest he]
      apply List.map_congr_left
      intro e hmem
      have hne : ¬ name = e.1 := by
        intro hne
        rw [hne, Entries.get?_of_mem he hmem] at hget
        cases hget
      rw [Entries.get?, if_neg hne]
    | some v =>
      have hthere : name ∈ Entries.keys entries := Entries.has_iff.1 (by rw [Entries.has, hget]; rfl)
      simp only
      rw [ih hrest (Entries.nodup_keys_insert he), Entries.insert_of_mem he hthere, List.map_map]
      apply List.map_congr_left
      intro e hmem
      rw [Function.comp_apply, Entries.get?]
      by_cases hname : name = e.1
      · subst hname
        obtain rfl : e.2 = v := Option.some.inj ((Entries.get?_of_mem he hmem).symm.trans hget)
        simp [hnone]
      · simp [hname, Ne.symm hname]

variable {n : Node} {v : Value}

theorem restoreOwn_isUndefined : (n.restoreOwn v).isUndefined = v.isUndefined := by
  rw [restoreOwn.eq_def]
  split
  · split <;> rfl
  · rename_i md x
    cases ((scalar md .date).dateFormat.decode? x).bind Instant.ofMillis? <;> rfl
  · rfl

end Node

theorem Wire.toValue_isUndefined {w : Wire} : w.toValue.isUndefined = false := by
  cases w with
  | n text =>
    rw [toValue, readNumber]
    split
    · split <;> rfl
    · rfl
  | _ => rfl

namespace Schema

variable {s : Schema} {options : MarshalOptions} {es : Item} {f : String × Wire → Value} {name : String} {v : Value}

def keyPart {α : Type} (s : Schema) (entries : List (String × α)) : List (String × α) :=
  entries.filter fun e => s.isKey e.1

def keyIn (s : Schema) : Value → Value
  | .map entries => .map (s.keyPart entries)
  | v => v

def keyForm (s : Schema) (name : String) (v : Value) : Value := ((s.field? name).map fun n => n.storedForm v).getD v

theorem keyForm_isUndefined : (s.keyForm name v).isUndefined = v.isUndefined := by
  rw [keyForm]
  cases s.field? name with
  | none => rfl
  | some n => exact Node.storedForm_isUndefined

theorem storedKey_eq {entries : List (String × Value)} (hdef : ∀ e ∈ entries, e.2.isUndefined = false) :
    s.storedKey entries = .ok (entries.map fun e => (e.1, s.keyForm e.1 e.2)) := by
  induction entries with
  | nil => rfl
  | cons e rest ih =>
    obtain ⟨he, hrest⟩ := List.forall_mem_cons.1 hdef
    rw [storedKey, if_neg (by simp [he]), ih hrest]
    rfl

theorem marshalKey_of_storedKey {entries stored : List (String × Value)} (h : s.storedKey entries = .ok stored) :
    s.marshalKey options (.map entries) = (Wire.ofEntries options stored).mapError .marshal := by
  simp only [marshalKey, h, Item.ofValue]
  cases Wire.ofEntries options stored <;> rfl

theorem marshalKey_iff (hdef : ∀ e ∈ es, (f e).isUndefined = false) :
    s.marshalKey options (.map (es.map fun e => (e.1, f e))) = .ok es ↔
      ∀ e ∈ es, Wire.ofValue options (s.keyForm e.1 (f e)) = .ok (some e.2) := by
  have hdef' : ∀ e ∈ es.map fun e => (e.1, f e), e.2.isUndefined = false := by
    intro d hd
    obtain ⟨e, he, rfl⟩ := List.mem_map.1 hd
    exact hdef e he
  rw [← Wire.ofEntries_map_iff fun e he => keyForm_isUndefined.trans (hdef e he),
    marshalKey_of_storedKey (storedKey_eq hdef'), List.map_map]
  change (Wire.ofEntries options (es.map fun e => (e.1, s.keyForm e.1 (f e)))).mapError _ = _ ↔ _
  cases Wire.ofEntries options (es.map fun e => (e.1, s.keyForm e.1 (f e))) <;> simp [Except.mapError]

theorem restore_root {md : Modifiers} {fields : List (String × Node)} {isOpen : Bool}
    (hroot : s.root = .object md fields isOpen) (hs : s.WellKeyed) (hes : (Entries.keys es).Nodup) :
    s.root.restore false es.toValue =
      .map (es.map fun e => (e.1, ((s.field? e.1).map fun n => n.restore false e.2.toValue).getD e.2.toValue)) := by
  have hfield (name : String) : s.field? name = Entries.get? name fields := by
    rw [field?, Node.field?, hroot]
    rfl
  rw [WellKeyed, hroot] at hs
  have hkeys : (Entries.keys (Wire.entriesToValues es)).Nodup := by rwa [Wire.keys_entriesToValues]
  rw [hroot, Item.toValue, Node.restore, Node.restoreFields_eq hs.nodup_fields hkeys, Wire.entriesToValues_eq, List.map_map]
  simp only [hfield]
  rfl

end Schema

namespace Mapper

variable {m : Mapper} {item context prepared : Value} {condition : Option Value} {options : WriteOptions}
  {request : Request.PutItem} {s s' : Session} {decl : SchemaDeclaration} {name : String}
  {entries : List (String × Value)} {es : Item} {marshal : MarshalOptions}

theorem putRequest_fit (hs : m.schema.WellKeyed) (hi : item.wellKeyed = true) (hc : options.context.wellKeyed = true)
    (h : (m.putRequest item condition options).run s = (.ok (request, prepared), s')) :
    ∃ entries, prepared = .map entries ∧ (Entries.keys entries).Nodup ∧
      Wire.ofEntries m.config.marshalOptions entries = .ok request.item ∧
        m.schema.root.Everywhere .never Node.Fit "" "" (.map entries) := by
  obtain ⟨hkeyed, hmarshal, hfit⟩ := fit_of_putRequest hs hi hc h
  cases prepared with
  | map entries => exact ⟨entries, rfl, (Value.wellKeyed_map.1 hkeyed).1, hmarshal, hfit⟩
  | _ => cases hmarshal

theorem key_of_fit (hdecl : Schema.ofDeclaration decl = .ok m.schema) (hs : m.schema.WellKeyed)
    (hfit : m.schema.root.Everywhere .never Node.Fit "" "" (.map entries)) (hkeys : (Entries.keys entries).Nodup)
    (hes : Wire.ofEntries marshal entries = .ok es) (hname : m.schema.isKey name = true) :
    ∃ md k v w, m.schema.field? name = some (.scalar md k) ∧ Entries.get? name entries = some v ∧
      Entries.get? name es = some w ∧ Wire.ofValue marshal v = .ok (some w) ∧ (Node.scalar md k).Fit v := by
  obtain ⟨md, k, hfield, hreq, -, -⟩ := Schema.key_field hdecl hs hname
  obtain ⟨fields, draft, -, -, -, -, -, hroot⟩ := Schema.of_ofDeclaration hdecl
  have hget := hfield
  rw [Schema.field?, Node.field?, hroot] at hget
  rw [hroot, Node.everywhere_object] at hfit
  have hf := (hfit.2 entries rfl (name, .scalar md k) (Entries.mem_of_get? hget)).self
  have hpresent := hf.present hreq
  cases hv : Entries.get? name entries with
  | none =>
    simp only [hv] at hpresent
    exact absurd rfl hpresent
  | some v =>
    simp only [hv, Option.getD_some] at hf hpresent
    have hw := Wire.get?_ofEntries hkeys hes hv
    cases hstored : Entries.get? name es with
    | none =>
      rw [hstored] at hw
      exact absurd (Wire.ofValue_eq_none hw) hpresent
    | some w =>
      rw [hstored] at hw
      exact ⟨md, k, v, w, hfield, rfl, rfl, hw, hf⟩

theorem keyPart_eq (hkeys : (Entries.keys entries).Nodup) (hes : Wire.ofEntries marshal entries = .ok es)
    (hdef : ∀ name v, m.schema.isKey name = true → Entries.get? name entries = some v → v.isUndefined = false) :
    m.schema.keyPart entries = (m.schema.keyPart es).map fun e => (e.1, (Value.map entries).get e.1) := by
  have hpart : Wire.ofEntries marshal (m.schema.keyPart entries) = .ok (m.schema.keyPart es) :=
    Wire.ofEntries_filter m.schema.isKey hes
  have hnodup : (Entries.keys (m.schema.keyPart entries)).Nodup := by
    rw [Schema.keyPart, Entries.keys_filter m.schema.isKey]
    exact hkeys.filter _
  have hget {e : String × Value} (he : e ∈ m.schema.keyPart entries) :
      m.schema.isKey e.1 = true ∧ Entries.get? e.1 entries = some e.2 := by
    obtain ⟨hmem, hname⟩ := List.mem_filter.1 he
    exact ⟨hname, Entries.get?_of_mem hkeys hmem⟩
  have hsame : Entries.keys (m.schema.keyPart es) = Entries.keys (m.schema.keyPart entries) :=
    Wire.keys_ofEntries_of_defined (fun e he => hdef e.1 e.2 (hget he).1 (hget he).2) hpart
  have hvalues : m.schema.keyPart entries =
      (Entries.keys (m.schema.keyPart entries)).map fun name => (name, (Value.map entries).get name) := by
    rw [Entries.keys, List.map_map]
    refine (List.map_id' _).symm.trans (List.map_congr_left fun e he => ?_)
    rw [Function.comp_apply, Value.get, (hget he).2, Option.getD_some]
  rw [hvalues, ← hsame, Entries.keys, List.map_map]
  rfl

theorem forall_key_iff {A : String × Wire → Prop} {B : String → Node → Prop} (hkeys : (Entries.keys es).Nodup)
    (hkey : ∀ name, m.schema.isKey name = true → ∃ n w, m.schema.field? name = some n ∧ Entries.get? name es = some w ∧
      (A (name, w) ↔ B name n)) :
    (∀ e ∈ m.schema.keyPart es, A e) ↔ ∀ name n, m.schema.isKey name = true → m.schema.field? name = some n → B name n := by
  constructor
  · intro hall name n hname hfield
    obtain ⟨n', w, hfield', hw, hiff⟩ := hkey name hname
    obtain rfl : n = n' := Option.some.inj (hfield.symm.trans hfield')
    exact hiff.1 (hall (name, w) (List.mem_filter.2 ⟨Entries.mem_of_get? hw, hname⟩))
  · intro hall e he
    obtain ⟨hmem, hname⟩ := List.mem_filter.1 he
    obtain ⟨n, w, hfield, hw, hiff⟩ := hkey e.1 hname
    have hsame : Entries.get? e.1 es = some e.2 := Entries.get?_of_mem hkeys hmem
    obtain rfl : e.2 = w := Option.some.inj (hsame.symm.trans hw)
    exact hiff.2 (hall e.1 n hname hfield)

section Keys

variable (hdecl : Schema.ofDeclaration decl = .ok m.schema) (hs : m.schema.WellKeyed)
  (hfit : m.schema.root.Everywhere .never Node.Fit "" "" (.map entries)) (hkeys : (Entries.keys entries).Nodup)
  (hes : Wire.ofEntries marshal entries = .ok es)

include hdecl hs hfit hkeys hes

theorem marshalKey_keyPart_iff :
    m.schema.marshalKey marshal (.map (m.schema.keyPart entries)) = .ok (m.schema.keyPart es) ↔
      ∀ name n, m.schema.isKey name = true → m.schema.field? name = some n → n.Repeats ((Value.map entries).get name) := by
  have hkey {name : String} (hname : m.schema.isKey name = true) := key_of_fit hdecl hs hfit hkeys hes hname
  have hdef : ∀ name v, m.schema.isKey name = true → Entries.get? name entries = some v → v.isUndefined = false := by
    intro name v hname hv
    obtain ⟨md, k, v', w, -, hv', -, hw, -⟩ := hkey hname
    obtain rfl : v = v' := Option.some.inj (hv.symm.trans hv')
    simpa using Value.eq_undefined_iff.not.1 (Wire.ne_undefined_of_ofValue hw)
  rw [keyPart_eq hkeys hes hdef, Schema.marshalKey_iff]
  · apply forall_key_iff ((Wire.keys_ofEntries hes).nodup hkeys)
    intro name hname
    obtain ⟨md, k, v, w, hfield, hv, hstored, hw, hf⟩ := hkey hname
    refine ⟨.scalar md k, w, hfield, hstored, ?_⟩
    simp only [Schema.keyForm, hfield, Option.map_some, Option.getD_some, Value.get, hv]
    exact Node.repeats_iff hf hw
  · intro e he
    obtain ⟨hmem, hname⟩ := List.mem_filter.1 he
    obtain ⟨md, k, v, w, -, hv, -, hw, -⟩ := hkey hname
    rw [Value.get, hv, Option.getD_some]
    exact hdef e.1 v hname hv

theorem marshalKey_restored_iff (hrange : ∀ name, m.schema.isKey name = true → ((Value.map entries).get name).InRange) :
    ∃ key, m.restored (m.schema.keyPart es) = some key ∧
      (m.schema.marshalKey marshal key = .ok (m.schema.keyPart es) ↔
        ∀ name n, m.schema.isKey name = true → m.schema.field? name = some n →
          n.Resumes ((Value.map entries).get name)) := by
  have hkey {name : String} (hname : m.schema.isKey name = true) := key_of_fit hdecl hs hfit hkeys hes hname
  have hstoredKeys : (Entries.keys es).Nodup := (Wire.keys_ofEntries hes).nodup hkeys
  obtain ⟨fields, draft, -, -, -, -, -, hroot⟩ := Schema.of_ofDeclaration hdecl
  have hnonempty : ¬ (m.schema.keyPart es).isEmpty = true := by
    have hprimary : m.schema.isKey m.schema.primaryKey = true := by simp [Schema.isKey]
    obtain ⟨md, k, v, w, -, -, hstored, -, -⟩ := hkey hprimary
    have hmem : (m.schema.primaryKey, w) ∈ m.schema.keyPart es :=
      List.mem_filter.2 ⟨Entries.mem_of_get? hstored, hprimary⟩
    rw [List.isEmpty_iff]
    exact List.ne_nil_of_mem hmem
  have hpart : (Entries.keys (m.schema.keyPart es)).Nodup := by
    rw [Schema.keyPart, Entries.keys_filter m.schema.isKey]
    exact hstoredKeys.filter _
  refine ⟨_, by rw [restored, if_neg hnonempty, Schema.restore_root hroot hs hpart], ?_⟩
  rw [Schema.marshalKey_iff]
  · apply forall_key_iff hstoredKeys
    intro name hname
    obtain ⟨md, k, v, w, hfield, hv, hstored, hw, hf⟩ := hkey hname
    have hv' : (Value.map entries).get name = v := by rw [Value.get, hv, Option.getD_some]
    refine ⟨.scalar md k, w, hfield, hstored, ?_⟩
    have hin := hrange name hname
    rw [hv'] at hin ⊢
    simp only [Schema.keyForm, hfield, Option.map_some, Option.getD_some, Node.restore]
    exact Node.resumes_iff hf hin hw
  · intro e he
    obtain ⟨hmem, hname⟩ := List.mem_filter.1 he
    obtain ⟨md, k, v, w, hfield, -, -, -, -⟩ := hkey hname
    rw [hfield, Option.map_some, Option.getD_some, Node.restore, Node.restoreOwn_isUndefined]
    exact Wire.toValue_isUndefined

end Keys

/-- The key of a put item, given as a key, and the stored key, read back and given as a key, stand for the stored key
just if the dates and the big integers in it do. -/
theorem putRequest_returns_key (hdecl : Schema.ofDeclaration decl = .ok m.schema) (hs : m.schema.WellKeyed)
    (hi : item.wellKeyed = true) (hc : options.context.wellKeyed = true)
    (h : (m.putRequest item condition options).run s = (.ok (request, prepared), s'))
    (hrange : ∀ name, m.schema.isKey name = true → (prepared.get name).InRange) :
    (m.schema.marshalKey m.config.marshalOptions (m.schema.keyIn prepared) = .ok (m.schema.keyPart request.item) ↔
      ∀ name n, m.schema.isKey name = true → m.schema.field? name = some n → n.Repeats (prepared.get name)) ∧
    ∃ key, m.restored (m.schema.keyPart request.item) = some key ∧
      (m.schema.marshalKey m.config.marshalOptions key = .ok (m.schema.keyPart request.item) ↔
        ∀ name n, m.schema.isKey name = true → m.schema.field? name = some n → n.Resumes (prepared.get name)) := by
  obtain ⟨entries, rfl, hkeys, hes, hfit⟩ := putRequest_fit hs hi hc h
  constructor
  · exact marshalKey_keyPart_iff hdecl hs hfit hkeys hes
  · exact marshalKey_restored_iff hdecl hs hfit hkeys hes hrange

theorem readings_isKey (h : readings.schema.isKey name = true) : name = "sensor" ∨ name = "at" := by
  rw [Schema.isKey, Bool.or_eq_true, beq_iff_eq, beq_iff_eq] at h
  exact h.imp Eq.symm fun hat => (Option.some.inj hat).symm

def newYear : Value := .map [("sensor", .string "a"), ("at", .string "2024-01-01T00:00:00Z")]

theorem newYear_returns_key : ∃ request prepared s,
    (readings.putRequest newYear none {}).run {} = (.ok (request, prepared), s) ∧
    readings.schema.marshalKey readings.config.marshalOptions (readings.schema.keyIn prepared) =
      .ok (readings.schema.keyPart request.item) ∧
    ∃ key, readings.restored (readings.schema.keyPart request.item) = some key ∧
      readings.schema.marshalKey readings.config.marshalOptions key = .ok (readings.schema.keyPart request.item) := by
  have hdecl : Schema.ofDeclaration readingFields = .ok readings.schema := rfl
  have hrun : ∃ request s, (readings.putRequest newYear none {}).run {} =
      (.ok (request, .map [("sensor", .string "a"), ("at", .number (.ofInt 1704067200))]), s) := ⟨_, _, rfl⟩
  obtain ⟨request, s, hrun⟩ := hrun
  have hrange (name : String) (hname : readings.schema.isKey name = true) :
      ((Value.map [("sensor", .string "a"), ("at", .number (.ofInt 1704067200))]).get name).InRange := by
    rcases readings_isKey hname with rfl | rfl <;> trivial
  obtain ⟨hgiven, key, hrestored, hread⟩ := putRequest_returns_key hdecl readings_wellKeyed rfl rfl hrun hrange
  refine ⟨request, _, s, hrun, hgiven.2 ?_, key, hrestored, hread.2 ?_⟩
  · intro name n hname hfield
    rcases readings_isKey hname with rfl | rfl
    · cases hfield
      trivial
    · cases hfield
      exact ⟨1704067200, rfl, .inl rfl⟩
  · intro name n hname hfield
    rcases readings_isKey hname with rfl | rfl
    · cases hfield
      trivial
    · cases hfield
      exact ⟨1704067200, rfl, by decide, by decide⟩

/-- The second day of 1970, in seconds, has five digits, and is taken for milliseconds when it is given again. -/
theorem reading_key_differs : ¬ ∀ (m : Mapper) (decl : SchemaDeclaration) (item : Value) (condition : Option Value)
    (options : WriteOptions) (request : Request.PutItem) (prepared : Value) (s s' : Session),
      Schema.ofDeclaration decl = .ok m.schema → m.schema.WellKeyed →
      m.schema.root.Throughout (fun n => n.modifiers.getter = none) → item.wellKeyed = true →
      options.context.wellKeyed = true → (m.putRequest item condition options).run s = (.ok (request, prepared), s') →
      (∀ name, m.schema.isKey name = true → (prepared.get name).InRange) →
        m.schema.marshalKey m.config.marshalOptions (m.schema.keyIn prepared) = .ok (m.schema.keyPart request.item) ∧
        ∃ key, m.restored (m.schema.keyPart request.item) = some key ∧
          m.schema.marshalKey m.config.marshalOptions key = .ok (m.schema.keyPart request.item) := by
  intro hall
  have hgetters : readings.schema.root.Throughout (fun n => n.modifiers.getter = none) :=
    ⟨rfl, rfl, rfl, ⟨rfl, rfl⟩, ⟨rfl, rfl, trivial⟩, trivial⟩
  have hrun : ∃ request prepared s, (readings.putRequest reading none {}).run {} = (.ok (request, prepared), s) ∧
      readings.schema.keyIn prepared = .map [("sensor", .string "a"), ("at", .number (.ofInt 86400))] ∧
      prepared.get "sensor" = .string "a" ∧ prepared.get "at" = .number (.ofInt 86400) ∧
      readings.schema.keyPart request.item = [("sensor", .s "a"), ("at", .n "86400")] :=
    ⟨_, _, _, rfl, rfl, rfl, rfl, rfl⟩
  have hgiven : readings.schema.marshalKey readings.config.marshalOptions
      (.map [("sensor", .string "a"), ("at", .number (.ofInt 86400))]) = .ok [("sensor", .s "a"), ("at", .n "86")] := rfl
  obtain ⟨request, prepared, s, hrun, hkey, hsensor, hat, hstored⟩ := hrun
  have hrange (name : String) (hname : readings.schema.isKey name = true) : (prepared.get name).InRange := by
    rcases readings_isKey hname with rfl | rfl
    · rw [hsensor]
      trivial
    · rw [hat]
      trivial
  have hsame := (hall readings readingFields reading none {} request prepared {} s rfl readings_wellKeyed hgetters rfl
    rfl hrun hrange).1
  rw [hkey, hgiven, hstored] at hsame
  exact absurd (Except.ok.inj hsame) (by simp)

end Mapper

end ItemMapper
