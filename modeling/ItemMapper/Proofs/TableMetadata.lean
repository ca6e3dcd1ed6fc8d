import ItemMapper.Proofs.KeyFields

/-!
# Table metadata

The keys, indexes and attribute definitions of a compiled schema, as its declaration gives them.
-/

namespace ItemMapper

def FieldDeclaration.memberships : FieldDeclaration → Memberships
  | .typed _ _ _ _ m => m.memberships
  | .typedUnion _ m => m.memberships
  | _ => {}

def Scalar.attributeType? : Scalar → Option KeyKind
  | .string => some .s
  | .binary => some .b
  | .number | .bigInt | .date => some .n
  | _ => none

theorem Scalar.attributeType?_eq {k : Scalar} (h : k.canBeKey = true) :
    k.attributeType? = some (KeyDraft.keyKind k) := by
  cases k <;> first | rfl | cases h

theorem Memberships.eq_of_not_any {r : Memberships} (h : r.any = false) : r = {} := by
  obtain ⟨primary, sortKey, localIndex, globalIndex⟩ := r
  simp only [any, Bool.or_eq_false_iff, Option.isSome_eq_false_iff, Option.isNone_iff_eq_none] at h
  obtain ⟨⟨⟨rfl, rfl⟩, rfl⟩, rfl⟩ := h
  rfl

namespace KeyUse

variable {α : Type} {uses : List KeyUse} {f : KeyUse → Option α} {x : α} {index field : String}

def declared (decl : SchemaDeclaration) : List KeyUse := decl.flatMap fun d => ofMemberships d.1 d.2.memberships

theorem findSome?_eq_some_iff (h : uses.Pairwise Apart) (hf : ∀ u v, u.Apart v → f u = none ∨ f v = none) :
    uses.findSome? f = some x ↔ ∃ u ∈ uses, f u = some x := by
  induction uses with
  | nil => simp
  | cons u rest ih =>
    obtain ⟨hu, hrest⟩ := List.pairwise_cons.1 h
    rw [List.findSome?_cons, List.exists_mem_cons_iff]
    cases hx : f u with
    | none => simp [ih hrest]
    | some y =>
      have hnone : ∀ v ∈ rest, f v = none := by
        intro v hv
        exact (hf u v (hu v hv)).resolve_left (by simp [hx])
      simp only [iff_self_or, forall_exists_index, and_imp]
      intro v hv hs
      cases (hnone v hv).symm.trans hs

theorem partition?_apart (u v : KeyUse) (h : u.Apart v) : u.partition? = none ∨ v.partition? = none := by
  cases u <;> cases v <;> simp_all [Apart, Clash, partition?]

theorem sort?_apart (u v : KeyUse) (h : u.Apart v) : u.sort? = none ∨ v.sort? = none := by
  cases u <;> cases v <;> simp_all [Apart, Clash, sort?]

theorem hash?_apart (u v : KeyUse) (h : u.Apart v) : u.hash? index = none ∨ v.hash? index = none := by
  cases u <;> cases v <;> simp_all [Apart, Clash, hash?]
  exact not_and_or.1 fun he => h (he.1.trans he.2.symm)

theorem range?_apart (u v : KeyUse) (h : u.Apart v) : u.range? index = none ∨ v.range? index = none := by
  cases u <;> cases v <;> simp_all [Apart, Clash, range?]
  exact not_and_or.1 fun he => h (he.1.trans he.2.symm)

theorem mem_of_partition? {u : KeyUse} : u.partition? = some field ↔ u = .partition field := by
  cases u <;> simp [partition?]

theorem mem_of_sort? {u : KeyUse} : u.sort? = some field ↔ u = .sort field := by
  cases u <;> simp [sort?]

theorem local?_eq_some_iff {u : KeyUse} {projection : Projection} :
    u.local? = some (index, field, projection) ↔ u = .localRange index field projection := by
  cases u <;> simp [local?]

theorem hash?_eq_some_iff {u : KeyUse} {projection : Projection} {throughput : Option Throughput} :
    u.hash? index = some (field, projection, throughput) ↔ u = .globalHash index field projection throughput := by
  cases u <;> simp [hash?]

theorem range?_eq_some_iff {u : KeyUse} : u.range? index = some field ↔ u = .globalRange index field := by
  cases u <;> simp [range?]

theorem range_findSome?_iff (h : uses.Pairwise Apart) :
    uses.findSome? (range? index) = some field ↔ .globalRange index field ∈ uses := by
  rw [findSome?_eq_some_iff h range?_apart]
  simp [range?_eq_some_iff]

theorem hash_findSome?_iff (h : uses.Pairwise Apart) {projection : Projection} {throughput : Option Throughput} :
    uses.findSome? (hash? index) = some (field, projection, throughput) ↔
      .globalHash index field projection throughput ∈ uses := by
  rw [findSome?_eq_some_iff h hash?_apart]
  simp [hash?_eq_some_iff]

theorem globalIndexOf_globalDraft {j : GlobalIndex} : Schema.globalIndexOf (globalDraft uses index) = .ok j ↔
    ∃ field projection throughput, uses.findSome? (hash? index) = some (field, projection, throughput) ∧
      j = ⟨index, .hash field :: ((uses.findSome? (range? index)).map KeyElement.range).toList, projection,
        throughput⟩ := by
  cases hh : uses.findSome? (hash? index) with
  | none => simp [Schema.globalIndexOf, globalDraft, hh]
  | some x => simp [Schema.globalIndexOf, globalDraft, hh, eq_comm, Prod.ext_iff, and_assoc]

theorem nodup_indexNames (h : uses.Pairwise Apart) :
    ((uses.filterMap local?).map Prod.fst ++ globalNames uses).Nodup := by
  have hlocals : ((uses.filterMap local?).map Prod.fst).Nodup := by
    rw [List.map_filterMap]
    refine h.filterMap _ ?_
    intro u v huv i hi j hj
    cases u <;> cases v <;> simp_all [local?, Apart, Clash]
  refine hlocals.append nodup_globalNames fun index hlocal hglobal => ?_
  rw [List.map_filterMap, List.mem_filterMap] at hlocal
  obtain ⟨u, hu, hi⟩ := hlocal
  exact local?_ne_of_mem h hglobal hu hi

end KeyUse

namespace Node

theorem memberships_ofTag {m : Modifiers} {path : String} {t : BaseType} {n : Node} (h : ofTag m path t = .ok n) :
    n.modifiers.memberships = m.memberships := by
  rw [(composed_ofTag h).2]

theorem memberships_ofDecl {path : String} {top : Bool} {d : FieldDeclaration} {n : Node}
    (h : ofDecl path top d = .ok n) : n.modifiers.memberships = d.memberships := by
  rw [ofDecl.eq_def] at h
  split at h
  case h_1 t =>
    split at h
    · cases h
      rfl
    · exact memberships_ofTag h
  case h_2 =>
    split at h
    · cases h
    · obtain ⟨_, _, rfl⟩ := Outcome.of_map h
      rfl
  case h_3 =>
    split at h
    · cases h
    · obtain ⟨_, _, h⟩ := Outcome.of_bind h
      rw [(of_checkMemberships h).1]
      rfl
  case h_6 =>
    obtain ⟨_, _, h⟩ := Outcome.of_bind h
    obtain ⟨_, hs, h⟩ := Outcome.of_bind h
    rw [(of_checkMemberships h).1]
    rw [setOf] at hs
    split at hs
    · cases hs
      rfl
    · cases hs
  case h_7 =>
    obtain ⟨_, hm, h⟩ := Outcome.of_bind h
    rw [(of_checkMemberships h).1]
    exact memberships_ofTag hm
  all_goals
    obtain ⟨_, _, h⟩ := Outcome.of_bind h
    rw [(of_checkMemberships h).1]
    rfl

end Node

namespace Schema

open KeyUse (declared)

variable {decl : SchemaDeclaration} {s : Schema} {fields : List (String × Node)} {name : String} {i : LocalIndex}
  {j : GlobalIndex}

theorem uses_fieldsOf (h : fieldsOf decl = .ok fields) : KeyUse.ofFields fields = declared decl := by
  have huses : ∀ f : String × Node, f.2.Compiled true →
      KeyUse.ofField f = KeyUse.ofMemberships f.1 f.2.modifiers.memberships := by
    intro f hf
    by_cases hb : f.2.belongs = true
    · obtain ⟨-, m, k, he, -⟩ := hf.placed hb
      obtain ⟨name, n⟩ := f
      cases he
      rfl
    · obtain ⟨name, n⟩ := f
      rw [KeyUse.ofMemberships_of_not_any (Bool.eq_false_iff.2 hb)]
      cases n with
      | scalar m k => exact KeyUse.ofMemberships_of_not_any (Bool.eq_false_iff.2 hb)
      | _ => rfl
  induction decl generalizing fields with
  | nil =>
    cases h
    rfl
  | cons d rest ih =>
    rw [fieldsOf] at h
    obtain ⟨n, hn, h⟩ := Outcome.of_bind h
    obtain ⟨fs, hfs, h⟩ := Outcome.of_bind h
    cases h
    have hfirst : KeyUse.ofField (d.1, n) = KeyUse.ofMemberships d.1 d.2.memberships :=
      (huses (d.1, n) (Node.ofDecl_compiled n hn)).trans (congrArg _ (Node.memberships_ofDecl hn))
    exact congrArg₂ (· ++ ·) hfirst (ih hfs)

def keyAttributes (s : Schema) : List String :=
  (s.keySchema ++ s.localIndexes.flatMap LocalIndex.keySchema ++ s.globalIndexes.flatMap GlobalIndex.keySchema).map
    KeyElement.attributeName

/-- The metadata is that of the declared uses, and it is well formed. -/
structure Describes (s : Schema) (decl : SchemaDeclaration) : Prop where
  keySchema : s.keySchema = .hash s.primaryKey :: (s.sortKey.map KeyElement.range).toList
  partition : ∀ name, .partition name ∈ declared decl ↔ s.primaryKey = name
  sort : ∀ name, .sort name ∈ declared decl ↔ s.sortKey = some name
  required : ∀ name, s.isKey name = true → ∃ n, s.field? name = some n ∧ n.required = true
  indexNames : (s.localIndexes.map LocalIndex.indexName ++ s.globalIndexes.map GlobalIndex.indexName).Nodup
  locals : ∀ i, i ∈ s.localIndexes ↔ ∃ index field projection,
    .localRange index field projection ∈ declared decl ∧ i = ⟨index, [.hash s.primaryKey, .range field], projection⟩
  globals : ∀ j, j ∈ s.globalIndexes ↔ ∃ index field range projection throughput,
    .globalHash index field projection throughput ∈ declared decl ∧
      (∀ name, .globalRange index name ∈ declared decl ↔ range = some name) ∧
        j = ⟨index, .hash field :: (range.map KeyElement.range).toList, projection, throughput⟩
  ranges : ∀ index field, .globalRange index field ∈ declared decl → ∃ j ∈ s.globalIndexes, j.indexName = index
  attributes : ∀ name ∈ s.keyAttributes, ∃ m k t, s.field? name = some (.scalar m k) ∧ k.attributeType? = some t ∧
    ⟨name, t⟩ ∈ s.attributeDefinitions
  definedOnce : (s.attributeDefinitions.map AttributeDefinition.attributeName).Nodup
  defined : ∀ x ∈ s.attributeDefinitions, x.attributeName ∈ s.keyAttributes
  below : ∀ f ∈ s.fields, ∀ n ∈ f.2.children, n.Throughout fun n => n.modifiers.memberships = {}
  items : s.root.Throughout fun n => ∀ m items, n = .list m items → items.required = false

theorem requireKey_scalar {m : Modifiers} {k : Scalar} : ∃ m', requireKey (.scalar m k) = .scalar m' k := by
  rw [requireKey]
  split
  · exact ⟨_, rfl⟩
  · exact ⟨m, rfl⟩

theorem children_requireKey {n : Node} : (requireKey n).children = n.children := by
  rw [requireKey]
  split
  · exact Node.children_withModifiers
  · rfl

namespace MadeOf

variable {uses : List KeyUse} (hs : s.MadeOf fields)

include hs

theorem primaryKey_iff : .partition name ∈ KeyUse.ofFields fields ↔ s.primaryKey = name := by
  rw [← Option.some_inj, ← hs.primary, KeyUse.findSome?_eq_some_iff hs.apart KeyUse.partition?_apart]
  simp [KeyUse.mem_of_partition?]

theorem sortKey_iff : .sort name ∈ KeyUse.ofFields fields ↔ s.sortKey = some name := by
  rw [← hs.sort, KeyUse.findSome?_eq_some_iff hs.apart KeyUse.sort?_apart]
  simp [KeyUse.mem_of_sort?]

theorem mem_localIndexes : i ∈ s.localIndexes ↔ ∃ index field projection,
    .localRange index field projection ∈ KeyUse.ofFields fields ∧
      i = ⟨index, [.hash s.primaryKey, .range field], projection⟩ := by
  rw [← hs.locals, List.mem_map]
  constructor
  · intro h
    obtain ⟨⟨index, field, projection⟩, hmem, rfl⟩ := h
    obtain ⟨u, hu, hl⟩ := List.mem_filterMap.1 hmem
    obtain rfl := KeyUse.local?_eq_some_iff.1 hl
    exact ⟨index, field, projection, hu, rfl⟩
  · intro h
    obtain ⟨index, field, projection, hu, rfl⟩ := h
    exact ⟨(index, field, projection), List.mem_filterMap.2 ⟨_, hu, rfl⟩, rfl⟩

theorem mem_globalIndexes : j ∈ s.globalIndexes ↔ ∃ index field range projection throughput,
    .globalHash index field projection throughput ∈ KeyUse.ofFields fields ∧
      (∀ name, .globalRange index name ∈ KeyUse.ofFields fields ↔ range = some name) ∧
        j = ⟨index, .hash field :: (range.map KeyElement.range).toList, projection, throughput⟩ := by
  rw [Outcome.mem_of_mapM hs.globals]
  constructor
  · intro h
    obtain ⟨draft, hdraft, hj⟩ := h
    obtain ⟨index, -, rfl⟩ := List.mem_map.1 hdraft
    obtain ⟨field, projection, throughput, hhash, rfl⟩ := KeyUse.globalIndexOf_globalDraft.1 hj
    refine ⟨index, field, _, projection, throughput, (KeyUse.hash_findSome?_iff hs.apart).1 hhash, fun name => ?_, rfl⟩
    exact (KeyUse.range_findSome?_iff hs.apart).symm
  · intro h
    obtain ⟨index, field, range, projection, throughput, hhash, hrange, rfl⟩ := h
    have hname : index ∈ KeyUse.globalNames (KeyUse.ofFields fields) :=
      KeyUse.mem_globalNames.2 ⟨_, hhash, rfl⟩
    have hfind : (KeyUse.ofFields fields).findSome? (KeyUse.range? index) = range := by
      apply Option.ext
      intro name
      exact (KeyUse.range_findSome?_iff hs.apart).trans (hrange name)
    refine ⟨_, List.mem_map_of_mem hname, KeyUse.globalIndexOf_globalDraft.2 ?_⟩
    exact ⟨field, projection, throughput, (KeyUse.hash_findSome?_iff hs.apart).2 hhash, by rw [hfind]⟩

theorem names_globalIndexes :
    s.globalIndexes.map GlobalIndex.indexName = KeyUse.globalNames (KeyUse.ofFields fields) := by
  have hnames : s.globalIndexes.map GlobalIndex.indexName = ((KeyUse.globalNames (KeyUse.ofFields fields)).map
      (KeyUse.globalDraft (KeyUse.ofFields fields))).map GlobalIndexDraft.name := by
    apply Outcome.map_of_mapM hs.globals
    intro x j hj
    rw [globalIndexOf] at hj
    split at hj
    · cases hj
    · cases hj
      rfl
  rw [hnames, List.map_map]
  exact List.map_id _

theorem names_localIndexes : s.localIndexes.map LocalIndex.indexName =
    ((KeyUse.ofFields fields).filterMap KeyUse.local?).map Prod.fst := by
  rw [← hs.locals, List.map_map]
  rfl

theorem exists_globalIndex {u : KeyUse} (hu : u ∈ KeyUse.ofFields fields) (hg : u.global? = some name) :
    ∃ j ∈ s.globalIndexes, j.indexName = name := by
  apply List.mem_map.1
  rw [hs.names_globalIndexes]
  exact KeyUse.mem_globalNames.2 ⟨u, hu, hg⟩

theorem mem_keyAttributes : name ∈ s.keyAttributes ↔ ∃ u ∈ KeyUse.ofFields fields, u.field = name := by
  simp only [keyAttributes, List.mem_map, List.mem_append, List.mem_flatMap]
  constructor
  · intro h
    obtain ⟨e, he, rfl⟩ := h
    rcases he with (he | ⟨i, hi, he⟩) | ⟨j, hj, he⟩
    · rcases List.mem_cons.1 he with rfl | he
      · exact ⟨_, hs.partition_mem, rfl⟩
      · obtain ⟨sort, hsort, rfl⟩ := Option.map_eq_some_iff.1 (Option.mem_toList.1 he)
        exact ⟨_, hs.sort_mem hsort, rfl⟩
    · obtain ⟨index, field, projection, hu, rfl⟩ := hs.mem_localIndexes.1 hi
      rcases List.mem_cons.1 he with rfl | he
      · exact ⟨_, hs.partition_mem, rfl⟩
      · obtain rfl := List.mem_singleton.1 he
        exact ⟨_, hu, rfl⟩
    · obtain ⟨index, field, range, projection, throughput, hu, hrange, rfl⟩ := hs.mem_globalIndexes.1 hj
      rcases List.mem_cons.1 he with rfl | he
      · exact ⟨_, hu, rfl⟩
      · obtain ⟨sort, hsort, rfl⟩ := Option.map_eq_some_iff.1 (Option.mem_toList.1 he)
        exact ⟨_, (hrange sort).2 hsort, rfl⟩
  · intro h
    obtain ⟨u, hu, rfl⟩ := h
    cases u with
    | partition field =>
      obtain rfl := hs.primaryKey_iff.1 hu
      exact ⟨.hash s.primaryKey, .inl (.inl List.mem_cons_self), rfl⟩
    | sort field =>
      have hsort := hs.sortKey_iff.1 hu
      exact ⟨.range field, .inl (.inl (by simp [keySchema, hsort])), rfl⟩
    | localRange index field projection =>
      have hi := hs.mem_localIndexes.2 ⟨index, field, projection, hu, rfl⟩
      exact ⟨.range field, .inl (.inr ⟨_, hi, by simp⟩), rfl⟩
    | globalHash index field projection throughput =>
      have hj := hs.mem_globalIndexes.2 ⟨index, field, _, projection, throughput, hu,
        fun name => (KeyUse.range_findSome?_iff hs.apart).symm, rfl⟩
      exact ⟨.hash field, .inr ⟨_, hj, List.mem_cons_self⟩, rfl⟩
    | globalRange index field =>
      obtain ⟨j, hj, rfl⟩ := hs.exists_globalIndex hu rfl
      obtain ⟨index, hash, range, projection, throughput, -, hrange, rfl⟩ := hs.mem_globalIndexes.1 hj
      exact ⟨.range field, .inr ⟨_, hj, by simp [(hrange field).1 hu]⟩, rfl⟩

theorem required_of_isKey (hn : (Entries.keys fields).Nodup) (h : s.isKey name = true) :
    ∃ n, s.field? name = some n ∧ n.required = true := by
  obtain ⟨m, k, hmem, hm, -⟩ := hs.of_isKey h
  refine ⟨_, hs.field? hn hmem, ?_⟩
  rw [requireKey_of_key hm]
  rfl

theorem exists_definition (hn : (Entries.keys fields).Nodup) (hf : ∀ f ∈ fields, f.2.Compiled true)
    (h : name ∈ s.keyAttributes) : ∃ m k t, s.field? name = some (.scalar m k) ∧ k.attributeType? = some t ∧
      ⟨name, t⟩ ∈ s.attributeDefinitions := by
  obtain ⟨u, hu, rfl⟩ := hs.mem_keyAttributes.1 h
  obtain ⟨m, k, hmem, hu, hx⟩ := hs.of_use hu
  obtain ⟨-, m', k', he, hk⟩ := (hf _ hmem).placed (KeyUse.any_of_mem hu)
  obtain ⟨rfl, rfl⟩ := Node.scalar.inj he
  obtain ⟨m', hm'⟩ := requireKey_scalar (m := m) (k := k)
  exact ⟨m', k, _, hm' ▸ hs.field? hn hmem, Scalar.attributeType?_eq hk, hx⟩

theorem mem_keyAttributes_of_defined {x : AttributeDefinition} (hx : x ∈ s.attributeDefinitions) :
    x.attributeName ∈ s.keyAttributes := by
  rw [← hs.definitions] at hx
  obtain ⟨f, hmem, hdef⟩ := List.mem_filterMap.1 hx
  obtain ⟨m, k, rfl, hany, -⟩ := KeyUse.of_definition? hdef
  obtain ⟨u, hu⟩ := KeyUse.exists_mem_of_any hany
  exact hs.mem_keyAttributes.2 ⟨u, List.mem_flatMap.2 ⟨_, hmem, hu⟩, KeyUse.field_of_mem hu⟩

theorem memberships_below (hf : ∀ f ∈ fields, f.2.Compiled true) : ∀ f ∈ s.fields, ∀ n ∈ f.2.children,
    n.Throughout fun n => n.modifiers.memberships = {} := by
  intro f hmem n hn
  rw [Schema.fields, hs.root] at hmem
  obtain ⟨e, he, rfl⟩ := List.mem_map.1 hmem
  rw [children_requireKey] at hn
  have hcomposed := (hf e he).composed
  have hnone := (hcomposed.child hn).none_belongs (hcomposed.self.apart n hn)
  exact hnone.mono fun u hu => Memberships.eq_of_not_any hu

end MadeOf

theorem items_optional (h : ofDeclaration decl = .ok s) :
    s.root.Throughout fun n => ∀ m items, n = .list m items → items.required = false :=
  throughout_root h (fun _ hn => hn.optional) fun _ _ _ _ he => Node.noConfusion he

/-- Whatever compiles has the metadata that it declares. -/
theorem describes_of_ofDeclaration (hd : (Entries.keys decl).Nodup) (h : ofDeclaration decl = .ok s) :
    s.Describes decl := by
  obtain ⟨fields, hf, hs⟩ := (ofDeclaration_ok_iff_madeOf hd).1 h
  have hn : (Entries.keys fields).Nodup := keys_fieldsOf hf ▸ hd
  have huses := uses_fieldsOf hf
  have hcompiled := fieldsOf_compiled hf
  refine ⟨rfl, ?partition, ?sort, fun name => hs.required_of_isKey hn, ?indexNames, ?locals, ?globals, ?ranges,
    fun name => hs.exists_definition hn hcompiled, ?definedOnce, fun x => hs.mem_keyAttributes_of_defined,
    hs.memberships_below hcompiled, items_optional h⟩
  case partition =>
    intro name
    rw [← huses]
    exact hs.primaryKey_iff
  case sort =>
    intro name
    rw [← huses]
    exact hs.sortKey_iff
  case indexNames =>
    rw [hs.names_localIndexes, hs.names_globalIndexes]
    exact KeyUse.nodup_indexNames hs.apart
  case locals =>
    intro i
    rw [← huses]
    exact hs.mem_localIndexes
  case globals =>
    intro j
    rw [← huses]
    exact hs.mem_globalIndexes
  case ranges =>
    intro index field hu
    rw [← huses] at hu
    exact hs.exists_globalIndex hu rfl
  case definedOnce =>
    rw [← hs.definitions]
    exact KeyUse.nodup_definitions hn

def orderFields : SchemaDeclaration := [
  ("placed", .typed .date none none false
    { memberships := { globalIndex := some ⟨"byCustomer", true, some .keys, none⟩, localIndex := some {} } }),
  ("number", .typed .bigInt none none false { memberships := { sortKey := true } }),
  ("customer", .typed .string none none false
    { memberships := { globalIndex := some ⟨"byCustomer", false, some (.selected ["sum"]), some ⟨5, 1⟩⟩ } }),
  ("shop", .typed .binary none none false { memberships := { primary := true } }),
  ("lines", .typed .array none (some (.tag .string)) false {})]

def orders : Schema where
  root := .object { required := true } [
    ("placed", .scalar
      { memberships := { globalIndex := some ⟨"byCustomer", true, some .keys, none⟩, localIndex := some {} } } .date),
    ("number", .scalar { required := true, memberships := { sortKey := true } } .bigInt),
    ("customer", .scalar
      { memberships := { globalIndex := some ⟨"byCustomer", false, some (.selected ["sum"]), some ⟨5, 1⟩⟩ } } .string),
    ("shop", .scalar { required := true, memberships := { primary := true } } .binary),
    ("lines", .list {} (.scalar {} .string))] false
  primaryKey := "shop"
  sortKey := some "number"
  attributeDefinitions := [⟨"placed", .n⟩, ⟨"number", .n⟩, ⟨"customer", .s⟩, ⟨"shop", .b⟩]
  localIndexes := [⟨"placed", [.hash "shop", .range "placed"], {}⟩]
  globalIndexes := [⟨"byCustomer", [.hash "customer", .range "placed"], ⟨some .selected, ["sum"]⟩, some ⟨5, 1⟩⟩]

theorem orders_describes : (Entries.keys orderFields).Nodup ∧ ofDeclaration orderFields = .ok orders ∧
    orders.Describes orderFields :=
  ⟨by decide, rfl, describes_of_ofDeclaration (by decide) rfl⟩

end Schema

end ItemMapper
