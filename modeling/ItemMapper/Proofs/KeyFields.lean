import ItemMapper.Proofs.CompiledNodes
import ItemMapper.Proofs.KeyUses
import ItemMapper.Proofs.WellKeyed

/-!
# Key fields

What a compiled schema is made of: the fields of its declaration, and the keys and indexes that their uses give. The
keys that it names are required top-level scalars, and the attribute definitions have their kinds.
-/

namespace ItemMapper

def KeyKind.kind : KeyKind → Kind
  | .s => .s
  | .n => .n
  | .b => .b

theorem KeyDraft.keyKind_kind {k : Scalar} (h : k.canBeKey = true) : (keyKind k).kind = k.kind := by
  cases k <;> first | rfl | cases h

namespace KeyUse

def field : KeyUse → String
  | partition field => field
  | sort field => field
  | localRange _ field _ => field
  | globalHash _ field _ _ => field
  | globalRange _ field => field

variable {u : KeyUse} {name : String} {r : Memberships} {f : String × Node} {fields : List (String × Node)}

theorem mem_ofMemberships : u ∈ ofMemberships name r ↔
    (r.primary = true ∧ u = partition name) ∨ (r.sortKey = true ∧ u = sort name) ∨
      (∃ l, r.localIndex = some l ∧ u = ofLocal name l) ∨ ∃ g, r.globalIndex = some g ∧ u = ofGlobal name g := by
  have hif (b : Bool) (v : KeyUse) : u ∈ (if b = true then [v] else []) ↔ b = true ∧ u = v := by
    cases b <;> simp
  have hoption {α : Type} (o : Option α) (g : α → KeyUse) : u ∈ (o.map g).toList ↔ ∃ a, o = some a ∧ u = g a := by
    simp [eq_comm]
  simp only [ofMemberships, List.mem_append, hif, hoption, or_assoc]

theorem primary_of_mem (h : partition name ∈ ofMemberships name r) : r.primary = true := by
  rcases mem_ofMemberships.1 h with ⟨hr, -⟩ | ⟨-, h⟩ | ⟨l, -, h⟩ | ⟨g, -, h⟩
  · exact hr
  · cases h
  · cases h
  · cases (congrArg global? h).trans global?_ofGlobal

theorem sortKey_of_mem (h : sort name ∈ ofMemberships name r) : r.sortKey = true := by
  rcases mem_ofMemberships.1 h with ⟨-, h⟩ | ⟨hr, -⟩ | ⟨l, -, h⟩ | ⟨g, -, h⟩
  · cases h
  · exact hr
  · cases h
  · cases (congrArg global? h).trans global?_ofGlobal

theorem field_ofGlobal {g : GlobalMembership} : (ofGlobal name g).field = name := by
  rw [ofGlobal]
  split <;> rfl

theorem field_of_mem (h : u ∈ ofMemberships name r) : u.field = name := by
  rcases mem_ofMemberships.1 h with ⟨-, rfl⟩ | ⟨-, rfl⟩ | ⟨l, -, rfl⟩ | ⟨g, -, rfl⟩
  · rfl
  · rfl
  · rfl
  · exact field_ofGlobal

theorem any_of_mem (h : u ∈ ofMemberships name r) : r.any = true := by
  by_contra hany
  rw [ofMemberships_of_not_any (Bool.eq_false_iff.2 hany)] at h
  cases h

theorem exists_mem_of_any (h : r.any = true) : ∃ u, u ∈ ofMemberships name r := by
  simp only [Memberships.any, Bool.or_eq_true, Option.isSome_iff_exists] at h
  rcases h with ((hr | hr) | ⟨l, hr⟩) | ⟨g, hr⟩
  · exact ⟨_, mem_ofMemberships.2 (.inl ⟨hr, rfl⟩)⟩
  · exact ⟨_, mem_ofMemberships.2 (.inr (.inl ⟨hr, rfl⟩))⟩
  · exact ⟨_, mem_ofMemberships.2 (.inr (.inr (.inl ⟨l, hr, rfl⟩)))⟩
  · exact ⟨_, mem_ofMemberships.2 (.inr (.inr (.inr ⟨g, hr, rfl⟩)))⟩

theorem of_mem_ofField (h : u ∈ ofField f) :
    ∃ m k, f = (u.field, .scalar m k) ∧ u ∈ ofMemberships u.field m.memberships := by
  obtain ⟨name, n⟩ := f
  cases n with
  | scalar m k =>
    have hfield : u.field = name := field_of_mem h
    exact ⟨m, k, by rw [hfield], hfield ▸ h⟩
  | _ => cases h

theorem of_definition? {x : AttributeDefinition} (h : definition? f = some x) :
    ∃ m k, f = (x.attributeName, .scalar m k) ∧ m.memberships.any = true ∧ x.attributeType = KeyDraft.keyKind k := by
  obtain ⟨name, n⟩ := f
  cases n with
  | scalar m k =>
    simp only [definition?] at h
    split at h
    · cases h
      exact ⟨m, k, rfl, ‹_›, rfl⟩
    · cases h
  | _ => cases h

theorem nodup_definitions (hf : (Entries.keys fields).Nodup) :
    ((fields.filterMap definition?).map AttributeDefinition.attributeName).Nodup := by
  have hnames : (fields.filterMap definition?).map AttributeDefinition.attributeName =
      (fields.filter fun f => (definition? f).isSome).map Prod.fst := by
    rw [List.map_filterMap, ← List.filterMap_eq_filter, List.map_filterMap]
    refine List.filterMap_congr fun f _ => ?_
    cases hx : definition? f with
    | none => simp [Option.guard, hx]
    | some x => simp [Option.guard, hx, attributeName_of_definition? hx]
  rw [hnames]
  exact List.Nodup.sublist (List.filter_sublist.map Prod.fst) hf

end KeyUse

namespace Schema

variable {decl : SchemaDeclaration} {s : Schema} {fields : List (String × Node)} {name : String} {n : Node} {u : KeyUse}

theorem keys_fieldsOf (h : fieldsOf decl = .ok fields) : Entries.keys fields = Entries.keys decl := by
  induction decl generalizing fields with
  | nil =>
    cases h
    rfl
  | cons d rest ih =>
    rw [fieldsOf] at h
    obtain ⟨n, -, h⟩ := Outcome.of_bind h
    obtain ⟨fs, hfs, h⟩ := Outcome.of_bind h
    cases h
    exact congrArg (d.1 :: ·) (ih hfs)

theorem ofDeclaration_eq_ok_iff : ofDeclaration decl = .ok s ↔ ∃ fields draft,
    fieldsOf decl = .ok fields ∧ KeyDraft.addAll {} fields = .ok draft ∧ draft.primaryKey = some s.primaryKey ∧
      draft.globals.mapM globalIndexOf = .ok s.globalIndexes ∧ draft.sortKey = s.sortKey ∧
      draft.definitions = s.attributeDefinitions ∧ draft.locals.map (localIndexOf s.primaryKey) = s.localIndexes ∧
      s.root = .object { required := true } (Entries.mapValues requireKey fields) false := by
  rw [ofDeclaration]
  constructor
  · intro h
    obtain ⟨fields, hf, h⟩ := Outcome.of_bind h
    obtain ⟨draft, hd, h⟩ := Outcome.of_bind h
    split at h
    · cases h
    · obtain ⟨globals, hglobals, h⟩ := Outcome.of_bind h
      cases h
      exact ⟨fields, draft, hf, hd, ‹_›, hglobals, rfl, rfl, rfl, rfl⟩
  · intro h
    obtain ⟨fields, draft, hf, hd, hp, hglobals, hsort, hdefs, hlocals, hroot⟩ := h
    obtain ⟨root, primaryKey, sortKey, definitions, locals, globals⟩ := s
    simp only at hp hglobals hsort hdefs hlocals hroot
    subst hsort hdefs hlocals hroot
    simp only [hf, hd, hp, hglobals, bind, Except.bind, pure, Except.pure]

theorem of_ofDeclaration (h : ofDeclaration decl = .ok s) : ∃ fields draft,
    fieldsOf decl = .ok fields ∧ KeyDraft.addAll {} fields = .ok draft ∧ draft.primaryKey = some s.primaryKey ∧
      draft.sortKey = s.sortKey ∧ draft.definitions = s.attributeDefinitions ∧
      s.root = .object { required := true } (Entries.mapValues requireKey fields) false := by
  obtain ⟨fields, draft, hf, hd, hp, -, hsort, hdefs, -, hroot⟩ := ofDeclaration_eq_ok_iff.1 h
  exact ⟨fields, draft, hf, hd, hp, hsort, hdefs, hroot⟩

structure MadeOf (s : Schema) (fields : List (String × Node)) : Prop where
  apart : (KeyUse.ofFields fields).Pairwise KeyUse.Apart
  primary : (KeyUse.ofFields fields).findSome? KeyUse.partition? = some s.primaryKey
  sort : (KeyUse.ofFields fields).findSome? KeyUse.sort? = s.sortKey
  definitions : fields.filterMap KeyUse.definition? = s.attributeDefinitions
  locals : ((KeyUse.ofFields fields).filterMap KeyUse.local?).map (localIndexOf s.primaryKey) = s.localIndexes
  globals : ((KeyUse.globalNames (KeyUse.ofFields fields)).map
    (KeyUse.globalDraft (KeyUse.ofFields fields))).mapM globalIndexOf = .ok s.globalIndexes
  root : s.root = .object { required := true } (Entries.mapValues requireKey fields) false

theorem ofDeclaration_ok_iff_madeOf (hn : (Entries.keys decl).Nodup) :
    ofDeclaration decl = .ok s ↔ ∃ fields, fieldsOf decl = .ok fields ∧ s.MadeOf fields := by
  rw [ofDeclaration_eq_ok_iff]
  constructor
  · intro h
    obtain ⟨fields, draft, hf, hd, hp, hglobals, hsort, hdefs, hlocals, hroot⟩ := h
    obtain ⟨hapart, rfl⟩ := (KeyUse.addAll_ok_iff (keys_fieldsOf hf ▸ hn)).1 hd
    exact ⟨fields, hf, hapart, hp, hsort, hdefs, hlocals, hglobals, hroot⟩
  · intro h
    obtain ⟨fields, hf, hs⟩ := h
    have hd := (KeyUse.addAll_ok_iff (keys_fieldsOf hf ▸ hn)).2 ⟨hs.apart, rfl⟩
    exact ⟨fields, _, hf, hd, hs.primary, hs.globals, hs.sort, hs.definitions, hs.locals, hs.root⟩

theorem nodup_keys_of_wellKeyed (h : ofDeclaration decl = .ok s) (hs : s.WellKeyed) : (Entries.keys decl).Nodup := by
  obtain ⟨fields, draft, hf, -, -, -, -, hroot⟩ := of_ofDeclaration h
  rw [WellKeyed, hroot] at hs
  rw [← keys_fieldsOf hf]
  simpa [Entries.mapValues, Entries.keys, Function.comp_def] using hs.nodup_fields

theorem requireKey_of_key {m : Modifiers} {k : Scalar} (hm : (m.memberships.primary || m.memberships.sortKey) = true) :
    requireKey (.scalar m k) = .scalar { m with required := true } k := if_pos hm

theorem composed_requireKey (h : n.Throughout Node.Composed) : (requireKey n).Throughout Node.Composed := by
  rw [requireKey]
  split
  · exact h.withModifiers
  · exact h

theorem throughout_root {Q : Node → Prop} (h : ofDeclaration decl = .ok s) (hq : ∀ n, n.Composed → Q n)
    (hself : ∀ m fields, Q (.object m fields false)) : s.root.Throughout Q := by
  obtain ⟨fields, draft, hf, -, -, -, -, hroot⟩ := of_ofDeclaration h
  rw [hroot, Node.throughout_iff]
  refine ⟨hself _ _, fun u hu => ?_⟩
  obtain ⟨f, hmem, rfl⟩ := List.mem_map.1 hu
  obtain ⟨e, he, rfl⟩ := List.mem_map.1 hmem
  have hcomposed : (requireKey e.2).Throughout Node.Composed :=
    composed_requireKey (fieldsOf_compiled hf e he).composed
  exact hcomposed.mono hq

theorem root_holdsMembers (h : ofDeclaration decl = .ok s) : s.root.Throughout Node.HoldsMembers :=
  throughout_root h (fun _ hn => hn.members) fun _ _ _ _ he => Node.noConfusion he

namespace MadeOf

variable (hs : s.MadeOf fields)

include hs

theorem field? (hn : (Entries.keys fields).Nodup) (hmem : (name, n) ∈ fields) :
    s.field? name = some (requireKey n) := by
  rw [Schema.field?, Node.field?, hs.root]
  simp only [Node.fields?, Option.bind_some, Entries.mapValues]
  rw [Entries.get?_map fun e => requireKey e.2, Entries.get?_of_mem hn hmem, Option.map_some]

theorem of_use (hu : u ∈ KeyUse.ofFields fields) : ∃ m k,
    (u.field, .scalar m k) ∈ fields ∧ u ∈ KeyUse.ofMemberships u.field m.memberships ∧
      ⟨u.field, KeyDraft.keyKind k⟩ ∈ s.attributeDefinitions := by
  obtain ⟨f, hf, hu⟩ := List.mem_flatMap.1 hu
  obtain ⟨m, k, rfl, hu⟩ := KeyUse.of_mem_ofField hu
  have hdefinition : KeyUse.definition? (u.field, .scalar m k) = some ⟨u.field, KeyDraft.keyKind k⟩ :=
    if_pos (KeyUse.any_of_mem hu)
  exact ⟨m, k, hf, hu, hs.definitions ▸ List.mem_filterMap.2 ⟨_, hf, hdefinition⟩⟩

theorem partition_mem : .partition s.primaryKey ∈ KeyUse.ofFields fields := by
  obtain ⟨u, hu, hp⟩ := List.exists_of_findSome?_eq_some hs.primary
  cases u with
  | partition field =>
    cases hp
    exact hu
  | _ => cases hp

theorem sort_mem (hsort : s.sortKey = some name) : .sort name ∈ KeyUse.ofFields fields := by
  obtain ⟨u, hu, hp⟩ := List.exists_of_findSome?_eq_some (hs.sort.trans hsort)
  cases u with
  | sort field =>
    cases hp
    exact hu
  | _ => cases hp

theorem of_isKey (hkey : s.isKey name = true) : ∃ m k, (name, .scalar m k) ∈ fields ∧
    (m.memberships.primary || m.memberships.sortKey) = true ∧ ∃ x ∈ s.attributeDefinitions, x.attributeName = name := by
  rw [isKey, Bool.or_eq_true, beq_iff_eq, beq_iff_eq] at hkey
  rcases hkey with rfl | hkey
  · obtain ⟨m, k, hmem, hu, hx⟩ := hs.of_use hs.partition_mem
    exact ⟨m, k, hmem, by rw [KeyUse.primary_of_mem hu, Bool.true_or], _, hx, rfl⟩
  · obtain ⟨m, k, hmem, hu, hx⟩ := hs.of_use (hs.sort_mem hkey)
    exact ⟨m, k, hmem, by rw [KeyUse.sortKey_of_mem hu, Bool.or_true], _, hx, rfl⟩

end MadeOf

/-- A key is a required scalar of the kind that all its attribute definitions give, and has one. -/
theorem key_field (h : ofDeclaration decl = .ok s) (hs : s.WellKeyed) (hkey : s.isKey name = true) :
    ∃ m k, s.field? name = some (.scalar m k) ∧ m.required = true ∧
      (∃ x ∈ s.attributeDefinitions, x.attributeName = name) ∧
      ∀ x ∈ s.attributeDefinitions, x.attributeName = name → x.attributeType.kind = k.kind := by
  have hdecl : (Entries.keys decl).Nodup := nodup_keys_of_wellKeyed h hs
  obtain ⟨fields, hf, hmade⟩ := (ofDeclaration_ok_iff_madeOf hdecl).1 h
  have hnames : (Entries.keys fields).Nodup := keys_fieldsOf hf ▸ hdecl
  obtain ⟨m, k, hmem, hm, hx⟩ := hmade.of_isKey hkey
  have hfield : s.field? name = some (.scalar { m with required := true } k) :=
    requireKey_of_key hm ▸ hmade.field? hnames hmem
  refine ⟨{ m with required := true }, k, hfield, rfl, hx, ?_⟩
  intro x hx hxn
  rw [← hmade.definitions] at hx
  obtain ⟨f, hmem', hdef⟩ := List.mem_filterMap.1 hx
  obtain ⟨m', k', rfl, hany, htype⟩ := KeyUse.of_definition? hdef
  rw [hxn] at hmem'
  have hsame := (Entries.get?_of_mem hnames hmem).symm.trans (Entries.get?_of_mem hnames hmem')
  obtain ⟨rfl, rfl⟩ := Node.scalar.inj (Option.some.inj hsame)
  have hplaced := (fieldsOf_compiled hf _ hmem).placed hany
  obtain ⟨-, m'', k'', he, hcan⟩ := hplaced
  obtain ⟨rfl, rfl⟩ := Node.scalar.inj he
  rw [htype]
  exact KeyDraft.keyKind_kind hcan

end Schema

end ItemMapper
