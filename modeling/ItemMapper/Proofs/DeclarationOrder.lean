import ItemMapper.Proofs.TableMetadata
import Mathlib.Data.List.Perm.Basic

/-!
# The order of declarations

A schema means the same in whatever order its fields are declared.
-/

namespace ItemMapper

section Permutations

variable {α β ε : Type} {f : α → Except ε β} {xs xs' : List α} {ys : List β} {key : α → String} {name : String}
  {x : α}

theorem Outcome.mapM_perm (hp : xs.Perm xs') (h : xs.mapM f = .ok ys) : ∃ ys', xs'.mapM f = .ok ys' ∧ ys'.Perm ys := by
  obtain ⟨ys', hall, hys⟩ := List.perm_comp_forall₂ hp.symm (Outcome.mapM_eq_ok_iff.1 h)
  exact ⟨ys', Outcome.mapM_eq_ok_iff.2 hall, hys⟩

theorem find?_key_iff (h : (xs.map key).Nodup) :
    xs.find? (fun x => key x == name) = some x ↔ x ∈ xs ∧ key x = name := by
  constructor
  · intro hx
    have hkey : key x = name := by simpa using List.find?_some hx
    exact ⟨List.mem_of_find?_eq_some hx, hkey⟩
  · intro hx
    have hsome : (xs.find? fun x => key x == name).isSome = true :=
      List.find?_isSome.2 ⟨x, hx.1, beq_iff_eq.2 hx.2⟩
    obtain ⟨y, hy⟩ := Option.isSome_iff_exists.1 hsome
    have hkey : key y = name := by simpa using List.find?_some hy
    rw [hy, List.inj_on_of_nodup_map h (List.mem_of_find?_eq_some hy) hx.1 (hkey.trans hx.2.symm)]

theorem find?_key_perm (h : (xs.map key).Nodup) (hp : xs.Perm xs') :
    xs.find? (fun x => key x == name) = xs'.find? fun x => key x == name := by
  apply Option.ext
  intro x
  rw [find?_key_iff h, find?_key_iff ((hp.map key).nodup_iff.1 h), hp.mem_iff]

end Permutations

namespace KeyUse

variable {α : Type} {uses uses' : List KeyUse} {f : KeyUse → Option α}

theorem pairwise_perm (hp : uses.Perm uses') (h : uses.Pairwise Apart) : uses'.Pairwise Apart :=
  (hp.pairwise_iff fun {u v} => Std.Symm.symm u v).1 h

theorem findSome?_perm (h : uses.Pairwise Apart) (hp : uses.Perm uses')
    (hf : ∀ u v, u.Apart v → f u = none ∨ f v = none) : uses'.findSome? f = uses.findSome? f := by
  have h' := pairwise_perm hp h
  apply Option.ext
  intro x
  rw [findSome?_eq_some_iff h hf, findSome?_eq_some_iff h' hf]
  simp only [hp.mem_iff]

theorem globalHash_of_mem {index field name : String} {projection : Projection} {throughput : Option Throughput}
    {r : Memberships} (h : globalHash index field projection throughput ∈ ofMemberships name r) :
    ∃ g, r.globalIndex = some g ∧ g.sortKey = false ∧ globalHash index field projection throughput = globalHash
      g.indexName name (Coverage.projection g.project) (g.capacity.map fun c => ⟨c.read, c.write⟩) := by
  rcases mem_ofMemberships.1 h with ⟨-, h⟩ | ⟨-, h⟩ | ⟨l, -, h⟩ | ⟨g, hg, h⟩
  · cases h
  · cases h
  · cases h
  · rw [ofGlobal] at h
    split at h
    · cases h
    · rename_i hsort
      exact ⟨g, hg, Bool.eq_false_iff.2 hsort, h⟩

theorem globalNames_perm (hp : uses.Perm uses') : (globalNames uses).Perm (globalNames uses') := by
  apply (List.perm_ext_iff_of_nodup nodup_globalNames nodup_globalNames).2
  intro index
  simp only [mem_globalNames, hp.mem_iff]

theorem globalDraft_perm (h : uses.Pairwise Apart) (hp : uses.Perm uses') : globalDraft uses' = globalDraft uses := by
  funext index
  simp only [globalDraft, findSome?_perm h hp hash?_apart, findSome?_perm h hp range?_apart]

end KeyUse

namespace Schema

variable {decl decl' : SchemaDeclaration} {s s' : Schema} {fields fields' : List (String × Node)}

theorem fieldsOf_eq : fieldsOf decl = decl.mapM fun d => (Node.ofDecl d.1 true d.2).map (Prod.mk d.1) := by
  induction decl with
  | nil => rfl
  | cons d rest ih =>
    rw [fieldsOf, List.mapM_cons, ih]
    cases Node.ofDecl d.1 true d.2 <;> rfl

structure Agrees (s s' : Schema) : Prop where
  primaryKey : s'.primaryKey = s.primaryKey
  sortKey : s'.sortKey = s.sortKey
  definitions : s'.attributeDefinitions.Perm s.attributeDefinitions
  indexKey? : ∀ name, s'.indexKey? name = s.indexKey? name
  localIndex : ∀ name, s'.localIndexes.find? (fun i => i.indexName == name) =
    s.localIndexes.find? fun i => i.indexName == name
  globalIndex : ∀ name, s'.globalIndexes.find? (fun j => j.indexName == name) =
    s.globalIndexes.find? fun j => j.indexName == name

theorem Agrees.of_indexes (hp : s'.primaryKey = s.primaryKey) (hsort : s'.sortKey = s.sortKey)
    (hdefs : s'.attributeDefinitions.Perm s.attributeDefinitions)
    (hlocals : s'.localIndexes.Perm s.localIndexes) (hglobals : s'.globalIndexes.Perm s.globalIndexes)
    (hn : (s'.localIndexes.map LocalIndex.indexName ++ s'.globalIndexes.map GlobalIndex.indexName).Nodup) :
    s.Agrees s' := by
  obtain ⟨hnlocal, hnglobal, -⟩ := List.nodup_append.1 hn
  have hlocal (name : String) : s'.localIndexes.find? (fun i => i.indexName == name) =
      s.localIndexes.find? fun i => i.indexName == name := find?_key_perm hnlocal hlocals
  have hglobal (name : String) : s'.globalIndexes.find? (fun j => j.indexName == name) =
      s.globalIndexes.find? fun j => j.indexName == name := find?_key_perm hnglobal hglobals
  refine ⟨hp, hsort, hdefs, fun name => ?_, hlocal, hglobal⟩
  rw [Schema.indexKey?, Schema.indexKey?, hlocal name, hglobal name]

theorem MadeOf.perm (hs : s.MadeOf fields) (hp : fields.Perm fields') : ∃ s', s'.MadeOf fields' ∧ s.Agrees s' := by
  have huses : (KeyUse.ofFields fields).Perm (KeyUse.ofFields fields') := hp.flatMap_right KeyUse.ofField
  have hglobals : ((KeyUse.globalNames (KeyUse.ofFields fields)).map (KeyUse.globalDraft (KeyUse.ofFields fields))).Perm
      ((KeyUse.globalNames (KeyUse.ofFields fields')).map (KeyUse.globalDraft (KeyUse.ofFields fields'))) := by
    rw [KeyUse.globalDraft_perm hs.apart huses]
    exact (KeyUse.globalNames_perm huses).map _
  obtain ⟨globals, hmapM, hperm⟩ := Outcome.mapM_perm hglobals hs.globals
  let s' : Schema :=
    { root := .object { required := true } (Entries.mapValues requireKey fields') false
      primaryKey := s.primaryKey
      sortKey := s.sortKey
      attributeDefinitions := fields'.filterMap KeyUse.definition?
      localIndexes := ((KeyUse.ofFields fields').filterMap KeyUse.local?).map (localIndexOf s.primaryKey)
      globalIndexes := globals }
  have hs' : s'.MadeOf fields' := by
    refine ⟨KeyUse.pairwise_perm huses hs.apart, ?_, ?_, rfl, rfl, hmapM, rfl⟩
    · exact (KeyUse.findSome?_perm hs.apart huses KeyUse.partition?_apart).trans hs.primary
    · exact (KeyUse.findSome?_perm hs.apart huses KeyUse.sort?_apart).trans hs.sort
  have hlocals : s'.localIndexes.Perm s.localIndexes := by
    rw [← hs.locals]
    exact ((huses.filterMap _).map _).symm
  have hdefs : s'.attributeDefinitions.Perm s.attributeDefinitions := by
    rw [← hs.definitions]
    exact (hp.filterMap _).symm
  have hnames := KeyUse.nodup_indexNames hs'.apart
  rw [← hs'.names_localIndexes, ← hs'.names_globalIndexes] at hnames
  exact ⟨s', hs', .of_indexes rfl rfl hdefs hlocals hperm hnames⟩

theorem exists_of_perm (hn : (Entries.keys decl).Nodup) (hp : decl.Perm decl') (h : ofDeclaration decl = .ok s) :
    ∃ s', ofDeclaration decl' = .ok s' ∧ s.Agrees s' := by
  obtain ⟨fields, hf, hs⟩ := (ofDeclaration_ok_iff_madeOf hn).1 h
  rw [fieldsOf_eq] at hf
  obtain ⟨fields', hf', hfields⟩ := Outcome.mapM_perm hp hf
  rw [← fieldsOf_eq] at hf'
  obtain ⟨s', hs', hagrees⟩ := hs.perm hfields.symm
  exact ⟨s', (ofDeclaration_ok_iff_madeOf ((hp.map Prod.fst).nodup_iff.1 hn)).2 ⟨fields', hf', hs'⟩, hagrees⟩

/-- The projection and the capacity of a global index are those that the declaration of its hash key gives. -/
def FollowsHashes (s : Schema) (decl : SchemaDeclaration) : Prop :=
  ∀ j ∈ s.globalIndexes, ∃ field d g, (field, d) ∈ decl ∧ d.memberships.globalIndex = some g ∧ g.sortKey = false ∧
    g.indexName = j.indexName ∧ .hash field ∈ j.keySchema ∧ j.projection = Coverage.projection g.project ∧
      j.throughput = g.capacity.map fun c => ⟨c.read, c.write⟩

theorem followsHashes_of_ofDeclaration (hn : (Entries.keys decl).Nodup) (h : ofDeclaration decl = .ok s) :
    s.FollowsHashes decl := by
  obtain ⟨fields, hf, hs⟩ := (ofDeclaration_ok_iff_madeOf hn).1 h
  intro j hj
  obtain ⟨index, field, range, projection, throughput, hu, -, rfl⟩ := hs.mem_globalIndexes.1 hj
  rw [uses_fieldsOf hf] at hu
  obtain ⟨⟨name, d⟩, hd, hu⟩ := List.mem_flatMap.1 hu
  obtain ⟨g, hg, hhash, he⟩ := KeyUse.globalHash_of_mem hu
  obtain ⟨rfl, rfl, rfl, rfl⟩ := KeyUse.globalHash.inj he
  exact ⟨_, d, g, hd, hg, hhash, rfl, List.mem_cons_self, rfl, rfl⟩

/-- Declarations in another order compile if these do, and to the same keys and indexes. -/
theorem ofDeclaration_perm (hn : (Entries.keys decl).Nodup) (hp : decl.Perm decl') :
    ((∃ s, ofDeclaration decl = .ok s) ↔ ∃ s', ofDeclaration decl' = .ok s') ∧
      ∀ s s', ofDeclaration decl = .ok s → ofDeclaration decl' = .ok s' →
        s.Agrees s' ∧ s.FollowsHashes decl ∧ s'.FollowsHashes decl' := by
  have hn' : (Entries.keys decl').Nodup := (hp.map Prod.fst).nodup_iff.1 hn
  refine ⟨⟨?_, ?_⟩, ?_⟩
  · intro h
    obtain ⟨s, hs⟩ := h
    obtain ⟨s', hs', -⟩ := exists_of_perm hn hp hs
    exact ⟨s', hs'⟩
  · intro h
    obtain ⟨s', hs'⟩ := h
    obtain ⟨s, hs, -⟩ := exists_of_perm hn' hp.symm hs'
    exact ⟨s, hs⟩
  · intro s s' hs hs'
    obtain ⟨s₁, hs₁, hagrees⟩ := exists_of_perm hn hp hs
    obtain rfl : s₁ = s' := Except.ok.inj (hs₁.symm.trans hs')
    exact ⟨hagrees, followsHashes_of_ofDeclaration hn hs, followsHashes_of_ofDeclaration hn' hs'⟩

theorem orders_reverse_agrees : (Entries.keys orderFields).Nodup ∧ orderFields.Perm orderFields.reverse ∧
    ∃ s, ofDeclaration orderFields.reverse = .ok s ∧ orders.Agrees s ∧ s.FollowsHashes orderFields.reverse := by
  have hp : orderFields.Perm orderFields.reverse := (List.reverse_perm orderFields).symm
  obtain ⟨hcompiles, hagrees⟩ := ofDeclaration_perm (by decide) hp
  obtain ⟨s, hs⟩ := hcompiles.1 ⟨orders, rfl⟩
  obtain ⟨hs', -, hfollows⟩ := hagrees orders s rfl hs
  exact ⟨by decide, hp, s, hs, hs', hfollows⟩

end Schema

end ItemMapper
