import ItemMapper.Proofs.Outcomes
import ItemMapper.Schema.Compile
import Mathlib.Data.List.Induction
import Mathlib.Data.List.Nodup
import Mathlib.Data.List.Pairwise

/-!
# Uses of fields in keys

A field is used in keys as the partition key, as the sort key, as the range key of a local index, or as the hash or
the range key of a global one. The draft that is collected from fields is what their uses give, and collecting fails
exactly where two uses clash.
-/

namespace ItemMapper

inductive KeyUse where
  | partition (field : String)
  | sort (field : String)
  | localRange (index field : String) (projection : Projection)
  | globalHash (index field : String) (projection : Projection) (throughput : Option Throughput)
  | globalRange (index field : String)

namespace KeyUse

def Clash : KeyUse → KeyUse → Prop
  | partition _, partition _ => True
  | sort _, sort _ => True
  | localRange i _ _, localRange j _ _ => i = j
  | localRange i _ _, globalHash j _ _ _ => i = j
  | localRange i _ _, globalRange j _ => i = j
  | globalHash i _ _ _, localRange j _ _ => i = j
  | globalHash i _ _ _, globalHash j _ _ _ => i = j
  | globalRange i _, localRange j _ _ => i = j
  | globalRange i _, globalRange j _ => i = j
  | _, _ => False

def Apart (u v : KeyUse) : Prop := ¬ u.Clash v

instance : Std.Symm Apart where
  symm u v h hc := by
    apply h
    cases u <;> cases v <;> first | exact Eq.symm hc | exact hc

def partition? : KeyUse → Option String
  | partition field => some field
  | _ => none

def sort? : KeyUse → Option String
  | sort field => some field
  | _ => none

def local? : KeyUse → Option (String × String × Projection)
  | localRange index field projection => some (index, field, projection)
  | _ => none

def global? : KeyUse → Option String
  | globalHash index _ _ _ => some index
  | globalRange index _ => some index
  | _ => none

def index? : KeyUse → Option String
  | localRange index _ _ => some index
  | u => u.global?

def hash? (index : String) : KeyUse → Option (String × Projection × Option Throughput)
  | globalHash i field projection throughput => if i = index then some (field, projection, throughput) else none
  | _ => none

def range? (index : String) : KeyUse → Option String
  | globalRange i field => if i = index then some field else none
  | _ => none

def globalDraft (uses : List KeyUse) (index : String) : GlobalIndexDraft where
  name := index
  hash := (uses.findSome? (hash? index)).map fun h => h.1
  range := uses.findSome? (range? index)
  projection := ((uses.findSome? (hash? index)).map fun h => h.2.1).getD {}
  throughput := (uses.findSome? (hash? index)).bind fun h => h.2.2

def globalNames (uses : List KeyUse) : List String := (uses.filterMap global?).eraseDups

def draft (uses : List KeyUse) (definitions : List AttributeDefinition) : KeyDraft where
  primaryKey := uses.findSome? partition?
  sortKey := uses.findSome? sort?
  definitions := definitions
  locals := uses.filterMap local?
  globals := (globalNames uses).map (globalDraft uses)

def ofGlobal (field : String) (g : GlobalMembership) : KeyUse :=
  if g.sortKey then globalRange g.indexName field
  else globalHash g.indexName field (Coverage.projection g.project) (g.capacity.map fun c => ⟨c.read, c.write⟩)

def ofLocal (field : String) (l : LocalMembership) : KeyUse :=
  localRange (l.indexName.getD field) field (Coverage.projection l.project)

def ofMemberships (field : String) (r : Memberships) : List KeyUse :=
  (if r.primary then [partition field] else []) ++ (if r.sortKey then [sort field] else []) ++
    (r.localIndex.map (ofLocal field)).toList ++ (r.globalIndex.map (ofGlobal field)).toList

def ofField : String × Node → List KeyUse
  | (field, .scalar m _) => ofMemberships field m.memberships
  | _ => []

def ofFields (fields : List (String × Node)) : List KeyUse := fields.flatMap ofField

def definition? : String × Node → Option AttributeDefinition
  | (field, .scalar m k) => if m.memberships.any then some ⟨field, KeyDraft.keyKind k⟩ else none
  | _ => none

variable {uses new more : List KeyUse} {u v : KeyUse} {index field : String} {definitions : List AttributeDefinition}
  {d : KeyDraft} {r : Memberships} {g : GlobalMembership}

theorem pairwise_concat (h : uses.Pairwise Apart) : (uses ++ [u]).Pairwise Apart ↔ ∀ v ∈ uses, v.Apart u := by
  simp [List.pairwise_append, h]

theorem mem_globalNames : index ∈ globalNames uses ↔ ∃ u ∈ uses, u.global? = some index := by
  rw [globalNames, List.mem_eraseDups, List.mem_filterMap]

theorem globalNames_concat_of_none (h : u.global? = none) : globalNames (uses ++ [u]) = globalNames uses := by
  simp [globalNames, h]

theorem globalNames_concat (h : u.global? = some index) : globalNames (uses ++ [u]) =
    if index ∈ globalNames uses then globalNames uses else globalNames uses ++ [index] := by
  have hlast : [u].filterMap global? = [index] := by simp [h]
  have hnew : [index].removeAll (uses.filterMap global?) = if index ∈ globalNames uses then [] else [index] := by
    simp [List.removeAll, globalNames, List.mem_eraseDups, List.filter_singleton]
  rw [globalNames, List.filterMap_append, List.eraseDups_append, hlast, hnew]
  split
  · simp [globalNames]
  · rfl

theorem nodup_globalNames : (globalNames uses).Nodup := by
  induction uses using List.reverseRecOn with
  | nil => exact List.nodup_nil
  | append_singleton uses u ih =>
    cases hu : u.global? with
    | none => rwa [globalNames_concat_of_none hu]
    | some index =>
      rw [globalNames_concat hu]
      split
      · exact ih
      · exact ih.append (List.nodup_singleton index) (by simpa)

theorem hash?_of_ne (h : u.global? ≠ some index) : hash? index u = none := by
  cases u <;> simp_all [hash?, global?]

theorem range?_of_ne (h : u.global? ≠ some index) : range? index u = none := by
  cases u <;> simp_all [range?, global?]

theorem globalDraft_concat (h : u.global? ≠ some index) : globalDraft (uses ++ [u]) index = globalDraft uses index := by
  simp [globalDraft, List.findSome?_append, hash?_of_ne h, range?_of_ne h]

theorem globalDraft_of_not_mem (h : index ∉ globalNames uses) : globalDraft uses index = { name := index } := by
  have hne : ∀ u ∈ uses, u.global? ≠ some index := fun u hu hg => h (mem_globalNames.2 ⟨u, hu, hg⟩)
  have hhash : uses.findSome? (hash? index) = none := List.findSome?_eq_none_iff.2 fun u hu => hash?_of_ne (hne u hu)
  have hrange : uses.findSome? (range? index) = none :=
    List.findSome?_eq_none_iff.2 fun u hu => range?_of_ne (hne u hu)
  simp [globalDraft, hhash, hrange]

theorem draft_concat_of_none (h : u.global? = none) : draft (uses ++ [u]) definitions =
    { draft uses definitions with
      primaryKey := (draft uses definitions).primaryKey.or u.partition?
      sortKey := (draft uses definitions).sortKey.or u.sort?
      locals := (draft uses definitions).locals ++ u.local?.toList } := by
  have hglobals : (globalNames uses).map (globalDraft (uses ++ [u])) = (globalNames uses).map (globalDraft uses) :=
    List.map_congr_left fun index _ => globalDraft_concat (by simp [h])
  cases hl : u.local? <;>
    simp [draft, globalNames_concat_of_none h, hglobals, List.findSome?_append, hl]

/-- A step that collects some uses. It fails if one of them clashes, and does nothing else to the draft. -/
def Collects (step : KeyDraft → Except Misuse KeyDraft) (new : List KeyUse) : Prop :=
  ∀ uses definitions d, uses.Pairwise Apart →
    (step (draft uses definitions) = .ok d ↔ (uses ++ new).Pairwise Apart ∧ d = draft (uses ++ new) definitions)

theorem collects_nothing : Collects .ok [] := by
  intro uses definitions d huses
  simp [huses, eq_comm]

theorem Collects.andThen {step other : KeyDraft → Except Misuse KeyDraft} (h : Collects step new)
    (hother : Collects other more) : Collects (fun d => step d >>= other) (new ++ more) := by
  intro uses definitions d huses
  rw [← List.append_assoc]
  constructor
  · intro hd
    obtain ⟨d₁, h₁, hd⟩ := Outcome.of_bind hd
    obtain ⟨hnew, rfl⟩ := (h uses definitions d₁ huses).1 h₁
    exact (hother _ definitions d hnew).1 hd
  · rintro ⟨hall, rfl⟩
    have hnew : (uses ++ new).Pairwise Apart := (List.pairwise_append.1 hall).1
    have h₁ := (h uses definitions _ huses).2 ⟨hnew, rfl⟩
    have h₂ := (hother _ definitions _ hnew).2 ⟨hall, rfl⟩
    change (step (draft uses definitions) >>= other) = _
    rw [h₁]
    exact h₂

theorem collects_one {step : KeyDraft → Except Misuse KeyDraft}
    (hfree : ∀ uses definitions d, uses.Pairwise Apart → step (draft uses definitions) = .ok d → ∀ v ∈ uses, v.Apart u)
    (hnext : ∀ uses definitions, uses.Pairwise Apart → (∀ v ∈ uses, v.Apart u) →
      step (draft uses definitions) = .ok (draft (uses ++ [u]) definitions)) : Collects step [u] := by
  intro uses definitions d huses
  rw [pairwise_concat huses]
  constructor
  · intro hd
    have hapart := hfree uses definitions d huses hd
    have hdraft := (hnext uses definitions huses hapart).symm.trans hd
    exact ⟨hapart, (Except.ok.inj hdraft).symm⟩
  · rintro ⟨hapart, rfl⟩
    exact hnext uses definitions huses hapart

theorem collects_primary : Collects (fun d => d.addPrimary field r) (if r.primary then [partition field] else []) := by
  by_cases hr : r.primary = true
  case neg =>
    have hstep : (fun d : KeyDraft => d.addPrimary field r) = .ok := funext fun d => if_neg hr
    rw [hstep, if_neg hr]
    exact collects_nothing
  rw [if_pos hr]
  have hfree (uses : List KeyUse) :
      uses.findSome? partition? = none ↔ ∀ v ∈ uses, v.Apart (partition field) := by
    rw [List.findSome?_eq_none_iff]
    refine forall₂_congr fun v _ => ?_
    cases v <;> simp [Apart, Clash, partition?]
  apply collects_one
  · intro uses definitions d _ hd
    rw [← hfree]
    simp only [KeyDraft.addPrimary, if_pos hr, draft] at hd
    split at hd
    · cases hd
    · assumption
  · intro uses definitions _ hapart
    rw [← hfree] at hapart
    rw [draft_concat_of_none rfl]
    simp [KeyDraft.addPrimary, hr, draft, hapart, partition?, sort?, local?]

theorem collects_sort : Collects (fun d => d.addSortKey field r) (if r.sortKey then [sort field] else []) := by
  by_cases hr : r.sortKey = true
  case neg =>
    have hstep : (fun d : KeyDraft => d.addSortKey field r) = .ok := funext fun d => if_neg hr
    rw [hstep, if_neg hr]
    exact collects_nothing
  rw [if_pos hr]
  have hfree (uses : List KeyUse) : uses.findSome? sort? = none ↔ ∀ v ∈ uses, v.Apart (sort field) := by
    rw [List.findSome?_eq_none_iff]
    refine forall₂_congr fun v _ => ?_
    cases v <;> simp [Apart, Clash, sort?]
  apply collects_one
  · intro uses definitions d _ hd
    rw [← hfree]
    simp only [KeyDraft.addSortKey, if_pos hr, draft] at hd
    split at hd
    · cases hd
    · assumption
  · intro uses definitions _ hapart
    rw [← hfree] at hapart
    rw [draft_concat_of_none rfl]
    simp [KeyDraft.addSortKey, hr, draft, hapart, partition?, sort?, local?]

theorem requireFreeName_iff {x : Unit} :
    (draft uses definitions).requireFreeName index = .ok x ↔ ∀ u ∈ uses, u.index? ≠ some index := by
  have hnames : ((draft uses definitions).locals.any (fun l => l.1 == index) ||
      (draft uses definitions).globals.any fun g => g.name == index) = true ↔ ∃ u ∈ uses, u.index? = some index := by
    simp only [draft, globalDraft, List.any_map, Bool.or_eq_true, List.any_eq_true, Function.comp_apply, beq_iff_eq,
      exists_eq_right, mem_globalNames, List.mem_filterMap]
    constructor
    · rintro (⟨l, ⟨u, hu, hl⟩, rfl⟩ | ⟨u, hu, hg⟩)
      · refine ⟨u, hu, ?_⟩
        cases u with
        | localRange i field projection => exact congrArg (fun l => some l.1) (Option.some.inj hl)
        | _ => cases hl
      · refine ⟨u, hu, ?_⟩
        cases u <;> simp_all [index?, global?]
    · rintro ⟨u, hu, hi⟩
      cases u with
      | localRange i field projection => exact .inl ⟨_, ⟨_, hu, rfl⟩, Option.some.inj hi⟩
      | _ => exact .inr ⟨_, hu, hi⟩
  rw [KeyDraft.requireFreeName]
  split
  · rename_i h
    obtain ⟨u, hu, hi⟩ := hnames.1 h
    exact ⟨fun he => (by cases he), fun hno => absurd hi (hno u hu)⟩
  · rename_i h
    refine ⟨fun _ u hu hi => h (hnames.2 ⟨u, hu, hi⟩), fun _ => rfl⟩

theorem apart_ofLocal {l : LocalMembership} :
    v.Apart (ofLocal field l) ↔ v.index? ≠ some (l.indexName.getD field) := by
  cases v <;> simp [Apart, Clash, ofLocal, index?, global?]

theorem collects_local : Collects (fun d => d.addLocal field r) (r.localIndex.map (ofLocal field)).toList := by
  cases hr : r.localIndex with
  | none =>
    have hstep : (fun d : KeyDraft => d.addLocal field r) = .ok := funext fun d => by rw [KeyDraft.addLocal, hr]
    rw [hstep]
    exact collects_nothing
  | some l =>
    apply collects_one
    · intro uses definitions d _ hd v hv
      simp only [KeyDraft.addLocal, hr] at hd
      obtain ⟨_, hname, -⟩ := Outcome.of_bind hd
      exact apart_ofLocal.2 (requireFreeName_iff.1 hname v hv)
    · intro uses definitions _ hapart
      have hname : (draft uses definitions).requireFreeName (l.indexName.getD field) = .ok () :=
        requireFreeName_iff.2 fun v hv => apart_ofLocal.1 (hapart v hv)
      rw [draft_concat_of_none rfl]
      simp [KeyDraft.addLocal, hr, hname, bind, Except.bind, pure, Except.pure, ofLocal, partition?, sort?, local?]

theorem global?_ofGlobal : (ofGlobal field g).global? = some g.indexName := by
  rw [ofGlobal]
  split <;> rfl

def slot? (g : GlobalMembership) (u : KeyUse) : Option String :=
  if g.sortKey then range? g.indexName u else (hash? g.indexName u).map fun h => h.1

theorem apart_ofGlobal : v.Apart (ofGlobal field g) ↔
    v.local?.map Prod.fst ≠ some g.indexName ∧ slot? g v = none := by
  rw [ofGlobal, slot?]
  split <;> cases v <;> simp [Apart, Clash, local?, range?, hash?]

theorem withField_globalDraft {x : GlobalIndexDraft} :
    KeyDraft.withField (globalDraft uses g.indexName) field g = .ok x ↔
      (∀ v ∈ uses, slot? g v = none) ∧ x = globalDraft (uses ++ [ofGlobal field g]) g.indexName := by
  by_cases hg : g.sortKey = true
  · have hfree : (∀ v ∈ uses, slot? g v = none) ↔ uses.findSome? (range? g.indexName) = none := by
      simp [slot?, hg]
    rw [hfree]
    cases hr : uses.findSome? (range? g.indexName) <;>
      simp [KeyDraft.withField, ofGlobal, hg, globalDraft, List.findSome?_append, hash?, range?, hr, eq_comm]
  · have hfree : (∀ v ∈ uses, slot? g v = none) ↔ uses.findSome? (hash? g.indexName) = none := by
      simp [slot?, hg]
    rw [hfree]
    cases hr : uses.findSome? (hash? g.indexName) <;>
      simp [KeyDraft.withField, ofGlobal, hg, globalDraft, List.findSome?_append, hash?, range?, hr, eq_comm]

theorem addToIndex_map {names : List String} {draftOf : String → GlobalIndexDraft} (hd : ∀ n, (draftOf n).name = n)
    (hn : names.Nodup) : KeyDraft.addToIndex field g (names.map draftOf) =
      if g.indexName ∈ names then (KeyDraft.withField (draftOf g.indexName) field g).map fun x =>
        names.map fun n => if n = g.indexName then x else draftOf n
      else (KeyDraft.withField { name := g.indexName } field g).map fun x => names.map draftOf ++ [x] := by
  induction names with
  | nil =>
    rw [List.map_nil, KeyDraft.addToIndex, if_neg List.not_mem_nil]
    cases KeyDraft.withField { name := g.indexName } field g <;> rfl
  | cons n rest ih =>
    obtain ⟨hnot, hrest⟩ := List.nodup_cons.1 hn
    rw [List.map_cons, KeyDraft.addToIndex, hd]
    by_cases hname : n = g.indexName
    · subst hname
      have hothers (x : GlobalIndexDraft) :
          rest.map (fun n => if n = g.indexName then x else draftOf n) = rest.map draftOf :=
        List.map_congr_left fun n hmem => if_neg fun he : n = g.indexName => hnot (he ▸ hmem)
      rw [if_pos rfl, if_pos List.mem_cons_self]
      simp only [List.map_cons, if_true, hothers]
      cases KeyDraft.withField (draftOf g.indexName) field g <;> rfl
    · have hmem : g.indexName ∈ n :: rest ↔ g.indexName ∈ rest := by simp [Ne.symm hname]
      rw [if_neg hname, ih hrest]
      simp only [hmem, List.map_cons, if_neg hname]
      split
      · cases KeyDraft.withField (draftOf g.indexName) field g <;> rfl
      · cases KeyDraft.withField { name := g.indexName } field g <;> rfl

def globalsWith (uses : List KeyUse) (index : String) (x : GlobalIndexDraft) : List GlobalIndexDraft :=
  if index ∈ globalNames uses then (globalNames uses).map fun n => if n = index then x else globalDraft uses n
  else (globalNames uses).map (globalDraft uses) ++ [x]

theorem addToIndex_globals : KeyDraft.addToIndex field g ((globalNames uses).map (globalDraft uses)) =
    (KeyDraft.withField (globalDraft uses g.indexName) field g).map (globalsWith uses g.indexName) := by
  rw [addToIndex_map (fun _ => rfl) nodup_globalNames]
  split
  · rename_i h
    exact congrArg (Except.map · _) (funext fun x => (if_pos h).symm)
  · rename_i h
    rw [globalDraft_of_not_mem h]
    exact congrArg (Except.map · _) (funext fun x => (if_neg h).symm)

theorem draft_concat_global : draft (uses ++ [ofGlobal field g]) definitions = { draft uses definitions with
    globals := globalsWith uses g.indexName (globalDraft (uses ++ [ofGlobal field g]) g.indexName) } := by
  have hother : ∀ n, n ≠ g.indexName → globalDraft (uses ++ [ofGlobal field g]) n = globalDraft uses n :=
    fun n hn => globalDraft_concat (by simpa [global?_ofGlobal] using Ne.symm hn)
  have hglobals : (globalNames (uses ++ [ofGlobal field g])).map (globalDraft (uses ++ [ofGlobal field g])) =
      globalsWith uses g.indexName (globalDraft (uses ++ [ofGlobal field g]) g.indexName) := by
    rw [globalNames_concat global?_ofGlobal, globalsWith]
    split
    · refine List.map_congr_left fun n _ => ?_
      split
      · simp [*]
      · exact hother n ‹_›
    · rename_i h
      rw [List.map_append, List.map_singleton]
      refine congrArg (· ++ _) (List.map_congr_left fun n hn => hother n fun he => h (he ▸ hn))
  have hnone : (ofGlobal field g).partition? = none ∧ (ofGlobal field g).sort? = none ∧
      (ofGlobal field g).local? = none := by
    rw [ofGlobal]
    split <;> exact ⟨rfl, rfl, rfl⟩
  simp [draft, hglobals, List.findSome?_append, hnone]

theorem addGlobal_draft (hr : r.globalIndex = some g) : (draft uses definitions).addGlobal field r =
    ((if g.indexName ∈ globalNames uses then .ok () else (draft uses definitions).requireFreeName g.indexName) >>=
      fun _ => (KeyDraft.withField (globalDraft uses g.indexName) field g).map fun x =>
        { draft uses definitions with globals := globalsWith uses g.indexName x }) := by
  have hany : ((draft uses definitions).globals.any fun x => x.name == g.indexName) =
      decide (g.indexName ∈ globalNames uses) := by
    rw [Bool.eq_iff_iff, List.any_eq_true, decide_eq_true_eq]
    simp [draft, globalDraft]
  rw [KeyDraft.addGlobal, hr]
  simp only [hany]
  rw [show (draft uses definitions).globals = (globalNames uses).map (globalDraft uses) from rfl, addToIndex_globals]
  by_cases h : g.indexName ∈ globalNames uses
  · simp only [h, if_true, decide_true]
    cases KeyDraft.withField (globalDraft uses g.indexName) field g <;> rfl
  · simp only [h, if_false, decide_false]
    cases (draft uses definitions).requireFreeName g.indexName <;>
      cases KeyDraft.withField (globalDraft uses g.indexName) field g <;> rfl

theorem forall_apart_ofGlobal : (∀ v ∈ uses, v.Apart (ofGlobal field g)) ↔
    (∀ v ∈ uses, v.local?.map Prod.fst ≠ some g.indexName) ∧ ∀ v ∈ uses, slot? g v = none := by
  simp only [apart_ofGlobal, forall₂_and]

theorem local?_ne_of_mem (huses : uses.Pairwise Apart) (h : index ∈ globalNames uses) (hv : v ∈ uses) :
    v.local?.map Prod.fst ≠ some index := by
  obtain ⟨u, hu, hg⟩ := mem_globalNames.1 h
  intro hl
  have hne : u ≠ v := by
    rintro rfl
    cases u <;> simp_all [local?, global?]
  have hapart : u.Apart v := huses.forall hu hv hne
  apply hapart
  cases u <;> cases v <;> simp_all [local?, global?, Clash]

theorem collects_global : Collects (fun d => d.addGlobal field r) (r.globalIndex.map (ofGlobal field)).toList := by
  cases hr : r.globalIndex with
  | none =>
    have hstep : (fun d : KeyDraft => d.addGlobal field r) = .ok := funext fun d => by rw [KeyDraft.addGlobal, hr]
    rw [hstep]
    exact collects_nothing
  | some g =>
    apply collects_one
    · intro uses definitions d huses hd
      simp only [addGlobal_draft hr] at hd
      obtain ⟨_, hname, hd⟩ := Outcome.of_bind hd
      obtain ⟨x, hx, -⟩ := Outcome.of_map hd
      apply forall_apart_ofGlobal.2
      refine ⟨fun v hv => ?_, (withField_globalDraft.1 hx).1⟩
      split at hname
      · exact local?_ne_of_mem huses ‹_› hv
      · have hfree := requireFreeName_iff.1 hname v hv
        cases v <;> simp_all [index?, local?]
    · intro uses definitions _ hapart
      obtain ⟨hlocals, hslot⟩ := forall_apart_ofGlobal.1 hapart
      have hfield : KeyDraft.withField (globalDraft uses g.indexName) field g =
          .ok (globalDraft (uses ++ [ofGlobal field g]) g.indexName) := withField_globalDraft.2 ⟨hslot, rfl⟩
      have hname : (if g.indexName ∈ globalNames uses then .ok ()
          else (draft uses definitions).requireFreeName g.indexName : Except Misuse Unit) = .ok () := by
        split
        · rfl
        · rename_i h
          refine requireFreeName_iff.2 fun u hu hi => ?_
          have hlocal := hlocals u hu
          have hglobal : u.global? ≠ some g.indexName := fun hg => h (mem_globalNames.2 ⟨u, hu, hg⟩)
          cases u <;> simp_all [index?, local?]
      rw [addGlobal_draft hr, hname, hfield, draft_concat_global]
      rfl

def addMemberships (field : String) (r : Memberships) (d : KeyDraft) : Except Misuse KeyDraft :=
  d.addPrimary field r >>= fun d => d.addSortKey field r >>= fun d => d.addLocal field r >>= fun d => d.addGlobal field r

theorem collects_memberships : Collects (addMemberships field r) (ofMemberships field r) := by
  rw [ofMemberships, List.append_assoc, List.append_assoc]
  exact collects_primary.andThen (collects_sort.andThen (collects_local.andThen collects_global))

theorem ofMemberships_of_not_any (h : r.any = false) : ofMemberships field r = [] := by
  simp only [Memberships.any, Bool.or_eq_false_iff, Option.isSome_eq_false_iff, Option.isNone_iff_eq_none] at h
  simp [ofMemberships, h]

variable {f : String × Node} {fields : List (String × Node)}

theorem attributeName_of_definition? {x : AttributeDefinition} (h : definition? f = some x) : x.attributeName = f.1 := by
  obtain ⟨field, n⟩ := f
  cases n with
  | scalar m k =>
    simp only [definition?] at h
    split at h
    · cases h
      rfl
    · cases h
  | _ => cases h

theorem add_draft (huses : uses.Pairwise Apart) (hnew : ∀ x ∈ definitions, x.attributeName ≠ f.1) :
    (draft uses definitions).add f.1 f.2 = .ok d ↔ (uses ++ ofField f).Pairwise Apart ∧
      d = draft (uses ++ ofField f) (definitions ++ (definition? f).toList) := by
  obtain ⟨field, n⟩ := f
  cases n with
  | scalar m k =>
    by_cases hm : m.memberships.any = true
    case neg =>
      have hno : ofMemberships field m.memberships = [] := ofMemberships_of_not_any (by simpa using hm)
      simp [KeyDraft.add, hm, ofField, hno, definition?, huses, pure, Except.pure, eq_comm]
    have hadd : (draft uses definitions).add field (.scalar m k) =
        (addMemberships field m.memberships (draft uses definitions) >>= fun d =>
          if d.definitions.any fun x => x.attributeName == field then return d
          else return { d with definitions := d.definitions ++ [⟨field, KeyDraft.keyKind k⟩] }) := by
      simp [KeyDraft.add, hm, addMemberships]
    have hundefined (more : List KeyUse) :
        (draft (uses ++ more) definitions).definitions.any (fun x => x.attributeName == field) = false := by
      simpa [draft] using hnew
    have hdefinition : definition? (field, .scalar m k) = some ⟨field, KeyDraft.keyKind k⟩ := if_pos hm
    rw [hadd, hdefinition]
    constructor
    · intro h
      obtain ⟨d₁, h₁, h⟩ := Outcome.of_bind h
      obtain ⟨hpairs, rfl⟩ := (collects_memberships uses definitions d₁ huses).1 h₁
      rw [hundefined] at h
      exact ⟨hpairs, (Except.ok.inj h).symm⟩
    · rintro ⟨hpairs, rfl⟩
      have hsteps := (collects_memberships uses definitions _ huses).2 ⟨hpairs, rfl⟩
      rw [hsteps]
      exact if_neg (by simp [hundefined])
  | _ => simp [KeyDraft.add, ofField, definition?, huses, eq_comm]

theorem addAll_draft (huses : uses.Pairwise Apart) (hf : (Entries.keys fields).Nodup)
    (hnew : ∀ x ∈ definitions, x.attributeName ∉ Entries.keys fields) :
    (draft uses definitions).addAll fields = .ok d ↔ (uses ++ ofFields fields).Pairwise Apart ∧
      d = draft (uses ++ ofFields fields) (definitions ++ fields.filterMap definition?) := by
  induction fields generalizing uses definitions with
  | nil => simp [KeyDraft.addAll, ofFields, huses, eq_comm]
  | cons f rest ih =>
    obtain ⟨hnot, hrest⟩ := List.nodup_cons.1 hf
    have hfield : ∀ x ∈ definitions, x.attributeName ≠ f.1 := fun x hx he => hnew x hx (he ▸ List.mem_cons_self)
    have hdefined : ∀ x ∈ definitions ++ (definition? f).toList, x.attributeName ∉ Entries.keys rest := by
      intro x hx
      rcases List.mem_append.1 hx with hx | hx
      · exact fun hmem => hnew x hx (List.mem_cons_of_mem _ hmem)
      · rw [attributeName_of_definition? (Option.mem_toList.1 hx)]
        exact hnot
    have hdefinitions : definitions ++ (f :: rest).filterMap definition? =
        (definitions ++ (definition? f).toList) ++ rest.filterMap definition? := by
      cases hd : definition? f <;> simp [hd]
    rw [KeyDraft.addAll, ofFields, List.flatMap_cons, ← List.append_assoc, hdefinitions]
    constructor
    · intro h
      obtain ⟨d₁, h₁, h⟩ := Outcome.of_bind h
      obtain ⟨hpairs, rfl⟩ := (add_draft huses hfield).1 h₁
      exact (ih hpairs hrest hdefined).1 h
    · intro h
      have hpairs : (uses ++ ofField f).Pairwise Apart := (List.pairwise_append.1 h.1).1
      rw [(add_draft huses hfield).2 ⟨hpairs, rfl⟩]
      exact (ih hpairs hrest hdefined).2 h

/-- Fields of different names are collected to the draft of their uses, exactly if no two uses clash. -/
theorem addAll_ok_iff (hf : (Entries.keys fields).Nodup) : KeyDraft.addAll {} fields = .ok d ↔
    (ofFields fields).Pairwise Apart ∧ d = draft (ofFields fields) (fields.filterMap definition?) := by
  have hempty : ∀ x ∈ ([] : List AttributeDefinition), x.attributeName ∉ Entries.keys fields := by simp
  exact addAll_draft List.Pairwise.nil hf hempty

end KeyUse

end ItemMapper
