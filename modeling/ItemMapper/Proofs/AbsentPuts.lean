import ItemMapper.Proofs.KeyedStores
import ItemMapper.Proofs.MemoryConditions

/-!
# Puts of what is absent

A put may ask that the key attribute is absent, which is to say that nothing is stored under its key yet. However the
requests of many clients follow one another, as long as none of them asks for a deletion an item stays under every key
that has one. So of the puts for one key at most one succeeds, the first that finds the key free.
-/

namespace ItemMapper

theorem ConditionKey.ofName_eq_named {name : String} (h : isOperator name = false) : ofName name = .named := by
  rw [ofName, h]
  rfl

namespace ConditionDocument

def absence (name : String) : Value := .map [(name, .map [("$exists", .bool false)])]

variable {schema : Schema} {name : String}

theorem read_absence (hname : ConditionKey.isOperator name = false)
    (hpath : DocumentPath.parse? name = some (.field name)) (s : Session) :
    (schema.readCondition (absence name) none).run s =
      (.ok (some (.function .attributeNotExists (.field name) none)), s) := by
  have hnamed := ConditionKey.ofName_eq_named hname
  have hparse := DocumentPath.parse_of_parse? hpath
  have hinner : (readEntries schema (some name) [("$exists", .bool false)]).run s =
      (.ok [.function .attributeNotExists (.field name) none], s) := by
    change (do
      let c ← (do return Condition.function .attributeNotExists (← Mapping.ofMisuse (DocumentPath.parse name)) none)
      return c :: (← pure []) : Mapping (List Condition)).run s = _
    rw [hparse]
    rfl
  have hentry : (readEntry schema none name (.map [("$exists", .bool false)])).run s =
      (.ok (.function .attributeNotExists (.field name) none), s) := by
    have hbelow : pathBelow none name = name := rfl
    rw [readEntry, hnamed]
    simp only [hbelow, Outcome.run_bind, hinner]
    rfl
  change ((readEntry schema none name (.map [("$exists", .bool false)]) >>= fun c => pure [c]) >>=
    fun cs => pure (conjunction cs)).run s = _
  rw [bind_assoc, Outcome.run_bind, hentry]
  rfl

end ConditionDocument

namespace Mapper

open ConditionDocument

variable {m : Mapper} {item : Value} {doc : Value} {options : WriteOptions} {r : Request.PutItem} {prepared : Value}
  {session session' : Session} {name : String}

theorem tableName_of_putRequest {condition : Option Value}
    (h : (m.putRequest item condition options).run session = (.ok (r, prepared), session')) : r.tableName = m.table := by
  rw [putRequest] at h
  obtain ⟨prepared', s₁, -, h⟩ := Mapping.of_bind h
  cases condition
  all_goals
    obtain ⟨⟨text, t⟩, s₂, -, h⟩ := Mapping.of_bind h
    obtain ⟨stored, s₃, -, h⟩ := Mapping.of_bind h
    obtain ⟨he, -⟩ := Mapping.of_pure h
    cases he
    rfl

theorem condition_of_putRequest
    (h : (m.putRequest item (some doc) options).run session = (.ok (r, prepared), session')) :
    ∃ t s₁ s₂, (m.conditionText doc m.tokens).run s₁ = (.ok (r.condition, t), s₂) ∧ r.names = t.names ∧
      r.values = t.values := by
  rw [putRequest] at h
  obtain ⟨prepared', s₁, -, h⟩ := Mapping.of_bind h
  obtain ⟨⟨text, t⟩, s₂, htext, h⟩ := Mapping.of_bind h
  obtain ⟨stored, s₃, -, h⟩ := Mapping.of_bind h
  obtain ⟨he, -⟩ := Mapping.of_pure h
  cases he
  exact ⟨t, s₁, s₂, htext, rfl, rfl⟩

theorem of_put {condition : Option Value} {exchange : Exchange PutOutcome}
    (h : (m.put item condition options).run session = (.ok exchange, session')) :
    ∃ r prepared, (m.putRequest item condition options).run session = (.ok (r, prepared), session') ∧
      exchange.request = .putItem r := by
  obtain ⟨⟨r, prepared⟩, s₁, hbuild, h⟩ := Mapping.of_bind h
  obtain ⟨rfl, rfl⟩ := Mapping.of_pure h
  exact ⟨r, prepared, hbuild, rfl⟩

theorem holds_absence (hname : ConditionKey.isOperator name = false)
    (hpath : DocumentPath.parse? name = some (.field name))
    (h : (m.putRequest item (some (absence name)) options).run session = (.ok (r, prepared), session'))
    (old : Option Item) :
    Bindings.holds ⟨r.names, r.values⟩ old r.condition = .ok (old.bind (Entries.get? name)).isNone := by
  obtain ⟨t, s₁, s₂, htext, hnames, hvalues⟩ := condition_of_putRequest h
  have hread : (m.schema.readCondition (absence name) none).run s₁ =
      (.ok (some (.function .attributeNotExists (.field name) none)), s₁) := read_absence hname hpath s₁
  rw [conditionText, Outcome.run_bind, hread] at htext
  obtain ⟨⟨text, t'⟩, s₃, hrender, htext⟩ := Mapping.of_bind htext
  obtain ⟨he, -⟩ := Mapping.of_pure htext
  obtain ⟨hcondition, rfl⟩ := Prod.mk.inj he
  obtain ⟨hsound, hanswers⟩ := holds_rendered hread .refl (of_rendered hrender) .refl old fun _ => false
  obtain ⟨holds, hholds⟩ := hanswers (.single rfl)
  rw [hnames, hvalues, ← hcondition, hholds, ← hsound holds hholds]
  rfl

end Mapper

namespace MemoryTable

variable {t : MemoryTable} {x item key k : Item}

def Holds (t : MemoryTable) (key : Item) : Prop := ∃ x ∈ t.items, t.sameKey x key = true

theorem isSome_find?_iff : (t.find? key).isSome = true ↔ t.Holds key := by
  rw [find?, List.find?_isSome]
  rfl

section Store

variable {same : Item → Bool} {items : List Item}

theorem mem_store_self : item ∈ store same item items := by
  induction items with
  | nil => exact List.mem_singleton_self item
  | cons first rest ih =>
    rw [store]
    split
    · exact List.mem_cons_self
    · exact List.mem_cons_of_mem _ ih

theorem mem_store_of_mem (hx : x ∈ items) : x ∈ store same item items ∨ same x = true := by
  induction items with
  | nil => cases hx
  | cons first rest ih =>
    rw [store]
    rcases List.mem_cons.1 hx with rfl | hx
    · split
      · exact .inr ‹_›
      · exact .inl List.mem_cons_self
    · split
      · exact .inl (List.mem_cons_of_mem _ hx)
      · exact (ih hx).imp_left (List.mem_cons_of_mem _)

end Store

theorem Holds.put (h : t.Holds key) (hwell : ∀ x ∈ t.items, x.WellKeyed) (hk : t.keyOf item = .ok k) :
    (t.put k item).Holds key := by
  obtain ⟨x, hx, hxkey⟩ := h
  rcases mem_store_of_mem hx with hkept | hreplaced
  · exact ⟨x, hkept, hxkey⟩
  · rw [sameKey_keyOf hk] at hreplaced
    exact ⟨item, mem_store_self, sameKey_trans (sameKey_symm (hwell x hx) hreplaced) hxkey⟩

theorem holds_put (hitem : t.sameKey item key = true) : (t.put k item).Holds key := ⟨item, mem_store_self, hitem⟩

theorem holds_congr (hitem : item.WellKeyed) (hkey : t.sameKey item key = true) : t.Holds item ↔ t.Holds key := by
  constructor
  · rintro ⟨x, hx, hxitem⟩
    exact ⟨x, hx, sameKey_trans hxitem hkey⟩
  · rintro ⟨x, hx, hxkey⟩
    exact ⟨x, hx, sameKey_trans hxkey (sameKey_symm hitem hkey)⟩

theorem isSome_get?_of_sameKey {name : String} (hname : name ∈ t.key) (h : t.sameKey x item = true)
    (hhas : Entries.has name item = true) : (Entries.get? name x).isSome = true := by
  have hsame := sameKey_iff.1 h name hname
  obtain ⟨v, hv⟩ := Option.isSome_iff_exists.1 hhas
  rw [hv] at hsame
  cases hx : Entries.get? name x with
  | none =>
    rw [hx] at hsame
    cases hsame
  | some w => rfl

end MemoryTable

namespace Serving

open MemoryTable

variable {name : String} {names : List String} {t : MemoryTable} {key k : Item} {s : List (String × MemoryTable)}

def AllWellKeyed (s : List (String × MemoryTable)) : Prop :=
  ∀ name t, Entries.get? name s = some t → ∀ x ∈ t.items, x.WellKeyed

/-- There is a table of the name with these attributes for its key, and something is true of it. -/
def Stands (name : String) (names : List String) (Q : MemoryTable → Prop) (s : List (String × MemoryTable)) : Prop :=
  ∃ t, Entries.get? name s = some t ∧ t.key = names ∧ Q t

theorem AllWellKeyed.put {item : Item} (hs : AllWellKeyed s) (ht : Entries.get? name s = some t)
    (hitem : item.WellKeyed) : AllWellKeyed (Entries.insert name (t.put k item) s) := by
  intro other u hu x hx
  by_cases hname : name = other
  · subst hname
    rw [Entries.get?_insert_self] at hu
    obtain rfl := Option.some.inj hu
    rcases mem_of_mem_store hx with rfl | hx
    · exact hitem
    · exact hs name t ht x hx
  · rw [Entries.get?_insert_of_ne hname] at hu
    exact hs other u hu x hx

theorem putsKeep_stands {Q : MemoryTable → Prop} (hQ : ∀ (t : MemoryTable) (k item : Item),
    (∀ x ∈ t.items, x.WellKeyed) → t.keyOf item = .ok k → Q t → Q (t.put k item)) :
    PutsKeep fun s => AllWellKeyed s ∧ Stands name names Q s where
  wellKeyed _ other t hs ht := hs.1 other t ht
  put s other t k item hs ht hk hitem := by
    obtain ⟨hwell, u, hu, hkey, hq⟩ := hs
    refine ⟨hwell.put ht hitem, ?_⟩
    by_cases hname : other = name
    · subst hname
      obtain rfl := Option.some.inj (hu.symm.trans ht)
      exact ⟨_, Entries.get?_insert_self, hkey, hQ u k item (hwell other u hu) hk hq⟩
    · exact ⟨u, by rw [Entries.get?_insert_of_ne hname, hu], hkey, hq⟩

theorem putItem_run {r : Request.PutItem} {holds : Bool} (ht : Entries.get? r.tableName s = some t)
    (hk : t.keyOf r.item = .ok k) (hholds : Bindings.holds ⟨r.names, r.values⟩ (t.find? k) r.condition = .ok holds) :
    (putItem r).run s =
      if holds then (.ok { attributes := givenBack r.returnValues (t.find? k) none },
        Entries.insert r.tableName (t.put k r.item) s)
      else (.error .conditionFailed, s) := by
  have hkey : keyOf t r.item = pure k := by rw [keyOf, hk]
  rw [putItem, Outcome.run_bind, table_of_get? ht]
  simp only [hkey, pure_bind, hholds]
  cases holds <;> rfl

end Serving

namespace MemoryStore

open Serving MemoryTable

structure Served where
  before : MemoryStore
  request : Request
  answer : Except StoreFailure Response
  after : MemoryStore

def history (s : MemoryStore) : List Request → List Served
  | [] => []
  | request :: rest =>
    let (answer, after) := (send request).run s
    ⟨s, request, answer, after⟩ :: history after rest

def Served.Succeeds (x : Served) : Prop := ∃ response, x.answer = .ok response

def Served.Refused (x : Served) : Prop :=
  x.answer = .error Refusal.conditionFailed.error ∧ x.after.tables = x.before.tables

def Holds (s : MemoryStore) (name : String) (key : Item) : Prop :=
  ∃ t, Entries.get? name s.tables = some t ∧ t.Holds key

variable {s : MemoryStore} {requests : List Request} {name : String} {names : List String} {key : Item}
  {P : List (String × MemoryTable) → Prop} {x : Served}

theorem holds_of_stands (h : Stands name names (MemoryTable.Holds · key) s.tables) : s.Holds name key := by
  obtain ⟨t, ht, -, hholds⟩ := h
  exact ⟨t, ht, hholds⟩

theorem holds_iff {t : MemoryTable} (ht : Entries.get? name s.tables = some t) : s.Holds name key ↔ t.Holds key := by
  rw [Holds, ht]
  exact ⟨fun ⟨u, hu, hholds⟩ => Option.some.inj hu ▸ hholds, fun h => ⟨t, rfl, h⟩⟩

theorem Served.Refused.not_succeeds (h : x.Refused) : ¬ x.Succeeds := by
  rintro ⟨response, hresponse⟩
  rw [h.1] at hresponse
  cases hresponse

theorem run_send_putItem {r : Request.PutItem} {result : Except Refusal Response.PutItem}
    {tables : List (String × MemoryTable)} (h : (putItem r).run s.tables = (result, tables)) :
    (send (.putItem r)).run s = ((result.map .putItem).mapError Refusal.error,
      { tables, received := s.received ++ [(Request.putItem r).operation] }) := by
  rw [run_send, respond, ← bind_pure_comp, Outcome.run_bind, h]
  cases result <;> rfl

theorem history_cons {request : Request} : history s (request :: requests) =
    ⟨s, request, ((send request).run s).1, ((send request).run s).2⟩ ::
      history ((send request).run s).2 requests := rfl

theorem served_of_mem (h : x ∈ history s requests) :
    x.request ∈ requests ∧ (send x.request).run x.before = (x.answer, x.after) := by
  induction requests generalizing s with
  | nil => cases h
  | cons request rest ih =>
    rw [history_cons] at h
    rcases List.mem_cons.1 h with rfl | h
    · exact ⟨List.mem_cons_self, rfl⟩
    · obtain ⟨hmem, hsend⟩ := ih h
      exact ⟨List.mem_cons_of_mem _ hmem, hsend⟩

/-- What puts keep holds before every request of a run without deletions. -/
theorem holds_before (hP : PutsKeep P) (hs : P s.tables) (hr : ∀ r ∈ requests, r.WellKeyed ∧ r.Keeping)
    (h : x ∈ history s requests) : P x.before.tables := by
  induction requests generalizing s with
  | nil => cases h
  | cons request rest ih =>
    obtain ⟨⟨hwell, hkeeping⟩, hrest⟩ := List.forall_mem_cons.1 hr
    rw [history_cons] at h
    rcases List.mem_cons.1 h with rfl | h
    · exact hs
    · exact ih (respond_keeps hP (absurd hkeeping) hwell _ hs) hrest h

end MemoryStore

namespace Mapper

open Serving MemoryTable MemoryStore ConditionDocument

variable {m : Mapper} {schema : Schema} {name : String} {t : MemoryTable} {key : Item} {s : MemoryStore}
  {requests : List Request} {x : Served}

theorem putItem_absent {item : Value} {options : WriteOptions} {session session' : Session} {r : Request.PutItem}
    {prepared : Value} {s : List (String × MemoryTable)}
    (hbuild : (m.putRequest item (some (absence m.schema.primaryKey)) options).run session =
      (.ok (r, prepared), session'))
    (hname : ConditionKey.isOperator m.schema.primaryKey = false)
    (hpath : DocumentPath.parse? m.schema.primaryKey = some (.field m.schema.primaryKey))
    (ht : Entries.get? m.table s = some t) (hprimary : m.schema.primaryKey ∈ t.key) (hcomplete : t.Complete key)
    (hitem : r.item.WellKeyed) (hkey : t.sameKey r.item key = true) :
    (t.Holds key → (putItem r).run s = (.error .conditionFailed, s)) ∧
      (¬ t.Holds key → ∃ answer k, (putItem r).run s = (.ok answer, Entries.insert m.table (t.put k r.item) s)) := by
  have hwhole : t.Complete r.item := fun name hmem => isSome_get?_of_sameKey hmem hkey (hcomplete name hmem)
  obtain ⟨k, hk⟩ := exists_keyOf hwhole
  have htable := tableName_of_putRequest hbuild
  have hrun := putItem_run (htable ▸ ht) hk (holds_absence hname hpath hbuild (t.find? k))
  rw [find?_keyOf hk] at hrun
  constructor
  · intro hholds
    obtain ⟨old, hold⟩ := Option.isSome_iff_exists.1 (isSome_find?_iff.2 ((holds_congr hitem hkey).2 hholds))
    have hthere := isSome_get?_of_sameKey hprimary (sameKey_find? hold) (hwhole _ hprimary)
    rw [hold, Option.bind_some, Option.isNone_eq_false_iff.2 hthere] at hrun
    exact hrun
  · intro hfree
    have hnone : t.find? r.item = none := by
      rw [← Option.not_isSome_iff_eq_none, isSome_find?_iff, holds_congr hitem hkey]
      exact hfree
    rw [hnone] at hrun
    exact ⟨_, k, htable ▸ hrun⟩

/-- The put of an item with some key into a table, on the condition that the partition key is absent. -/
def PutsAbsent (schema : Schema) (name : String) (t : MemoryTable) (key : Item) (request : Request) : Prop :=
  ∃ (m : Mapper) (item : Value) (options : WriteOptions) (session session' : Session) (exchange : Exchange PutOutcome)
    (r : Request.PutItem), m.schema = schema ∧ m.table = name ∧
      (m.put item (some (absence schema.primaryKey)) options).run session = (.ok exchange, session') ∧
      exchange.request = request ∧ request = .putItem r ∧ t.sameKey r.item key = true

theorem PutsAbsent.served (hputs : PutsAbsent schema name t key x.request)
    (hname : ConditionKey.isOperator schema.primaryKey = false)
    (hpath : DocumentPath.parse? schema.primaryKey = some (.field schema.primaryKey))
    (hprimary : schema.primaryKey ∈ t.key) (hcomplete : t.Complete key) (hwell : x.request.WellKeyed)
    (hsend : (send x.request).run x.before = (x.answer, x.after))
    (hbefore : Stands name t.key (fun _ => True) x.before.tables) :
    (x.before.Holds name key → x.Refused) ∧
      (¬ x.before.Holds name key → x.Succeeds ∧ Stands name t.key (MemoryTable.Holds · key) x.after.tables) := by
  obtain ⟨m, item, options, session, session', exchange, r, rfl, rfl, hput, hexchange, hrequest, hsame⟩ := hputs
  obtain ⟨u, hu, hkey, -⟩ := hbefore
  obtain ⟨r', prepared, hbuild, hr⟩ := of_put hput
  obtain rfl := Request.putItem.inj (hr.symm.trans (hexchange.trans hrequest))
  have hsameu : u.sameKey r'.item key = true := by rwa [sameKey, hkey]
  have hcompleteu : u.Complete key := by rwa [Complete, hkey]
  rw [hrequest] at hwell hsend
  obtain ⟨hheld, hfree⟩ := putItem_absent hbuild hname hpath hu (hkey ▸ hprimary) hcompleteu hwell hsameu
  rw [holds_iff hu]
  constructor
  · intro hholds
    obtain ⟨hanswer, hafter⟩ := Prod.mk.inj (hsend.symm.trans (run_send_putItem (hheld hholds)))
    exact ⟨hanswer, by rw [hafter]⟩
  · intro hnot
    obtain ⟨answer, k, hrun⟩ := hfree hnot
    obtain ⟨hanswer, hafter⟩ := Prod.mk.inj (hsend.symm.trans (run_send_putItem hrun))
    exact ⟨⟨_, hanswer⟩, u.put k r'.item, by rw [hafter, Entries.get?_insert_self], hkey, holds_put hsameu⟩

section Runs

variable (hname : ConditionKey.isOperator schema.primaryKey = false)
  (hpath : DocumentPath.parse? schema.primaryKey = some (.field schema.primaryKey))
  (hprimary : schema.primaryKey ∈ t.key) (hcomplete : t.Complete key)
  (hr : ∀ r ∈ requests, r.WellKeyed ∧ r.Keeping)
  (hs : AllWellKeyed s.tables ∧ Stands name t.key (fun _ => True) s.tables)

include hname hpath hprimary hcomplete hr hs

theorem served_of_history (hx : x ∈ s.history requests) (hputs : PutsAbsent schema name t key x.request) :
    (x.before.Holds name key → x.Refused) ∧
      (¬ x.before.Holds name key → x.Succeeds ∧ Stands name t.key (MemoryTable.Holds · key) x.after.tables) := by
  obtain ⟨hmem, hsend⟩ := served_of_mem hx
  have hbefore := holds_before (putsKeep_stands fun _ _ _ _ _ _ => trivial) hs hr hx
  exact hputs.served hname hpath hprimary hcomplete (hr _ hmem).1 hsend hbefore.2

/-- The first put to succeed leaves the key in the table, and none of the requests behind it takes it away. -/
theorem later_refused : (s.history requests).Pairwise fun x y =>
    PutsAbsent schema name t key x.request → PutsAbsent schema name t key y.request → x.Succeeds → y.Refused := by
  induction requests generalizing s with
  | nil => exact .nil
  | cons request rest ih =>
    obtain ⟨⟨hwell, hkeeping⟩, hrest⟩ := List.forall_mem_cons.1 hr
    have hafter := respond_keeps (putsKeep_stands fun _ _ _ _ _ _ => trivial) (absurd hkeeping) hwell s.tables hs
    rw [history_cons, List.pairwise_cons]
    refine ⟨fun y hy hfirst hlater hsucceeds => ?_, ih hrest hafter⟩
    obtain ⟨hheld, hfree⟩ := served_of_history hname hpath hprimary hcomplete hr hs List.mem_cons_self hfirst
    obtain ⟨-, hfound⟩ := hfree fun hholds => (hheld hholds).not_succeeds hsucceeds
    have hbefore := holds_before (putsKeep_stands fun _ _ _ hitems hk hholds => Holds.put hholds hitems hk)
      ⟨hafter.1, hfound⟩ hrest hy
    exact (served_of_history hname hpath hprimary hcomplete hrest hafter hy hlater).1 (holds_of_stands hbefore.2)

end Runs

/-- Of the puts for one key that ask for its absence at most one succeeds, however the requests of many clients follow
one another, as long as none asks for a deletion. Each such put succeeds if the key is free when its turn comes and
fails its condition otherwise; once one has succeeded all later ones are refused and change nothing. -/
theorem put_absent_elects (hname : ConditionKey.isOperator schema.primaryKey = false)
    (hpath : DocumentPath.parse? schema.primaryKey = some (.field schema.primaryKey))
    (hs : AllWellKeyed s.tables) (ht : Entries.get? name s.tables = some t) (hprimary : schema.primaryKey ∈ t.key)
    (hcomplete : t.Complete key) (hr : ∀ r ∈ requests, r.WellKeyed ∧ r.Keeping) :
    (∀ x ∈ s.history requests, PutsAbsent schema name t key x.request →
      (x.before.Holds name key → x.Refused) ∧ (¬ x.before.Holds name key → x.Succeeds ∧ x.after.Holds name key)) ∧
    (s.history requests).Pairwise fun x y =>
      PutsAbsent schema name t key x.request → PutsAbsent schema name t key y.request → x.Succeeds → y.Refused := by
  have hstart : AllWellKeyed s.tables ∧ Stands name t.key (fun _ => True) s.tables := ⟨hs, t, ht, rfl, trivial⟩
  refine ⟨fun x hx hputs => ?_, later_refused hname hpath hprimary hcomplete hr hstart⟩
  obtain ⟨hheld, hfree⟩ := served_of_history hname hpath hprimary hcomplete hr hstart hx hputs
  exact ⟨hheld, fun hnot => (hfree hnot).imp_right holds_of_stands⟩

def counterPut (state : String) : Request.PutItem where
  tableName := "counters"
  item := [("id", .s "a"), ("state", .s state)]
  condition := some "attribute_not_exists(#n0)"
  names := [("#n0", "id")]

def race : List Request :=
  [.putItem (counterPut "open"),
   .updateItem { tableName := "counters", key := [("id", .s "a")], update := some "SET #n0 = :v1",
                 names := [("#n0", "count")], values := [(":v1", .n "1")] },
   .putItem (counterPut "closed")]

def noCounters : MemoryStore := ({} : MemoryStore).create "counters" ["id"]

theorem race_elects : ∃ x y z, noCounters.history race = [x, y, z] ∧ x.Succeeds ∧ z.Refused := by
  have hputs (state : String) (hstate : state = "open" ∨ state = "closed") :
      PutsAbsent counters.schema "counters" { key := ["id"] } [("id", .s "a")] (.putItem (counterPut state)) := by
    have hbuilds : ∃ session' exchange, (counters.put (.map [("id", .string "a"), ("state", .string state)])
        (some (absence counters.schema.primaryKey)) {}).run {} = (.ok exchange, session') ∧
          exchange.request = .putItem (counterPut state) := by
      rcases hstate with rfl | rfl <;> exact ⟨_, _, rfl, rfl⟩
    obtain ⟨session', exchange, hput, hrequest⟩ := hbuilds
    exact ⟨counters, _, {}, {}, session', exchange, counterPut state, rfl, rfl, hput, hrequest, rfl, rfl⟩
  have hwell : AllWellKeyed noCounters.tables := fun name t ht =>
    ((Reached.create .empty "counters" ["id"]).allSound name t ht).wellKeyed
  have hrace : ∀ r ∈ race, r.WellKeyed ∧ r.Keeping := by
    simp only [race, List.forall_mem_cons]
    exact ⟨⟨rfl, trivial⟩, ⟨⟨rfl, rfl⟩, trivial⟩, ⟨rfl, trivial⟩, fun _ h => nomatch h⟩
  have hcomplete : ({ key := ["id"] } : MemoryTable).Complete [("id", .s "a")] := by
    intro name hname
    obtain rfl := List.mem_singleton.1 hname
    rfl
  have hname : ConditionKey.isOperator counters.schema.primaryKey = false := rfl
  have htable : Entries.get? "counters" noCounters.tables = some { key := ["id"] } := rfl
  have hprimary : counters.schema.primaryKey ∈ ["id"] := List.mem_singleton.2 rfl
  obtain ⟨hturn, hlater⟩ := put_absent_elects hname rfl hwell htable hprimary hcomplete hrace
  have hfree : ¬ noCounters.Holds "counters" [("id", .s "a")] := by
    rintro ⟨t, ht, x, hx, -⟩
    obtain rfl := Option.some.inj ht
    cases hx
  simp only [race, history_cons, List.pairwise_cons] at hturn hlater ⊢
  have hfirst := ((hturn _ List.mem_cons_self (hputs "open" (.inl rfl))).2 hfree).1
  exact ⟨_, _, _, rfl, hfirst, hlater.1 _ (by simp) (hputs "open" (.inl rfl)) (hputs "closed" (.inr rfl)) hfirst⟩

end Mapper

end ItemMapper
