import ItemMapper.Memory.Store
import ItemMapper.Proofs.Outcomes

/-!
# What requests leave behind

Requests that ask for items leave the tables as they are. A put, an update and a deletion first look at one table and
then replace it, so that a refused one leaves no trace.
-/

namespace ItemMapper.Serving

variable {α β : Type} {p : Serving α} {q : α → Serving β} {name : String} {t : MemoryTable} {item key : Item}
  {b : Bindings} {condition : Option String} {s s' : List (String × MemoryTable)}

def Reads (p : Serving α) : Prop := ∀ s, (p.run s).2 = s

theorem Reads.pure (a : α) : Reads (Pure.pure a : Serving α) := fun _ => rfl

theorem Reads.refuse (e : Refusal) : Reads (refuse e : Serving α) := fun _ => rfl

theorem Reads.bind (hp : Reads p) (hq : ∀ a, Reads (q a)) : Reads (p >>= q) := by
  intro s
  have hs := hp s
  rw [Outcome.run_bind]
  generalize p.run s = z at hs
  obtain ⟨result, s'⟩ := z
  cases result with
  | error e => exact hs
  | ok a => exact (hq a s').trans hs

theorem Reads.mapM {f : α → Serving β} (hf : ∀ a, Reads (f a)) (as : List α) : Reads (as.mapM f) := by
  induction as with
  | nil => exact .pure []
  | cons a rest ih =>
    rw [List.mapM_cons]
    exact (hf a).bind fun _ => ih.bind fun _ => .pure _

theorem Reads.of_run (hp : Reads p) {z : Except Refusal α} (h : p.run s = (z, s')) : s' = s := by
  rw [← hp s, h]

theorem reads_table : Reads (table name) := by
  refine Reads.bind (fun _ => rfl) fun tables => ?_
  split
  · exact .pure _
  · exact .refuse _

theorem reads_ofExcept (x : Except Refusal α) : Reads (ofExcept x) := by
  cases x with
  | error e => exact .refuse e
  | ok a => exact .pure a

theorem reads_keyOf : Reads (keyOf t item) := by
  rw [keyOf]
  split
  · exact .pure _
  · exact .refuse _

theorem reads_require (holds : Bool) : Reads (require holds) := by
  cases holds with
  | false => exact .refuse _
  | true => exact .pure ()

theorem of_table (h : (table name).run s = (.ok t, s')) : Entries.get? name s = some t := by
  have hstate : (get : Serving (List (String × MemoryTable))).run s = (.ok s, s) := rfl
  rw [table, Outcome.run_bind, hstate] at h
  cases ht : Entries.get? name s with
  | none =>
    simp only [ht] at h
    cases h
  | some u =>
    simp only [ht] at h
    cases h
    rfl

theorem table_of_get? (h : Entries.get? name s = some t) : (table name).run s = (.ok t, s) := by
  have hstate : (get : Serving (List (String × MemoryTable))).run s = (.ok s, s) := rfl
  rw [table, Outcome.run_bind, hstate]
  simp only [h]
  rfl

theorem of_ofExcept {x : Except Refusal α} {a : α} (h : (ofExcept x).run s = (.ok a, s')) : x = .ok a := by
  cases x with
  | error e => cases h
  | ok a' =>
    cases h
    rfl

theorem of_keyOf (h : (keyOf t item).run s = (.ok key, s')) : t.keyOf item = .ok key := by
  rw [keyOf] at h
  cases hk : t.keyOf item with
  | error e =>
    rw [hk] at h
    cases h
  | ok k =>
    rw [hk] at h
    cases h
    rfl

theorem of_require {holds : Bool} (h : (require holds).run s = (.ok (), s')) : holds = true := by
  cases holds with
  | false => cases h
  | true => rfl

theorem reads_getItem (r : Request.GetItem) : Reads (getItem r) :=
  reads_table.bind fun _ => .pure _

theorem reads_select (items : List Item) : Reads (select b condition items) := by
  induction items with
  | nil => exact .pure []
  | cons item rest ih =>
    rw [select]
    exact (reads_ofExcept _).bind fun _ => ih.bind fun _ => .pure _

theorem reads_page (r : PageQuery) (candidates : List Item) : Reads (page t r candidates) := by
  have hrest (lastKey : Item) : Reads (select r.bindings r.filter (limited r.limit (remaining t r.start candidates)) >>=
      fun found => pure ({
        items := if r.select = some .count then [] else found.map (MemoryExpression.project r.bindings r.projection)
        count := counted found
        scannedCount := counted (limited r.limit (remaining t r.start candidates))
        lastKey } : Page)) := (reads_select _).bind fun _ => .pure _
  rw [page]
  split
  · split
    · exact reads_keyOf.bind hrest
    · exact (Reads.pure _).bind hrest
  · exact (Reads.pure _).bind hrest

theorem reads_query (r : Request.Query) : Reads (query r) := by
  refine reads_table.bind fun _ => ?_
  split
  · exact .refuse _
  · exact (reads_select _).bind fun _ => (reads_page _ _).bind fun _ => .pure _

theorem reads_scan (r : Request.Scan) : Reads (scan r) :=
  reads_table.bind fun _ => (reads_page _ _).bind fun _ => .pure _

theorem reads_batchGetItem (r : Request.BatchGetItem) : Reads (batchGetItem r) :=
  (Reads.mapM (fun _ => reads_table.bind fun _ => .pure _) _).bind fun _ => .pure _

theorem reads_transactGetItems (r : Request.TransactGetItems) : Reads (transactGetItems r) :=
  (Reads.mapM (fun _ => (reads_getItem _).bind fun _ => .pure _) _).bind fun _ => .pure _

theorem reads_memberCondition : Reads (memberCondition name key b condition) :=
  reads_table.bind fun _ => reads_ofExcept _

theorem reads_conditionHolds (e : Request.TransactWriteEntry) : Reads (conditionHolds e) := by
  rw [conditionHolds]
  split
  · exact reads_memberCondition
  · exact reads_table.bind fun _ => reads_keyOf.bind fun _ => reads_memberCondition
  · exact reads_memberCondition
  · exact reads_memberCondition
  · exact .refuse _

def Atomic (p : Serving α) : Prop := ∀ s e s', p.run s = (.error e, s') → s' = s

theorem Reads.bind_atomic (hp : Reads p) (hq : ∀ a, Atomic (q a)) : Atomic (p >>= q) := by
  intro s e s' h
  have hs := hp s
  rw [Outcome.run_bind] at h
  generalize p.run s = z at hs h
  obtain ⟨result, between⟩ := z
  cases result with
  | error e' =>
    obtain ⟨-, rfl⟩ := Prod.mk.inj h
    exact hs
  | ok a => exact (hq a between e s' h).trans hs

theorem atomic_keep (a : α) : Atomic (keep name t >>= fun _ => pure a) := by
  intro s e s' h
  cases h

theorem putItem_atomic (r : Request.PutItem) : Atomic (putItem r) :=
  reads_table.bind_atomic fun _ => reads_keyOf.bind_atomic fun _ => (reads_ofExcept _).bind_atomic fun _ =>
    (reads_require _).bind_atomic fun _ => atomic_keep _

theorem deleteItem_atomic (r : Request.DeleteItem) : Atomic (deleteItem r) :=
  reads_table.bind_atomic fun _ => (reads_ofExcept _).bind_atomic fun _ => (reads_require _).bind_atomic fun _ =>
    atomic_keep _

theorem updateItem_atomic (r : Request.UpdateItem) : Atomic (updateItem r) := by
  refine reads_table.bind_atomic fun t => (reads_ofExcept _).bind_atomic fun _ => (reads_require _).bind_atomic fun _ => ?_
  have hwrite (item : Item) : Atomic (keyOf t item >>= fun key => keep r.tableName (t.put key item) >>= fun _ =>
      pure ({ attributes := givenBack r.returnValues (t.find? r.key) (some item) } : Response.UpdateItem)) :=
    reads_keyOf.bind_atomic fun _ => atomic_keep _
  split
  · exact (reads_ofExcept _).bind_atomic hwrite
  · exact (Reads.pure _).bind_atomic hwrite

theorem of_getItem {r : Request.GetItem} {answer : Response.GetItem} (h : (getItem r).run s = (.ok answer, s')) :
    ∃ t, Entries.get? r.tableName s = some t ∧
      answer = { item := (t.find? r.key).map (MemoryExpression.project ⟨r.names, []⟩ r.projection) } := by
  obtain ⟨t, s₁, ht, h⟩ := Outcome.of_run_bind h
  cases h
  exact ⟨t, of_table ht, rfl⟩

theorem of_putItem {r : Request.PutItem} {answer : Response.PutItem} (h : (putItem r).run s = (.ok answer, s')) :
    ∃ t key, Entries.get? r.tableName s = some t ∧ t.keyOf r.item = .ok key ∧
      Bindings.holds ⟨r.names, r.values⟩ (t.find? key) r.condition = .ok true ∧
      s' = Entries.insert r.tableName (t.put key r.item) s ∧
      answer = { attributes := givenBack r.returnValues (t.find? key) none } := by
  obtain ⟨t, s₁, ht, h⟩ := Outcome.of_run_bind h
  obtain ⟨key, s₂, hkey, h⟩ := Outcome.of_run_bind h
  obtain ⟨holds, s₃, hholds, h⟩ := Outcome.of_run_bind h
  obtain ⟨⟨⟩, s₄, hrequire, h⟩ := Outcome.of_run_bind h
  cases h
  obtain rfl := of_require hrequire
  obtain rfl := reads_table.of_run ht
  obtain rfl := reads_keyOf.of_run hkey
  obtain rfl := (reads_ofExcept _).of_run hholds
  obtain rfl := (reads_require _).of_run hrequire
  exact ⟨t, key, of_table ht, of_keyOf hkey, of_ofExcept hholds, rfl, rfl⟩

theorem of_deleteItem {r : Request.DeleteItem} {answer : Response.DeleteItem}
    (h : (deleteItem r).run s = (.ok answer, s')) :
    ∃ t, Entries.get? r.tableName s = some t ∧
      Bindings.holds ⟨r.names, r.values⟩ (t.find? r.key) r.condition = .ok true ∧
      s' = Entries.insert r.tableName (t.erase r.key) s ∧
      answer = { attributes := givenBack r.returnValues (t.find? r.key) none } := by
  obtain ⟨t, s₁, ht, h⟩ := Outcome.of_run_bind h
  obtain ⟨holds, s₂, hholds, h⟩ := Outcome.of_run_bind h
  obtain ⟨⟨⟩, s₃, hrequire, h⟩ := Outcome.of_run_bind h
  cases h
  obtain rfl := of_require hrequire
  obtain rfl := reads_table.of_run ht
  obtain rfl := (reads_ofExcept _).of_run hholds
  obtain rfl := (reads_require _).of_run hrequire
  exact ⟨t, of_table ht, of_ofExcept hholds, rfl, rfl⟩

def changed (b : Bindings) (text : Option String) (item : Item) : Except Refusal Item :=
  match text with
  | some text => b.update text item
  | none => .ok item

theorem of_updateItem {r : Request.UpdateItem} {answer : Response.UpdateItem}
    (h : (updateItem r).run s = (.ok answer, s')) :
    ∃ t item key, Entries.get? r.tableName s = some t ∧
      Bindings.holds ⟨r.names, r.values⟩ (t.find? r.key) r.condition = .ok true ∧
      changed ⟨r.names, r.values⟩ r.update ((t.find? r.key).getD r.key) = .ok item ∧ t.keyOf item = .ok key ∧
      s' = Entries.insert r.tableName (t.put key item) s ∧
      answer = { attributes := givenBack r.returnValues (t.find? r.key) (some item) } := by
  obtain ⟨t, s₁, ht, h⟩ := Outcome.of_run_bind h
  obtain ⟨holds, s₂, hholds, h⟩ := Outcome.of_run_bind h
  obtain ⟨⟨⟩, s₃, hrequire, h⟩ := Outcome.of_run_bind h
  have hchanged : ∃ item s₄, changed ⟨r.names, r.values⟩ r.update ((t.find? r.key).getD r.key) = .ok item ∧ s₄ = s₃ ∧
      (keyOf t item >>= fun key => keep r.tableName (t.put key item) >>= fun _ =>
        pure ({ attributes := givenBack r.returnValues (t.find? r.key) (some item) } : Response.UpdateItem)).run s₄ =
        (.ok answer, s') := by
    cases hupdate : r.update with
    | none =>
      rw [hupdate] at h
      exact ⟨_, s₃, rfl, rfl, h⟩
    | some text =>
      rw [hupdate] at h
      obtain ⟨item, s₄, hitem, h⟩ := Outcome.of_run_bind h
      exact ⟨item, s₄, of_ofExcept hitem, (reads_ofExcept _).of_run hitem, h⟩
  obtain ⟨item, s₄, hitem, hs₄, hwritten⟩ := hchanged
  obtain ⟨key, s₅, hkey, hwritten⟩ := Outcome.of_run_bind hwritten
  cases hwritten
  obtain rfl := of_require hrequire
  obtain rfl := reads_table.of_run ht
  obtain rfl := (reads_ofExcept _).of_run hholds
  obtain rfl := (reads_require _).of_run hrequire
  obtain rfl := reads_keyOf.of_run hkey
  obtain rfl := hs₄
  exact ⟨t, item, key, of_table ht, of_ofExcept hholds, hitem, of_keyOf hkey, rfl, rfl⟩

inductive Write where
  | put (r : Request.PutItem)
  | delete (r : Request.DeleteItem)
  | update (r : Request.UpdateItem)

def Write.carry : Write → Serving Unit
  | put r => do let _ ← putItem r
  | delete r => do let _ ← deleteItem r
  | update r => do let _ ← updateItem r

def writesOf (e : Request.TransactWriteEntry) : List Write :=
  (e.put.map .put).toList ++ ((e.delete.map .delete).toList ++ (e.update.map .update).toList)

theorem Atomic.map (f : α → β) (hp : Atomic p) : Atomic (p >>= fun a => pure (f a)) := by
  intro s e s' h
  rw [Outcome.run_bind] at h
  cases hrun : p.run s with
  | mk result between =>
    rw [hrun] at h
    cases result with
    | error e' =>
      obtain ⟨-, rfl⟩ := Prod.mk.inj h
      exact hp s e' _ hrun
    | ok a => cases h

theorem Write.carry_atomic (w : Write) : Atomic w.carry := by
  cases w with
  | put r => exact (putItem_atomic r).map fun _ => ()
  | delete r => exact (deleteItem_atomic r).map fun _ => ()
  | update r => exact (updateItem_atomic r).map fun _ => ()

theorem writeMember_eq (e : Request.TransactWriteEntry) : writeMember e = (writesOf e).forM Write.carry := by
  obtain ⟨check, put, delete, update⟩ := e
  cases put <;> cases delete <;> cases update <;> simp [writeMember, writesOf, Write.carry]

theorem forM_writeMember (entries : List Request.TransactWriteEntry) :
    entries.forM writeMember = (entries.flatMap writesOf).forM Write.carry := by
  induction entries with
  | nil => rfl
  | cons e rest ih =>
    simp only [List.forM_eq_forM] at ih ⊢
    rw [List.forM_cons, ih, writeMember_eq, List.flatMap_cons, List.forM_append, List.forM_eq_forM]

def putEntry (name : String) (item : Item) : Serving Unit := do
  let t ← table name
  keep name (t.put (← keyOf t item) item)

def deleteEntry (name : String) (key : Item) : Serving Unit := do
  let t ← table name
  keep name (t.erase key)

theorem writeEntry_eq (e : Request.BatchEntry) : writeEntry name e =
    ((e.put.map fun p => putEntry name p.item).getD (pure ()) >>= fun _ =>
      (e.delete.map fun d => deleteEntry name d.key).getD (pure ())) := by
  obtain ⟨put, delete⟩ := e
  cases put <;> cases delete <;> simp [writeEntry, putEntry, deleteEntry]

end ItemMapper.Serving
