import ItemMapper.Proofs.Servings
import ItemMapper.Proofs.UpdatedItems

/-!
# Reached stores

Whatever a store has been sent since it was empty, all its tables are sound. Each request keeps them so, also one that
is refused, and a transaction that is refused halfway.
-/

namespace ItemMapper

def MemoryTable.AllSound (s : List (String × MemoryTable)) : Prop := ∀ name t, Entries.get? name s = some t → t.Sound

theorem MemoryTable.AllSound.insert {s : List (String × MemoryTable)} {name : String} {t : MemoryTable}
    (h : AllSound s) (ht : t.Sound) : AllSound (Entries.insert name t s) := by
  intro other u hu
  by_cases hname : name = other
  · subst hname
    rw [Entries.get?_insert_self] at hu
    exact Option.some.inj hu ▸ ht
  · rw [Entries.get?_insert_of_ne hname] at hu
    exact h other u hu

namespace Request

def UpdateItem.WellKeyed (r : UpdateItem) : Prop := r.key.WellKeyed ∧ Item.WellKeyed r.values

def BatchEntry.WellKeyed (e : BatchEntry) : Prop := (∀ p ∈ e.put, p.item.WellKeyed) ∧ ∀ d ∈ e.delete, d.key.WellKeyed

/-- What a request writes, and by which key, are maps of distinct keys throughout. -/
def WellKeyed : Request → Prop
  | putItem r => r.item.WellKeyed
  | updateItem r => r.WellKeyed
  | deleteItem r => r.key.WellKeyed
  | batchWriteItem r => ∀ e ∈ r.requestItems, ∀ x ∈ e.2, x.WellKeyed
  | transactWriteItems r => ∀ e ∈ r.entries, (∀ p ∈ e.put, p.item.WellKeyed) ∧ (∀ d ∈ e.delete, d.key.WellKeyed) ∧
      ∀ u ∈ e.update, u.WellKeyed
  | _ => True

def Keeping : Request → Prop
  | deleteItem _ => False
  | batchWriteItem r => ∀ e ∈ r.requestItems, ∀ x ∈ e.2, x.delete = none
  | transactWriteItems r => ∀ e ∈ r.entries, e.delete = none
  | _ => True

end Request

namespace Serving

open MemoryTable

variable {α β : Type} {P : List (String × MemoryTable) → Prop} {p : Serving α} {q : α → Serving β} {name : String}
  {item key : Item} {s s' : List (String × MemoryTable)}

def Keeps (P : List (String × MemoryTable) → Prop) (p : Serving α) : Prop := ∀ s, P s → P (p.run s).2

theorem Reads.keeps (hp : Reads p) : Keeps P p := fun s hs => by rwa [hp s]

theorem Keeps.of_run {result : Except Refusal α} (hp : Keeps P p) (hs : P s) (h : p.run s = (result, s')) : P s' := by
  have hkept := hp s hs
  rwa [h] at hkept

theorem Keeps.bind (hp : Keeps P p) (hq : ∀ a, Keeps P (q a)) : Keeps P (p >>= q) := by
  intro s hs
  have hbetween := hp s hs
  rw [Outcome.run_bind]
  generalize p.run s = z at hbetween
  obtain ⟨result, between⟩ := z
  cases result with
  | error e => exact hbetween
  | ok a => exact hq a between hbetween

theorem Keeps.map (f : α → β) (hp : Keeps P p) : Keeps P (f <$> p) := by
  rw [← bind_pure_comp]
  exact hp.bind fun a => (Reads.pure (f a)).keeps

theorem Keeps.forM {f : α → Serving Unit} {as : List α} (hf : ∀ a ∈ as, Keeps P (f a)) : Keeps P (as.forM f) := by
  rw [List.forM_eq_forM]
  induction as with
  | nil => exact (Reads.pure ()).keeps
  | cons a rest ih =>
    obtain ⟨ha, hrest⟩ := List.forall_mem_cons.1 hf
    rw [List.forM_cons]
    exact ha.bind fun _ => ih hrest

theorem Atomic.keeps (hp : Atomic p) (hok : ∀ s a s', P s → p.run s = (.ok a, s') → P s') : Keeps P p := by
  intro s hs
  cases hrun : p.run s with
  | mk result between =>
    cases result with
    | error e =>
      obtain rfl := hp s e between hrun
      exact hs
    | ok a => exact hok s a between hs hrun

/-- What a put into any of the tables keeps; it sees to it that all items are records with distinct keys. -/
structure PutsKeep (P : List (String × MemoryTable) → Prop) : Prop where
  wellKeyed : ∀ s name t, P s → Entries.get? name s = some t → ∀ x ∈ t.items, x.WellKeyed
  put : ∀ s name t key item, P s → Entries.get? name s = some t → t.keyOf item = .ok key → item.WellKeyed →
    P (Entries.insert name (t.put key item) s)

def ErasuresKeep (P : List (String × MemoryTable) → Prop) : Prop :=
  ∀ s name t key, P s → Entries.get? name s = some t → P (Entries.insert name (t.erase key) s)

theorem putsKeep_allSound : PutsKeep AllSound where
  wellKeyed _ name t hs ht := (hs name t ht).wellKeyed
  put _ name t _ _ hs ht hkey hitem := hs.insert ((hs name t ht).put hkey hitem)

theorem erasuresKeep_allSound : ErasuresKeep AllSound := fun _ name t key hs ht => hs.insert ((hs name t ht).erase key)

theorem putItem_keeps {r : Request.PutItem} (hP : PutsKeep P) (hitem : r.item.WellKeyed) : Keeps P (putItem r) := by
  refine (putItem_atomic r).keeps fun s answer s' hs h => ?_
  obtain ⟨t, key, ht, hkey, -, rfl, -⟩ := of_putItem h
  exact hP.put s _ t key _ hs ht hkey hitem

theorem deleteItem_keeps (hP : ErasuresKeep P) (r : Request.DeleteItem) : Keeps P (deleteItem r) := by
  refine (deleteItem_atomic r).keeps fun s answer s' hs h => ?_
  obtain ⟨t, ht, -, rfl, -⟩ := of_deleteItem h
  exact hP s _ t r.key hs ht

theorem wellKeyed_changed {b : Bindings} {text : Option String} {item' : Item} (hvalues : Item.WellKeyed b.values)
    (hitem : item.WellKeyed) (h : changed b text item = .ok item') : item'.WellKeyed := by
  cases text with
  | none =>
    obtain rfl := Except.ok.inj h
    exact hitem
  | some text => exact (Bindings.evolved_of_update hvalues hitem h).wellKeyed

theorem wellKeyed_found {t : MemoryTable} (ht : ∀ x ∈ t.items, x.WellKeyed) (hkey : key.WellKeyed) :
    ((t.find? key).getD key).WellKeyed := by
  cases hfind : t.find? key with
  | none => exact hkey
  | some x => exact ht x (List.mem_of_find?_eq_some hfind)

theorem wellKeyed_start {t : MemoryTable} (ht : t.Sound) (hkey : key.WellKeyed) : ((t.find? key).getD key).WellKeyed :=
  wellKeyed_found ht.wellKeyed hkey

theorem updateItem_keeps {r : Request.UpdateItem} (hP : PutsKeep P) (hr : r.WellKeyed) : Keeps P (updateItem r) := by
  refine (updateItem_atomic r).keeps fun s answer s' hs h => ?_
  obtain ⟨t, item, key, ht, -, hitem, hkey, rfl, -⟩ := of_updateItem h
  have hstart := wellKeyed_found (hP.wellKeyed s _ t hs ht) hr.1
  exact hP.put s _ t key item hs ht hkey (wellKeyed_changed hr.2 hstart hitem)

theorem putEntry_atomic : Atomic (putEntry name item) :=
  reads_table.bind_atomic fun _ => reads_keyOf.bind_atomic fun _ s e s' h => by cases h

theorem deleteEntry_atomic : Atomic (deleteEntry name key) :=
  reads_table.bind_atomic fun _ s e s' h => by cases h

theorem of_putEntry (h : (putEntry name item).run s = (.ok (), s')) :
    ∃ t key, Entries.get? name s = some t ∧ t.keyOf item = .ok key ∧ s' = Entries.insert name (t.put key item) s := by
  obtain ⟨t, s₁, ht, h⟩ := Outcome.of_run_bind h
  obtain ⟨key, s₂, hkey, h⟩ := Outcome.of_run_bind h
  cases h
  obtain rfl := reads_table.of_run ht
  obtain rfl := reads_keyOf.of_run hkey
  exact ⟨t, key, of_table ht, of_keyOf hkey, rfl⟩

theorem of_deleteEntry (h : (deleteEntry name key).run s = (.ok (), s')) :
    ∃ t, Entries.get? name s = some t ∧ s' = Entries.insert name (t.erase key) s := by
  obtain ⟨t, s₁, ht, h⟩ := Outcome.of_run_bind h
  cases h
  obtain rfl := reads_table.of_run ht
  exact ⟨t, of_table ht, rfl⟩

theorem putEntry_keeps (hP : PutsKeep P) (hitem : item.WellKeyed) : Keeps P (putEntry name item) := by
  refine putEntry_atomic.keeps fun s _ s' hs h => ?_
  obtain ⟨t, key, ht, hkey, rfl⟩ := of_putEntry h
  exact hP.put s name t key item hs ht hkey hitem

theorem deleteEntry_keeps (hP : ErasuresKeep P) : Keeps P (deleteEntry name key) := by
  refine deleteEntry_atomic.keeps fun s _ s' hs h => ?_
  obtain ⟨t, ht, rfl⟩ := of_deleteEntry h
  exact hP s name t key hs ht

theorem writeEntry_keeps {e : Request.BatchEntry} (hP : PutsKeep P) (herase : e.delete ≠ none → ErasuresKeep P)
    (he : e.WellKeyed) : Keeps P (writeEntry name e) := by
  obtain ⟨put, delete⟩ := e
  rw [writeEntry_eq]
  refine Keeps.bind ?_ fun _ => ?_
  · cases put with
    | none => exact (Reads.pure ()).keeps
    | some p => exact putEntry_keeps hP (he.1 p rfl)
  · cases delete with
    | none => exact (Reads.pure ()).keeps
    | some d => exact deleteEntry_keeps (herase (by simp))

theorem batchWriteItem_keeps {r : Request.BatchWriteItem} (hP : PutsKeep P)
    (herase : ¬ (Request.batchWriteItem r).Keeping → ErasuresKeep P) (hr : (Request.batchWriteItem r).WellKeyed) :
    Keeps P (batchWriteItem r) := by
  refine Keeps.bind (Keeps.forM fun e he => ?_) fun _ => (Reads.pure _).keeps
  refine reads_table.keeps.bind fun _ => Keeps.forM fun x hx => ?_
  exact writeEntry_keeps hP (fun hdelete => herase fun hkeeping => hdelete (hkeeping e he x hx)) (hr e he x hx)

theorem writeMember_keeps {e : Request.TransactWriteEntry} (hP : PutsKeep P)
    (herase : e.delete ≠ none → ErasuresKeep P) (hput : ∀ p ∈ e.put, p.item.WellKeyed)
    (hupdate : ∀ u ∈ e.update, u.WellKeyed) : Keeps P (writeMember e) := by
  rw [writeMember_eq]
  refine Keeps.forM fun w hw => ?_
  cases w with
  | put r =>
    refine (putItem_keeps hP (hput r ?_)).bind fun _ => (Reads.pure ()).keeps
    simpa [writesOf] using hw
  | delete r =>
    refine (deleteItem_keeps (herase ?_) r).bind fun _ => (Reads.pure ()).keeps
    intro hnone
    simp [writesOf, hnone] at hw
  | update r =>
    refine (updateItem_keeps hP (hupdate r ?_)).bind fun _ => (Reads.pure ()).keeps
    simpa [writesOf] using hw

theorem transactWriteItems_keeps {r : Request.TransactWriteItems} (hP : PutsKeep P)
    (herase : ¬ (Request.transactWriteItems r).Keeping → ErasuresKeep P)
    (hr : (Request.transactWriteItems r).WellKeyed) : Keeps P (transactWriteItems r) := by
  refine (Reads.mapM reads_conditionHolds _).keeps.bind fun holding => ?_
  split
  · refine Keeps.bind (Keeps.forM fun e he => ?_) fun _ => (Reads.pure _).keeps
    obtain ⟨hput, -, hupdate⟩ := hr e he
    exact writeMember_keeps hP (fun hdelete => herase fun hkeeping => hdelete (hkeeping e he)) hput hupdate
  · exact (Reads.refuse _).keeps

/-- A request keeps what puts keep, if deletions keep it too or the request asks for none. -/
theorem respond_keeps {request : Request} (hP : PutsKeep P) (herase : ¬ request.Keeping → ErasuresKeep P)
    (h : request.WellKeyed) : Keeps P (respond request) := by
  cases request with
  | putItem r => exact (putItem_keeps hP h).map _
  | getItem r => exact (reads_getItem r).keeps.map _
  | updateItem r => exact (updateItem_keeps hP h).map _
  | deleteItem r => exact (deleteItem_keeps (herase id) r).map _
  | query r => exact (reads_query r).keeps.map _
  | scan r => exact (reads_scan r).keeps.map _
  | batchGetItem r => exact (reads_batchGetItem r).keeps.map _
  | batchWriteItem r => exact (batchWriteItem_keeps hP herase h).map _
  | transactGetItems r => exact (reads_transactGetItems r).keeps.map _
  | transactWriteItems r => exact (transactWriteItems_keeps hP herase h).map _

end Serving

namespace MemoryStore

/-- The stores that runs of requests lead to, from an empty store in which tables are created. -/
inductive Reached : MemoryStore → Prop
  | empty : Reached {}
  | create {s : MemoryStore} (h : Reached s) (name : String) (key : List String) : Reached (s.create name key)
  | send {s : MemoryStore} (h : Reached s) {request : Request} (hr : request.WellKeyed) :
      Reached ((send request).run s).2

theorem Reached.allSound {s : MemoryStore} (h : s.Reached) : MemoryTable.AllSound s.tables := by
  induction h with
  | empty => exact fun name t ht => nomatch ht
  | create _ name key ih => exact ih.insert (.empty key)
  | send _ hr ih => exact Serving.respond_keeps Serving.putsKeep_allSound (fun _ => Serving.erasuresKeep_allSound) hr _ ih

end MemoryStore

end ItemMapper
