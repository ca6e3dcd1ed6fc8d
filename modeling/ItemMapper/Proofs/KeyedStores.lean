import ItemMapper.Proofs.ReachedStores
import ItemMapper.Proofs.Transactions
import Mathlib.Logic.Function.Basic

/-!
# Tables as maps

A table of the memory store is a map from keys to items. Whatever record has the attributes of the key may stand for it.
A put overwrites the map at the key of its item, an update at its own key, a deletion removes a key, and a batch does
one after the other.
-/

namespace ItemMapper

structure KeyedTable where
  key : List String
  find : Item → Option Item

namespace KeyedTable

variable (t : KeyedTable)

def sameKey (x y : Item) : Bool := MemoryTable.sameKey { key := t.key } x y

def set (key item : Item) : KeyedTable :=
  { t with find := fun k => if t.sameKey key k then some item else t.find k }

def delete (key : Item) : KeyedTable :=
  { t with find := fun k => if t.sameKey key k then none else t.find k }

def write (e : Request.BatchEntry) : KeyedTable :=
  let t := (e.put.map fun p => t.set p.item p.item).getD t
  (e.delete.map fun d => t.delete d.key).getD t

end KeyedTable

abbrev KeyedStore := String → Option KeyedTable

namespace KeyedStore

open Serving (givenBack changed)

def writeAll (m : KeyedStore) (batch : List (String × List Request.BatchEntry)) : KeyedStore :=
  batch.foldl (fun m e => Function.update m e.1 ((m e.1).map fun t => e.2.foldl KeyedTable.write t)) m

/-- What a request makes of the maps, and what it answers. -/
inductive Performs (m : KeyedStore) : Request → Response → KeyedStore → Prop
  | put {r : Request.PutItem} {t : KeyedTable} (ht : m r.tableName = some t) :
      Performs m (.putItem r) (.putItem { attributes := givenBack r.returnValues (t.find r.item) none })
        (Function.update m r.tableName (some (t.set r.item r.item)))
  | get {r : Request.GetItem} {t : KeyedTable} (ht : m r.tableName = some t) :
      Performs m (.getItem r) (.getItem { item := t.find r.key }) m
  | delete {r : Request.DeleteItem} {t : KeyedTable} (ht : m r.tableName = some t) :
      Performs m (.deleteItem r) (.deleteItem { attributes := givenBack r.returnValues (t.find r.key) none })
        (Function.update m r.tableName (some (t.delete r.key)))
  | update {r : Request.UpdateItem} {t : KeyedTable} {item : Item} (ht : m r.tableName = some t)
      (hitem : changed ⟨r.names, r.values⟩ r.update ((t.find r.key).getD r.key) = .ok item)
      (hkey : t.sameKey item r.key = true) :
      Performs m (.updateItem r) (.updateItem { attributes := givenBack r.returnValues (t.find r.key) (some item) })
        (Function.update m r.tableName (some (t.set r.key item)))
  | batchWrite {r : Request.BatchWriteItem} (htables : ∀ e ∈ r.requestItems, (m e.1).isSome = true) :
      Performs m (.batchWriteItem r) (.batchWriteItem {}) (m.writeAll r.requestItems)

end KeyedStore

namespace MemoryTable

def keyed (t : MemoryTable) : KeyedTable := ⟨t.key, t.find?⟩

namespace Sound

variable {t : MemoryTable} {item key : Item} (h : t.Sound)

include h

theorem keyed_put (hkey : t.keyOf item = .ok key) (hitem : item.WellKeyed) :
    (t.put key item).keyed = t.keyed.set item item := by
  refine congrArg (KeyedTable.mk t.key) (funext fun k => Option.ext fun x => ?_)
  change (t.put key item).find? k = some x ↔ (if t.sameKey item k then some item else t.find? k) = some x
  rw [(h.put hkey hitem).find?_eq_some_iff, h.mem_put hkey hitem]
  change (x = item ∨ x ∈ t.items ∧ t.sameKey x item = false) ∧ t.sameKey x k = true ↔ _
  by_cases hk : t.sameKey item k = true
  · rw [if_pos hk, Option.some.injEq]
    constructor
    · rintro ⟨rfl | ⟨hx, hother⟩, hxk⟩
      · rfl
      · rw [sameKey_eq_of_sameKey (h.wellKeyed x hx) hitem hxk, hk] at hother
        cases hother
    · rintro rfl
      exact ⟨.inl rfl, hk⟩
  · rw [if_neg hk, h.find?_eq_some_iff]
    constructor
    · rintro ⟨rfl | ⟨hx, -⟩, hxk⟩
      · exact absurd hxk hk
      · exact ⟨hx, hxk⟩
    · rintro ⟨hx, hxk⟩
      refine ⟨.inr ⟨hx, ?_⟩, hxk⟩
      rw [sameKey_eq_of_sameKey (h.wellKeyed x hx) hitem hxk]
      exact eq_false_of_ne_true hk

theorem keyed_erase (hkey : key.WellKeyed) : (t.erase key).keyed = t.keyed.delete key := by
  refine congrArg (KeyedTable.mk t.key) (funext fun k => Option.ext fun x => ?_)
  change (t.erase key).find? k = some x ↔ (if t.sameKey key k then none else t.find? k) = some x
  rw [(h.erase key).find?_eq_some_iff, h.mem_erase]
  change (x ∈ t.items ∧ t.sameKey x key = false) ∧ t.sameKey x k = true ↔ _
  by_cases hk : t.sameKey key k = true
  · rw [if_pos hk]
    constructor
    · rintro ⟨⟨hx, hother⟩, hxk⟩
      rw [sameKey_eq_of_sameKey (h.wellKeyed x hx) hkey hxk, hk] at hother
      cases hother
    · rintro ⟨⟩
  · rw [if_neg hk, h.find?_eq_some_iff]
    constructor
    · rintro ⟨⟨hx, -⟩, hxk⟩
      exact ⟨hx, hxk⟩
    · rintro ⟨hx, hxk⟩
      refine ⟨⟨hx, ?_⟩, hxk⟩
      rw [sameKey_eq_of_sameKey (h.wellKeyed x hx) hkey hxk]
      exact eq_false_of_ne_true hk

end Sound

variable {t : MemoryTable} {item key x : Item}

theorem find?_keyOf (hkey : t.keyOf item = .ok key) : t.find? key = t.find? item := by
  simp only [find?, sameKey_keyOf hkey]

theorem sameKey_find? (h : t.find? key = some x) : t.sameKey x key = true :=
  List.find?_some (p := fun x => t.sameKey x key) h

end MemoryTable

theorem KeyedTable.set_congr {t : KeyedTable} {x key item : Item} (hx : x.WellKeyed) (h : t.sameKey x key = true) :
    t.set x item = t.set key item := by
  refine congrArg (KeyedTable.mk t.key) (funext fun k => ?_)
  rw [sameKey, sameKey, MemoryTable.sameKey_congr hx h]

def KeyedStore.of (s : List (String × MemoryTable)) : KeyedStore :=
  fun name => (Entries.get? name s).map MemoryTable.keyed

namespace KeyedStore

variable {s s' : List (String × MemoryTable)} {name : String} {t : MemoryTable}

theorem of_get? (h : Entries.get? name s = some t) : of s name = some t.keyed := by
  rw [of, h, Option.map_some]

theorem of_insert : of (Entries.insert name t s) = Function.update (of s) name (some t.keyed) := by
  funext other
  rw [of, Entries.get?_insert]
  by_cases h : name = other
  · subst h
    rw [if_pos rfl, Function.update_self, Option.map_some]
  · rw [if_neg h, Function.update_of_ne (Ne.symm h), of]

end KeyedStore

namespace Serving

open MemoryTable KeyedStore

variable {name : String} {item key : Item} {s s' : List (String × MemoryTable)}

theorem putItem_performs {r : Request.PutItem} {answer : Response.PutItem} (hs : AllSound s) (hr : r.item.WellKeyed)
    (h : (putItem r).run s = (.ok answer, s')) : (of s).Performs (.putItem r) (.putItem answer) (of s') := by
  obtain ⟨t, key, ht, hkey, -, rfl, rfl⟩ := of_putItem h
  rw [of_insert, (hs _ t ht).keyed_put hkey hr, find?_keyOf hkey]
  exact .put (of_get? ht)

theorem getItem_performs {r : Request.GetItem} {answer : Response.GetItem} (hr : r.projection = none)
    (h : (getItem r).run s = (.ok answer, s')) : (of s).Performs (.getItem r) (.getItem answer) (of s') := by
  obtain ⟨t, ht, rfl⟩ := of_getItem h
  obtain rfl := (reads_getItem r).of_run h
  have hwhole : MemoryExpression.project ⟨r.names, []⟩ r.projection = id := by
    rw [hr]
    rfl
  rw [hwhole, Option.map_id]
  exact .get (of_get? ht)

theorem deleteItem_performs {r : Request.DeleteItem} {answer : Response.DeleteItem} (hs : AllSound s)
    (hr : r.key.WellKeyed) (h : (deleteItem r).run s = (.ok answer, s')) :
    (of s).Performs (.deleteItem r) (.deleteItem answer) (of s') := by
  obtain ⟨t, ht, -, rfl, rfl⟩ := of_deleteItem h
  rw [of_insert, (hs _ t ht).keyed_erase hr]
  exact .delete (of_get? ht)

theorem sameKey_start {t : MemoryTable} (hkey : key.WellKeyed) : t.sameKey ((t.find? key).getD key) key = true := by
  cases hfind : t.find? key with
  | none => exact sameKey_self hkey
  | some x => exact sameKey_find? hfind

theorem sameKey_changed {t : MemoryTable} {b : Bindings} {text : Option String} {start item' : Item}
    (hvalues : Item.WellKeyed b.values) (hstart : start.WellKeyed) (h : changed b text start = .ok item')
    (hassigned : ∀ u ∈ text, ∀ name ∈ t.key, name ∉ b.assignedNames u) (hcomplete : t.Complete item') :
    t.sameKey item' start = true := by
  cases text with
  | none =>
    obtain rfl := Except.ok.inj h
    exact sameKey_self hstart
  | some u => exact sameKey_evolved hstart (Bindings.evolved_of_update hvalues hstart h) (hassigned u rfl) hcomplete

theorem updateItem_performs {r : Request.UpdateItem} {answer : Response.UpdateItem} (hs : AllSound s)
    (hr : r.WellKeyed) (hassigned : ∀ text ∈ r.update, ∀ t ∈ of s r.tableName, ∀ name ∈ t.key,
      name ∉ Bindings.assignedNames ⟨r.names, r.values⟩ text)
    (h : (updateItem r).run s = (.ok answer, s')) : (of s).Performs (.updateItem r) (.updateItem answer) (of s') := by
  obtain ⟨t, item, key, ht, -, hitem, hkey, rfl, rfl⟩ := of_updateItem h
  have hsound := hs _ t ht
  have hstart := wellKeyed_start hsound hr.1
  have hwell := wellKeyed_changed hr.2 hstart hitem
  have hkept := sameKey_changed hr.2 hstart hitem (fun text htext => hassigned text htext t.keyed (of_get? ht))
    (complete_of_keyOf hkey)
  have hsame : t.sameKey item r.key = true := sameKey_trans hkept (sameKey_start hr.1)
  have hset : t.keyed.set item item = t.keyed.set r.key item := KeyedTable.set_congr hwell hsame
  rw [of_insert, hsound.keyed_put hkey hwell, hset]
  exact .update (of_get? ht) hitem hsame

theorem of_putEntry_run (hs : AllSound s) (hitem : item.WellKeyed) (h : (putEntry name item).run s = (.ok (), s')) :
    of s' = Function.update (of s) name ((of s name).map fun t => t.set item item) := by
  obtain ⟨t, key, ht, hkey, rfl⟩ := of_putEntry h
  rw [of_insert, (hs _ t ht).keyed_put hkey hitem, of_get? ht, Option.map_some]

theorem of_deleteEntry_run (hs : AllSound s) (hkey : key.WellKeyed) (h : (deleteEntry name key).run s = (.ok (), s')) :
    of s' = Function.update (of s) name ((of s name).map fun t => t.delete key) := by
  obtain ⟨t, ht, rfl⟩ := of_deleteEntry h
  rw [of_insert, (hs _ t ht).keyed_erase hkey, of_get? ht, Option.map_some]

theorem of_writeEntry_run {e : Request.BatchEntry} (hs : AllSound s) (he : e.WellKeyed)
    (h : (writeEntry name e).run s = (.ok (), s')) :
    of s' = Function.update (of s) name ((of s name).map fun t => t.write e) := by
  obtain ⟨put, delete⟩ := e
  rw [writeEntry_eq] at h
  obtain ⟨⟨⟩, between, hput, hdelete⟩ := Outcome.of_run_bind h
  have hbetween : of between = Function.update (of s) name
      ((of s name).map fun t => (put.map fun p => t.set p.item p.item).getD t) ∧ AllSound between := by
    cases put with
    | none =>
      cases hput
      simp [hs]
    | some p =>
      exact ⟨of_putEntry_run hs (he.1 p rfl) hput, (putEntry_keeps putsKeep_allSound (he.1 p rfl)).of_run hs hput⟩
  obtain ⟨hbetween, hsound⟩ := hbetween
  cases delete with
  | none =>
    cases hdelete
    exact hbetween
  | some d =>
    rw [of_deleteEntry_run hsound (he.2 d rfl) hdelete, hbetween, Function.update_idem, Function.update_self,
      Option.map_map]
    rfl

theorem writeEntry_keepsSound {e : Request.BatchEntry} (he : e.WellKeyed) : Keeps AllSound (writeEntry name e) :=
  writeEntry_keeps putsKeep_allSound (fun _ => erasuresKeep_allSound) he

theorem of_writeEntries_run {entries : List Request.BatchEntry} (hs : AllSound s)
    (he : ∀ e ∈ entries, e.WellKeyed) (h : (entries.forM (writeEntry name)).run s = (.ok (), s')) :
    of s' = Function.update (of s) name ((of s name).map fun t => entries.foldl KeyedTable.write t) := by
  induction entries generalizing s with
  | nil =>
    cases h
    simp
  | cons e rest ih =>
    rw [List.forM_eq_forM, List.forM_cons] at h
    obtain ⟨⟨⟩, between, hfirst, hrest⟩ := Outcome.of_run_bind h
    obtain ⟨hefirst, herest⟩ := List.forall_mem_cons.1 he
    rw [ih ((writeEntry_keepsSound hefirst).of_run hs hfirst) herest hrest, of_writeEntry_run hs hefirst hfirst,
      Function.update_idem, Function.update_self, Option.map_map]
    rfl

theorem of_writeAll_run {batch : List (String × List Request.BatchEntry)} (hs : AllSound s)
    (he : ∀ e ∈ batch, ∀ x ∈ e.2, x.WellKeyed)
    (h : (batch.forM fun e => do
      let _ ← table e.1
      e.2.forM (writeEntry e.1)).run s = (.ok (), s')) :
    (∀ e ∈ batch, (of s e.1).isSome = true) ∧ of s' = (of s).writeAll batch := by
  induction batch generalizing s with
  | nil =>
    cases h
    exact ⟨fun e he => absurd he List.not_mem_nil, rfl⟩
  | cons e rest ih =>
    rw [List.forM_eq_forM, List.forM_cons] at h
    obtain ⟨⟨⟩, between, hfirst, hrest⟩ := Outcome.of_run_bind h
    obtain ⟨hefirst, herest⟩ := List.forall_mem_cons.1 he
    obtain ⟨t, s₁, ht, hentries⟩ := Outcome.of_run_bind hfirst
    obtain rfl := reads_table.of_run ht
    have hsound : AllSound between :=
      (Keeps.forM fun x hx => writeEntry_keepsSound (hefirst x hx)).of_run hs hentries
    have hbetween := of_writeEntries_run hs hefirst hentries
    have hpresent : (of s₁ e.1).isSome = true := by rw [of_get? (of_table ht), Option.isSome_some]
    obtain ⟨htables, hrun⟩ := ih hsound herest hrest
    refine ⟨List.forall_mem_cons.2 ⟨hpresent, fun d hd => ?_⟩, ?_⟩
    · have hd := htables d hd
      rw [hbetween, Function.update_apply] at hd
      split at hd
      · rename_i hname
        rwa [hname]
      · exact hd
    · rw [hrun, hbetween]
      rfl

theorem batchWriteItem_performs {r : Request.BatchWriteItem} {answer : Response.BatchWriteItem} (hs : AllSound s)
    (hr : (Request.batchWriteItem r).WellKeyed) (h : (batchWriteItem r).run s = (.ok answer, s')) :
    (of s).Performs (.batchWriteItem r) (.batchWriteItem answer) (of s') := by
  obtain ⟨⟨⟩, s₁, hrun, h⟩ := Outcome.of_run_bind h
  cases h
  obtain ⟨htables, hall⟩ := of_writeAll_run hs hr hrun
  rw [hall]
  exact .batchWrite htables

end Serving

/-- The requests that look up or change maps: a get without a projection, and an update that assigns no attribute of
the key. -/
def Request.Mapped (m : KeyedStore) : Request → Prop
  | putItem _ => True
  | getItem r => r.projection = none
  | updateItem r => ∀ text ∈ r.update, ∀ t ∈ m r.tableName, ∀ name ∈ t.key,
      name ∉ Bindings.assignedNames ⟨r.names, r.values⟩ text
  | deleteItem _ => True
  | batchWriteItem _ => True
  | _ => False

def Request.Single : Request → Prop
  | putItem _ => True
  | updateItem _ => True
  | deleteItem _ => True
  | _ => False

namespace MemoryStore

open Serving

def keyed (s : MemoryStore) : KeyedStore := .of s.tables

variable {s s' : MemoryStore} {request : Request} {response : Response} {failure : StoreFailure}

theorem of_send_ok (h : (send request).run s = (.ok response, s')) :
    (respond request).run s.tables = (.ok response, s'.tables) := by
  rw [run_send] at h
  generalize (respond request).run s.tables = z at h
  obtain ⟨result, tables⟩ := z
  cases result with
  | error e => cases h
  | ok answer =>
    cases h
    rfl

theorem of_respond {α : Type} {p : Serving α} {f : α → Response} {s s' : List (String × MemoryTable)}
    (h : (f <$> p).run s = (.ok response, s')) : ∃ a, p.run s = (.ok a, s') ∧ response = f a := by
  rw [← bind_pure_comp] at h
  obtain ⟨a, between, hp, h⟩ := Outcome.of_run_bind h
  cases h
  exact ⟨a, hp, rfl⟩

theorem performs_of_send (hs : MemoryTable.AllSound s.tables) (hr : request.WellKeyed)
    (h : (send request).run s = (.ok response, s')) (hmapped : request.Mapped s.keyed) :
    s.keyed.Performs request response s'.keyed := by
  have hrun := of_send_ok h
  cases request with
  | putItem r =>
    obtain ⟨answer, hp, rfl⟩ := of_respond hrun
    exact putItem_performs hs hr hp
  | getItem r =>
    obtain ⟨answer, hp, rfl⟩ := of_respond hrun
    exact getItem_performs hmapped hp
  | updateItem r =>
    obtain ⟨answer, hp, rfl⟩ := of_respond hrun
    exact updateItem_performs hs hr hmapped hp
  | deleteItem r =>
    obtain ⟨answer, hp, rfl⟩ := of_respond hrun
    exact deleteItem_performs hs hr hp
  | batchWriteItem r =>
    obtain ⟨answer, hp, rfl⟩ := of_respond hrun
    exact batchWriteItem_performs hs hr hp
  | _ => exact hmapped.elim

theorem unchanged_of_send (h : (send request).run s = (.error failure, s')) (hsingle : request.Single) :
    s'.tables = s.tables := by
  have hatomic : Atomic (respond request) := by
    cases request with
    | putItem r => exact (putItem_atomic r).map _
    | updateItem r => exact (updateItem_atomic r).map _
    | deleteItem r => exact (deleteItem_atomic r).map _
    | _ => exact hsingle.elim
  rw [run_send] at h
  cases hrun : (respond request).run s.tables with
  | mk result tables =>
    rw [hrun] at h
    cases result with
    | error e =>
      cases h
      exact hatomic _ e tables hrun
    | ok answer => cases h

/-- In a store that a run of requests has led to, every table is a map from keys to items: no two items have one key,
each has a whole key, and what is looked up is there. Requests that succeed change the maps and answer as the maps
say, and a put, an update or a deletion that is refused changes nothing. -/
theorem reached_performs (hs : s.Reached) (hr : request.WellKeyed) :
    (∀ name t, Entries.get? name s.tables = some t →
      t.items.Pairwise (fun x y => t.sameKey x y = false) ∧ (∀ x ∈ t.items, t.Complete x) ∧
        ∀ key x, t.keyed.find key = some x ↔ x ∈ t.items ∧ t.sameKey x key = true) ∧
    (∀ response s', (send request).run s = (.ok response, s') → request.Mapped s.keyed →
      s.keyed.Performs request response s'.keyed) ∧
    ∀ failure s', (send request).run s = (.error failure, s') → request.Single → s'.tables = s.tables := by
  have hsound := hs.allSound
  refine ⟨fun name t ht => ?_, fun response s' h hmapped => performs_of_send hsound hr h hmapped,
    fun failure s' h hsingle => unchanged_of_send h hsingle⟩
  have ht := hsound name t ht
  exact ⟨ht.distinct, ht.complete, fun _ _ => ht.find?_eq_some_iff⟩

def opening : Request.PutItem where
  tableName := "accounts"
  item := [("id", .s "a"), ("state", .s "open")]

def ledger : MemoryStore := ((send (.putItem opening)).run (({} : MemoryStore).create "accounts" ["id"])).2

def closing : Request.UpdateItem where
  tableName := "accounts"
  key := [("id", .s "a")]
  update := some "SET #n0 = :v1"
  names := [("#n0", "state")]
  values := [(":v1", .s "closed")]
  returnValues := some .allNew

def closedAccount : Item := [("id", .s "a"), ("state", .s "closed")]

theorem ledger_performs : ∃ s', (send (.updateItem closing)).run ledger =
      (.ok (.updateItem { attributes := closedAccount }), s') ∧
    ledger.keyed.Performs (.updateItem closing) (.updateItem { attributes := closedAccount }) s'.keyed := by
  have hreached : ledger.Reached := .send (.create .empty "accounts" ["id"]) (rfl : opening.item.WellKeyed)
  have hclosing : (Request.updateItem closing).WellKeyed := ⟨rfl, rfl⟩
  have hrun : ∃ s', (send (.updateItem closing)).run ledger =
      (.ok (.updateItem { attributes := closedAccount }), s') := ⟨_, rfl⟩
  have hmapped : (Request.updateItem closing).Mapped ledger.keyed := by
    intro text htext t ht name hname
    obtain rfl := Option.some.inj htext
    obtain rfl := Option.some.inj ht
    obtain rfl := List.mem_singleton.1 hname
    have hnames : Bindings.assignedNames ⟨closing.names, closing.values⟩ "SET #n0 = :v1" = ["state"] := rfl
    rw [hnames]
    decide
  obtain ⟨s', hrun⟩ := hrun
  exact ⟨s', hrun, (reached_performs hreached hclosing).2.1 _ s' hrun hmapped⟩

end MemoryStore

end ItemMapper
