import ItemMapper.Proofs.AppliedUpdates
import ItemMapper.Proofs.KeyedStores

/-!
# What an update touches

The memory store puts the item that an update leaves under the key of that item. As long as the update keeps the key, it
touches only the item that was addressed. A document may assign attributes of the key too; the item then goes under its
new key, and the one that was addressed stays where it was.
-/

namespace ItemMapper

namespace Update

variable {options : MarshalOptions} {item : Item} {update : Update} {name : String}

theorem get?_applied : Entries.get? name (update.applied options item) =
    if name ∈ update.removedNames then none
    else (Entries.get? name (update.changes options item)).or (Entries.get? name item) := by
  rw [applied, Entries.get?_filter fun key => decide (key ∉ update.removedNames), Entries.get?_append,
    Entries.get?_map fun e => (Entries.get? e.1 (update.changes options item)).getD e.2,
    Entries.get?_filter fun key => !Entries.has key item]
  by_cases hremoved : name ∈ update.removedNames
  · simp [hremoved]
  · cases hitem : Entries.get? name item <;> cases hchange : Entries.get? name (update.changes options item) <;>
      simp [hremoved, Entries.has, hitem, hchange]

theorem actionless_of_clause {α : Type} {keyword : String} {action : α → Rendering String} {actions : List α} {t t' : Tokens}
    (h : (renderClause keyword action actions).run t = (.ok [], t')) : actions = [] := by
  rw [renderClause] at h
  split at h
  · rename_i hempty
    exact List.isEmpty_iff.1 hempty
  · obtain ⟨parts, t₁, -, h⟩ := Outcome.of_run_bind h
    cases h

theorem applied_of_empty (hs : update.sets = []) (hr : update.removes = []) : update.applied options item = item := by
  simp [applied, changes, removedNames, hs, hr, Entries.get?]

theorem actionless_of_render {t t' : Tokens} (h : update.render.run t = (.ok none, t')) :
    update.sets = [] ∧ update.removes = [] := by
  obtain ⟨sets, t₁, hsets, h⟩ := Outcome.of_run_bind h
  obtain ⟨removes, t₂, hremoves, h⟩ := Outcome.of_run_bind h
  obtain ⟨adds, t₃, -, h⟩ := Outcome.of_run_bind h
  obtain ⟨deletes, t₄, -, h⟩ := Outcome.of_run_bind h
  have hnone := Except.ok.inj (Prod.mk.inj h).1
  have hclauses : sets ++ removes ++ adds ++ deletes = [] := by
    by_contra hnot
    have hsome : ¬ (sets ++ removes ++ adds ++ deletes).isEmpty = true := by simpa using hnot
    rw [if_neg hsome] at hnone
    cases hnone
  simp only [List.append_eq_nil_iff] at hclauses
  obtain ⟨⟨⟨rfl, rfl⟩, -⟩, -⟩ := hclauses
  exact ⟨actionless_of_clause hsets, actionless_of_clause hremoves⟩

/-- Attributes of the key that are assigned get the values that they have in the key. -/
def KeepsKey (update : Update) (options : MarshalOptions) (t : MemoryTable) (key : Item) : Prop :=
  ∀ name ∈ t.key, ∀ w, Entries.get? name (update.changes options ((t.find? key).getD key)) = some w →
    MemoryTable.sameAttribute (some w) (Entries.get? name key) = true

/-- Of an item that still has a key, the key is the one of the update just if the update keeps it. -/
theorem sameKey_applied_iff {t : MemoryTable} {key : Item} (hkey : key.WellKeyed)
    (hcomplete : t.Complete (update.applied options ((t.find? key).getD key))) :
    t.sameKey (update.applied options ((t.find? key).getD key)) key = true ↔ update.KeepsKey options t key := by
  have hthere : ∀ name ∈ t.key, name ∉ update.removedNames := by
    intro name hname hremoved
    have hhas := hcomplete name hname
    rw [Entries.has, get?_applied, if_pos hremoved] at hhas
    cases hhas
  rw [MemoryTable.sameKey_iff, KeepsKey]
  refine forall₂_congr fun name hname => ?_
  rw [get?_applied, if_neg (hthere name hname)]
  cases Entries.get? name (update.changes options ((t.find? key).getD key)) with
  | none => simpa using MemoryTable.sameKey_iff.1 (Serving.sameKey_start hkey) name hname
  | some w => simp

end Update

/-- Between two states of a table, all items of other keys are the same, and there is now one item of the key. -/
structure MemoryTable.TouchesOnly (key : Item) (t t' : MemoryTable) : Prop where
  others : t'.items.filter (fun x => !t.sameKey x key) = t.items.filter fun x => !t.sameKey x key
  one : ∃ x, t'.items.filter (fun x => t.sameKey x key) = [x]

namespace MemoryTable

variable {t : MemoryTable} {item key k x : Item}

section Lists

variable {same : Item → Bool} {items : List Item} (hone : items.Pairwise fun x y => same x = true → same y = false)

include hone

theorem filter_eq_singleton (hx : x ∈ items) (hsame : same x = true) : items.filter same = [x] := by
  induction items with
  | nil => cases hx
  | cons first rest ih =>
    obtain ⟨hothers, hrest⟩ := List.pairwise_cons.1 hone
    rcases List.mem_cons.1 hx with rfl | hx
    · have hnone : rest.filter same = [] := List.filter_eq_nil_iff.2 fun y hy => by simp [hothers y hy hsame]
      simp [hsame, hnone]
    · have hfirst : same first = false := by
        by_contra hfirst
        have hno := hothers x hx (by simpa using hfirst)
        simp [hsame] at hno
      simp [hfirst, ih hrest hx]

theorem store_of_mem (hitem : item ∈ items) (hsame : same item = true) : store same item items = items := by
  induction items with
  | nil => cases hitem
  | cons first rest ih =>
    obtain ⟨hothers, hrest⟩ := List.pairwise_cons.1 hone
    rcases List.mem_cons.1 hitem with rfl | hitem
    · rw [store, if_pos hsame]
    · have hfirst : ¬ same first = true := by
        intro hfirst
        have hno := hothers item hitem hfirst
        simp [hsame] at hno
      rw [store, if_neg hfirst, ih hrest hitem]

end Lists

theorem Sound.touchesOnly_put_iff (h : t.Sound) (hk : t.keyOf item = .ok k) (hitem : item.WellKeyed) :
    TouchesOnly key t (t.put k item) ↔ t.sameKey item key = true ∨ (∃ x, t.find? key = some x) ∧ item ∈ t.items := by
  have hself : t.sameKey item item = true := sameKey_self hitem
  have hitems : (t.put k item).items = store (t.sameKey · item) item t.items := by
    simp only [MemoryTable.put, sameKey_keyOf hk]
  by_cases hmeant : t.sameKey item key = true
  · have hsame : (t.sameKey · item) = (t.sameKey · key) := by
      funext x
      rw [Bool.eq_iff_iff]
      exact ⟨fun hx => sameKey_trans hx hmeant, fun hx => sameKey_trans hx (sameKey_symm hitem hmeant)⟩
    rw [hsame] at hitems
    simp only [hmeant, true_or, iff_true]
    exact ⟨by rw [hitems]; exact filter_store_others hmeant, item, by rw [hitems]; exact filter_store_self (h.one key) hmeant⟩
  · simp only [hmeant, Bool.false_eq_true, false_or]
    constructor
    · intro htouches
      have hnew : item ∈ (t.put k item).items := (h.mem_put hk hitem).2 (.inl rfl)
      obtain ⟨x, hx⟩ := htouches.one
      have hxmem : x ∈ (t.put k item).items.filter (t.sameKey · key) := hx ▸ List.mem_singleton_self x
      obtain ⟨hxput, hxkey⟩ := List.mem_filter.1 hxmem
      constructor
      · rcases (h.mem_put hk hitem).1 hxput with rfl | ⟨hxt, -⟩
        · exact absurd hxkey hmeant
        · exact ⟨x, h.find?_eq_some_iff.2 ⟨hxt, hxkey⟩⟩
      · have hother : item ∈ (t.put k item).items.filter fun x => !t.sameKey x key :=
          List.mem_filter.2 ⟨hnew, by simpa using hmeant⟩
        rw [htouches.others] at hother
        exact List.mem_of_mem_filter hother
    · rintro ⟨⟨x, hx⟩, hmem⟩
      obtain ⟨hxt, hxkey⟩ := h.find?_eq_some_iff.1 hx
      have hunchanged : (t.put k item).items = t.items := hitems.trans (store_of_mem (h.one item) hmem hself)
      exact ⟨by rw [hunchanged], x, by rw [hunchanged]; exact filter_eq_singleton (h.one key) hxt hxkey⟩

end MemoryTable

namespace Mapper

open Serving

variable {m : Mapper} {filter change : Value} {options : WriteOptions} {session session' after : Session}
  {update : Update} {r : Request.UpdateItem} {s s' : MemoryStore} {response : Response} {doc : Value} {t t' : Tokens}
  {text : Option String}

theorem leads_conditionText (h : (m.conditionText doc t).run session = (.ok (text, t'), session')) : t.Leads t' := by
  rw [conditionText] at h
  obtain ⟨c, s₁, -, h⟩ := Mapping.of_bind h
  cases c with
  | none =>
    obtain ⟨he, -⟩ := Mapping.of_pure h
    cases he
    exact .refl
  | some c =>
    obtain ⟨⟨body, t₁⟩, s₂, hbody, h⟩ := Mapping.of_bind h
    obtain ⟨he, -⟩ := Mapping.of_pure h
    cases he
    exact (Rendering.render_spells c t body t' (of_rendered hbody)).1

/-- The store makes of an item what the actions of the update do, all at once. -/
theorem changed_eq_applied (hbuild : (m.updateRequest filter change options).run session = (.ok r, session'))
    (hread : (m.schema.readUpdate m.table change).run session = (.ok update, after)) {item item' : Item}
    (hitem : (Entries.keys item).Nodup) (h : changed ⟨r.names, r.values⟩ r.update item = .ok item') :
    item' = update.applied m.config.marshalOptions item := by
  rw [updateRequest] at hbuild
  obtain ⟨u, s₁, hu, hbuild⟩ := Mapping.of_bind hbuild
  rw [hread] at hu
  cases hu
  obtain ⟨⟨text, t₁⟩, s₂, htext, hbuild⟩ := Mapping.of_bind hbuild
  obtain ⟨⟨key, condition⟩, s₃, -, hbuild⟩ := Mapping.of_bind hbuild
  obtain ⟨⟨condition', t₂⟩, s₄, hcondition, hbuild⟩ := Mapping.of_bind hbuild
  obtain ⟨_, s₅, -, hbuild⟩ := Mapping.of_bind hbuild
  obtain ⟨rfl, -⟩ := Mapping.of_pure hbuild
  have hrender := of_rendered htext
  have hlater : t₁.Leads t₂ := leads_conditionText hcondition
  cases text with
  | none =>
    obtain rfl := Except.ok.inj h
    obtain ⟨hsets, hremoves⟩ := Update.actionless_of_render hrender
    rw [Update.applied_of_empty hsets hremoves]
  | some expression => exact (UpdateDocument.applied_of_update hread .refl hrender hlater hitem h).2.2

theorem updateRequest_tableName (h : (m.updateRequest filter change options).run session = (.ok r, session')) :
    r.tableName = m.table := by
  rw [updateRequest] at h
  obtain ⟨u, s₁, -, h⟩ := Mapping.of_bind h
  obtain ⟨text, s₂, -, h⟩ := Mapping.of_bind h
  obtain ⟨parts, s₃, -, h⟩ := Mapping.of_bind h
  obtain ⟨condition, s₄, -, h⟩ := Mapping.of_bind h
  obtain ⟨key, s₅, -, h⟩ := Mapping.of_bind h
  obtain ⟨rfl, -⟩ := Mapping.of_pure h
  rfl

/-- An update that succeeds replaces its own table, and there it touches only the addressed item just if the attributes
of the key that it assigns get their old values, or the item that it leaves is already there beside the addressed
one. -/
theorem update_touchesOnly_iff (hbuild : (m.updateRequest filter change options).run session = (.ok r, session'))
    (hread : (m.schema.readUpdate m.table change).run session = (.ok update, after)) (hs : s.Reached)
    (hr : r.WellKeyed) (hsend : (MemoryStore.send (.updateItem r)).run s = (.ok response, s')) :
    ∃ t t', Entries.get? m.table s.tables = some t ∧ s'.tables = Entries.insert m.table t' s.tables ∧
      (MemoryTable.TouchesOnly r.key t t' ↔ update.KeepsKey m.config.marshalOptions t r.key ∨
        (∃ x, t.find? r.key = some x) ∧
          update.applied m.config.marshalOptions ((t.find? r.key).getD r.key) ∈ t.items) := by
  obtain ⟨answer, hrun, -⟩ := MemoryStore.of_respond (MemoryStore.of_send_ok hsend)
  obtain ⟨t, item, key, ht, -, hitem, hkey, htables, -⟩ := of_updateItem hrun
  have hname := updateRequest_tableName hbuild
  have hsound := hs.allSound _ t ht
  have hstart := wellKeyed_start hsound hr.1
  have hwell := wellKeyed_changed hr.2 hstart hitem
  have happlied := changed_eq_applied hbuild hread hstart.nodup hitem
  refine ⟨t, t.put key item, hname ▸ ht, hname ▸ htables, ?_⟩
  rw [hsound.touchesOnly_put_iff hkey hwell]
  have hcomplete := MemoryTable.complete_of_keyOf hkey
  rw [happlied] at hcomplete ⊢
  rw [Update.sameKey_applied_iff hr.1 hcomplete]

def firstCounter : Item := [("id", .s "a"), ("state", .s "open")]

def counterStore : MemoryStore :=
  ((MemoryStore.send (.putItem { tableName := "counters", item := firstCounter })).run
    (({} : MemoryStore).create "counters" ["id"])).2

def counterFilter : Value := .map [("id", .string "a")]

def closedState : Value := .map [("$set", .map [("state", .string "closed")])]

def closingRequest : Request.UpdateItem where
  tableName := "counters"
  key := [("id", .s "a")]
  update := some "SET #n0 = :v1"
  names := [("#n0", "state")]
  values := [(":v1", .s "closed")]

theorem counterStore_reached : counterStore.Reached := .send (.create .empty "counters" ["id"]) (rfl : firstCounter.WellKeyed)

theorem closing_touchesOnly : ∃ t t', Entries.get? "counters" counterStore.tables = some t ∧
    (((MemoryStore.send (.updateItem closingRequest)).run counterStore).2).tables =
      Entries.insert "counters" t' counterStore.tables ∧ MemoryTable.TouchesOnly closingRequest.key t t' := by
  have hbuild : ∃ session', (counters.updateRequest counterFilter closedState {}).run {} = (.ok closingRequest, session') :=
    ⟨_, rfl⟩
  have hread : ∃ after, (counters.schema.readUpdate "counters" closedState).run {} =
      (.ok { sets := [⟨.field "state", .operand (.literal (.string "closed"))⟩] }, after) := ⟨_, rfl⟩
  have hsend : ∃ response s', (MemoryStore.send (.updateItem closingRequest)).run counterStore = (.ok response, s') :=
    ⟨_, _, rfl⟩
  obtain ⟨session', hbuild⟩ := hbuild
  obtain ⟨after, hread⟩ := hread
  obtain ⟨response, s', hsend⟩ := hsend
  obtain ⟨t, t', ht, htables, hiff⟩ := update_touchesOnly_iff hbuild hread counterStore_reached ⟨rfl, rfl⟩ hsend
  refine ⟨t, t', ht, ?_, hiff.2 (.inl ?_)⟩
  · rw [hsend]
    exact htables
  · intro name hname w hw
    obtain rfl := Option.some.inj ht
    obtain rfl := List.mem_singleton.1 hname
    cases hw

def otherKey : Value := .map [("$set", .map [("id", .string "b")])]

def movingRequest : Request.UpdateItem where
  tableName := "counters"
  key := [("id", .s "a")]
  update := some "SET #n0 = :v1"
  names := [("#n0", "id")]
  values := [(":v1", .s "b")]

theorem moving_not_touchesOnly : ¬ ∀ (m : Mapper) (filter change : Value) (options : WriteOptions)
    (session session' : Session) (r : Request.UpdateItem) (s s' : MemoryStore) (response : Response),
      (m.updateRequest filter change options).run session = (.ok r, session') → s.Reached → r.WellKeyed →
      (MemoryStore.send (.updateItem r)).run s = (.ok response, s') →
        ∃ t t', Entries.get? m.table s.tables = some t ∧ s'.tables = Entries.insert m.table t' s.tables ∧
          MemoryTable.TouchesOnly r.key t t' := by
  intro hall
  have hbuild : ∃ session', (counters.updateRequest counterFilter otherKey {}).run {} = (.ok movingRequest, session') :=
    ⟨_, rfl⟩
  have hsend : ∃ response s', (MemoryStore.send (.updateItem movingRequest)).run counterStore = (.ok response, s') ∧
      s'.items "counters" = [firstCounter, [("id", .s "b"), ("state", .s "open")]] := ⟨_, _, rfl, rfl⟩
  obtain ⟨session', hbuild⟩ := hbuild
  obtain ⟨response, s', hsend, hitems⟩ := hsend
  obtain ⟨t, t', ht, htables, htouches⟩ := hall _ _ _ _ _ _ _ _ _ _ hbuild counterStore_reached ⟨rfl, rfl⟩ hsend
  have hothers := htouches.others
  obtain rfl := Option.some.inj ht
  rw [MemoryStore.items, htables] at hitems
  have hitems : t'.items = [firstCounter, [("id", .s "b"), ("state", .s "open")]] := hitems
  rw [hitems] at hothers
  have hlengths := congrArg List.length hothers
  revert hlengths
  decide

end Mapper

end ItemMapper
