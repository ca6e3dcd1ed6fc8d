import ItemMapper.Proofs.Assignments
import ItemMapper.Proofs.PathTexts
import ItemMapper.Proofs.ReadUpdates
import ItemMapper.Proofs.SessionCaches

/-!
# Instructions

An update document holds one instruction for each key with a value, each listed target and each operator. What is read
from it carries out every instruction by one action, on the path that the instruction spells. The actions are in the
order of the document within their clauses, there are no others, and no two of them have the same target.
-/

namespace ItemMapper

inductive Action where
  | set (a : Assignment)
  | remove (p : DocumentPath)
  | add (a : MemberAction)
  | delete (a : MemberAction)

namespace Action

def set? : Action → Option Assignment
  | set a => some a
  | _ => none

def remove? : Action → Option DocumentPath
  | remove p => some p
  | _ => none

def add? : Action → Option MemberAction
  | add a => some a
  | _ => none

def delete? : Action → Option MemberAction
  | delete a => some a
  | _ => none

end Action

namespace Update

def extend (u : Update) (actions : List Action) : Update where
  sets := u.sets ++ actions.filterMap Action.set?
  removes := u.removes ++ actions.filterMap Action.remove?
  adds := u.adds ++ actions.filterMap Action.add?
  deletes := u.deletes ++ actions.filterMap Action.delete?

def ofActions (actions : List Action) : Update := ({} : Update).extend actions

theorem extend_nil (u : Update) : u.extend [] = u := by
  simp [extend]

theorem extend_append (u : Update) (first later : List Action) :
    (u.extend first).extend later = u.extend (first ++ later) := by
  simp [extend]

theorem extend_set (u : Update) (a : Assignment) : u.extend [.set a] = { u with sets := u.sets ++ [a] } := by
  simp [extend, Action.set?, Action.remove?, Action.add?, Action.delete?]

theorem extend_remove (u : Update) (p : DocumentPath) :
    u.extend [.remove p] = { u with removes := u.removes ++ [p] } := by
  simp [extend, Action.set?, Action.remove?, Action.add?, Action.delete?]

theorem extend_add (u : Update) (a : MemberAction) : u.extend [.add a] = { u with adds := u.adds ++ [a] } := by
  simp [extend, Action.set?, Action.remove?, Action.add?, Action.delete?]

theorem extend_delete (u : Update) (a : MemberAction) :
    u.extend [.delete a] = { u with deletes := u.deletes ++ [a] } := by
  simp [extend, Action.set?, Action.remove?, Action.add?, Action.delete?]

end Update

/-- What a document asks for: a value at the path of a key, a value of a declared field, the removal of what is at a path,
or what an operator does below a path. -/
inductive Instruction where
  | assign (path : String) (v : Value)
  | field (onlyIfAbsent : Bool) (name : String) (v : Value)
  | remove (path : String)
  | operate (path : String) (key : UpdateKey) (v : Value)

namespace UpdateDocument

def fieldInstructions (onlyIfAbsent : Bool) : List (String × Value) → List Instruction
  | [] => []
  | (name, v) :: rest =>
    if v.isUndefined then fieldInstructions onlyIfAbsent rest
    else .field onlyIfAbsent name v :: fieldInstructions onlyIfAbsent rest

def removalInstructions (parent : String) (targets : List Value) : List Instruction :=
  targets.map fun target => .remove (removalPath parent target)

/-- Above all attributes, operators assign declared fields or remove; below a path each of them is for that path. -/
def operatorInstructions (parent : Option String) (key : String) (v : Value) : List Instruction :=
  match parent with
  | none =>
    match UpdateKey.ofName? key with
    | some .set => fieldInstructions false (v.asMap?.getD [])
    | some .ifNotExists => fieldInstructions true (v.asMap?.getD [])
    | some .remove => removalInstructions "" (membersOf v)
    | _ => []
  | some path =>
    match UpdateKey.ofName? key with
    | some .remove => removalInstructions path (membersOf v)
    | some key => [.operate path key v]
    | none => []

mutual

def instructions (parent : Option String) : List (String × Value) → List Instruction
  | [] => []
  | (key, v) :: rest => entryInstructions parent key v ++ instructions parent rest

/-- What is undefined counts as absent, and a map below a name holds instructions of its own. -/
def entryInstructions (parent : Option String) (key : String) : Value → List Instruction
  | .undefined => []
  | .map entries =>
    if ConditionKey.isOperator key then operatorInstructions parent key (.map entries)
    else instructions (some (pathBelow parent key)) entries
  | v =>
    if ConditionKey.isOperator key then operatorInstructions parent key v
    else [.assign (pathBelow parent key) v]

end

def Finds (schema : Schema) (cache : PathCache) (path : String) (n : Node) : Prop :=
  ∃ lookups, (schema.nodeAtText path (schema.filled lookups cache)).1 = .ok n

def FitsAs (table : String) (n : Node) (path : String) (v w : Value) : Prop :=
  ∃ calls, (fitted n path table v { calls }).1 = .ok w

def fieldValue (onlyIfAbsent : Bool) (name : String) (w : Value) : Assigned :=
  if onlyIfAbsent then .ifNotExists (.field name) (.literal w) else .operand (.literal w)

section Relations

variable (place : Place) (cache : PathCache)

inductive Operates (path : String) (p : DocumentPath) (v : Value) : UpdateKey → Action → Prop
  | set {n : Node} {w : Value} (hn : Finds place.schema cache path n) (hw : FitsAs place.table n path v w) :
    Operates path p v .set (.set ⟨p, .operand (.literal w)⟩)
  | ifNotExists {n : Node} {w : Value} (hn : Finds place.schema cache path n) (hw : FitsAs place.table n path v w) :
    Operates path p v .ifNotExists (.set ⟨p, .ifNotExists p (.literal w)⟩)
  | push : Operates path p v .push (.set ⟨p, .listAppend (.path p) (.literal (.list (membersOf v)))⟩)
  | unshift : Operates path p v .unshift (.set ⟨p, .listAppend (.literal (.list (membersOf v))) (.path p)⟩)
  | incr : Operates path p v .incr (.set ⟨p, .plus (.path p) (.literal v)⟩)
  | decr : Operates path p v .decr (.set ⟨p, .minus (.path p) (.literal v)⟩)
  | date {n : Node} {delta : Int} (hn : Finds place.schema cache path n) (hv : n.dateFormat.change v = .ok delta) :
    Operates path p v .date (.set ⟨p, .plus (.path p) (.literal (.number (.ofInt delta)))⟩)
  | add : Operates path p v .add (.add ⟨p, .literal (.set (membersOf v))⟩)
  | delete : Operates path p v .delete (.delete ⟨p, .literal (.set (membersOf v))⟩)

/-- The action is what the instruction asks for, on the path that it spells. Nothing required is removed. -/
inductive CarriedOut : Instruction → Action → Prop
  | assign {path : String} {p : DocumentPath} {n : Node} {v w : Value} (hp : DocumentPath.parse? path = some p)
    (hn : Finds place.schema cache path n) (hw : FitsAs place.table n path v w) :
    CarriedOut (.assign path v) (.set ⟨p, .operand (.literal w)⟩)
  | null {path : String} {p : DocumentPath} (hp : DocumentPath.parse? path = some p) :
    CarriedOut (.assign path .null) (.set ⟨p, .operand (.literal .null)⟩)
  | field {onlyIfAbsent : Bool} {name : String} {p : DocumentPath} {n : Node} {v w : Value}
    (hp : DocumentPath.parse? name = some p) (hn : place.schema.field? name = some n)
    (hw : FitsAs place.table n name v w) :
    CarriedOut (.field onlyIfAbsent name v) (.set ⟨p, fieldValue onlyIfAbsent name w⟩)
  | remove {path : String} {p : DocumentPath} {n : Node} (hp : DocumentPath.parse? path = some p)
    (hn : Finds place.schema cache path n) (hfree : n.required = false) : CarriedOut (.remove path) (.remove p)
  | operate {path : String} {p : DocumentPath} {key : UpdateKey} {v : Value} {a : Action}
    (hp : DocumentPath.parse? path = some p) (ha : Operates place cache path p v key a) :
    CarriedOut (.operate path key v) a

end Relations

variable {place : Place} {cache : PathCache} {path key name table : String} {parent : Option String} {n : Node}
  {v w : Value} {p : DocumentPath} {value : Assigned} {d d' : UpdateDraft} {s s' t t' : Session} {a : Action}
  {i : Instruction} {is js : List Instruction} {f g : UpdateDraft → Mapping UpdateDraft}

def After (schema : Schema) (cache : PathCache) (s : Session) : Prop :=
  ∃ lookups, s.cache = schema.filled lookups cache

theorem After.of_run {α : Type} {schema : Schema} {q : Mapping α} {result : Except MappingFailure α}
    (hs : After schema cache s) (hq : Mapping.Looks schema q) (h : q.run s = (result, s')) : After schema cache s' := by
  obtain ⟨before, hbefore⟩ := hs
  obtain ⟨lookups, hlookups⟩ := hq.of_run h
  exact ⟨before ++ lookups, by rw [hlookups, hbefore, Schema.filled_append]⟩

theorem run_node {schema : Schema} : (Mapping.node schema path).run s =
    (Mapping.ofMisuse (schema.nodeAtText path s.cache).1).run { s with cache := (schema.nodeAtText path s.cache).2 } := by
  cases hn : (schema.nodeAtText path s.cache).1 <;> simp only [Mapping.node, Mapping.ofMisuse, ExceptT.run, hn]

theorem of_node {schema : Schema} (hs : After schema cache s) (h : (Mapping.node schema path).run s = (.ok n, s')) :
    Finds schema cache path n ∧ After schema cache s' := by
  have hs' := hs.of_run (.node path) h
  obtain ⟨lookups, hlookups⟩ := hs
  rw [run_node] at h
  exact ⟨⟨lookups, hlookups ▸ Mapping.of_ofMisuse h⟩, hs'⟩

theorem looks_fitAt {schema : Schema} : Mapping.Looks schema (fitAt place n path v) := by
  rw [fitAt]
  refine (Mapping.Looks.passes _).bind fun r _ => ?_
  cases r with
  | ok w => exact .pure w
  | error e => exact .of_cache fun _ => rfl

theorem of_fit (hs : After place.schema cache s) (h : (fit place path v).run s = (.ok w, s')) :
    ∃ n, Finds place.schema cache path n ∧ FitsAs place.table n path v w ∧ After place.schema cache s' := by
  rw [fit] at h
  obtain ⟨n, t, hn, h⟩ := Mapping.of_bind h
  obtain ⟨hfinds, ht⟩ := of_node hs hn
  exact ⟨n, hfinds, ⟨_, of_fitAt h⟩, ht.of_run looks_fitAt h⟩

theorem looks_reserve {schema : Schema} : Mapping.Looks schema (reserve place p d) := by
  rw [reserve]
  split
  · exact .of_cache fun _ => rfl
  · exact .pure _

theorem of_parsed_reserved (hs : After place.schema cache s) (hp : (parsed path).run s = (.ok p, t))
    (hd : (reserve place p d).run t = (.ok d', t')) :
    DocumentPath.parse? path = some p ∧ d'.update = d.update ∧ After place.schema cache t' :=
  ⟨DocumentPath.parse?_of_parse (Mapping.of_ofMisuse hp), of_reserve hd,
    (hs.of_run (.ofMisuse _) hp).of_run looks_reserve hd⟩

/-- Between the drafts lies one action for each of the instructions, and the cache behind them is one that look-ups give. -/
structure Carried (place : Place) (cache : PathCache) (is : List Instruction) (d d' : UpdateDraft) (s' : Session) :
    Prop where
  after : After place.schema cache s'
  actions : ∃ actions, List.Forall₂ (CarriedOut place cache) is actions ∧ d'.update = d.update.extend actions

theorem Carried.nothing (hs : After place.schema cache s) : Carried place cache [] d d s :=
  ⟨hs, [], .nil, (Update.extend_nil _).symm⟩

theorem Carried.single (hs : After place.schema cache s) (hi : CarriedOut place cache i a)
    (hd : d'.update = d.update.extend [a]) : Carried place cache [i] d d' s :=
  ⟨hs, [a], .cons hi .nil, hd⟩

theorem Carried.append {e : UpdateDraft} (h : Carried place cache is d e s) (h' : Carried place cache js e d' s') :
    Carried place cache (is ++ js) d d' s' := by
  obtain ⟨first, hfirst, he⟩ := h.actions
  obtain ⟨later, hlater, hd'⟩ := h'.actions
  exact ⟨h'.after, first ++ later, List.rel_append hfirst hlater, by rw [hd', he, Update.extend_append]⟩

theorem assign_carried (hs : After place.schema cache s) (h : (assign place path value d).run s = (.ok d', s'))
    (hi : ∀ p, DocumentPath.parse? path = some p → CarriedOut place cache i (.set ⟨p, value⟩)) :
    Carried place cache [i] d d' s' := by
  rw [assign] at h
  obtain ⟨p, t, hp, h⟩ := Mapping.of_bind h
  obtain ⟨d₁, t₁, hd₁, h⟩ := Mapping.of_bind h
  obtain ⟨rfl, rfl⟩ := Mapping.of_pure h
  obtain ⟨hparse, hupdate, ht₁⟩ := of_parsed_reserved hs hp hd₁
  exact .single ht₁ (hi p hparse) (by rw [Update.extend_set, hupdate])

theorem assign_carried_again (hs : After place.schema cache s) (hp : (parsed path).run s = (.ok p, t))
    (h : (assign place path value d).run t = (.ok d', s'))
    (hi : DocumentPath.parse? path = some p → CarriedOut place cache i (.set ⟨p, value⟩)) :
    Carried place cache [i] d d' s' := by
  refine assign_carried (hs.of_run (.ofMisuse _) hp) h fun q hq => ?_
  have hparse := DocumentPath.parse?_of_parse (Mapping.of_ofMisuse hp)
  rw [hparse] at hq
  obtain rfl := Option.some.inj hq
  exact hi hparse

theorem changeBy_carried {operator : String} {amount : Value} (hs : After place.schema cache s)
    (h : (changeBy place path operator amount d).run s = (.ok d', s'))
    (hi : ∀ p, DocumentPath.parse? path = some p → CarriedOut place cache i (.set ⟨p,
      if operator = "$decr" then .minus (.path p) (.literal amount) else .plus (.path p) (.literal amount)⟩)) :
    Carried place cache [i] d d' s' := by
  rw [changeBy] at h
  obtain ⟨n, t, hn, h⟩ := Mapping.of_bind h
  split at h
  · exact (of_refuse h).elim
  · obtain ⟨p, t₁, hp, h⟩ := Mapping.of_bind h
    exact assign_carried_again (of_node hs hn).2 hp h (hi p)

theorem extend_carried {inFront : Bool} (hs : After place.schema cache s)
    (h : (extend place path inFront v d).run s = (.ok d', s'))
    (hi : ∀ p, DocumentPath.parse? path = some p → CarriedOut place cache i (.set ⟨p,
      if inFront then .listAppend (.literal (.list (membersOf v))) (.path p)
      else .listAppend (.path p) (.literal (.list (membersOf v)))⟩)) :
    Carried place cache [i] d d' s' := by
  rw [extend] at h
  obtain ⟨n, t, hn, h⟩ := Mapping.of_bind h
  obtain ⟨r, t₁, hr, h⟩ := Mapping.of_bind h
  split at h
  · cases h
  · obtain ⟨p, t₂, hp, h⟩ := Mapping.of_bind h
    exact assign_carried_again ((of_node hs hn).2.of_run (.passes _) hr) hp h (hi p)

theorem changeMembers_carried {adding : Bool} (hs : After place.schema cache s)
    (h : (changeMembers place path adding v d).run s = (.ok d', s'))
    (hi : ∀ p, DocumentPath.parse? path = some p → CarriedOut place cache i
      (if adding then .add ⟨p, .literal (.set (membersOf v))⟩ else .delete ⟨p, .literal (.set (membersOf v))⟩)) :
    Carried place cache [i] d d' s' := by
  rw [changeMembers] at h
  obtain ⟨p, t, hp, h⟩ := Mapping.of_bind h
  obtain ⟨d₁, t₁, hd₁, h⟩ := Mapping.of_bind h
  obtain ⟨rfl, rfl⟩ := Mapping.of_pure h
  obtain ⟨hparse, hupdate, ht₁⟩ := of_parsed_reserved hs hp hd₁
  refine .single ht₁ (hi p hparse) ?_
  cases adding with
  | true => rw [if_pos rfl, if_pos rfl, Update.extend_add, hupdate]
  | false => rw [if_neg Bool.false_ne_true, if_neg Bool.false_ne_true, Update.extend_delete, hupdate]

theorem removeTargets_carried (targets : List Value) (hs : After place.schema cache s)
    (h : (removeTargets place path targets d).run s = (.ok d', s')) :
    Carried place cache (removalInstructions path targets) d d' s' := by
  induction targets generalizing d s with
  | nil =>
    obtain ⟨rfl, rfl⟩ := Mapping.of_pure h
    exact .nothing hs
  | cons target rest ih =>
    rw [removeTargets] at h
    obtain ⟨n, t, hn, h⟩ := Mapping.of_bind h
    obtain ⟨hfinds, ht⟩ := of_node hs hn
    split at h
    · exact (of_refuse h).elim
    · rename_i hfree
      obtain ⟨p, t₁, hp, h⟩ := Mapping.of_bind h
      obtain ⟨d₁, t₂, hd₁, h⟩ := Mapping.of_bind h
      obtain ⟨hparse, hupdate, ht₂⟩ := of_parsed_reserved ht hp hd₁
      have hfirst : CarriedOut place cache (.remove (removalPath path target)) (.remove p) :=
        .remove hparse hfinds (by simpa using hfree)
      exact (Carried.single ht₂ hfirst (by rw [Update.extend_remove, hupdate])).append (ih ht₂ h)

theorem assignFields_carried (onlyIfAbsent : Bool) (entries : List (String × Value)) (hs : After place.schema cache s)
    (h : (assignFields place onlyIfAbsent entries d).run s = (.ok d', s')) :
    Carried place cache (fieldInstructions onlyIfAbsent entries) d d' s' := by
  induction entries generalizing d s with
  | nil =>
    obtain ⟨rfl, rfl⟩ := Mapping.of_pure h
    exact .nothing hs
  | cons e rest ih =>
    obtain ⟨name, v⟩ := e
    rw [assignFields] at h
    rw [fieldInstructions]
    split at h
    · rename_i hv
      rw [if_pos hv]
      exact ih hs h
    · rename_i hv
      rw [if_neg hv]
      split at h
      · exact (of_refuse h).elim
      · rename_i n hn
        obtain ⟨w, t, hw, h⟩ := Mapping.of_bind h
        obtain ⟨d₁, t₁, hassign, h⟩ := Mapping.of_bind h
        have hfirst : Carried place cache [.field onlyIfAbsent name v] d d₁ t₁ :=
          assign_carried (hs.of_run looks_fitAt hw) hassign fun p hp => .field hp hn ⟨_, of_fitAt hw⟩
        exact hfirst.append (ih hfirst.after h)

theorem nestedOperator_carried (hs : After place.schema cache s)
    (h : (nestedOperator place path key v d).run s = (.ok d', s')) :
    Carried place cache (operatorInstructions (some path) key v) d d' s' := by
  unfold nestedOperator at h
  unfold operatorInstructions
  cases hkey : UpdateKey.ofName? key with
  | none =>
    rw [hkey] at h
    exact (of_refuse h).elim
  | some k =>
    rw [hkey] at h
    cases k with
    | set =>
      obtain ⟨w, t, hw, h⟩ := Mapping.of_bind h
      obtain ⟨n, hn, hfits, ht⟩ := of_fit hs hw
      exact assign_carried ht h fun p hp => .operate hp (.set hn hfits)
    | ifNotExists =>
      obtain ⟨w, t, hw, h⟩ := Mapping.of_bind h
      obtain ⟨n, hn, hfits, ht⟩ := of_fit hs hw
      obtain ⟨p, t₁, hp, h⟩ := Mapping.of_bind h
      exact assign_carried_again ht hp h fun hp => .operate hp (.ifNotExists hn hfits)
    | remove => exact removeTargets_carried _ hs h
    | push => exact extend_carried hs h fun p hp => .operate hp .push
    | unshift => exact extend_carried hs h fun p hp => .operate hp .unshift
    | incr => exact changeBy_carried hs h fun p hp => .operate hp .incr
    | decr => exact changeBy_carried hs h fun p hp => .operate hp .decr
    | date =>
      obtain ⟨n, t, hn, h⟩ := Mapping.of_bind h
      obtain ⟨hfinds, ht⟩ := of_node hs hn
      obtain ⟨delta, t₁, hdelta, h⟩ := Mapping.of_bind h
      exact changeBy_carried (ht.of_run (.ofMisuse _) hdelta) h fun p hp =>
        .operate hp (.date hfinds (Mapping.of_ofMisuse hdelta))
    | add => exact changeMembers_carried hs h fun p hp => .operate hp .add
    | delete => exact changeMembers_carried hs h fun p hp => .operate hp .delete

theorem topOperator_carried (hs : After place.schema cache s)
    (h : (topOperator place key v d).run s = (.ok d', s')) :
    Carried place cache (operatorInstructions none key v) d d' s' := by
  have hfields (onlyIfAbsent : Bool)
      (h : (topOperator.assignments place key v d onlyIfAbsent).run s = (.ok d', s')) :
      Carried place cache (fieldInstructions onlyIfAbsent (v.asMap?.getD [])) d d' s' := by
    cases v with
    | map entries => exact assignFields_carried onlyIfAbsent entries hs h
    | _ => exact (Mapping.of_misuse h).elim
  unfold topOperator at h
  unfold operatorInstructions
  cases hkey : UpdateKey.ofName? key with
  | none =>
    rw [hkey] at h
    exact (Mapping.of_misuse h).elim
  | some k =>
    rw [hkey] at h
    cases k with
    | set => exact hfields false h
    | ifNotExists => exact hfields true h
    | remove => exact removeTargets_carried _ hs h
    | _ => exact (Mapping.of_misuse h).elim

theorem leaf_operator_carried (hkey : ConditionKey.isOperator key = true) (hs : After place.schema cache s)
    (h : (leaf place parent key v d).run s = (.ok d', s')) :
    Carried place cache (operatorInstructions parent key v) d d' s' := by
  unfold leaf at h
  rw [if_pos hkey] at h
  cases parent with
  | none => exact topOperator_carried hs h
  | some path => exact nestedOperator_carried hs h

theorem leaf_carried (hs : After place.schema cache s) (h : (leaf place parent key v d).run s = (.ok d', s')) :
    Carried place cache (if ConditionKey.isOperator key then operatorInstructions parent key v
      else [.assign (pathBelow parent key) v]) d d' s' := by
  by_cases hkey : ConditionKey.isOperator key = true
  · rw [if_pos hkey]
    exact leaf_operator_carried hkey hs h
  · rw [if_neg hkey]
    unfold leaf at h
    rw [if_neg hkey] at h
    dsimp only at h
    split at h
    · exact assign_carried hs h fun p hp => .null hp
    · obtain ⟨w, t, hw, h⟩ := Mapping.of_bind h
      obtain ⟨n, hn, hfits, ht⟩ := of_fit hs hw
      exact assign_carried ht h fun p hp => .assign hp hn hfits

mutual

theorem readEntries_carried : ∀ (entries : List (String × Value)) {parent : Option String} {d d' : UpdateDraft}
    {s s' : Session}, After place.schema cache s → (readEntries place parent entries d).run s = (.ok d', s') →
      Carried place cache (instructions parent entries) d d' s'
  | [], parent, d, d', s, s', hs, h => by
    rw [readEntries] at h
    obtain ⟨rfl, rfl⟩ := Mapping.of_pure h
    rw [instructions]
    exact .nothing hs
  | (key, v) :: rest, parent, d, d', s, s', hs, h => by
    rw [readEntries] at h
    obtain ⟨d₁, t, hentry, h⟩ := Mapping.of_bind h
    have hfirst := readEntry_carried v hs hentry
    rw [instructions]
    exact hfirst.append (readEntries_carried rest hfirst.after h)

theorem readEntry_carried : ∀ (v : Value) {parent : Option String} {key : String} {d d' : UpdateDraft}
    {s s' : Session}, After place.schema cache s → (readEntry place parent key v d).run s = (.ok d', s') →
      Carried place cache (entryInstructions parent key v) d d' s'
  | .undefined, parent, key, d, d', s, s', hs, h => by
    obtain ⟨rfl, rfl⟩ := Mapping.of_pure h
    exact .nothing hs
  | .map entries, parent, key, d, d', s, s', hs, h => by
    rw [readEntry] at h
    rw [entryInstructions]
    by_cases hkey : ConditionKey.isOperator key = true
    · rw [if_pos hkey] at h ⊢
      exact leaf_operator_carried hkey hs h
    · rw [if_neg hkey] at h ⊢
      exact readEntries_carried entries hs h
  | .null, _, _, _, _, _, _, hs, h | .bool _, _, _, _, _, _, _, hs, h | .number _, _, _, _, _, _, _, hs, h
  | .bigInt _, _, _, _, _, _, _, hs, h | .string _, _, _, _, _, _, _, hs, h | .binary _, _, _, _, _, _, _, hs, h
  | .date _, _, _, _, _, _, _, hs, h | .list _, _, _, _, _, _, _, hs, h | .set _, _, _, _, _, _, _, hs, h =>
    leaf_carried hs h

end

/-- What is read is an update of actions that carry out the instructions of the document. -/
theorem exists_actions {schema : Schema} {doc : Value} {u : Update}
    (h : (schema.readUpdate table doc).run s = (.ok u, s')) : ∃ entries actions, doc = .map entries ∧
      List.Forall₂ (CarriedOut ⟨schema, table⟩ s.cache) (instructions none entries) actions ∧ u = .ofActions actions := by
  unfold Schema.readUpdate at h
  split at h
  · rename_i entries
    obtain ⟨d, t, hd, h⟩ := Mapping.of_bind h
    obtain ⟨rfl, -⟩ := Mapping.of_pure h
    obtain ⟨actions, hactions, hupdate⟩ := (readEntries_carried entries ⟨[], rfl⟩ hd).actions
    exact ⟨entries, actions, rfl, hactions, hupdate⟩
  · exact (Mapping.of_misuse h).elim

/-- Every instruction of a document is carried out by one action, and by no other one, and the actions of all clauses have
targets of their own. -/
theorem readUpdate_carriesOut {schema : Schema} {doc : Value} {u : Update}
    (h : (schema.readUpdate table doc).run s = (.ok u, s')) : u.targets.Nodup ∧
      ∃ entries actions, doc = .map entries ∧ u = .ofActions actions ∧
        List.Forall₂ (CarriedOut ⟨schema, table⟩ s.cache) (instructions none entries) actions := by
  obtain ⟨entries, actions, hdoc, hactions, hupdate⟩ := exists_actions h
  exact ⟨.of_map _ (readUpdate_wellFormed h).distinct, entries, actions, hdoc, hupdate, hactions⟩

theorem exists_run {schema : Schema} {doc : Value} {targets : List DocumentPath}
    (h : ((schema.readUpdate table doc).run s).1.toOption.map Update.targets = some targets) :
    ∃ u s', (schema.readUpdate table doc).run s = (.ok u, s') ∧ u.targets = targets := by
  cases hread : (schema.readUpdate table doc).run s with
  | mk result s' =>
    rw [hread] at h
    cases result with
    | error e => cases h
    | ok u => exact ⟨u, s', rfl, Option.some.inj h⟩

def postFields : SchemaDeclaration := [
  ("id", .typed .string none none false { memberships := { primary := true } }),
  ("title", .tag .string),
  ("views", .typed .number none none false {}),
  ("body", .typed .array none (some (.tag .string)) false {}),
  ("tags", .typed .array none (some (.tag .string)) false {}),
  ("readers", .typed .set none (some (.tag .string)) false {})]

def posts : Schema := .compiled postFields

def postChange : Value := .map [
  ("views", .map [("$incr", .number (.ofInt 1))]),
  ("$remove", .list [.string "tags", .string "body[0]"]),
  ("readers", .map [("$add", .string "ann")]),
  ("$set", .map [("id", .undefined), ("title", .string "Tides")])]

theorem post_carriesOut : ∃ u s', (posts.readUpdate "posts" postChange).run {} = (.ok u, s') ∧
    u.targets = [.field "views", .field "title", .field "tags", ⟨[.name "body", .index 0]⟩, .field "readers"] ∧
    u.targets.Nodup ∧ ∃ entries actions, postChange = .map entries ∧ u = .ofActions actions ∧
      List.Forall₂ (CarriedOut ⟨posts, "posts"⟩ []) (instructions none entries) actions := by
  obtain ⟨u, s', hread, htargets⟩ := exists_run (show ((posts.readUpdate "posts" postChange).run {}).1.toOption.map
    Update.targets = some [.field "views", .field "title", .field "tags", ⟨[.name "body", .index 0]⟩, .field "readers"]
    by decide +kernel)
  exact ⟨u, s', hread, htargets, readUpdate_carriesOut hread⟩

end UpdateDocument

end ItemMapper
