import ItemMapper.Proofs.Mentions
import ItemMapper.Proofs.PathCaches
import ItemMapper.Proofs.Prepared
import ItemMapper.Proofs.ReadingRules

/-!
# Undefined operands

A document that compares something with an undefined value is refused when it is read, and what is read from any other
document has no undefined literal in it. The one comparison that is not looked at is that of a size with an entry of a
map: there the undefined value gets into the condition.
-/

namespace ItemMapper

variable {schema : Schema} {parent : Option String} {key path : String} {v w : Value} {s s' : Session}

def Condition.Defined (c : Condition) : Prop := ∀ v, .literal v ∈ c.mentions → v.isUndefined = false

namespace Mapping

variable {α β : Type} {p : Mapping α} {q : α → Mapping β}

def Misuses (p : Mapping α) : Prop := ∀ s e s', p.run s = (.error e, s') → ∃ m, e = .misuse m

theorem Misuses.pure (a : α) : (Pure.pure a : Mapping α).Misuses := by
  intro s e s' h
  cases h

theorem Misuses.misuse (m : Misuse) : (misuse m : Mapping α).Misuses := by
  intro s e s' h
  cases h
  exact ⟨m, rfl⟩

theorem Misuses.ofMisuse (x : Except Misuse α) : (ofMisuse x).Misuses := by
  intro s e s' h
  cases x with
  | ok a => cases h
  | error m =>
    cases h
    exact ⟨m, rfl⟩

theorem Misuses.node (path : String) : (node schema path).Misuses := by
  intro s e s' h
  simp only [Mapping.node, ExceptT.run] at h
  split at h
  · cases h
  · rename_i m _
    cases h
    exact ⟨m, rfl⟩

theorem Misuses.bind (hp : p.Misuses) (hq : ∀ a, (∃ s t, p.run s = (.ok a, t)) → (q a).Misuses) : (p >>= q).Misuses := by
  intro s e s' h
  rw [Outcome.run_bind] at h
  cases hs : p.run s with
  | mk result t =>
    rw [hs] at h
    cases result with
    | error f =>
      cases h
      exact hp s e _ hs
    | ok a => exact hq a ⟨s, t, hs⟩ t e s' h

end Mapping

namespace ConditionDocument

open Mapping

/-- A value that a document gives to compare with, and whether a comparison in a map of sizes has it. -/
structure Comparand where
  ofSize : Bool
  value : Value

def memberComparands : Value → List Comparand
  | .list items => items.map (⟨false, ·⟩)
  | v => [⟨false, v⟩]

def sizeEntryComparands (key : String) (v : Value) : List Comparand :=
  match ConditionKey.ofName key with
  | .compare _ => [⟨true, v⟩]
  | _ => memberComparands v

def sizeComparands : Value → List Comparand
  | .map entries => entries.flatMap fun e => sizeEntryComparands e.1 e.2
  | v => [⟨false, v⟩]

def leafComparands (key : String) (v : Value) : List Comparand :=
  match ConditionKey.ofName key with
  | .isIn => memberComparands v
  | .between => memberComparands v
  | .size => sizeComparands v
  | _ => [⟨false, v⟩]

mutual

/-- The values that a document compares with, in order. A condition that is undefined counts as one. -/
def comparands : Value → List Comparand
  | .map entries => entriesComparands entries
  | _ => []

def entriesComparands : List (String × Value) → List Comparand
  | [] => []
  | (key, v) :: rest => entryComparands key v ++ entriesComparands rest

def entryComparands (key : String) : Value → List Comparand
  | .map entries =>
    match ConditionKey.ofName key with
    | .named => entriesComparands entries
    | .not => entriesComparands entries
    | _ => leafComparands key (.map entries)
  | .list items =>
    match ConditionKey.ofName key with
    | .logical _ => itemsComparands items
    | _ => leafComparands key (.list items)
  | v => leafComparands key v

def itemsComparands : List Value → List Comparand
  | [] => []
  | .undefined :: rest => ⟨false, .undefined⟩ :: itemsComparands rest
  | v :: rest => comparands v ++ itemsComparands rest

end

/-- Of the values only sizes may be undefined, and all are defined exactly if all the literals are. -/
structure Follows (xs : List Comparand) (ms : List Mention) : Prop where
  plain : ∀ x ∈ xs, x.ofSize = false → x.value.isUndefined = false
  defined_iff : (∀ v, .literal v ∈ ms → v.isUndefined = false) ↔ ∀ x ∈ xs, x.value.isUndefined = false

variable {xs ys : List Comparand} {ms ns : List Mention} {cs : List Condition} {p : DocumentPath}

theorem Follows.of_defined (hxs : ∀ x ∈ xs, x.value.isUndefined = false)
    (hms : ∀ v, .literal v ∈ ms → v.isUndefined = false) : Follows xs ms :=
  ⟨fun x hx _ => hxs x hx, iff_of_true hms hxs⟩

theorem Follows.append (h : Follows xs ms) (h' : Follows ys ns) : Follows (xs ++ ys) (ms ++ ns) where
  plain := List.forall_mem_append.2 ⟨h.plain, h'.plain⟩
  defined_iff := by
    rw [List.forall_mem_append, ← h.defined_iff, ← h'.defined_iff]
    simp only [List.mem_append, or_imp, forall_and]

theorem Follows.nil : Follows [] [] := .of_defined (List.forall_mem_nil _) (by simp)

theorem defined_of_members {items : List Value} (h : ∀ v ∈ items, v.isUndefined = false) :
    ∀ x ∈ memberComparands (.list items), x.value.isUndefined = false :=
  List.forall_mem_map.2 h

theorem Follows.single (hv : v.isUndefined = false) (hms : ∀ w, .literal w ∈ ms → w.isUndefined = false) :
    Follows [⟨false, v⟩] ms :=
  .of_defined (List.forall_mem_singleton.2 hv) hms

theorem mentions_conjunction : (conjunction cs).elim [] Condition.mentions = Condition.allMentions cs := by
  cases cs with
  | nil => rfl
  | cons c rest =>
    cases rest with
    | nil =>
      rw [Condition.allMentions, Condition.allMentions, List.append_nil]
      rfl
    | cons d rest => rfl

/-- A value and its stored form are defined alike, and so are their members where the form is a list. -/
structure Alike (v w : Value) : Prop where
  self : w.isUndefined = v.isUndefined
  members : ∀ ws, w = .list ws → ∃ vs, v = .list vs ∧ ws.map Value.isUndefined = vs.map Value.isUndefined

theorem Alike.refl : Alike v v where
  self := rfl
  members ws h := ⟨ws, h, rfl⟩

theorem alike_storedForm {n : Node} : Alike v (n.storedForm v) where
  self := Node.storedForm_isUndefined
  members ws h := by
    rw [Node.storedForm] at h
    split at h
    · cases hstored : n.dateFormat.stored? v with
      | none =>
        rw [hstored] at h
        exact ⟨ws, h, rfl⟩
      | some w =>
        obtain ⟨ms, -, rfl⟩ := Option.map_eq_some_iff.1 hstored
        rw [hstored] at h
        cases h
    · exact ⟨ws, h, rfl⟩

theorem alike_literalForm {n : Node} : Alike v (literalForm n v) := by
  unfold literalForm
  split
  · split
    · rename_i items
      refine ⟨rfl, fun ws h => ⟨items, rfl, ?_⟩⟩
      cases h
      rw [List.map_map]
      exact List.map_congr_left fun item _ => Node.storedForm_isUndefined
    · exact alike_storedForm
    · exact alike_storedForm
    · exact alike_storedForm
    · exact .refl
  · exact .refl

theorem alike_inStoredForm : (inStoredForm schema path v).Yields (Alike v) := by
  rw [inStoredForm]
  split
  · exact Yields.any.bind fun n _ => yields_judgement.pure alike_literalForm
  · exact yields_judgement.pure .refl

theorem Alike.members_defined {ws : List Value} (h : Alike v (.list ws)) (hws : ∀ w ∈ ws, w.isUndefined = false) :
    ∀ x ∈ memberComparands v, x.value.isUndefined = false := by
  obtain ⟨vs, rfl, hmap⟩ := h.members ws rfl
  have hall : ∀ b ∈ vs.map Value.isUndefined, b = false := by
    rw [← hmap]
    exact List.forall_mem_map.2 hws
  exact defined_of_members (List.forall_mem_map.1 hall)

theorem candidates_defined : (candidates parent w).Yields fun os =>
    ∃ ws, w = .list ws ∧ (∀ x ∈ ws, x.isUndefined = false) ∧ os = ws.map .literal := by
  unfold candidates
  split
  · split
    · exact yields_judgement.misuse _
    · rename_i ws hws
      simp only [Bool.or_eq_true, not_or, List.any_eq_true, not_exists, not_and, Bool.not_eq_true] at hws
      exact yields_judgement.pure ⟨ws, rfl, hws.2, rfl⟩
  · exact yields_judgement.misuse _

theorem follows_isIn {o : Operand} {ws : List Value} (ho : o.mention = .path p) (hv : Alike v (.list ws))
    (hws : ∀ w ∈ ws, w.isUndefined = false) :
    Follows (memberComparands v) (Condition.isIn o (ws.map .literal)).mentions := by
  refine .of_defined (hv.members_defined hws) fun w hw => hws w ?_
  rw [Condition.mentions, ho, List.map_map, List.mem_cons, or_iff_right (by simp)] at hw
  obtain ⟨x, hx, hw⟩ := List.mem_map.1 hw
  cases hw
  exact hx

theorem follows_between {o : Operand} {low high : Value} (ho : o.mention = .path p) (hv : Alike v (.list [low, high]))
    (hlow : low.isUndefined = false) (hhigh : high.isUndefined = false) :
    Follows (memberComparands v) (Condition.between o (.literal low) (.literal high)).mentions := by
  have hbounds : ∀ w ∈ [low, high], w.isUndefined = false := by simp [hlow, hhigh]
  refine .of_defined (hv.members_defined hbounds) fun w hw => hbounds w ?_
  rw [Condition.mentions, ho, List.mem_cons, or_iff_right (by simp)] at hw
  simpa [Operand.mention] using hw

theorem follows_compare {op : Comparison} {o : Operand} (ho : o.mention = .path p) (hv : v.isUndefined = false)
    (hw : w.isUndefined = false) : Follows [⟨false, v⟩] (Condition.compare o op (.literal w)).mentions := by
  refine .single hv fun x hx => ?_
  rw [Condition.mentions, ho] at hx
  have hxw : x = w := by simpa [Operand.mention] using hx
  rwa [hxw]

theorem follows_sizeEntry : (sizeEntry parent p key v).Yields fun c => Follows (sizeEntryComparands key v) c.mentions := by
  unfold sizeEntry sizeEntryComparands
  cases ConditionKey.ofName key with
  | compare op =>
    -- the only entry whose value is not looked at
    refine yields_judgement.pure ⟨by simp, ?_⟩
    simp [Condition.mentions, Operand.mention]
  | isIn =>
    refine candidates_defined.bind fun os hos => ?_
    obtain ⟨ws, rfl, hws, rfl⟩ := hos
    exact yields_judgement.pure (follows_isIn (o := .size p) rfl .refl hws)
  | between =>
    dsimp only
    split
    · rename_i low high
      split
      · rename_i hbounds
        have hnumber {x : Value} (hx : x.isSetNumber = true) : x.isUndefined = false := by
          cases x <;> first | rfl | cases hx
        rw [Bool.and_eq_true] at hbounds
        exact yields_judgement.pure (follows_between (o := .size p) rfl .refl (hnumber hbounds.1) (hnumber hbounds.2))
      · exact yields_judgement.misuse _
    · exact yields_judgement.misuse _
  | _ => exact yields_judgement.misuse _

theorem follows_sizeEntries (entries : List (String × Value)) :
    (entries.mapM fun e => sizeEntry parent p e.1 e.2).Yields fun cs =>
      Follows (sizeComparands (.map entries)) (Condition.allMentions cs) := by
  induction entries with
  | nil => exact yields_judgement.pure .nil
  | cons e rest ih =>
    rw [List.mapM_cons]
    exact follows_sizeEntry.bind fun c hc => ih.bind fun cs hcs => yields_judgement.pure (hc.append hcs)

theorem Follows.conjunction {f : Condition → Condition} {m : Misuse} (h : Follows xs (Condition.allMentions cs))
    (hf : ∀ c, (f c).mentions = c.mentions) :
    (match conjunction cs with
      | some c => Pure.pure (f c)
      | none => Mapping.misuse m : Mapping Condition).Yields fun c => Follows xs c.mentions := by
  rw [← mentions_conjunction] at h
  cases hc : ConditionDocument.conjunction cs with
  | none => exact yields_judgement.misuse _
  | some c =>
    rw [hc, Option.elim_some, ← hf] at h
    exact yields_judgement.pure h

theorem follows_sizeCondition (hv : v.isUndefined = false) : (sizeCondition parent v).Yields fun c =>
    Follows (sizeComparands v) c.mentions := by
  rw [sizeCondition]
  refine Yields.any.bind fun p _ => ?_
  cases v with
  | map entries => exact (follows_sizeEntries entries).bind fun cs hcs => hcs.conjunction (f := id) fun _ => rfl
  | undefined => cases hv
  | _ => exact yields_judgement.pure (follows_compare (o := .size p) rfl rfl rfl)

theorem follows_function {name : Predicate} {argument : Option Value} (hv : v.isUndefined = false)
    (hargument : ∀ w ∈ argument, w.isUndefined = false) :
    (function parent key name argument).Yields fun c => Follows [⟨false, v⟩] c.mentions := by
  refine Yields.any.bind fun p _ => yields_judgement.pure (.single hv fun w hw => hargument w ?_)
  cases argument with
  | none => simp [Condition.mentions] at hw
  | some x => simpa [Condition.mentions, Operand.mention, eq_comm] using hw

theorem follows_leaf (hv : v.isUndefined = false) : (leaf schema parent key v).Yields fun c =>
    Follows (leafComparands key v) c.mentions := by
  unfold leaf leafComparands
  cases ConditionKey.ofName key with
  | named =>
    refine alike_inStoredForm.bind fun w hw => Yields.any.bind fun p _ => yields_judgement.pure ?_
    exact follows_compare rfl hv (hw.self.trans hv)
  | logical op => exact yields_judgement.misuse _
  | not => dsimp only; split <;> exact yields_judgement.misuse _
  | compare op =>
    refine Yields.any.bind fun p _ => alike_inStoredForm.bind fun w hw => yields_judgement.pure ?_
    exact follows_compare rfl hv (hw.self.trans hv)
  | isIn =>
    refine Yields.any.bind fun p _ => alike_inStoredForm.bind fun w hw => candidates_defined.bind fun os hos => ?_
    obtain ⟨ws, rfl, hws, rfl⟩ := hos
    exact yields_judgement.pure (follows_isIn (o := .path p) rfl hw hws)
  | between =>
    refine Yields.any.bind fun p _ => alike_inStoredForm.bind fun w hw => ?_
    split
    · rename_i low high
      split
      · exact yields_judgement.misuse _
      · rename_i hbounds
        rw [Bool.or_eq_true, not_or, Bool.not_eq_true, Bool.not_eq_true] at hbounds
        exact yields_judgement.pure (follows_between (o := .path p) rfl hw hbounds.1 hbounds.2)
    · exact yields_judgement.misuse _
  | size => exact follows_sizeCondition hv
  | includes => exact follows_function hv (by simpa using hv)
  | startsWith => exact follows_function hv (by simpa using hv)
  | type => exact Yields.any.bind fun name _ => follows_function hv (by simp [Value.isUndefined])
  | unknown => exact yields_judgement.misuse _
  | _ => exact follows_function hv (by simp)

theorem itemsComparands_cons {rest : List Value} (hv : v.isUndefined = false) :
    itemsComparands (v :: rest) = comparands v ++ itemsComparands rest := by
  cases v with
  | undefined => cases hv
  | _ => rfl

mutual

theorem follows_read : ∀ (doc : Value) {parent : Option String}, (read schema parent doc).Yields fun o =>
    Follows (comparands doc) (o.elim [] Condition.mentions)
  | .map entries, parent => by
    rw [read, comparands]
    refine (follows_entries entries).bind fun cs hcs => yields_judgement.pure ?_
    rwa [mentions_conjunction]
  | .undefined, _ | .null, _ => yields_judgement.pure .nil
  | .bool _, _ | .number _, _ | .bigInt _, _ | .string _, _ | .binary _, _ | .date _, _ | .list _, _ | .set _, _ =>
    yields_judgement.misuse _

theorem follows_entries : ∀ (entries : List (String × Value)) {parent : Option String},
    (readEntries schema parent entries).Yields fun cs => Follows (entriesComparands entries) (Condition.allMentions cs)
  | [], parent => by
    rw [readEntries, entriesComparands]
    exact yields_judgement.pure .nil
  | (key, v) :: rest, parent => by
    rw [readEntries, entriesComparands]
    exact (follows_entry v key).bind fun c hc => (follows_entries rest).bind fun cs hcs =>
      yields_judgement.pure (hc.append hcs)

theorem follows_entry : ∀ (v : Value) (key : String) {parent : Option String},
    (readEntry schema parent key v).Yields fun c => Follows (entryComparands key v) c.mentions
  | .undefined, _, _ => yields_judgement.misuse _
  | .map entries, key, parent => by
    rw [readEntry, entryComparands]
    cases ConditionKey.ofName key with
    | named => exact (follows_entries entries).bind fun cs hcs => hcs.conjunction (f := id) fun _ => rfl
    | not => exact (follows_entries entries).bind fun cs hcs => hcs.conjunction (f := .not) fun _ => rfl
    | _ => exact follows_leaf rfl
  | .list items, key, parent => by
    rw [readEntry, entryComparands]
    cases ConditionKey.ofName key with
    | logical op =>
      refine (follows_items items op).bind fun cs hcs => ?_
      split
      · exact yields_judgement.misuse _
      · exact yields_judgement.pure hcs
    | _ => exact follows_leaf rfl
  | .null, _, _ | .bool _, _, _ | .number _, _, _ | .bigInt _, _, _ | .string _, _, _ | .binary _, _, _ | .date _, _, _
  | .set _, _, _ => follows_leaf rfl

theorem follows_items : ∀ (items : List Value) (op : Connective) {parent : Option String},
    (readItems schema parent op items).Yields fun cs => Follows (itemsComparands items) (Condition.allMentions cs)
  | [], op, parent => by
    rw [readItems, itemsComparands]
    exact yields_judgement.pure .nil
  | v :: rest, op, parent => by
    rw [readItems]
    cases hv : v.isUndefined with
    | true =>
      -- no condition is read here, and then the whole list is refused
      have hnone : (read schema parent v).Yields (· = none) := by
        cases v with
        | undefined => exact yields_judgement.pure rfl
        | _ => cases hv
      refine hnone.bind fun o ho => ?_
      rw [ho]
      exact yields_judgement.misuse _
    | false =>
      rw [itemsComparands_cons hv]
      refine (follows_read v).bind fun o ho => ?_
      cases o with
      | none => exact yields_judgement.misuse _
      | some c => exact (follows_items rest op).bind fun cs hcs => yields_judgement.pure (ho.append hcs)

end

theorem misuses_inStoredForm : (inStoredForm schema path v).Misuses := by
  rw [inStoredForm]
  split
  · exact (Misuses.node path).bind fun n _ => .pure _
  · exact .pure _

theorem misuses_traversal : Traversal schema (fun _ p P => p.Misuses ∧ p.Yields P) (fun _ => True) (fun _ => True)
    fun _ => True where
  rules := judgement_of_course .pure .misuse .ofMisuse .bind
  below _ := trivial
  path _ _ := trivial
  stored _ := ⟨misuses_inStoredForm, .any⟩
  equality _ := ⟨misuses_inStoredForm.bind fun _ _ => (Misuses.ofMisuse _).bind fun _ _ => .pure _, .any⟩
  leaf _ _ := trivial
  not _ := trivial
  logical _ _ := trivial

end ConditionDocument

open ConditionDocument

/-- A document is refused if it gives an undefined value for anything but the size of an attribute. What is read from one
has only defined literals exactly if no value in the document is undefined. -/
theorem Schema.readCondition_defined (schema : Schema) (doc : Value) (parent : Option String) (s : Session) :
    ((∃ x ∈ comparands doc, x.ofSize = false ∧ x.value.isUndefined = true) →
      ∃ m s', (schema.readCondition doc parent).run s = (.error (.misuse m), s')) ∧
    ∀ c s', (schema.readCondition doc parent).run s = (.ok (some c), s') →
      (c.Defined ↔ ∀ x ∈ comparands doc, x.value.isUndefined = false) := by
  constructor
  · intro ⟨x, hx, hsize, hundefined⟩
    cases hread : (schema.readCondition doc parent).run s with
    | mk result s' =>
      cases result with
      | ok o =>
        have hdefined := (follows_read doc s o s' hread).plain x hx hsize
        rw [hdefined] at hundefined
        cases hundefined
      | error e =>
        obtain ⟨m, rfl⟩ := (misuses_traversal.read doc trivial).1 s e s' hread
        exact ⟨m, s', rfl⟩
  · intro c s' hread
    exact (follows_read doc s (some c) s' hread).defined_iff

def tagCount : Value := .map [("tags", .map [("$size", .map [("$gt", .undefined)])])]

/-- The number of tags is compared with nothing. -/
theorem tagCount_not_defined : Schema.ofDeclaration Schema.taggedDeclaration = .ok Schema.tagged ∧
    ∃ c s', (Schema.tagged.readCondition tagCount none).run {} = (.ok (some c), s') ∧ ¬ c.Defined := by
  refine ⟨rfl, .compare (.size (.field "tags")) .gt (.literal .undefined), _, rfl, fun hdefined => ?_⟩
  have hliteral := hdefined .undefined (by simp [Condition.mentions, Operand.mention])
  cases hliteral

end ItemMapper
