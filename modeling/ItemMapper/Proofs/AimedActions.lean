import ItemMapper.Proofs.Instructions
import ItemMapper.Proofs.Mentions
import ItemMapper.Proofs.UpdateMeaning

/-!
# Where actions aim

A value for a declared field is checked against the node of that field, and it is assigned to the path that the name of
the field spells when it is read as a text. The two are the same place unless the name has a point or a bracket in it.
What an assignment reads besides its literal is always its own target, with that one exception.
-/

namespace ItemMapper

variable {name path : String} {p : DocumentPath}

namespace DocumentPath

theorem eq_field_iff (h : parse? name = some p) : p = field name ↔ '.' ∉ name.toList ∧ '[' ∉ name.toList := by
  constructor
  · intro hp
    rw [hp] at h
    exact plain_of_parse? h
  · intro ⟨hpoint, hbracket⟩
    have hne : name ≠ "" := by
      intro hname
      rw [hname] at h
      cases h
    have hreadable : ∀ e ∈ (field name).elements, e.Readable :=
      List.forall_mem_singleton.2 ⟨hne, hpoint, hbracket⟩
    have hself : parse? (field name).text = some (field name) := parse?_text (List.cons_ne_nil _ _) hreadable
    rw [text_field, h] at hself
    exact Option.some.inj hself

end DocumentPath

/-- The field that is named, if any, has a name that no path of several steps could have for a text. -/
def Instruction.NamesOneStep : Instruction → Prop
  | field _ name _ => '.' ∉ name.toList ∧ '[' ∉ name.toList
  | _ => True

def Action.ReadsItself : Action → Prop
  | set x => ∀ q, .path q ∈ x.value.mentions → q = x.path
  | _ => True

namespace UpdateDocument

variable {place : Place} {cache : PathCache} {i : Instruction} {a : Action} {onlyIfAbsent : Bool} {v w : Value}
  {s s' : Session} {u : Update}

structure Aimed (place : Place) (i : Instruction) (a : Action) : Prop where
  own : a.ReadsItself
  declared : ∀ onlyIfAbsent name v, i = .field onlyIfAbsent name v → ∃ n w, place.schema.field? name = some n ∧
    FitsAs place.table n name v w ∧ a = .set ⟨.field name, fieldValue onlyIfAbsent name w⟩

theorem readsItself_literal : (Action.set ⟨p, .operand (.literal v)⟩).ReadsItself := by
  simp [Action.ReadsItself, Assigned.mentions, Operand.mention]

theorem readsItself_fieldValue : (Action.set ⟨.field name, fieldValue onlyIfAbsent name w⟩).ReadsItself := by
  cases onlyIfAbsent <;> simp [Action.ReadsItself, fieldValue, Assigned.mentions, Operand.mention]

theorem readsItself_of_operates {key : UpdateKey} (h : Operates place cache path p v key a) : a.ReadsItself := by
  cases h <;> simp [Action.ReadsItself, Assigned.mentions, Operand.mention]

theorem aimed_iff (h : CarriedOut place cache i a) : Aimed place i a ↔ i.NamesOneStep := by
  have aimed_of_own {i : Instruction} {a : Action} (hi : ∀ onlyIfAbsent name v, i ≠ .field onlyIfAbsent name v)
      (ha : a.ReadsItself) : Aimed place i a :=
    ⟨ha, fun onlyIfAbsent name v he => absurd he (hi onlyIfAbsent name v)⟩
  cases h with
  | assign hp hn hw => exact iff_of_true (aimed_of_own (by simp) readsItself_literal) trivial
  | null hp => exact iff_of_true (aimed_of_own (by simp) readsItself_literal) trivial
  | remove hp hn hfree => exact iff_of_true (aimed_of_own (by simp) trivial) trivial
  | operate hp ha => exact iff_of_true (aimed_of_own (by simp) (readsItself_of_operates ha)) trivial
  | @field onlyIfAbsent name p n v w hp hn hw =>
    rw [Instruction.NamesOneStep, ← DocumentPath.eq_field_iff hp]
    constructor
    · intro haimed
      obtain ⟨m, x, -, -, ha⟩ := haimed.declared _ _ _ rfl
      exact congrArg Assignment.path (Action.set.inj ha)
    · intro hfield
      rw [hfield]
      refine ⟨readsItself_fieldValue, fun _ _ _ he => ?_⟩
      cases he
      exact ⟨n, w, hn, hw, rfl⟩

/-- Each action of an update goes where its value was checked, unless it is for a field whose name has a point or a
bracket. -/
theorem readUpdate_aimed_iff {schema : Schema} {table : String} {doc : Value}
    (h : (schema.readUpdate table doc).run s = (.ok u, s')) :
    ∃ entries actions, doc = .map entries ∧ u = .ofActions actions ∧
      List.Forall₂ (fun i a => CarriedOut ⟨schema, table⟩ s.cache i a ∧ (Aimed ⟨schema, table⟩ i a ↔ i.NamesOneStep))
        (instructions none entries) actions := by
  obtain ⟨entries, actions, hdoc, hactions, hupdate⟩ := exists_actions h
  exact ⟨entries, actions, hdoc, hupdate, hactions.imp fun i a hcarried => ⟨hcarried, aimed_iff hcarried⟩⟩

def offerFields : SchemaDeclaration := [
  ("id", .typed .string none none false { memberships := { primary := true } }),
  ("title", .tag .string),
  ("views", .tag .number),
  ("price.net", .tag .number)]

def offers : Schema := .compiled offerFields

def offerChange : Value := .map [
  ("$set", .map [("title", .string "Lamp")]),
  ("views", .map [("$ifNotExists", .number (.ofInt 0))])]

theorem offer_aimed : ∃ u s', (offers.readUpdate "offers" offerChange).run {} = (.ok u, s') ∧
    u.targets = [.field "title", .field "views"] ∧
    ∃ entries actions, offerChange = .map entries ∧ u = .ofActions actions ∧
      List.Forall₂ (fun i a => CarriedOut ⟨offers, "offers"⟩ [] i a ∧ (Aimed ⟨offers, "offers"⟩ i a ↔ i.NamesOneStep))
        (instructions none entries) actions := by
  obtain ⟨u, s', hread, htargets⟩ := exists_run (show ((offers.readUpdate "offers" offerChange).run {}).1.toOption.map
    Update.targets = some [.field "title", .field "views"] by decide +kernel)
  exact ⟨u, s', hread, htargets, readUpdate_aimed_iff hread⟩

def priceChange : Value := .map [("$ifNotExists", .map [("price.net", .number (.ofInt 5))])]

/-- The price is asked for under its own name, and it is assigned below another attribute. -/
theorem price_not_aimed : Schema.ofDeclaration offerFields = .ok offers ∧
    ∃ u s', (offers.readUpdate "offers" priceChange).run {} = (.ok u, s') ∧
      u.targets = [⟨[.name "price", .name "net"]⟩] ∧
      ¬ ∃ entries actions, priceChange = .map entries ∧ u = .ofActions actions ∧
        List.Forall₂ (Aimed ⟨offers, "offers"⟩) (instructions none entries) actions := by
  have hinstructions : instructions none [("$ifNotExists", .map [("price.net", .number (.ofInt 5))])] =
      [.field true "price.net" (.number (.ofInt 5))] := rfl
  obtain ⟨u, s', hread, htargets⟩ : ∃ u s', (offers.readUpdate "offers" priceChange).run {} = (.ok u, s') ∧
      u.targets = [⟨[.name "price", .name "net"]⟩] := ⟨_, _, rfl, rfl⟩
  refine ⟨rfl, u, s', hread, htargets, ?_⟩
  rintro ⟨entries, actions, hentries, rfl, haimed⟩
  cases hentries
  rw [hinstructions] at haimed
  cases haimed with
  | cons haim hrest =>
    cases hrest
    obtain ⟨n, w, -, -, rfl⟩ := haim.declared _ _ _ rfl
    have hlengths : [1] = [2] := congrArg (List.map fun target : DocumentPath => target.elements.length) htargets
    exact absurd hlengths (by decide)

end UpdateDocument

end ItemMapper
