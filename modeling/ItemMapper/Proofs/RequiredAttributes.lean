import ItemMapper.Proofs.FoundPuts
import ItemMapper.Proofs.Instructions

/-!
# Required attributes

What an update removes is looked up by its path, and what is found must not be required. A name in the list of removals
is its own path, unless it can be read as an index. Then it stands for an entry of a list above all attributes, and the
attribute with this name is not asked about.
-/

namespace ItemMapper

open NumberLayout

variable {schema : Schema} {name table : String} {entries : List (String × Value)} {targets target : Value} {n : Node}
  {i : Nat} {s s' : Session} {u : Update}

namespace DocumentPath

theorem exists_pattern {text : String} (h : '#' ∉ text.toList) : ∃ key, pattern text = .ok key := by
  have hplain : ¬ Text.contains ['[', '#', ']'] text.toList = true := by
    intro hcontains
    have hmark := (Text.contains_iff (by decide)).1 hcontains
    exact h (hmark.subset (by decide))
  exact ⟨_, by rw [pattern, if_neg hplain]⟩

theorem text_index : (⟨[.index i]⟩ : DocumentPath).text = String.ofList (indexChars i) := by
  change String.ofList (indexChars i ++ []) = _
  rw [List.append_nil]

theorem parse?_index (h : i < twoPow 64) : parse? (String.ofList (indexChars i)) = some ⟨[.index i]⟩ := by
  rw [← text_index]
  exact parse?_text (List.cons_ne_nil _ _) (List.forall_mem_singleton.2 h)

theorem exists_pattern_index : ∃ key, pattern (String.ofList (indexChars i)) = .ok key := by
  apply exists_pattern
  have hdigits : '#' ∉ natDigits i := not_mem_of_ascii (by decide) fun c hc =>
    NumberReader.isAsciiDigit_of_mem_natDigits hc
  simpa [indexChars] using hdigits

end DocumentPath

theorem Node.required_walk_index {root : Node} (h : root.field? name = some n) :
    (root.walk [.index i]).required = false := by
  cases root with
  | object m fields isOpen => cases isOpen <;> rfl
  | _ => cases h

namespace UpdateDocument

theorem mem_instructions_of_entry {i : Instruction} {parent : Option String} {key : String} {v : Value}
    (hentry : (key, v) ∈ entries) (hi : i ∈ entryInstructions parent key v) : i ∈ instructions parent entries := by
  induction entries with
  | nil => cases hentry
  | cons e rest ih =>
    rw [instructions]
    cases hentry with
    | head => exact List.mem_append_left _ hi
    | tail _ hrest => exact List.mem_append_right _ (ih hrest)

theorem mem_instructions_of_target (hentry : ("$remove", targets) ∈ entries) (hdefined : target ≠ .undefined)
    (htarget : target ∈ membersOf targets) : .remove (removalPath "" target) ∈ instructions none entries := by
  apply mem_instructions_of_entry hentry
  have hremovals : entryInstructions none "$remove" targets = removalInstructions "" (membersOf targets) := by
    cases targets with
    | undefined => exact absurd (List.mem_singleton.1 htarget) hdefined
    | _ => rfl
  rw [hremovals]
  exact List.mem_map_of_mem htarget

theorem finds_of_target (h : (schema.readUpdate table (.map entries)).run s = (.ok u, s'))
    (hentry : ("$remove", targets) ∈ entries) (hdefined : target ≠ .undefined) (htarget : target ∈ membersOf targets) :
    ∃ n, Finds schema s.cache (removalPath "" target) n ∧ n.required = false := by
  obtain ⟨_, actions, hdoc, hactions, -⟩ := exists_actions h
  cases hdoc
  obtain ⟨a, -, ha⟩ := exists_of_forall₂ hactions (mem_instructions_of_target hentry hdefined htarget)
  cases ha with
  | remove hp hn hfree => exact ⟨_, hn, hfree⟩

theorem removalPath_of_name (h : NumberReader.index? name.toList = none) : removalPath "" (.string name) = name := by
  have hindex : index? (.string name) = none := h
  rw [removalPath, hindex]
  rfl

theorem removalPath_of_index (h : NumberReader.index? name.toList = some i) :
    removalPath "" (.string name) = String.ofList (DocumentPath.indexChars i) := by
  have hindex : index? (.string name) = some i := h
  rw [removalPath, hindex]
  exact String.empty_append

theorem removes_index (table : String) (hf : schema.field? name = some n) (h : NumberReader.index? name.toList = some i) :
    ∃ s', (schema.readUpdate table (.map [("$remove", .string name)])).run {} =
      (.ok { removes := [⟨[.index i]⟩] }, s') := by
  obtain ⟨key, hkey⟩ := DocumentPath.exists_pattern_index (i := i)
  have hparse : DocumentPath.parse (String.ofList (DocumentPath.indexChars i)) = .ok ⟨[.index i]⟩ :=
    DocumentPath.parse_of_parse? (DocumentPath.parse?_index (DocumentPath.lt_of_index? h))
  have hnode : (Mapping.node schema (removalPath "" (.string name))).run {} =
      (.ok (schema.root.walk [.index i]), ⟨[(key, schema.root.walk [.index i])], []⟩) := by
    rw [removalPath_of_index h, run_node, Schema.nodeAtText, hkey]
    simp only [hparse]
    rfl
  have htargets : (removeTargets ⟨schema, table⟩ "" [.string name] {}).run {} = (.ok
      { update := { removes := [⟨[.index i]⟩] }, targets := [String.ofList (DocumentPath.indexChars i)] },
      ⟨[(key, schema.root.walk [.index i])], []⟩) := by
    rw [removeTargets, Outcome.run_bind, hnode]
    simp only [Node.required_walk_index hf, removalPath_of_index h, parsed, hparse]
    rw [← DocumentPath.text_index]
    rfl
  refine ⟨⟨[(key, schema.root.walk [.index i])], []⟩, ?_⟩
  change ((removeTargets ⟨schema, table⟩ "" [.string name] {} >>= fun d => pure d) >>= fun d =>
    pure d.update : Mapping Update).run {} = _
  rw [bind_pure, Outcome.run_bind, htargets]
  rfl

end UpdateDocument

open UpdateDocument

/-- No update that lists the name among what it removes is read, whatever was looked up before. -/
def Schema.Keeps (schema : Schema) (name : String) : Prop :=
  ∀ table entries targets s, After schema [] s → ("$remove", targets) ∈ entries → .string name ∈ membersOf targets →
    ∀ u s', (schema.readUpdate table (.map entries)).run s ≠ (.ok u, s')

/-- A required attribute is kept, unless its name reads as an index. -/
theorem Schema.keeps_iff (hf : schema.field? name = some n) (hrequired : n.required = true)
    (hname : DocumentPath.parse? name = some (.field name)) : schema.Keeps name ↔
    NumberReader.index? name.toList = none := by
  constructor
  · intro hkeeps
    rw [Option.eq_none_iff_forall_ne_some]
    intro i hi
    obtain ⟨s', hread⟩ := removes_index "" hf hi
    exact hkeeps "" _ (.string name) {} ⟨[], rfl⟩ List.mem_cons_self List.mem_cons_self _ _ hread
  · intro hindex table entries targets s hs hentry htarget u s' hread
    -- the look-up of the name leads to its own node, which is required, while what was found is not
    obtain ⟨m, hm, hfree⟩ := finds_of_target hread hentry (by simp) htarget
    obtain ⟨before, hbefore⟩ := hs
    obtain ⟨later, hfound⟩ := hm
    rw [removalPath_of_name hindex, hbefore, ← Schema.filled_append, Schema.nodeAtText_field hname,
      Node.walk_of_field? hf] at hfound
    rw [← Except.ok.inj hfound, hrequired] at hfree
    cases hfree

theorem posts_keeps_id : (∃ n, posts.field? "id" = some n ∧ n.required = true) ∧
    DocumentPath.parse? "id" = some (.field "id") ∧ NumberReader.index? "id".toList = none ∧ posts.Keeps "id" := by
  have hindex : NumberReader.index? "id".toList = none := by decide
  exact ⟨⟨_, rfl, rfl⟩, rfl, hindex, (Schema.keeps_iff rfl rfl rfl).2 hindex⟩

def seatFields : SchemaDeclaration := [("5", .typed .string none none false { memberships := { primary := true } })]

def seats : Schema := .compiled seatFields

/-- The partition key is listed, and what is removed is an entry of no list. -/
theorem seats_not_keeps : Schema.ofDeclaration seatFields = .ok seats ∧
    (∃ n, seats.field? "5" = some n ∧ n.required = true) ∧ DocumentPath.parse? "5" = some (.field "5") ∧
    (∃ s', (seats.readUpdate "seats" (.map [("$remove", .string "5")])).run {} =
      (.ok { removes := [⟨[.index 5]⟩] }, s')) ∧ ¬ seats.Keeps "5" := by
  have hread : ∃ s', (seats.readUpdate "seats" (.map [("$remove", .string "5")])).run {} =
      (.ok { removes := [⟨[.index 5]⟩] }, s') :=
    removes_index "seats" (show seats.field? "5" = some _ from rfl)
      (show NumberReader.index? "5".toList = some 5 by decide)
  refine ⟨rfl, ⟨_, rfl, rfl⟩, rfl, hread, fun hkeeps => ?_⟩
  obtain ⟨s', hread⟩ := hread
  exact hkeeps "seats" _ (.string "5") {} ⟨[], rfl⟩ List.mem_cons_self List.mem_cons_self _ s' hread

end ItemMapper
