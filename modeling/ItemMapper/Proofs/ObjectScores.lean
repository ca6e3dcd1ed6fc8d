import ItemMapper.Item.Writing
import ItemMapper.Schema.Compile
import Mathlib.Algebra.BigOperators.Group.List.Basic
import Mathlib.Algebra.GroupWithZero.Nat

/-!
# Scores of objects

What a map scores at an object that competes for it. Each declared key gives half a point, and its value a point more
where it fits, or its own score if it is a map or a list; an open object gets a point for each of the other keys. One
case falls short of this: an open object whose declared keys give just a point for each of its fields gets nothing for
the others.
-/

namespace ItemMapper

namespace Node

variable {n f : Node} {v : Value} {m : Modifiers} {fields : List (String × Node)} {isOpen : Bool}
  {es : List (String × Value)}

def entryScore (fields : List (String × Node)) (e : String × Value) : Nat :=
  match Entries.get? e.1 fields with
  | none => 0
  | some f =>
    1 + (if f.hasKind e.2.kind? then (innerScore? f e.2).getD 2
      else match variantAt? f (bestVariant? (f.variants?.getD []) e.2) with
        | some variant => (innerScore? variant e.2).getD 2
        | none => if f.denotesDate e.2 then 2 else 0)

theorem matchedScore_eq_sum : matchedScore fields es = (es.map (entryScore fields)).sum := by
  induction es with
  | nil => rfl
  | cons e rest ih =>
    rw [matchedScore, ih, List.map_cons, List.sum_cons]
    rfl

/-- What a value is worth to a node that it fits, in half points: its score if it is a map or a list, else a point. -/
def worth (n : Node) : Value → Nat
  | .map entries => n.scoreAgainst entries
  | .list elements => ((bestList? [n.items?] (listScores [n.items?] elements)).map Prod.snd).getD 0
  | _ => 2

theorem innerScore?_getD : (innerScore? n v).getD 2 = n.worth v := by
  cases v <;> rfl

/-- What a value earns at a field, besides the half point for its key. It fits a union of which it predicts a variant,
a date if it denotes one, and any other field by its kind. -/
def earned (f : Node) (v : Value) : Nat :=
  match f with
  | union _ variants =>
    match (bestVariant? variants v).bind fun i => variants[i]? with
    | some u => u.worth v
    | none => 0
  | scalar m .date => if ((scalar m .date).millis? v).isSome then 2 else 0
  | f => if f.kind?.isSome ∧ f.kind? = v.kind? then f.worth v else 0

theorem hasKind_iff {kind : Option Kind} : f.hasKind kind = true ↔ f.kind?.isSome ∧ f.kind? = kind := by
  rw [hasKind, Bool.and_eq_true, beq_iff_eq]
  constructor
  · rintro ⟨hsome, he⟩
    exact ⟨he ▸ hsome, he⟩
  · rintro ⟨hsome, he⟩
    exact ⟨he ▸ hsome, he⟩

theorem earned_eq : f.earned v = if f.hasKind v.kind? then f.worth v
    else match variantAt? f (bestVariant? (f.variants?.getD []) v) with
      | some u => u.worth v
      | none => if f.denotesDate v then 2 else 0 := by
  have hnone (hkind : f.kind? = none) : f.hasKind v.kind? = false := by
    rw [Bool.eq_false_iff, ne_eq, hasKind_iff]
    simp [hkind]
  cases f with
  | union m variants =>
    simp only [hnone rfl, earned, variantAt?, variants?, Option.getD_some, denotesDate, isDate, Bool.false_and,
      Bool.false_eq_true, if_false]
  | scalar m k =>
    cases k with
    | date =>
      simp only [hnone rfl, earned, variantAt?, variants?, Option.getD_none, List.getElem?_nil, Option.bind_fun_none,
        denotesDate, isDate, Bool.true_and, Bool.false_eq_true, if_false]
    | _ =>
      simp only [earned, hasKind_iff, variantAt?, variants?, Option.getD_none, List.getElem?_nil, Option.bind_fun_none,
        denotesDate, isDate, Bool.false_and, Bool.false_eq_true, if_false]
  | _ =>
    simp only [earned, hasKind_iff, variantAt?, variants?, Option.getD_none, List.getElem?_nil, Option.bind_fun_none,
      denotesDate, isDate, Bool.false_and, Bool.false_eq_true, if_false]

def declaredPoints (fields : List (String × Node)) (entries : List (String × Value)) : Nat :=
  (entries.filterMap fun e => (Entries.get? e.1 fields).map fun f => 1 + f.earned e.2).sum

theorem matchedScore_eq_declaredPoints : matchedScore fields es = declaredPoints fields es := by
  rw [matchedScore_eq_sum, declaredPoints]
  induction es with
  | nil => rfl
  | cons e rest ih =>
    rw [List.map_cons, List.sum_cons, ih, List.filterMap_cons, entryScore]
    cases Entries.get? e.1 fields with
    | none => exact Nat.zero_add _
    | some f => simp only [innerScore?_getD, earned_eq, Option.map_some, List.sum_cons]

def undeclaredKeys (fields : List (String × Node)) (entries : List (String × Value)) : Nat :=
  (entries.filter fun e => !Entries.has e.1 fields).length

theorem undeclaredKeys_pos_iff :
    0 < undeclaredKeys fields es ↔ ∃ e ∈ es, Entries.has e.1 fields = false := by
  rw [undeclaredKeys, List.length_pos_iff_exists_mem]
  simp only [List.mem_filter, Bool.not_eq_true']

/-- The score of a map at an object by the rule, in half points: the declared keys, the empty map at the empty object,
and the undeclared keys if they are kept. -/
def reckoned (fields : List (String × Node)) (isOpen : Bool) (entries : List (String × Value)) : Nat :=
  declaredPoints fields entries + (if entries = [] ∧ fields = [] then 2 else 0) +
    (if isOpen = true then 2 * undeclaredKeys fields entries else 0)

/-- An open object gets a point for each of its fields, no less and no more, and there are other keys. -/
structure FallsShort (fields : List (String × Node)) (isOpen : Bool) (entries : List (String × Value)) : Prop where
  isOpen : isOpen = true
  hasFields : fields ≠ []
  even : declaredPoints fields entries = 2 * fields.length
  undeclared : ∃ e ∈ entries, Entries.has e.1 fields = false

theorem scoreAgainst_object : (object m fields isOpen).scoreAgainst es =
    if es = [] ∧ fields = [] then declaredPoints fields es + 2
    else if isOpen = true ∧ (declaredPoints fields es = 0 ∨ declaredPoints fields es ≠ 2 * fields.length) then
      declaredPoints fields es + 2 * undeclaredKeys fields es
    else declaredPoints fields es := by
  rw [scoreAgainst, scoreOf]
  simp only [fields?, Option.getD_some, matchedScore_eq_declaredPoints, Bool.and_eq_true, List.isEmpty_iff,
    keepsUndeclared]
  cases isOpen with
  | false => simp
  | true =>
    refine if_congr Iff.rfl rfl ?_
    simp only [true_and, if_true, undeclaredKeys]
    split_ifs <;> omega

/-- A map scores by the rule unless the object falls short; then nothing is added to the points of the declared keys. -/
theorem scoreAgainst_eq_reckoned_iff (m : Modifiers) (fields : List (String × Node)) (isOpen : Bool)
    (entries : List (String × Value)) :
    ((object m fields isOpen).scoreAgainst entries = reckoned fields isOpen entries ↔
        ¬ FallsShort fields isOpen entries) ∧
      (FallsShort fields isOpen entries →
        (object m fields isOpen).scoreAgainst entries = declaredPoints fields entries) := by
  have hshort : FallsShort fields isOpen entries → 0 < undeclaredKeys fields entries ∧
      (object m fields isOpen).scoreAgainst entries = declaredPoints fields entries := by
    intro h
    have hpoints : 0 < declaredPoints fields entries := by
      rw [h.even]
      exact Nat.mul_pos Nat.two_pos (List.length_pos_iff.2 h.hasFields)
    refine ⟨undeclaredKeys_pos_iff.2 h.undeclared, ?_⟩
    rw [scoreAgainst_object, if_neg fun he => h.hasFields he.2, if_neg]
    rintro ⟨-, hnone | hodd⟩
    · omega
    · exact hodd h.even
  refine ⟨⟨fun heq h => ?_, fun h => ?_⟩, fun h => (hshort h).2⟩
  · obtain ⟨hundeclared, hscore⟩ := hshort h
    rw [hscore, reckoned, if_neg fun he => h.hasFields he.2, if_pos h.isOpen] at heq
    omega
  · rw [scoreAgainst_object, reckoned]
    by_cases hempty : entries = [] ∧ fields = []
    · obtain ⟨rfl, rfl⟩ := hempty
      simp [undeclaredKeys]
    · rw [if_neg hempty, if_neg hempty]
      by_cases hopen : isOpen = true
      · by_cases hpoints : declaredPoints fields entries = 0 ∨ declaredPoints fields entries ≠ 2 * fields.length
        · simp [hopen, hpoints]
        · -- the declared keys are even with the fields, so there can be no other key
          obtain ⟨hpos, heven⟩ := not_or.1 hpoints
          have heven := not_not.1 heven
          have hfields : fields ≠ [] := by
            rintro rfl
            exact hpos heven
          have hnone : undeclaredKeys fields entries = 0 := by
            by_contra hsome
            exact h ⟨hopen, hfields, heven, undeclaredKeys_pos_iff.1 (Nat.pos_of_ne_zero hsome)⟩
          simp [hpoints, hnone]
      · simp [hopen]

end Node

namespace Schema

open Node (scoreAgainst reckoned FallsShort)

def contactFields : SchemaDeclaration := [
  ("id", .typed .string none none false { memberships := { primary := true } }),
  ("contact", .union [.typed .object (some [("name", .tag .string), ("age", .tag .number)]) none true {},
    .typed .object (some [("name", .tag .string), ("phone", .tag .number)]) none false {}])]

def needed : Modifiers := { required := true }

def person : Node := .object {} [("name", .scalar needed .string), ("age", .scalar needed .number)] true

def listing : Node := .object {} [("name", .scalar needed .string), ("phone", .scalar needed .number)] false

def contacts : Schema where
  root := .object needed [
    ("id", .scalar { required := true, memberships := { primary := true } } .string),
    ("contact", .union {} [person, listing])] false
  primaryKey := "id"
  sortKey := none
  attributeDefinitions := [⟨"id", .s⟩]
  localIndexes := []
  globalIndexes := []

def ann : List (String × Value) := [("name", .string "Ann"), ("age", .string "7"), ("phone", .string "1")]

/-- By the rule Ann is a person by three points to two. She gets two points there as well, is listed instead, since a
closed object wins a tie, and loses her age. -/
theorem ann_not_reckoned : ofDeclaration contactFields = .ok contacts ∧
    person.scoreAgainst ann = 4 ∧ reckoned (person.fields?.getD []) true ann = 6 ∧
    listing.scoreAgainst ann = 4 ∧ reckoned (listing.fields?.getD []) false ann = 4 ∧
    Node.bestVariant? [person, listing] (.map ann) = some 1 ∧
    (contacts.root.forStore (.map [("id", .string "a"), ("contact", .map ann)]) .undefined {}).1 =
      .map [("id", .string "a"), ("contact", .map [("name", .string "Ann"), ("phone", .string "1")])] ∧
    ¬ ∀ m fields isOpen entries,
      (Node.object m fields isOpen).scoreAgainst entries = reckoned fields isOpen entries := by
  refine ⟨rfl, rfl, rfl, rfl, rfl, rfl, rfl, fun h => ?_⟩
  have hann : 4 = 6 := h {} (person.fields?.getD []) true ann
  omega

end Schema

end ItemMapper
