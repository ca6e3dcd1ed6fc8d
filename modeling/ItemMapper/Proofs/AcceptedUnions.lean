import ItemMapper.Item.Validation
import ItemMapper.Proofs.PickedVariants
import ItemMapper.Proofs.ReachedPositions

/-!
# Accepted unions

When the type phase has nothing against a value at a union. Variants are told apart by the kind of the value, or by
its being a date; a variant for any value and a union inside the union have no kind, so that no value is told by
them. The check of the union, the choice of its variant and the check of that variant agree on this.
-/

namespace ItemMapper

namespace Node

def tells : Node → Bool
  | any _ => false
  | union _ _ => false
  | _ => true

variable {n : Node} {v : Value}

theorem tells_of_accepts (h : n.accepts v = true) : n.tells = true := by
  cases n with
  | any m => simp [accepts, isDate, kind?, plainKind?] at h
  | union m variants => simp [accepts, isDate, kind?, plainKind?] at h
  | _ => rfl

end Node

namespace Survey

variable {n : Node} {variants : List Node} {v : Value} {path : String}

theorem isSome_fewestErrors (hn : n ∈ variants) (h : n.accepts v = true) :
    (fewestErrors path v variants).isSome = true := by
  induction variants with
  | nil => cases hn
  | cons u rest ih =>
    rw [fewestErrors]
    by_cases hu : u.accepts v = true
    · simp only [hu, if_true]
      cases (fewestErrors path v rest).map fun r => (r.1 + 1, r.2) with
      | none => rfl
      | some later =>
        dsimp only
        split <;> rfl
    · obtain hmem : n ∈ rest := (List.mem_cons.1 hn).resolve_left fun he => hu (he ▸ h)
      simpa [hu] using ih hmem

theorem exists_variantOf_iff : (∃ u ∈ variants, u.accepts v = true) ↔
    ∃ i u, variantOf path v variants = some i ∧ variants[i]? = some u ∧ u.accepts v = true := by
  constructor
  · rintro ⟨u, hu, haccepts⟩
    have hchosen : (variantOf path v variants).isSome = true := by
      rw [variantOf, predictedOr]
      split
      · rfl
      · rw [Option.isSome_map]
        exact isSome_fewestErrors hu haccepts
    obtain ⟨i, hi⟩ := Option.isSome_iff_exists.1 hchosen
    obtain ⟨w, hw, hwaccepts⟩ := variantOf_eq_some hi
    exact ⟨i, w, hi, hw, hwaccepts⟩
  · rintro ⟨i, u, -, hu, haccepts⟩
    exact ⟨u, List.mem_of_getElem? hu, haccepts⟩

end Survey

namespace Phase

variable {n : Node} {v : Value} {m : Modifiers} {variants : List Node}

theorem checkType_of_tells (h : n.tells = true) : checkType n v = [] ↔ n.accepts v = true := by
  rw [checkType_eq_nil_iff]
  cases n with
  | any m => cases h
  | union m variants => cases h
  | _ => rfl

theorem checkType_of_accepts (h : n.accepts v = true) : checkType n v = [] :=
  (checkType_of_tells (Node.tells_of_accepts h)).2 h

/-- A union takes exactly what one of its telling variants takes. It is then entered by a variant that takes the
value, and no other union is. -/
theorem checkType_union_iff (m : Modifiers) (variants : List Node) (v : Value) (path : String) :
    (checkType (.union m variants) v = [] ↔ ∃ u ∈ variants, u.tells = true ∧ checkType u v = []) ∧
      (checkType (.union m variants) v = [] ↔ ∃ i u, Survey.variantOf path v variants = some i ∧
        variants[i]? = some u ∧ checkType u v = []) := by
  have hentered : checkType (.union m variants) v = [] ↔ ∃ i u, Survey.variantOf path v variants = some i ∧
      variants[i]? = some u ∧ u.accepts v = true := checkType_eq_nil_iff.trans Survey.exists_variantOf_iff
  refine ⟨checkType_eq_nil_iff.trans ⟨?_, ?_⟩, hentered.trans ⟨?_, ?_⟩⟩
  · rintro ⟨u, hu, h⟩
    exact ⟨u, hu, Node.tells_of_accepts h, checkType_of_accepts h⟩
  · rintro ⟨u, hu, htells, h⟩
    exact ⟨u, hu, (checkType_of_tells htells).1 h⟩
  · rintro ⟨i, u, hi, hu, h⟩
    exact ⟨i, u, hi, hu, checkType_of_accepts h⟩
  · rintro ⟨i, u, hi, hu, -⟩
    obtain ⟨w, hw, haccepts⟩ := Survey.variantOf_eq_some hi
    exact ⟨i, w, hi, hw, haccepts⟩

end Phase

namespace Schema

open Phase (checkType)

def pollFields : SchemaDeclaration := [
  ("id", .typed .string none none false { memberships := { primary := true } }),
  ("answer", .union [.union [.tag .string, .tag .number], .tag .boolean])]

def polls : Schema where
  root := .object { required := true } [
    ("id", .scalar { required := true, memberships := { primary := true } } .string),
    ("answer", .union {} [.union {} [.scalar {} .string, .scalar {} .number], .scalar {} .boolean])] false
  primaryKey := "id"
  sortKey := none
  attributeDefinitions := [⟨"id", .s⟩]
  localIndexes := []
  globalIndexes := []

/-- A text is refused at a union of texts, numbers and truth values, though it is among what is expected. -/
theorem text_answer_refused : ofDeclaration pollFields = .ok polls ∧
    ∃ m variants u, polls.field? "answer" = some (.union m variants) ∧ u ∈ variants ∧
      checkType u (.string "yes") = [] ∧
      checkType (.union m variants) (.string "yes") = [.wrongKind "S | N | BOOL" "S"] ∧
      (polls.root.validate "" "polls" (.map [("id", .string "a"), ("answer", .string "yes")]) {}).1 =
        some ⟨.type, "polls", [("answer", .wrongKind "S | N | BOOL" "S")]⟩ :=
  ⟨rfl, _, _, _, rfl, .head _, rfl, rfl, rfl⟩

end Schema

end ItemMapper
