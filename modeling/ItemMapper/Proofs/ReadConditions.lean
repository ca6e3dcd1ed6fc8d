import ItemMapper.Proofs.PathTexts
import ItemMapper.Proofs.ReadingRules
import ItemMapper.Proofs.UniqueReading

/-!
# Conditions that are read

What is read from a document is well-formed: paths are parsed from texts and have a step, and an empty list of candidates
or of conditions is refused.
-/

namespace ItemMapper

variable {p : DocumentPath} {text : String} {s s' : Session} {schema : Schema} {parent : Option String}
  {c : Condition}

theorem DocumentPath.of_parse (h : DocumentPath.parse text = .ok p) : p.elements ≠ [] :=
  (readable_of_parse? (parse?_of_parse h)).1

namespace ConditionDocument

open Mapping

theorem wellFormed_of_leafOn (hp : p.elements ≠ []) (h : LeafOn p c) : c.WellFormed := by
  have hoperand {o : Operand} (ho : o = .path p ∨ o = .size p) : o.WellFormed := by
    rcases ho with rfl | rfl <;> exact hp
  cases h with
  | compare ho op v => exact ⟨hoperand ho, trivial⟩
  | isIn ho hne => exact ⟨hoperand ho, by simpa using hne, List.forall_mem_map.2 fun _ _ => trivial⟩
  | between ho low high => exact ⟨hoperand ho, trivial, trivial⟩
  | function name argument =>
    refine ⟨hp, fun x hx => ?_⟩
    obtain ⟨v, -, rfl⟩ := Option.map_eq_some_iff.1 hx
    trivial

theorem wellFormed_traversal : Traversal schema (fun _ p P => p.Yields P) (fun _ => True) (fun p => p.elements ≠ [])
    Condition.WellFormed where
  rules := yields_judgement
  below _ := trivial
  path _ := DocumentPath.of_parse
  stored _ := .any
  equality _ := judge_equality yields_judgement .any (fun _ => DocumentPath.of_parse) wellFormed_of_leafOn
  leaf := wellFormed_of_leafOn
  not h := h
  logical hne hcs := ⟨hne, Condition.allWellFormed_iff.2 hcs⟩

theorem read_wellFormed (doc : Value) (h : (read schema parent doc).run s = (.ok (some c), s')) : c.WellFormed :=
  wellFormed_traversal.read doc trivial s (some c) s' h c rfl

end ConditionDocument

end ItemMapper
