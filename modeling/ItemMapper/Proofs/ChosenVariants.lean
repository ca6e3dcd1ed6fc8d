import ItemMapper.Proofs.AcceptedUnions

/-!
# Chosen variants

A variant of a union is chosen for a value exactly if one of them matches it, by its kind or because the value denotes a
date, and the chosen one does. All dates are tried before anything else: the first one that the value denotes a date for
is chosen, whatever matches before it.
-/

namespace ItemMapper

namespace Node

variable {n : Node} {v : Value} {variants : List Node} {i : Nat}

def Dates (n : Node) (v : Value) : Prop := n.isDate = true ∧ ∃ ms, n.millis? v = some ms

def Matches (n : Node) (v : Value) : Prop := (∃ kind, n.kind? = some kind ∧ v.kind? = some kind) ∨ n.Dates v

theorem denotesDate_iff : n.denotesDate v = true ↔ n.Dates v := by
  rw [denotesDate, Bool.and_eq_true, Option.isSome_iff_exists, Dates]

theorem kind?_of_isDate (h : n.isDate = true) : n.kind? = none := by
  cases n with
  | scalar m k => cases k <;> first | rfl | cases h
  | _ => cases h

theorem accepts_iff_matches : n.accepts v = true ↔ n.Matches v := by
  rw [accepts, Matches, Dates]
  cases hdate : n.isDate with
  | true => simp [kind?_of_isDate hdate, Option.isSome_iff_exists]
  | false =>
    cases hn : n.kind? with
    | none => simp
    | some expected =>
      cases hv : v.kind? with
      | none => simp
      | some actual => simpa using eq_comm

theorem bestVariant?_of_dateVariant? (h : dateVariant? variants v = some i) : bestVariant? variants v = some i := by
  cases v <;> simp [bestVariant?, h]

theorem dateVariant?_of_first (hn : variants[i]? = some n) (hdates : n.Dates v)
    (hfirst : ∀ j < i, ∀ u, variants[j]? = some u → ¬ u.Dates v) : dateVariant? variants v = some i := by
  obtain ⟨hi, rfl⟩ := List.getElem?_eq_some_iff.1 hn
  refine List.findIdx?_eq_some_iff_getElem.2 ⟨hi, denotesDate_iff.2 hdates, fun j hj => ?_⟩
  have hearlier := hfirst j hj _ (List.getElem?_eq_getElem (Nat.lt_trans hj hi))
  rwa [denotesDate_iff]

end Node

namespace Survey

open Node (Matches Dates)

/-- A variant is chosen exactly if one matches, the chosen one matches, and the first one that takes the value for a
date is chosen before all others. -/
theorem variantOf_matches (path : String) (v : Value) (variants : List Node) :
    ((∃ i, variantOf path v variants = some i) ↔ ∃ n ∈ variants, n.Matches v) ∧
      (∀ i, variantOf path v variants = some i → ∃ n, variants[i]? = some n ∧ n.Matches v) ∧
      ∀ i n, variants[i]? = some n → n.Dates v → (∀ j < i, ∀ u, variants[j]? = some u → ¬ u.Dates v) →
        variantOf path v variants = some i := by
  have hsound : ∀ i, variantOf path v variants = some i → ∃ n, variants[i]? = some n ∧ n.Matches v := by
    intro i hi
    obtain ⟨n, hn, haccepts⟩ := variantOf_eq_some hi
    exact ⟨n, hn, Node.accepts_iff_matches.1 haccepts⟩
  refine ⟨⟨?_, ?_⟩, hsound, ?_⟩
  · rintro ⟨i, hi⟩
    obtain ⟨n, hn, hmatches⟩ := hsound i hi
    exact ⟨n, List.mem_of_getElem? hn, hmatches⟩
  · rintro ⟨n, hn, hmatches⟩
    obtain ⟨i, u, hi, -⟩ := exists_variantOf_iff.1 ⟨n, hn, Node.accepts_iff_matches.2 hmatches⟩
    exact ⟨i, hi⟩
  · intro i n hn hdates hfirst
    have hdate := Node.dateVariant?_of_first hn hdates hfirst
    rw [variantOf, predictedOr, Node.bestVariant?_of_dateVariant? hdate]

end Survey

end ItemMapper
