import ItemMapper.Schema.Survey

/-!
# Picked variants

A union is entered only by a variant that accepts its value, whether it is predicted or found by the fewest errors.
So it is never entered by another union.
-/

namespace ItemMapper

namespace Node

variable {n : Node} {variants : List Node} {v : Value} {i : Nat} {kind : Option Kind} {c : Nat × Node}

theorem isUnion_of_accepts (h : n.accepts v = true) : n.isUnion = false := by
  cases n with
  | union m variants => simp [accepts, isDate, kind?, plainKind?] at h
  | _ => rfl

theorem accepts_of_hasKind (h : n.hasKind v.kind? = true) : n.accepts v = true := by
  obtain ⟨hv, hn⟩ : v.kind?.isSome = true ∧ n.kind? = v.kind? := by simpa [hasKind] using h
  obtain ⟨kind, hkind⟩ := Option.isSome_iff_exists.1 hv
  have hdate : n.isDate = false := by
    cases n with
    | scalar m k => cases k <;> first | rfl | simp [kind?, plainKind?, ← hn] at hv
    | _ => rfl
  simp [accepts, hdate, hn, hkind]

theorem mem_ofKind (h : c ∈ ofKind variants kind) : variants[c.1]? = some c.2 ∧ c.2.hasKind kind = true := by
  obtain ⟨e, he, hc⟩ := List.mem_filterMap.1 h
  obtain ⟨hkind, rfl⟩ : e.1.hasKind kind = true ∧ (e.2, e.1) = c := by simpa using hc
  exact ⟨List.mem_zipIdx_iff_getElem?.1 he, hkind⟩

theorem dateVariant?_eq_some (h : dateVariant? variants v = some i) :
    ∃ n, variants[i]? = some n ∧ n.accepts v = true := by
  obtain ⟨hi, hdate, -⟩ := List.findIdx?_eq_some_iff_getElem.1 h
  obtain ⟨hn, hmillis⟩ : variants[i].isDate = true ∧ (variants[i].millis? v).isSome = true := by
    simpa [denotesDate] using hdate
  exact ⟨variants[i], List.getElem?_eq_getElem hi, by simp [accepts, hn, hmillis]⟩

theorem bestVariant?_eq_some (h : bestVariant? variants v = some i) :
    ∃ n, variants[i]? = some n ∧ n.accepts v = true := by
  have hof {j : Nat} {n : Node} (hc : (j, n) ∈ ofKind variants v.kind?) (hj : j = i) :
      ∃ n, variants[i]? = some n ∧ n.accepts v = true := by
    obtain ⟨hn, hkind⟩ := mem_ofKind hc
    exact ⟨n, hj ▸ hn, accepts_of_hasKind hkind⟩
  have hplace {place : Nat} (hp : ((ofKind variants v.kind?)[place]?).map Prod.fst = some i) :
      ∃ n, variants[i]? = some n ∧ n.accepts v = true := by
    obtain ⟨c, hc, hi⟩ := Option.map_eq_some_iff.1 hp
    exact hof (List.mem_of_getElem? hc) hi
  cases v with
  | map entries =>
    rw [bestVariant?] at h
    split at h
    · exact Option.some.inj h ▸ dateVariant?_eq_some ‹_›
    · cases h
    · rename_i hsingle
      exact hof (hsingle ▸ List.mem_singleton_self _) (Option.some.inj h)
    · obtain ⟨place, -, hp⟩ := Option.bind_eq_some_iff.1 h
      exact hplace hp
  | list elements =>
    rw [bestVariant?] at h
    split at h
    · exact Option.some.inj h ▸ dateVariant?_eq_some ‹_›
    · cases h
    · rename_i hsingle
      exact hof (hsingle ▸ List.mem_singleton_self _) (Option.some.inj h)
    · obtain ⟨place, -, hp⟩ := Option.bind_eq_some_iff.1 h
      exact hplace hp
  | _ =>
    rw [bestVariant?] at h
    · split at h
      · exact Option.some.inj h ▸ dateVariant?_eq_some ‹_›
      · rw [List.head?_eq_getElem?] at h
        exact hplace h
    all_goals simp

end Node

namespace Survey

variable {variants : List Node} {v : Value} {i count : Nat} {path : String}

theorem fewestErrors_eq_some (h : fewestErrors path v variants = some (i, count)) :
    ∃ n, variants[i]? = some n ∧ n.accepts v = true := by
  induction variants generalizing i count with
  | nil => cases h
  | cons n rest ih =>
    have hlater {least : Nat} (hl : (fewestErrors path v rest).map (fun r => (r.1 + 1, r.2)) = some (i, least)) :
        ∃ u, (n :: rest)[i]? = some u ∧ u.accepts v = true := by
      obtain ⟨⟨j, fewest⟩, hr, hj⟩ := Option.map_eq_some_iff.1 hl
      cases hj
      exact ih hr
    simp only [fewestErrors] at h
    split at h
    · have hfirst : ∃ u, (n :: rest)[0]? = some u ∧ u.accepts v = true := ⟨n, rfl, ‹_›⟩
      split at h
      · split at h
        · cases h
          exact hfirst
        · cases h
          exact hlater ‹_›
      · cases h
        exact hfirst
    · exact hlater h

theorem variantOf_eq_some (h : variantOf path v variants = some i) :
    ∃ n, variants[i]? = some n ∧ n.accepts v = true := by
  rw [variantOf, predictedOr] at h
  split at h
  · exact Option.some.inj h ▸ Node.bestVariant?_eq_some ‹_›
  · obtain ⟨⟨j, count⟩, hfewest, rfl⟩ := Option.map_eq_some_iff.1 h
    exact fewestErrors_eq_some hfewest

end Survey

end ItemMapper
