import ItemMapper.Proofs.StableWires

/-!
# Reported kinds

The kind that a value reports is the kind of the wire value that it is marshalled to, but for some sets. Such a set
reports no kind, since dates and other numbers are stored together and undefined members are left out.
-/

namespace ItemMapper

variable {options : MarshalOptions} {v : Value} {w : Wire} {members : List Value}

/-- A set of defined members, which are all dates or none of which is one; or no set at all. -/
def Value.Uniform : Value → Prop
  | set members => (∀ v ∈ members, v.isUndefined = false) ∧
      ((∀ v ∈ members, v.isDate = true) ∨ ∀ v ∈ members, v.isDate = false)
  | _ => True

namespace Wire

theorem isSetNumber_of_numberMember {t : String} (h : numberMember? v = some (.ok t)) (hdate : v.isDate = false) :
    v.isSetNumber = true := by
  cases v with
  | number x =>
    have hwritten : ofValue {} (.number x) = .ok (some (.n t)) := ofValue_of_numberMember h
    have hx := finite_of_ofValue hwritten
    cases x <;> first | rfl | cases hx
  | bigInt i => rfl
  | date t => cases hdate
  | _ => cases h

theorem memberKind?_isSome_iff_uniform (h : ofSet members options = .ok w) :
    (Value.memberKind? members).isSome = true ↔ (Value.set members).Uniform := by
  rw [memberKind?_isSome_iff]
  constructor
  · rintro (hall | hall | hall | hall)
    case inr.inr.inr =>
      refine ⟨fun v hv => ?_, .inl hall⟩
      have hdate := hall v hv
      cases v <;> first | rfl | cases hdate
    all_goals
      refine ⟨fun v hv => ?_, .inr fun v hv => ?_⟩
      all_goals
        have hsort := hall v hv
        cases v <;> first | rfl | cases hsort
  · rintro ⟨hdef, hsort⟩
    obtain ⟨-, hstores⟩ := storesMembers_of_defined hdef h
    cases hstores with
    | numbers hnumbers =>
      refine hsort.symm.imp (fun hdates v hv => ?_) fun hdates => .inr (.inr hdates)
      obtain ⟨t, -, ht⟩ := exists_of_forall₂ hnumbers hv
      exact isSetNumber_of_numberMember ht (hdates v hv)
    | texts ts => exact .inr (.inl (List.forall_mem_map.2 fun _ _ => rfl))
    | blobs bs => exact .inr (.inr (.inl (List.forall_mem_map.2 fun _ _ => rfl)))

theorem isSome_kind?_of_not_set (hv : ∀ members, v ≠ .set members) (h : ofValue options v = .ok (some w)) :
    v.kind?.isSome = true := by
  cases v with
  | undefined => cases ofValue_undefined h
  | number x =>
    have hx := finite_of_ofValue h
    cases x <;> first | rfl | cases hx
  | set members => exact absurd rfl (hv members)
  | _ => rfl

/-- A value that is marshalled reports the kind that it is stored as, or no kind. The latter are the sets with an
undefined member, or with a date among members of another kind. -/
theorem kind?_of_ofValue (h : ofValue options v = .ok (some w)) :
    (v.Uniform → v.kind? = some w.kind) ∧ (¬ v.Uniform → v.kind? = none) := by
  have hiff : v.kind?.isSome = true ↔ v.Uniform := by
    cases v with
    | set members =>
      obtain ⟨w', hw', -⟩ := Outcome.of_map h
      exact memberKind?_isSome_iff_uniform hw'
    | _ => exact iff_of_true (isSome_kind?_of_not_set (by simp) h) trivial
  rw [← hiff]
  cases hkind : v.kind? with
  | none => simp
  | some kind => simp [ofValue_kind hkind h]

theorem numerals_report_kind : (Value.set [.number (.ofInt 1), .bigInt 5]).kind? = some .ns := by
  have hw : ofValue {} (.set [.number (.ofInt 1), .bigInt 5]) = .ok (some (.ns ["1", "5"])) := by rfl
  exact (kind?_of_ofValue hw).1 ⟨by simp [Value.isUndefined], .inr (by simp [Value.isDate])⟩

/-- A number and a date are stored as numbers, and are of no kind. -/
theorem dated_reports_none : ofValue {} (.set [.number (.ofInt 1), .date ⟨5000000⟩]) = .ok (some (.ns ["1", "5"])) ∧
    (Value.set [.number (.ofInt 1), .date ⟨5000000⟩]).kind? = none :=
  ⟨by rfl, by rfl⟩

end Wire

end ItemMapper
