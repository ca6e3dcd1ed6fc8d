import ItemMapper.Proofs.Conformance
import ItemMapper.Proofs.StoredDates

/-!
# Values of a key

A value that has been stored under an attribute of the key, and the same value read back from its stored form, may be
given as a key again. Texts, bytes and plain numbers are then stored as before. A date or a big integer is not always.
-/

namespace ItemMapper

def Value.InRange : Value → Prop
  | .bigInt i => NumberReader.leastBig ≤ i ∧ i ≤ NumberReader.greatestBig
  | .date t => t.InCalendar
  | _ => True

theorem Instant.InCalendar.big {t : Instant} (h : t.InCalendar) :
    NumberReader.leastBig ≤ t.millis ∧ t.millis ≤ NumberReader.greatestBig := by
  have hl : NumberReader.leastBig ≤ leastMillis := by decide
  have hg : greatestMillis ≤ NumberReader.greatestBig := by decide
  exact ⟨hl.trans h.1, h.2.trans hg⟩

namespace Node

variable {m : Modifiers} {k : Scalar} {v : Value} {w : Wire} {options : MarshalOptions} {x : Binary64} {i : Int}

/-- A stored value that is given as it is has its stored form again. -/
def Repeats : Node → Value → Prop
  | scalar m .date, .number x => ∃ i, x = .ofInt i ∧ (scalar m .date).dateFormat.Steady i
  | _, _ => True

/-- A stored value that is read back and given again has its stored form again. -/
def Resumes : Node → Value → Prop
  | scalar m .date, .number x => ∃ i, x = .ofInt i ∧ (scalar m .date).dateFormat.Recalls i
  | scalar _ .bigInt, .number x =>
    x.isIntegral = true → x ≠ .zero true ∧ (NumberReader.big? x.storedChars).isSome = true
  | _, _ => True

theorem storedForm_of_not_date (hk : k ≠ .date) : (scalar m k).storedForm v = v := by
  cases k <;> first | rfl | exact absurd rfl hk

theorem Fit.date (h : (scalar m .date).Fit v) (hw : Wire.ofValue options v = .ok (some w)) :
    ∃ x ms, v = .number x ∧ (scalar m .date).dateFormat.ofNumber? x = some ms ∧ x.isFinite = true ∧ w = .n x.storedText := by
  have haccepts : ((scalar m .date).millis? v).isSome = true := h.accepts hw (by simp) rfl
  obtain ⟨x, rfl⟩ := h.stored.1 rfl haccepts
  obtain ⟨ms, hms⟩ := Option.isSome_iff_exists.1 haccepts
  have hx := Wire.finite_of_ofValue hw
  rw [Wire.ofValue_number hx] at hw
  exact ⟨x, ms, rfl, hms, hx, (Option.some.inj (Except.ok.inj hw)).symm⟩

theorem repeats_iff (h : (scalar m k).Fit v) (hw : Wire.ofValue options v = .ok (some w)) :
    Wire.ofValue options ((scalar m k).storedForm v) = .ok (some w) ↔ (scalar m k).Repeats v := by
  by_cases hk : k = .date
  · subst hk
    obtain ⟨x, ms, rfl, hms, hx, rfl⟩ := h.date hw
    have hstored : (scalar m .date).storedForm (.number x) =
        .number (.ofInt ((scalar m .date).dateFormat.encode ms)) := by
      simp only [storedForm, isDate, if_true, DateFormat.stored?, DateFormat.millis?, hms, Option.map_some, Option.getD_some]
    rw [hstored, Wire.ofValue_number_iff hx, DateFormat.steady_iff hms]
    rfl
  · have htrue : (scalar m k).Repeats v := by
      cases k <;> first | exact absurd rfl hk | (cases v <;> trivial)
    rw [storedForm_of_not_date hk, hw]
    simp [htrue]

theorem ofValue_toValue {kind : Kind} (hv : v.kind? = some kind) (hkind : kind.isScalar = true) (hrange : v.InRange)
    (hw : Wire.ofValue options v = .ok (some w)) : Wire.ofValue options w.toValue = .ok (some w) := by
  have hint {j : Int} (hl : NumberReader.leastBig ≤ j) (hg : j ≤ NumberReader.greatestBig) :
      Wire.ofValue options (Wire.toValue (.n (intText j))) = .ok (some (.n (intText j))) := by
    rw [Wire.toValue, Wire.readNumber_intText hl hg, Wire.ofValue_ofInt]
  cases v with
  | undefined => cases hv
  | number x =>
    have hx := Wire.finite_of_ofValue hw
    rw [Wire.ofValue_number hx] at hw
    obtain rfl := Option.some.inj (Except.ok.inj hw)
    exact Wire.ofValue_readNumber_storedText hx
  | bigInt i =>
    obtain rfl := Option.some.inj (Except.ok.inj hw)
    exact hint hrange.1 hrange.2
  | date t =>
    obtain rfl := Option.some.inj (Except.ok.inj hw)
    obtain ⟨hl, hg⟩ := hrange.big
    exact hint hl hg
  | list items =>
    cases hv
    cases hkind
  | map entries =>
    cases hv
    cases hkind
  | set members =>
    have hset : kind.isSet = true := Wire.isSet_of_memberKind? hv
    cases kind <;> first | (cases hset; done) | cases hkind
  | _ =>
    obtain rfl := Option.some.inj (Except.ok.inj hw)
    rfl

theorem date_resumes_iff (h : (scalar m .date).Fit v) (hw : Wire.ofValue options v = .ok (some w)) :
    Wire.ofValue options ((scalar m .date).storedForm ((scalar m .date).restoreOwn w.toValue)) = .ok (some w) ↔
      (scalar m .date).Resumes v := by
  obtain ⟨x, ms, rfl, hms, hx, rfl⟩ := h.date hw
  have hread : (scalar m .date).restoreOwn (Wire.toValue (.n x.storedText)) = (scalar m .date).dateFormat.readBack x := by
    rw [Wire.toValue, Wire.readNumber_storedText hx (DateFormat.exact_of_ofNumber? hms)]
    rfl
  obtain ⟨y, hy⟩ := DateFormat.stored?_readBack hms
  have hstored : (scalar m .date).storedForm ((scalar m .date).dateFormat.readBack x) = .number y := by
    rw [storedForm, isDate, if_pos rfl, hy, Option.getD_some]
  have hiff := DateFormat.recalls_iff hms
  rw [hy, Option.some.injEq, Value.number.injEq] at hiff
  rw [hread, hstored, Wire.ofValue_number_iff hx, hiff]
  rfl

theorem ofValue_restoreOwn_intText (hl : NumberReader.leastBig ≤ i) (hg : i ≤ NumberReader.greatestBig) :
    Wire.ofValue options ((scalar m .bigInt).restoreOwn (Wire.toValue (.n (intText i)))) = .ok (some (.n (intText i))) := by
  have hholds : Scalar.bigInt.Holds (.bigInt i) := ⟨hl, hg⟩
  have hread : Wire.toValue (.n (intText i)) = Value.reread (.bigInt i) := Wire.readNumber_intText hl hg
  rw [hread, restoreOwn_reread hholds (by simp)]
  rfl

theorem restoreOwn_of_isIntegral (h : x.isIntegral = true) : (scalar m .bigInt).restoreOwn (.number x) =
    .bigInt (x.clampTo NumberReader.leastBig NumberReader.greatestBig) := if_pos h

/-- A number beyond the exact range comes back as it was if its text is a big integer. -/
theorem large_resumes_iff (hx : x.isFinite = true)
    (hlarge : Binary64.lt (.ofInt Binary64.greatestExact) x.abs = true) :
    Wire.ofValue options ((scalar m .bigInt).restoreOwn (Wire.toValue (.n x.storedText))) = .ok (some (.n x.storedText)) ↔
      (NumberReader.big? x.storedChars).isSome = true := by
  rw [Wire.toValue, Wire.readNumber_of_large hx hlarge]
  cases hi : NumberReader.big? x.storedChars with
  | some i =>
    have hown : (scalar m .bigInt).restoreOwn (.bigInt i) = .bigInt i := rfl
    rw [Option.map_some, Option.getD_some, hown, Wire.ofValue, Wire.intText_of_large hx hlarge hi]
    simp
  | none =>
    rw [Option.map_none, Option.getD_none,
      restoreOwn_of_isIntegral (Binary64.isIntegral_of_greatestExact_lt hx hlarge), Wire.ofValue]
    simp only [Except.ok.injEq, Option.some.injEq, Wire.n.injEq, Option.isSome_none, Bool.false_eq_true, iff_false]
    intro htext
    -- else the text would be read as the integer that the number is cut to
    have hbounds : NumberReader.leastBig ≤ x.clampTo NumberReader.leastBig NumberReader.greatestBig ∧
        x.clampTo NumberReader.leastBig NumberReader.greatestBig ≤ NumberReader.greatestBig :=
      Binary64.clampTo_bounds (by decide) (by decide)
    rw [← String.ofList_injective htext, NumberReader.big?, NumberReader.integer?_intChars hbounds.1 hbounds.2] at hi
    cases hi

/-- A whole number of the exact range comes back as it was unless it is negative zero. -/
theorem small_resumes_iff (hx : x.isFinite = true) (hintegral : x.isIntegral = true)
    (hwithin : x.withinMagnitude Binary64.greatestExact = true) :
    Wire.ofValue options ((scalar m .bigInt).restoreOwn (Wire.toValue (.n x.storedText))) = .ok (some (.n x.storedText)) ↔
      x ≠ .zero true ∧ (NumberReader.big? x.storedChars).isSome = true := by
  rw [Wire.toValue, Wire.readNumber_storedText hx (.inr hwithin), restoreOwn_of_isIntegral hintegral, Wire.ofValue]
  by_cases hzero : x = .zero true
  · subst hzero
    have htext : intText ((Binary64.zero true).clampTo NumberReader.leastBig NumberReader.greatestBig) ≠
        (Binary64.zero true).storedText := by decide +kernel
    simp only [Except.ok.injEq, Option.some.injEq, Wire.n.injEq, htext, ne_eq, not_true_eq_false, false_and]
  · obtain ⟨i, hi, rfl⟩ := Binary64.exists_ofInt hintegral hwithin hzero
    have hsmall : i.natAbs < twoPow 53 := lt_of_le_of_lt hi (by decide)
    have hl : NumberReader.leastBig ≤ i := by
      have hbound : NumberReader.leastBig ≤ -(Binary64.greatestExact : Int) := by decide
      omega
    have hg : i ≤ NumberReader.greatestBig := by
      have hbound : (Binary64.greatestExact : Int) ≤ NumberReader.greatestBig := by decide
      omega
    rw [Binary64.clampTo_ofInt hsmall hl hg, Wire.storedText_ofInt hi, Binary64.storedChars_ofInt hsmall,
      NumberReader.big?, NumberReader.integer?_intChars hl hg]
    simp [hzero]

theorem number_resumes_iff (hx : x.isFinite = true) :
    Wire.ofValue options ((scalar m .bigInt).restoreOwn (Wire.toValue (.n x.storedText))) = .ok (some (.n x.storedText)) ↔
      (scalar m .bigInt).Resumes (.number x) := by
  change _ ↔ (x.isIntegral = true → x ≠ .zero true ∧ (NumberReader.big? x.storedChars).isSome = true)
  by_cases hintegral : x.isIntegral = true
  · simp only [hintegral, true_implies]
    by_cases hlarge : Binary64.lt (.ofInt Binary64.greatestExact) x.abs = true
    · have hzero : x ≠ .zero true := by
        intro hzero
        have hno := Binary64.isZero_of_greatestExact_lt hx hlarge
        rw [hzero] at hno
        cases hno
      rw [large_resumes_iff hx hlarge]
      simp [hzero]
    · exact small_resumes_iff hx hintegral (Binary64.withinMagnitude_of_not_lt hx (by simpa using hlarge))
  · have hread : Wire.readNumber x.storedText = .number x := Wire.readNumber_storedText hx (.inl (by simpa using hintegral))
    have hown : (scalar m .bigInt).restoreOwn (.number x) = .number x := if_neg hintegral
    rw [Wire.toValue, hread, hown, Wire.ofValue_number hx]
    simp [hintegral]

theorem bigInt_resumes_iff (h : (scalar m .bigInt).Fit v) (hrange : v.InRange)
    (hw : Wire.ofValue options v = .ok (some w)) :
    Wire.ofValue options ((scalar m .bigInt).restoreOwn w.toValue) = .ok (some w) ↔ (scalar m .bigInt).Resumes v := by
  have hkind : v.kind? = some .n := kind?_of_accepts (h.accepts hw (by simp) rfl) rfl rfl
  cases v with
  | number x =>
    have hx := Wire.finite_of_ofValue hw
    rw [Wire.ofValue_number hx] at hw
    obtain rfl := Option.some.inj (Except.ok.inj hw)
    exact number_resumes_iff hx
  | bigInt i =>
    obtain rfl := Option.some.inj (Except.ok.inj hw)
    exact iff_of_true (ofValue_restoreOwn_intText hrange.1 hrange.2) trivial
  | date t =>
    obtain rfl := Option.some.inj (Except.ok.inj hw)
    have hbig := Instant.InCalendar.big hrange
    exact iff_of_true (ofValue_restoreOwn_intText hbig.1 hbig.2) trivial
  | set members => cases Wire.isSet_of_memberKind? hkind
  | _ => cases hkind

theorem resumes_iff (h : (scalar m k).Fit v) (hrange : v.InRange) (hw : Wire.ofValue options v = .ok (some w)) :
    Wire.ofValue options ((scalar m k).storedForm ((scalar m k).restoreOwn w.toValue)) = .ok (some w) ↔
      (scalar m k).Resumes v := by
  have hplain (hdate : k ≠ .date) (hown : ∀ u, (scalar m k).restoreOwn u = u) (hresumes : (scalar m k).Resumes v) :
      Wire.ofValue options ((scalar m k).storedForm ((scalar m k).restoreOwn w.toValue)) = .ok (some w) ↔
        (scalar m k).Resumes v := by
    have hkind : v.kind? = some k.kind := by
      refine kind?_of_accepts (h.accepts hw (by simp) rfl) ?_ ?_ <;> cases k <;> first | rfl | exact absurd rfl hdate
    rw [storedForm_of_not_date hdate, hown]
    refine iff_of_true (ofValue_toValue hkind ?_ hrange hw) hresumes
    cases k <;> rfl
  cases k with
  | date => exact date_resumes_iff h hw
  | bigInt =>
    rw [storedForm_of_not_date (by simp)]
    exact bigInt_resumes_iff h hrange hw
  | _ => exact hplain (by simp) (fun u => by cases u <;> rfl) (by cases v <;> trivial)

end Node

end ItemMapper
