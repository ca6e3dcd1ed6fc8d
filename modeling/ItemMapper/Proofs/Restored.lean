import ItemMapper.Proofs.Marshalled
import ItemMapper.Proofs.NumberTexts
import ItemMapper.Proofs.Prepared

/-!
# Restored scalars

What the stored form of a scalar comes back as. A big integer that is exact is read as a plain number, and its node
takes it back; a node of dates takes a stored number for the date, less what its format does not count.
-/

namespace ItemMapper

variable {options : MarshalOptions} {v : Value} {w : Wire} {k : Scalar} {m md : Modifiers} {t : Instant} {i : Int}
  {format : DateFormat} {members : List Value} {key path : String} {item context : Value}

def Instant.InCalendar (t : Instant) : Prop := leastMillis ≤ t.millis ∧ t.millis ≤ greatestMillis

namespace DateFormat

def floor (format : DateFormat) (t : Instant) : Instant :=
  match format with
  | timestamp => .ofMillis t.millis
  | epoch => .ofMillis (t.millis / 1000 * 1000)

theorem natAbs_encode_le (h : t.InCalendar) : (format.encode t.millis).natAbs ≤ greatestTimestamp := by
  obtain ⟨hl, hg⟩ := h
  rw [Instant.leastMillis] at hl
  rw [Instant.greatestMillis] at hg
  cases format <;> simp only [encode, greatestTimestamp] <;> omega

theorem greatestTimestamp_lt : greatestTimestamp < twoPow 53 := by decide

theorem wholeMillis?_ofInt (hi : i.natAbs ≤ greatestTimestamp) : wholeMillis? (.ofInt i) = some i := by
  have hsmall : i.natAbs < twoPow 53 := lt_of_le_of_lt hi greatestTimestamp_lt
  rw [wholeMillis?, Binary64.isFinite_ofInt hsmall, Binary64.withinMagnitude_ofInt greatestTimestamp_lt hi,
    Binary64.truncate?_ofInt hsmall]
  rfl

theorem decode?_encode (h : t.InCalendar) :
    format.decode? (.ofInt (format.encode t.millis)) = some (format.floor t).millis := by
  have hle : (format.encode t.millis).natAbs ≤ greatestTimestamp := natAbs_encode_le h
  cases format with
  | timestamp =>
    rw [floor, Instant.millis_ofMillis]
    exact wholeMillis?_ofInt hle
  | epoch =>
    obtain ⟨hl, hg⟩ := h
    rw [Instant.leastMillis] at hl
    rw [Instant.greatestMillis] at hg
    have hseconds : (t.millis / 1000).natAbs < twoPow 53 := lt_of_le_of_lt hle greatestTimestamp_lt
    have hmillis : (t.millis / 1000 * 1000).natAbs ≤ greatestTimestamp := by
      rw [greatestTimestamp]
      omega
    rw [floor, Instant.millis_ofMillis, encode, decode?, Binary64.mul_ofInt hseconds (by decide) (by decide)]
    exact wholeMillis?_ofInt hmillis

theorem ofMillis?_floor (h : t.InCalendar) : Instant.ofMillis? (format.floor t).millis = some (format.floor t) := by
  obtain ⟨hl, hg⟩ := h
  have hrange : Instant.leastMillis ≤ (format.floor t).millis ∧ (format.floor t).millis ≤ Instant.greatestMillis := by
    rw [Instant.leastMillis] at hl ⊢
    rw [Instant.greatestMillis] at hg ⊢
    cases format <;> simp only [floor, Instant.millis_ofMillis] <;> omega
  rw [Instant.ofMillis?, if_pos hrange]
  cases format <;> simp [floor]

end DateFormat

/-- Values that are of the very kind of the scalar. A number must not be taken for a big integer, so it has a
fraction or is in the range where integers are exact. -/
def Scalar.Holds : Scalar → Value → Prop
  | string, .string _ => True
  | number, .number x =>
    x.isFinite = true ∧ (x.isIntegral = false ∨ x.withinMagnitude Binary64.greatestExact = true)
  | bigInt, .bigInt i => NumberReader.leastBig ≤ i ∧ i ≤ NumberReader.greatestBig
  | boolean, .bool _ => True
  | null, .null => True
  | binary, .binary _ => True
  | date, .date t => t.InCalendar
  | _, _ => False

def Value.reread : Value → Value
  | .bigInt i => .ofInt i
  | v => v

namespace Node

/-- The value as its node tells it again after a put: a date is cut to what the format counts. -/
def floored (n : Node) (v : Value) : Value :=
  match n, v with
  | scalar _ .date, .date t => .date (n.dateFormat.floor t)
  | _, v => v

theorem floored_of_not_date (hk : k ≠ .date) : (scalar m k).floored v = v := by
  cases k <;> first | rfl | exact absurd rfl hk

theorem converted_of_not_date (hk : k ≠ .date) : converted (scalar m k) v = v := by
  cases k <;> first | rfl | exact absurd rfl hk

theorem toValue_stored (hv : k.Holds v) (hk : k ≠ .date) (h : Wire.ofValue options v = .ok (some w)) :
    w.toValue = v.reread := by
  cases v with
  | number x =>
    have hx : x.isFinite = true ∧ (x.isIntegral = false ∨ x.withinMagnitude Binary64.greatestExact = true) := by
      cases k <;> first | exact hv | cases hv
    rw [Wire.ofValue, Wire.ofNumber, if_pos hx.1] at h
    obtain rfl := Option.some.inj (Except.ok.inj h)
    exact Wire.readNumber_storedText hx.1 hx.2
  | bigInt i =>
    have hi : NumberReader.leastBig ≤ i ∧ i ≤ NumberReader.greatestBig := by
      cases k <;> first | exact hv | cases hv
    obtain rfl := Option.some.inj (Except.ok.inj h)
    exact Wire.readNumber_intText hi.1 hi.2
  | date t => cases k <;> first | exact absurd rfl hk | cases hv
  | _ =>
    cases k <;> first
      | (cases hv; done)
      | obtain rfl := Option.some.inj (Except.ok.inj h)
        rfl

theorem restoreOwn_reread (hv : k.Holds v) (hk : k ≠ .date) : restoreOwn (scalar m k) v.reread = v := by
  cases k with
  | date => exact absurd rfl hk
  | bigInt =>
    cases v with
    | bigInt i =>
      rw [Value.reread, Value.ofInt]
      split
      · rename_i hi
        have hsmall : i.natAbs < twoPow 53 := lt_of_le_of_lt hi (by decide)
        simp only [restoreOwn, Binary64.isIntegral_ofInt hsmall, if_true]
        exact congrArg Value.bigInt (Binary64.clampTo_ofInt hsmall hv.1 hv.2)
      · rfl
    | _ => cases hv
  | _ => cases v <;> first | (cases hv; done) | rfl

theorem restoreOwn_date (h : t.InCalendar) :
    restoreOwn (scalar m .date) (.number (.ofInt ((scalar m .date).dateFormat.encode t.millis))) =
      floored (scalar m .date) (.date t) := by
  simp only [restoreOwn, DateFormat.decode?_encode h, Option.bind_some, DateFormat.ofMillis?_floor h]
  rfl

/-- A scalar comes back from its stored form, cut to what the node can tell. -/
theorem restoreOwn_toValue (hv : k.Holds v) (h : Wire.ofValue options (converted (scalar m k) v) = .ok (some w)) :
    restoreOwn (scalar m k) w.toValue = floored (scalar m k) v := by
  by_cases hk : k = .date
  · subst hk
    cases v with
    | date t =>
      have hle : ((scalar m .date).dateFormat.encode t.millis).natAbs ≤ DateFormat.greatestTimestamp :=
        DateFormat.natAbs_encode_le hv
      have hsmall := lt_of_le_of_lt hle DateFormat.greatestTimestamp_lt
      have hexact : Binary64.withinMagnitude Binary64.greatestExact
          (.ofInt ((scalar m .date).dateFormat.encode t.millis)) = true :=
        Binary64.withinMagnitude_ofInt (by decide) (hle.trans (by decide))
      have hstored : converted (scalar m .date) (.date t) =
          .number (.ofInt ((scalar m .date).dateFormat.encode t.millis)) := rfl
      rw [hstored, Wire.ofValue, Wire.ofNumber, if_pos (Binary64.isFinite_ofInt hsmall)] at h
      obtain rfl := Option.some.inj (Except.ok.inj h)
      rw [Wire.toValue, Wire.readNumber_storedText (Binary64.isFinite_ofInt hsmall) (.inr hexact)]
      exact restoreOwn_date hv
    | _ => cases hv
  · rw [converted_of_not_date hk] at h
    rw [toValue_stored hv hk h, restoreOwn_reread hv hk, floored_of_not_date hk]

end Node

namespace Wire

theorem ofValue_of_numberMember {r : Except MarshalError String} (h : numberMember? v = some r) :
    ofValue options v = r.map fun t => some (.n t) := by
  cases v <;> cases h <;> rfl

theorem map_readNumber {ts : List String} (hv : ∀ v ∈ members, k.Holds v) (hk : k ≠ .date)
    (h : List.Forall₂ (fun v t => numberMember? v = some (.ok t)) members ts) :
    ts.map readNumber = members.map Value.reread := by
  induction h with
  | nil => rfl
  | @cons v t rest ts ht _ ih =>
    obtain ⟨hfirst, hrest⟩ := List.forall_mem_cons.1 hv
    have hwritten : ofValue {} v = .ok (some (.n t)) := ofValue_of_numberMember ht
    have hread : readNumber t = v.reread := Node.toValue_stored hfirst hk hwritten
    rw [List.map_cons, List.map_cons, hread, ih hrest]

theorem toValue_ofSet (hv : ∀ v ∈ members, k.Holds v) (hk : k ≠ .date) (h : ofSet members options = .ok w) :
    w.toValue = .set (members.map Value.reread) := by
  have hdef : ∀ v ∈ members, v.isUndefined = false := by
    intro v hmem
    have hholds := hv v hmem
    cases v with
    | undefined => cases k <;> cases hholds
    | _ => rfl
  obtain ⟨-, hstores⟩ := storesMembers_of_defined hdef h
  cases hstores with
  | numbers hnumbers => exact congrArg Value.set (map_readNumber hv hk hnumbers)
  | texts ts =>
    rw [List.map_map]
    rfl
  | blobs bs =>
    rw [List.map_map]
    rfl

end Wire

namespace Node

theorem isSetNumber_reread (hk : k = .number ∨ k = .bigInt) (hv : k.Holds v) : v.reread.isSetNumber = true := by
  rcases hk with rfl | rfl
  · cases v with
    | number x =>
      have hx : x.isFinite = true := hv.1
      cases x <;> first | rfl | cases hx
    | _ => cases hv
  · cases v with
    | bigInt i =>
      rw [Value.reread, Value.ofInt]
      split
      · rename_i hi
        have hx : (Binary64.ofInt i).isFinite = true := Binary64.isFinite_ofInt (lt_of_le_of_lt hi (by decide))
        rw [Value.isSetNumber]
        cases hread : Binary64.ofInt i <;> rw [hread] at hx <;> first | rfl | cases hx
      · rfl
    | _ => cases hv

theorem accepts_reread (hmember : (scalar md k).isMemberNode = true) (hne : members ≠ [])
    (hv : ∀ v ∈ members, k.Holds v) :
    accepts (set m (scalar md k)) (.set (members.map Value.reread)) = true := by
  have hall {p : Value → Bool} (hp : ∀ v, k.Holds v → p v.reread = true) : (members.map Value.reread).all p = true := by
    rw [List.all_map, List.all_eq_true]
    exact fun v hmem => hp v (hv v hmem)
  have hnot {p : Value → Bool} (hp : ∀ v, k.Holds v → p v.reread = false) :
      (members.map Value.reread).all p ≠ true := by
    obtain ⟨v, hmem⟩ := List.exists_mem_of_ne_nil members hne
    intro h
    have hpv := List.all_eq_true.1 h _ (List.mem_map_of_mem hmem)
    rw [hp v (hv v hmem)] at hpv
    cases hpv
  have hkind : Value.memberKind? (members.map Value.reread) = some (setKindOf (some k.kind)) := by
    rw [Value.memberKind?]
    cases k with
    | number => rw [if_pos (hall fun v => isSetNumber_reread (.inl rfl))]; rfl
    | bigInt => rw [if_pos (hall fun v => isSetNumber_reread (.inr rfl))]; rfl
    | string =>
      rw [if_neg (hnot fun v h => by cases v <;> first | rfl | cases h),
        if_pos (hall fun v h => by cases v <;> first | rfl | cases h)]
      rfl
    | binary =>
      rw [if_neg (hnot fun v h => by cases v <;> first | rfl | cases h),
        if_neg (hnot fun v h => by cases v <;> first | rfl | cases h),
        if_pos (hall fun v h => by cases v <;> first | rfl | cases h)]
      rfl
    | _ => cases hmember
  have hscalar : kind? (scalar md k) = some k.kind := by
    cases k <;> first | rfl | cases hmember
  rw [accepts, if_neg (by simp [isDate]), kind?, hscalar, Value.kind?, hkind]
  exact beq_self_eq_true _

end Node

end ItemMapper
