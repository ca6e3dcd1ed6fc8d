import ItemMapper.Proofs.KeyValues
import ItemMapper.Proofs.ReorderedValues

/-!
# Stable wire values

Whatever a value is marshalled to is stable: the value that is read of it is marshalled to it again, with undefined
members left out or refused. A number may come back as another kind of number, but not with another text.
-/

namespace ItemMapper

instance : DecidablePred Instant.InCalendar := fun t =>
  inferInstanceAs (Decidable (Instant.leastMillis ≤ t.millis ∧ t.millis ≤ Instant.greatestMillis))

instance : DecidablePred Value.InRange
  | .bigInt i => inferInstanceAs (Decidable (NumberReader.leastBig ≤ i ∧ i ≤ NumberReader.greatestBig))
  | .date t => inferInstanceAs (Decidable t.InCalendar)
  | .undefined | .null | .bool _ | .number _ | .string _ | .binary _ | .list _ | .map _ | .set _ => .isTrue trivial

namespace Value

variable {items members : List Value} {entries : List (String × Value)}

mutual

def ranged : Value → Bool
  | .list items => itemsRanged items
  | .map entries => entriesRanged entries
  | .set members => itemsRanged members
  | v => decide v.InRange

def itemsRanged : List Value → Bool
  | [] => true
  | v :: rest => ranged v && itemsRanged rest

def entriesRanged : List (String × Value) → Bool
  | [] => true
  | (_, v) :: rest => ranged v && entriesRanged rest

end

theorem ranged_list : (list items).ranged = true ↔ ∀ v ∈ items, v.ranged = true := by
  rw [ranged]
  induction items with
  | nil => simp [itemsRanged]
  | cons v rest ih => simp [itemsRanged, ih]

theorem ranged_map : (map entries).ranged = true ↔ ∀ e ∈ entries, e.2.ranged = true := by
  rw [ranged]
  induction entries with
  | nil => simp [entriesRanged]
  | cons e rest ih => simp [entriesRanged, ih]

theorem ranged_set : (set members).ranged = true ↔ ∀ v ∈ members, v.ranged = true := by
  rw [ranged, ← ranged, ranged_list]

theorem inRange_of_ranged {v : Value} (h : v.ranged = true) : v.InRange := by
  cases v with
  | list items => trivial
  | map entries => trivial
  | set members => trivial
  | _ => exact of_decide_eq_true h

end Value

namespace Wire

variable {options : MarshalOptions} {v : Value} {w : Wire} {digits : String} {numbers texts : List String}
  {blobs : List (List UInt8)} {items members : List Value} {entries : List (String × Value)} {ws : List Wire} {es : Item}

/-- The value that is read is marshalled to this wire value, with whatever options. -/
def Stable (w : Wire) : Prop := ∀ options, ofValue options w.toValue = .ok (some w)

def StableNumber (digits : String) : Prop := numberMember? (readNumber digits) = some (.ok digits)

theorem exists_numberMember_readNumber (digits : String) : ∃ r, numberMember? (readNumber digits) = some r := by
  unfold readNumber
  dsimp only
  split
  · split <;> exact ⟨_, rfl⟩
  · exact ⟨_, rfl⟩

theorem stableNumber_iff : StableNumber digits ↔ (n digits).Stable := by
  constructor
  · intro h options
    rw [toValue, ofValue_of_numberMember h]
    rfl
  · intro h
    obtain ⟨r, hr⟩ := exists_numberMember_readNumber digits
    have hwritten := h {}
    rw [toValue, ofValue_of_numberMember hr] at hwritten
    obtain ⟨t, rfl, ht⟩ := Outcome.of_map hwritten
    rw [StableNumber, hr, Wire.n.inj (Option.some.inj ht)]

theorem stableNumber_intText {i : Int} (hl : NumberReader.leastBig ≤ i) (hg : i ≤ NumberReader.greatestBig) :
    StableNumber (intText i) := by
  refine stableNumber_iff.2 fun options => ?_
  rw [toValue, readNumber_intText hl hg, ofValue_ofInt]

theorem stableNumber_of_numberMember (hv : v.InRange) (h : numberMember? v = some (.ok digits)) : StableNumber digits := by
  cases v with
  | number x =>
    have hwritten : ofValue {} (.number x) = .ok (some (.n digits)) := ofValue_of_numberMember h
    have hx := finite_of_ofValue hwritten
    rw [ofValue_number hx] at hwritten
    obtain rfl : x.storedText = digits := Wire.n.inj (Option.some.inj (Except.ok.inj hwritten))
    exact stableNumber_iff.2 fun options => ofValue_readNumber_storedText hx
  | bigInt i =>
    obtain rfl := Except.ok.inj (Option.some.inj h)
    exact stableNumber_intText hv.1 hv.2
  | date t =>
    obtain rfl := Except.ok.inj (Option.some.inj h)
    exact stableNumber_intText hv.big.1 hv.big.2
  | _ => cases h

section Members

variable {α β : Type} {f : α → Option β} {xs : List α} {ys : List β}

theorem mapM_map {g : β → α} (h : ∀ y ∈ ys, f (g y) = some y) : (ys.map g).mapM f = some ys :=
  Outcome.mapM_eq_some_iff.2 (List.forall₂_map_left_iff.2 (List.forall₂_same.2 h))

theorem mapM_eq_none (hne : xs ≠ []) (h : ∀ x ∈ xs, f x = none) : xs.mapM f = none := by
  obtain ⟨x, rest, rfl⟩ := List.exists_cons_of_ne_nil hne
  rw [List.mapM_cons, h x List.mem_cons_self]
  rfl

end Members

theorem stable_ns (hne : numbers ≠ []) (h : ∀ t ∈ numbers, StableNumber t) : (ns numbers).Stable := by
  intro options
  have hdef : ∀ v ∈ numbers.map readNumber, v.isUndefined = false := by
    refine List.forall_mem_map.2 fun t ht => ?_
    have hmember : numberMember? (readNumber t) = some (.ok t) := h t ht
    cases hread : readNumber t <;> first | rfl | (rw [hread] at hmember; cases hmember)
  have hread : (numbers.map readNumber).mapM numberMember? = some (numbers.map .ok) :=
    Outcome.mapM_eq_some_iff.2 (List.forall₂_map_left_iff.2 (List.forall₂_map_right_iff.2 (List.forall₂_same.2 h)))
  have htexts : (numbers.map Except.ok).mapM id = (.ok numbers : Except MarshalError (List String)) :=
    Outcome.mapM_eq_ok_iff.2 (List.forall₂_map_left_iff.2 (List.forall₂_same.2 fun _ _ => rfl))
  rw [toValue, ofValue, ofSet]
  simp only [filter_defined hdef, List.isEmpty_map, List.isEmpty_eq_false_iff.2 hne, hread, htexts]
  rfl

theorem stable_ss (hne : texts ≠ []) : (ss texts).Stable := by
  intro options
  have hdef : ∀ v ∈ texts.map Value.string, v.isUndefined = false := List.forall_mem_map.2 fun _ _ => rfl
  have hnumbers : (texts.map Value.string).mapM numberMember? = none :=
    mapM_eq_none (by simpa using hne) (List.forall_mem_map.2 fun _ _ => rfl)
  have hread : (texts.map Value.string).mapM textMember? = some texts := mapM_map fun _ _ => rfl
  rw [toValue, ofValue, ofSet]
  simp only [filter_defined hdef, List.isEmpty_map, List.isEmpty_eq_false_iff.2 hne, hnumbers, hread]
  rfl

theorem stable_bs (hne : blobs ≠ []) : (bs blobs).Stable := by
  intro options
  have hdef : ∀ v ∈ blobs.map Value.binary, v.isUndefined = false := List.forall_mem_map.2 fun _ _ => rfl
  have hnumbers : (blobs.map Value.binary).mapM numberMember? = none :=
    mapM_eq_none (by simpa using hne) (List.forall_mem_map.2 fun _ _ => rfl)
  have htexts : (blobs.map Value.binary).mapM textMember? = none :=
    mapM_eq_none (by simpa using hne) (List.forall_mem_map.2 fun _ _ => rfl)
  have hread : (blobs.map Value.binary).mapM binaryMember? = some blobs := mapM_map fun _ _ => rfl
  rw [toValue, ofValue, ofSet]
  simp only [filter_defined hdef, List.isEmpty_map, List.isEmpty_eq_false_iff.2 hne, hnumbers, htexts, hread]
  rfl

theorem stable_of_ofSet (hv : ∀ v ∈ members, v.InRange) (h : ofSet members options = .ok w) : w.Stable := by
  obtain ⟨hne, hstores⟩ := storesMembers_of_ofSet h
  generalize hfilter : members.filter (fun v => !(options.removeUndefined && v.isUndefined)) = kept at hne hstores
  cases hstores with
  | numbers hnumbers =>
    refine stable_ns ?_ fun t ht => ?_
    · rintro rfl
      exact hne (List.forall₂_nil_right_iff.1 hnumbers)
    · obtain ⟨v, hmem, hvt⟩ := exists_of_forall₂ hnumbers.flip ht
      exact stableNumber_of_numberMember (hv v (List.mem_of_mem_filter (hfilter ▸ hmem))) hvt
  | texts ts => exact stable_ss (by simpa using hne)
  | blobs bs => exact stable_bs (by simpa using hne)

theorem ofItems_itemsToValues (h : ∀ w ∈ ws, w.Stable) : ofItems options (itemsToValues ws) = .ok ws := by
  induction ws with
  | nil => rfl
  | cons w rest ih =>
    obtain ⟨hw, hrest⟩ := List.forall_mem_cons.1 h
    rw [itemsToValues, ofItems, hw options, ih hrest]
    rfl

theorem ofEntries_entriesToValues (h : ∀ e ∈ es, e.2.Stable) : ofEntries options (entriesToValues es) = .ok es := by
  induction es with
  | nil => rfl
  | cons e rest ih =>
    obtain ⟨he, hrest⟩ := List.forall_mem_cons.1 h
    rw [entriesToValues, ofEntries, he options, ih hrest]
    rfl

theorem mem_ofEntries {e : String × Wire} (h : ofEntries options entries = .ok es) (he : e ∈ es) :
    ∃ f ∈ entries, ofValue options f.2 = .ok (some e.2) := by
  induction entries generalizing es with
  | nil =>
    cases h
    cases he
  | cons f rest ih =>
    obtain ⟨o, es', ho, hrest, rfl⟩ := ofEntries_cons h
    rcases List.mem_append.1 he with he | he
    · cases o with
      | none => cases he
      | some x =>
        obtain rfl : e = (f.1, x) := by simpa using he
        exact ⟨f, List.mem_cons_self, ho⟩
    · obtain ⟨g, hg, hx⟩ := ih hrest he
      exact ⟨g, List.mem_cons_of_mem _ hg, hx⟩

theorem stable_of_number {r : Except MarshalError String} (hv : v.InRange) (hr : numberMember? v = some r)
    (h : ofValue options v = .ok (some w)) : w.Stable := by
  rw [ofValue_of_numberMember hr] at h
  obtain ⟨t, rfl, ht⟩ := Outcome.of_map h
  cases ht
  exact stableNumber_iff.1 (stableNumber_of_numberMember hv hr)

/-- Whatever a value is marshalled to is marshalled from what is read of it, whichever the options. -/
theorem stable_of_ofValue (hv : v.ranged = true) (h : ofValue options v = .ok (some w)) :
    ∀ others, ofValue others w.toValue = .ok (some w) := by
  have hrange := Value.inRange_of_ranged hv
  induction v using Value.induct generalizing w with
  | undefined => cases ofValue_undefined h
  | number x => exact stable_of_number hrange rfl h
  | bigInt i => exact stable_of_number hrange rfl h
  | date t => exact stable_of_number hrange rfl h
  | list items ih =>
    obtain ⟨ws, hws, hw⟩ := Outcome.of_map h
    cases hw
    intro others
    have hstable : ∀ w ∈ ws, w.Stable := by
      intro w hmem
      obtain ⟨v, hvmem, hvw⟩ := mem_ofItems hws hmem
      have hvr := Value.ranged_list.1 hv v hvmem
      exact ih v hvmem hvr hvw (Value.inRange_of_ranged hvr)
    rw [toValue, ofValue, ofItems_itemsToValues hstable]
    rfl
  | map entries ih =>
    obtain ⟨es, hes, hw⟩ := Outcome.of_map h
    cases hw
    intro others
    have hstable : ∀ e ∈ es, e.2.Stable := by
      intro e hmem
      obtain ⟨f, hfmem, hfe⟩ := mem_ofEntries hes hmem
      have hfr := Value.ranged_map.1 hv f hfmem
      exact ih f hfmem hfr hfe (Value.inRange_of_ranged hfr)
    rw [toValue, ofValue, ofEntries_entriesToValues hstable]
    rfl
  | set members ih =>
    obtain ⟨w', hw', hw⟩ := Outcome.of_map h
    cases hw
    exact stable_of_ofSet (fun v hmem => Value.inRange_of_ranged (Value.ranged_set.1 hv v hmem)) hw'
  | _ =>
    obtain rfl := Option.some.inj (Except.ok.inj h)
    exact fun others => rfl

/-- A date comes back as a number, and the undefined member not at all. -/
theorem visits_stable :
    let v := Value.map [("first", .date ⟨1700000000123456789⟩), ("last", .undefined),
      ("counts", .set [.bigInt 9007199254740993, .date ⟨5000000⟩]), ("tags", .list [.set [.string "a"], .undefined])]
    let w := Wire.m [("first", .n "1700000000123"), ("counts", .ns ["9007199254740993", "5"]), ("tags", .l [.ss ["a"]])]
    ofValue {} v = .ok (some w) ∧ ∀ others, ofValue others w.toValue = .ok (some w) := by
  intro v w
  have hv : v.ranged = true := by decide
  have hw : ofValue {} v = .ok (some w) := by rfl
  exact ⟨hw, stable_of_ofValue hv hw⟩

end Wire

end ItemMapper
