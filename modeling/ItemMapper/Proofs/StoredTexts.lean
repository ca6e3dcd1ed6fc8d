import ItemMapper.Proofs.NumberTexts

/-!
# Stored texts

Whatever a stored text is read as has that text again. Up to `2 ^ 53 - 1` it is read as a plain number, beyond that as a
big integer, and as a number again where big integers end.
-/

namespace ItemMapper

namespace NumberReader

open NumberLayout

variable {n k : Nat} {s : Bool} {c : Char} {cs : List Char} {least greatest i : Int} {d : Decimal}

theorem natDigits_append_zeros (hn : 0 < n) : natDigits n ++ zeros k = natDigits (n * tenPow k) := by
  induction k with
  | zero => simp [zeros, tenPow]
  | succ k ih =>
    have hzeros : zeros (k + 1) = zeros k ++ natDigits 0 := List.replicate_succ'
    have hpos : 0 < n * tenPow k := Nat.mul_pos hn (Nat.pow_pos (by omega))
    have hten : n * tenPow (k + 1) = 10 * (n * tenPow k) + 0 := by
      rw [tenPow, tenPow, Nat.pow_eq, Nat.pow_eq]
      ring
    rw [hzeros, ← List.append_assoc, ih, hten]
    exact Nat.toDigits_append_toDigits (by omega) hpos (by omega)

theorem intChars_of_integer? (hn : 0 < n) (h : integer? least greatest (sign s ++ natDigits n) = some i) :
    intChars i = sign s ++ natDigits n := by
  obtain ⟨c, rest, hd, hc⟩ := natDigits_eq_cons n
  have hempty : (natDigits n).isEmpty = false := List.isEmpty_eq_false_iff.2 natDigits_ne_nil
  have hsplit : splitSign (sign s ++ natDigits n) = (s, natDigits n) := by rw [hd, splitSign_sign hc]
  rw [integer?, hsplit] at h
  simp only [hempty, all_isAsciiDigit_natDigits, natOfDigits_natDigits, Bool.not_true, Bool.or_self,
    Bool.false_eq_true, if_false] at h
  generalize hj : (if s = true then -(n : Int) else (n : Int)) = j at h
  split at h
  · obtain rfl := Option.some.inj h
    have hsign : decide (j < 0) = s := by
      cases s <;> simp at hj <;> simp [← hj, hn]
    have habs : j.natAbs = n := by
      cases s <;> simp at hj <;> simp [← hj]
    rw [intChars, hsign, habs]
  · cases h

theorem integer?_of_point (hc : isAsciiDigit c = true) (hpoint : '.' ∈ cs) :
    integer? least greatest (sign s ++ c :: cs) = none := by
  have hall : (c :: cs).all isAsciiDigit = false := by
    rw [List.all_eq_false]
    exact ⟨'.', List.mem_cons_of_mem _ hpoint, by decide⟩
  rw [integer?, splitSign_sign hc]
  simp [hall]

theorem intChars_of_plain (hd : 0 < d.digits) (h : integer? least greatest (sign s ++ plain.ofDecimal d) = some i) :
    intChars i = sign s ++ plain.ofDecimal d := by
  rw [plain_ofDecimal] at h ⊢
  split at h
  · rename_i hwhole
    rw [if_pos hwhole]
    rw [natDigits_append_zeros hd] at h ⊢
    exact intChars_of_integer? (Nat.mul_pos hd (Nat.pow_pos (by omega))) h
  · exfalso
    split at h
    · obtain ⟨c, rest, hdigits, hc⟩ := natDigits_eq_cons d.digits
      rw [hdigits, List.take_succ_cons, List.cons_append, integer?_of_point hc (by simp)] at h
      cases h
    · rw [List.cons_append, List.cons_append, integer?_of_point (by decide) (by simp)] at h
      cases h

end NumberReader

namespace Binary64

open NumberLayout NumberReader

variable {x y : Binary64} {least greatest i : Int} {s : Bool} {k : Nat}

theorem natAbs_signed : (signed s k).natAbs = k := by
  cases s <;> simp [signed]

theorem intChars_of_storedChars (hx : x.isFinite = true) (hzero : x.isZero = false)
    (h : integer? least greatest x.storedChars = some i) : intChars i = x.storedChars := by
  cases x with
  | nan => cases hx
  | infinite s => cases hx
  | finite s m e hc =>
    have hm : m ≠ 0 := by
      intro hm
      subst hm
      cases hzero
    have hpos : 0 < (m : ℚ) * (2 : ℚ) ^ e := mul_pos (by positivity) (two_zpow_pos e)
    rw [storedChars] at h ⊢
    split at h
    · rename_i hwhole
      rw [if_pos hwhole]
      rw [Bool.and_eq_true] at hwhole
      rw [value_of_isIntegral hwhole.1] at hpos
      exact intChars_of_integer? (by exact_mod_cast hpos) h
    · rename_i hwhole
      rw [if_neg hwhole]
      refine intChars_of_plain (Nat.pos_of_ne_zero fun hdigits => hm ?_) h
      have hread : (shortest plain.tie m e hc).read s = finite s m e hc := shortest_read hc
      rw [Decimal.read, ofDecimal, if_pos hdigits, zero] at hread
      exact (Binary64.finite.inj hread).2.1.symm

theorem isZero_of_greatestExact_lt (hx : x.isFinite = true) (h : lt (ofInt greatestExact) x.abs = true) :
    x.isZero = false := by
  by_contra hzero
  cases x with
  | nan => cases hx
  | infinite s => cases hx
  | finite s m e hc =>
    obtain rfl : m = 0 := by
      cases m with
      | zero => rfl
      | succ m => exact absurd rfl hzero
    have hwithin : withinMagnitude greatestExact (finite s 0 e hc) = true := by
      rw [withinMagnitude_finite (by decide)]
      simp
    rw [not_greatestExact_lt hx (.inr hwithin)] at h
    cases h

theorem isIntegral_of_greatestExact_lt (hx : x.isFinite = true) (h : lt (ofInt greatestExact) x.abs = true) :
    x.isIntegral = true := by
  by_contra hfraction
  rw [not_greatestExact_lt hx (.inl (by simpa using hfraction))] at h
  cases h

theorem withinMagnitude_of_not_lt (hx : x.isFinite = true) (h : lt (ofInt greatestExact) x.abs = false) :
    withinMagnitude greatestExact x = true := by
  have hexact : (greatestExact : Int).natAbs < twoPow 53 := by decide
  obtain ⟨m', e', h', hv', heq'⟩ := ofInt_eq_finite hexact
  have hsign : decide ((greatestExact : Int) < 0) = false := by decide
  rw [hsign] at heq'
  cases x with
  | nan => cases hx
  | infinite s => cases hx
  | finite s m e hc =>
    rw [heq', abs, Bool.eq_false_iff, ne_eq, lt_finite, not_lt, hv', Int.natAbs_natCast] at h
    exact (withinMagnitude_finite (by decide)).2 h

theorem exists_ofInt (hx : x.isIntegral = true) (hwithin : withinMagnitude greatestExact x = true) (hzero : x ≠ zero true) :
    ∃ i : Int, i.natAbs ≤ greatestExact ∧ x = ofInt i := by
  cases x with
  | nan => cases hx
  | infinite s => cases hx
  | finite s m e hc =>
    have hvalue := value_of_isIntegral hx
    generalize (if 0 ≤ e then m * twoPow e.toNat else m / twoPow (-e).toNat) = k at hvalue
    rw [withinMagnitude_finite (by decide), hvalue] at hwithin
    refine ⟨signed s k, by rw [natAbs_signed]; exact_mod_cast hwithin, ?_⟩
    have hsign : decide (signed s k < 0) = s := by
      cases s with
      | false => simp [signed]
      | true =>
        have hk : 0 < k := by
          by_contra hk
          obtain rfl : k = 0 := by omega
          have hm : m = 0 := by
            by_contra hm
            have hpos : 0 < (m : ℚ) * (2 : ℚ) ^ e := mul_pos (by positivity) (two_zpow_pos e)
            rw [hvalue] at hpos
            simp at hpos
          subst hm
          obtain rfl : e = -1074 := hc.2.2.2.resolve_left (by decide)
          exact hzero rfl
        simpa [signed] using hk
    rw [ofInt, hsign, natAbs_signed]
    refine (ofRatio_exact hc (by omega) ?_).symm
    rw [hvalue, Nat.cast_one, div_one]

theorem clampTo_bounds (h : least ≤ 0) (h' : 0 ≤ greatest) :
    least ≤ x.clampTo least greatest ∧ x.clampTo least greatest ≤ greatest := by
  cases x with
  | nan => exact ⟨h, h'⟩
  | infinite s => cases s <;> simp [clampTo] <;> omega
  | finite s m e hc =>
    rw [clampTo]
    omega

theorem ofInt_tenPow : ofInt (tenPow 21) = finite false 7629394531250000 17 (by decide) := by
  decide +kernel

theorem storedChars_ofInt (hi : i.natAbs < twoPow 53) : (ofInt i).storedChars = intChars i := by
  obtain ⟨m, e, h, hv, heq⟩ := ofInt_eq_finite hi
  have hbelow : (i.natAbs : ℚ) < (2 : ℚ) ^ (53 : Int) := by exact_mod_cast hi
  have hsmall : lt (finite (decide (i < 0)) m e h).abs (ofInt (tenPow 21)) = true := by
    rw [ofInt_tenPow, abs, lt_finite, hv]
    refine lt_trans hbelow ?_
    norm_num
  rw [heq, storedChars, isIntegral_of_value hv, hsmall, wholePart_eq hv]
  rfl

theorem storedText_inj (hx : x.isFinite = true) (hy : y.isFinite = true) (h : x.storedText = y.storedText) : x = y := by
  have hread := float?_storedChars hx
  rw [String.ofList_injective h, float?_storedChars hy] at hread
  exact (Option.some.inj hread).symm

end Binary64

namespace Wire

open NumberReader

variable {x y : Binary64} {i : Int} {options : MarshalOptions}

theorem ofValue_number (hx : x.isFinite = true) : ofValue options (.number x) = .ok (some (.n x.storedText)) := by
  rw [ofValue, ofNumber, if_pos hx]
  rfl

theorem finite_of_ofValue {w : Wire} (h : ofValue options (.number x) = .ok (some w)) : x.isFinite = true := by
  rw [ofValue, ofNumber] at h
  by_contra hx
  rw [if_neg hx] at h
  cases h

/-- Two numbers that are stored alike are the same. -/
theorem ofValue_number_iff (hx : x.isFinite = true) :
    ofValue options (.number y) = .ok (some (.n x.storedText)) ↔ y = x := by
  constructor
  · intro h
    have hy := finite_of_ofValue h
    rw [ofValue_number hy] at h
    exact Binary64.storedText_inj hy hx (Wire.n.inj (Option.some.inj (Except.ok.inj h)))
  · intro h
    rw [h, ofValue_number hx]

theorem readNumber_of_large (hx : x.isFinite = true) (h : Binary64.lt (.ofInt Binary64.greatestExact) x.abs = true) :
    readNumber x.storedText = ((big? x.storedChars).map .bigInt).getD (.number x) := by
  rw [readNumber, Binary64.storedText, String.toList_ofList]
  simp only [Binary64.float?_storedChars hx, Option.getD_some, h, if_true]
  cases big? x.storedChars <;> rfl

theorem intText_of_large (hx : x.isFinite = true) (h : Binary64.lt (.ofInt Binary64.greatestExact) x.abs = true)
    (hi : big? x.storedChars = some i) : intText i = x.storedText := by
  rw [intText, Binary64.intChars_of_storedChars hx (Binary64.isZero_of_greatestExact_lt hx h) hi, Binary64.storedText]

theorem ofValue_readNumber_storedText (hx : x.isFinite = true) :
    ofValue options (readNumber x.storedText) = .ok (some (.n x.storedText)) := by
  by_cases hlarge : Binary64.lt (.ofInt Binary64.greatestExact) x.abs = true
  · rw [readNumber_of_large hx hlarge]
    cases hi : big? x.storedChars with
    | none => exact ofValue_number hx
    | some i =>
      rw [Option.map_some, Option.getD_some, ofValue, intText_of_large hx hlarge hi]
  · have hwithin := Binary64.withinMagnitude_of_not_lt hx (by simpa using hlarge)
    rw [readNumber_storedText hx (.inr hwithin), ofValue_number hx]

theorem storedText_ofInt (hi : i.natAbs ≤ Binary64.greatestExact) : (Binary64.ofInt i).storedText = intText i := by
  rw [Binary64.storedText, Binary64.storedChars_ofInt (lt_of_le_of_lt hi (by decide)), intText]

theorem ofValue_ofInt : ofValue options (Value.ofInt i) = .ok (some (.n (intText i))) := by
  rw [Value.ofInt]
  split
  · rename_i hi
    have hsmall : i.natAbs < twoPow 53 := lt_of_le_of_lt hi (by decide)
    rw [ofValue_number (Binary64.isFinite_ofInt hsmall), storedText_ofInt hi]
  · rfl

end Wire

end ItemMapper
