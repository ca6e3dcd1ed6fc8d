import ItemMapper.Proofs.Rounding

/-!
# Whole numbers

Integers below `2 ^ 53` are numbers of the format, and their truncation, their order and their products are those of
integers. An integer from there on is rounded to a number that is no smaller than `2 ^ 53`.
-/

namespace ItemMapper.Binary64

variable {m m' k bound : Nat} {e e' i j : Int} {s : Bool} {h : Canonical m e} {h' : Canonical m' e'} {x : Binary64}

theorem mantissa_of_value (hv : (m : ℚ) * (2 : ℚ) ^ e = k) (he : ¬ 0 ≤ e) : m = k * twoPow (-e).toNat := by
  have hneg : 0 ≤ -e := by omega
  have hq : (m : ℚ) = k * ((twoPow (-e).toNat : Nat) : ℚ) := by
    rw [twoPow_toNat_cast hneg, ← hv, mul_assoc, ← zpow_add₀ (by norm_num), add_neg_cancel, zpow_zero, mul_one]
  exact_mod_cast hq

theorem wholePart_eq (hv : (m : ℚ) * (2 : ℚ) ^ e = k) :
    (if 0 ≤ e then m * twoPow e.toNat else m / twoPow (-e).toNat) = k := by
  split
  · rename_i he
    rw [← twoPow_toNat_cast he] at hv
    exact_mod_cast hv
  · rename_i he
    rw [mantissa_of_value hv he, Nat.mul_div_cancel k (twoPow_pos _)]

theorem isIntegral_of_value (hv : (m : ℚ) * (2 : ℚ) ^ e = k) : (finite s m e h).isIntegral = true := by
  rw [isIntegral, Bool.or_eq_true, decide_eq_true_iff]
  by_cases he : 0 ≤ e
  · exact .inl he
  · refine .inr ?_
    rw [mantissa_of_value hv he, Nat.mul_mod_left]
    rfl

theorem value_of_isIntegral (hx : (finite s m e h).isIntegral = true) :
    (m : ℚ) * (2 : ℚ) ^ e = ((if 0 ≤ e then m * twoPow e.toNat else m / twoPow (-e).toNat : Nat) : ℚ) := by
  split
  · rename_i he
    rw [Nat.cast_mul, twoPow_toNat_cast he]
  · rename_i he
    have hneg : 0 ≤ -e := by omega
    rw [isIntegral, Bool.or_eq_true, decide_eq_true_iff] at hx
    have hmod : m % twoPow (-e).toNat = 0 := by simpa using hx.resolve_left he
    have hm : m = m / twoPow (-e).toNat * twoPow (-e).toNat := (Nat.div_mul_cancel (Nat.dvd_of_mod_eq_zero hmod)).symm
    have hq : (m : ℚ) = ((m / twoPow (-e).toNat : Nat) : ℚ) * (2 : ℚ) ^ (-e) := by
      rw [← twoPow_toNat_cast hneg]
      exact_mod_cast hm
    rw [hq, mul_assoc, ← zpow_add₀ (by norm_num), neg_add_cancel, zpow_zero, mul_one]

theorem truncate?_of_value (hv : (m : ℚ) * (2 : ℚ) ^ e = k) : (finite s m e h).truncate? = some (signed s k) := by
  rw [truncate?, wholePart_eq hv]

theorem compare?_finite : compare? (finite false m e h) (finite false m' e' h') =
    some (if (m : ℚ) * (2 : ℚ) ^ e < m' * (2 : ℚ) ^ e' then .lt
      else if (m : ℚ) * (2 : ℚ) ^ e = m' * (2 : ℚ) ^ e' then .eq else .gt) := by
  have hscale (f : Int) (hf : min e e' ≤ f) (k : Nat) : (k : ℚ) * (2 : ℚ) ^ f =
      ((k * twoPow (f - min e e').toNat : Nat) : ℚ) * (2 : ℚ) ^ (min e e') := by
    rw [Nat.cast_mul, twoPow_toNat_cast (by omega), mul_assoc, ← zpow_add₀ (by norm_num), sub_add_cancel]
  have hpos := two_zpow_pos (min e e')
  rw [hscale e (min_le_left _ _) m, hscale e' (min_le_right _ _) m']
  simp only [mul_lt_mul_iff_left₀ hpos, mul_left_inj' hpos.ne', Nat.cast_lt, Nat.cast_inj]
  simp only [compare?, aligned, signed, Bool.false_eq_true, if_false]
  rw [Option.some.injEq, compare, instOrdInt]
  simp only [compareOfLessAndEq, Nat.cast_lt, Nat.cast_inj]

theorem lt_finite : lt (finite false m e h) (finite false m' e' h') = true ↔
    (m : ℚ) * (2 : ℚ) ^ e < m' * (2 : ℚ) ^ e' := by
  rw [lt, compare?_finite]
  split
  · simp [*]
  · split <;> simp [*]

theorem le_finite : le (finite false m e h) (finite false m' e' h') = true ↔
    (m : ℚ) * (2 : ℚ) ^ e ≤ m' * (2 : ℚ) ^ e' := by
  rw [le, compare?_finite]
  split
  · rename_i hlt
    simp [hlt.le]
  · rename_i hge
    split
    · rename_i heq
      simp [heq]
    · rename_i hne
      simpa using lt_of_le_of_ne (not_lt.1 hge) (Ne.symm hne)

theorem exists_canonical (hk : k < twoPow 53) : ∃ m e, Canonical m e ∧ (m : ℚ) * (2 : ℚ) ^ e = k := by
  by_cases hzero : k = 0
  · exact ⟨0, -1074, by decide, by simp [hzero]⟩
  · have hlog : k.log2 ≤ 52 := by
      have hlt := (Nat.log2_lt hzero).2 hk
      omega
    have hlow : 2 ^ k.log2 ≤ k := Nat.log2_self_le hzero
    have hhigh : k < 2 ^ (k.log2 + 1) := Nat.lt_log2_self
    refine ⟨k * 2 ^ (52 - k.log2), -((52 - k.log2 : Nat) : Int), ⟨?_, by omega, by omega, .inl ?_⟩, ?_⟩
    · calc k * 2 ^ (52 - k.log2) < 2 ^ (k.log2 + 1) * 2 ^ (52 - k.log2) :=
            Nat.mul_lt_mul_of_pos_right hhigh (Nat.pow_pos (by omega))
        _ = twoPow 53 := by rw [← Nat.pow_add, show k.log2 + 1 + (52 - k.log2) = 53 by omega]
    · calc twoPow 52 = 2 ^ k.log2 * 2 ^ (52 - k.log2) := by
            rw [← Nat.pow_add, show k.log2 + (52 - k.log2) = 52 by omega]
        _ ≤ k * 2 ^ (52 - k.log2) := Nat.mul_le_mul_right _ hlow
    · rw [Nat.cast_mul, Nat.cast_pow, zpow_neg, zpow_natCast, Nat.cast_ofNat, mul_assoc,
        mul_inv_cancel₀ (by positivity), mul_one]

theorem ofInt_eq_finite (hi : i.natAbs < twoPow 53) : ∃ m e, ∃ h : Canonical m e,
    (m : ℚ) * (2 : ℚ) ^ e = i.natAbs ∧ ofInt i = finite (decide (i < 0)) m e h := by
  obtain ⟨m, e, h, hv⟩ := exists_canonical hi
  refine ⟨m, e, h, hv, ofRatio_exact h (by omega) ?_⟩
  rw [hv, Nat.cast_one, div_one]

theorem signed_natAbs : signed (decide (i < 0)) i.natAbs = i := by
  rw [signed]
  split
  · rename_i hi
    have hneg : i < 0 := by simpa using hi
    omega
  · rename_i hi
    have hpos : 0 ≤ i := by simpa using hi
    omega

theorem isFinite_ofInt (hi : i.natAbs < twoPow 53) : (ofInt i).isFinite = true := by
  obtain ⟨m, e, h, -, heq⟩ := ofInt_eq_finite hi
  rw [heq]
  rfl

theorem isIntegral_ofInt (hi : i.natAbs < twoPow 53) : (ofInt i).isIntegral = true := by
  obtain ⟨m, e, h, hv, heq⟩ := ofInt_eq_finite hi
  rw [heq]
  exact isIntegral_of_value hv

theorem truncate?_ofInt (hi : i.natAbs < twoPow 53) : (ofInt i).truncate? = some i := by
  obtain ⟨m, e, h, hv, heq⟩ := ofInt_eq_finite hi
  rw [heq, truncate?_of_value hv, signed_natAbs]

theorem clampTo_ofInt (hi : i.natAbs < twoPow 53) {least greatest : Int} (hl : least ≤ i) (hg : i ≤ greatest) :
    (ofInt i).clampTo least greatest = i := by
  obtain ⟨m, e, h, -, heq⟩ := ofInt_eq_finite hi
  have htruncate := truncate?_ofInt hi
  rw [heq] at htruncate ⊢
  rw [clampTo, htruncate, Option.getD_some, min_eq_right hg, max_eq_right hl]

theorem withinMagnitude_finite (hb : bound < twoPow 53) :
    withinMagnitude bound (finite s m e h) = true ↔ (m : ℚ) * (2 : ℚ) ^ e ≤ bound := by
  have hnat : (bound : Int).natAbs < twoPow 53 := hb
  obtain ⟨m', e', h', hv, heq⟩ := ofInt_eq_finite hnat
  have hsign : decide ((bound : Int) < 0) = false := by
    rw [decide_eq_false_iff_not]
    omega
  rw [hsign] at heq
  rw [withinMagnitude, abs, heq, le_finite, hv, Int.natAbs_natCast]

theorem withinMagnitude_ofInt (hb : bound < twoPow 53) (hi : i.natAbs ≤ bound) :
    withinMagnitude bound (ofInt i) = true := by
  obtain ⟨m, e, h, hv, heq⟩ := ofInt_eq_finite (lt_of_le_of_lt hi hb)
  rw [heq, withinMagnitude_finite hb, hv]
  exact_mod_cast hi

/-- A product with a positive integer is the product of integers, as far as both factors are exact. -/
theorem mul_ofInt (hi : i.natAbs < twoPow 53) (hj : j.natAbs < twoPow 53) (hpos : 0 < j) :
    (ofInt i).mul (ofInt j) = ofInt (i * j) := by
  obtain ⟨m, e, h, hv, heq⟩ := ofInt_eq_finite hi
  obtain ⟨m', e', h', hv', heq'⟩ := ofInt_eq_finite hj
  have hsign : (decide (i < 0) != decide (j < 0)) = decide (i * j < 0) := by
    rw [decide_eq_false (p := j < 0) (by omega), Bool.bne_false]
    refine decide_eq_decide.2 ⟨fun hneg => Int.mul_neg_of_neg_of_pos hneg hpos, fun hneg => ?_⟩
    by_contra hge
    have hprod := Int.mul_nonneg (not_lt.1 hge) hpos.le
    omega
  rw [heq, heq', mul, hsign]
  change ofRatio _ (scaleDown (m * m') 1 (-(e + e'))).1 (scaleDown (m * m') 1 (-(e + e'))).2 = ofRatio _ _ 1
  refine ofRatio_congr (scaleDown_den_pos (by omega)) (by omega) ?_
  rw [scaleDown_ratio, Nat.cast_mul, Nat.cast_one, div_one, zpow_neg, div_inv_eq_mul, zpow_add₀ (by norm_num), div_one,
    Int.natAbs_mul, Nat.cast_mul, ← hv, ← hv']
  ring

theorem ofRatio_of_large (hk : twoPow 53 ≤ k) :
    ofRatio s k 1 = infinite s ∨ ∃ m e, ∃ h : Canonical m e, 1 ≤ e ∧ ofRatio s k 1 = finite s m e h := by
  have hpos : 0 < k := lt_of_lt_of_le (Nat.pow_pos (by omega)) hk
  have hexp := exponentOf_hasExponent hpos Nat.zero_lt_one
  have hone : 1 ≤ exponentOf k 1 := by
    have hcast : (2 : ℚ) ^ (53 : Int) ≤ (k : ℚ) / (1 : Nat) := by
      rw [Nat.cast_one, div_one]
      exact_mod_cast hk
    have hlt := lt_of_le_of_lt hcast hexp.below
    rw [two_zpow_lt_iff] at hlt
    omega
  rw [ofRatio, if_neg hpos.ne']
  simp only [ofParts]
  split
  · rename_i hc
    exact .inr ⟨_, _, hc, hone, rfl⟩
  · split
    · rename_i hc
      exact .inr ⟨_, _, hc, by omega, rfl⟩
    · exact .inl rfl

theorem greatestExact_lt_ofInt (hi : greatestExact < i.natAbs) : lt (ofInt greatestExact) (ofInt i).abs = true := by
  have hexact : (greatestExact : Int).natAbs < twoPow 53 := by decide
  obtain ⟨m', e', h', hv', heq'⟩ := ofInt_eq_finite hexact
  have hsign : decide ((greatestExact : Int) < 0) = false := by decide
  have hk : twoPow 53 ≤ i.natAbs := by
    rw [greatestExact] at hi
    have htwo : 0 < twoPow 53 := Nat.pow_pos (by omega)
    omega
  rw [hsign] at heq'
  rw [heq', ofInt]
  rcases ofRatio_of_large (s := decide (i < 0)) hk with hinf | ⟨m, e, h, he, hfin⟩
  · rw [hinf]
    rfl
  · rw [hfin, abs, lt_finite, hv']
    obtain ⟨-, -, -, hnormal⟩ := id h
    have hm : twoPow 52 ≤ m := hnormal.resolve_right (by omega)
    have hmq : (2 : ℚ) ^ (52 : Int) ≤ m := by exact_mod_cast hm
    have htwo : (2 : ℚ) ^ (1 : Int) ≤ (2 : ℚ) ^ e := two_zpow_le_iff.2 he
    have hgreatest : (((greatestExact : Int).natAbs : Nat) : ℚ) < (2 : ℚ) ^ (52 : Int) * (2 : ℚ) ^ (1 : Int) := by
      rw [Int.natAbs_natCast]
      norm_num [greatestExact]
    calc (((greatestExact : Int).natAbs : Nat) : ℚ) < (2 : ℚ) ^ (52 : Int) * (2 : ℚ) ^ (1 : Int) := hgreatest
      _ ≤ m * (2 : ℚ) ^ e := mul_le_mul hmq htwo (two_zpow_pos _).le (Nat.cast_nonneg m)

theorem not_greatestExact_lt (hx : x.isFinite = true)
    (hexact : x.isIntegral = false ∨ withinMagnitude greatestExact x = true) :
    lt (ofInt greatestExact) x.abs = false := by
  have hbound : greatestExact < twoPow 53 := by decide
  have hexactInt : (greatestExact : Int).natAbs < twoPow 53 := hbound
  obtain ⟨m', e', h', hv', heq'⟩ := ofInt_eq_finite hexactInt
  have hsign : decide ((greatestExact : Int) < 0) = false := by decide
  rw [hsign] at heq'
  cases x with
  | nan => cases hx
  | infinite s => cases hx
  | finite s m e h =>
    rw [Bool.eq_false_iff, heq', abs, Ne, lt_finite, hv', not_lt, Int.natAbs_natCast]
    rcases hexact with hfraction | hwithin
    · -- a number with a fraction has its last digit behind the point, and so is below `2 ^ 52`
      have he : e < 0 := by
        rw [isIntegral, Bool.or_eq_false_iff, decide_eq_false_iff_not] at hfraction
        omega
      have hm : (m : ℚ) ≤ (2 : ℚ) ^ (53 : Int) := by exact_mod_cast h.1.le
      have hhalf : (2 : ℚ) ^ e ≤ (2 : ℚ) ^ (-1 : Int) := two_zpow_le_iff.2 (by omega)
      calc (m : ℚ) * (2 : ℚ) ^ e ≤ (2 : ℚ) ^ (53 : Int) * (2 : ℚ) ^ (-1 : Int) :=
            mul_le_mul hm hhalf (two_zpow_pos _).le (two_zpow_pos _).le
        _ ≤ greatestExact := by norm_num [greatestExact]
    · exact (withinMagnitude_finite hbound).1 hwithin

end ItemMapper.Binary64
