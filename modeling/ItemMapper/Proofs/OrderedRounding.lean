import ItemMapper.Proofs.WholeNumbers

/-!
# The order of rounded numbers

Rounding keeps the order of what is rounded: of two quotients, the larger one is rounded to no smaller number. So the
numbers nearest to two integers are in the order of the integers, or they are one number; and an integer of the exact
range shares its number with no other integer.
-/

namespace ItemMapper.Binary64

variable {num den num' den' n n' d d' k : Nat} {e i j : Int} {x y : Binary64}

theorem nearestEven_mono (h : n ≤ n') : nearestEven n d ≤ nearestEven n' d := by
  rcases (Nat.div_le_div_right h : n / d ≤ n' / d).lt_or_eq with hlt | heq
  · -- what lies between two integers is rounded to one of them
    simp only [nearestEven]
    split_ifs <;> omega
  · have hmod : n % d ≤ n' % d := by
      have hn := Nat.div_add_mod n d
      have hn' := Nat.div_add_mod n' d
      rw [heq] at hn
      omega
    simp only [nearestEven, heq]
    split_ifs <;> omega

theorem nearestEven_le_of_ratio (hd : 0 < d) (hd' : 0 < d') (h : (n : ℚ) / d ≤ (n' : ℚ) / d') :
    nearestEven n d ≤ nearestEven n' d' := by
  have hcross : n * d' ≤ n' * d := by
    rw [div_le_div_iff₀ (by exact_mod_cast hd) (by exact_mod_cast hd')] at h
    exact_mod_cast h
  calc nearestEven n d = nearestEven (n * d') (d * d') := (nearestEven_mul_right hd').symm
    _ ≤ nearestEven (n' * d) (d * d') := nearestEven_mono hcross
    _ = nearestEven (n' * d) (d' * d) := by rw [mul_comm d d']
    _ = nearestEven n' d' := nearestEven_mul_right hd

inductive Unsigned : Binary64 → Prop where
  | finite (m : Nat) (e : Int) (h : Canonical m e) : Unsigned (.finite false m e h)
  | infinite : Unsigned (.infinite false)

structure Rounded (k : Nat) (e : Int) : Prop where
  least : -1074 ≤ e
  most : k ≤ twoPow 53
  normal : twoPow 52 ≤ k ∨ e = -1074

theorem canonical_lt (h : Canonical k e) : (k : ℚ) * (2 : ℚ) ^ e < (2 : ℚ) ^ (1024 : Int) := by
  have hle : e ≤ 971 := h.2.2.1
  exact lt_of_lt_of_le (canonical_hasExponent h).below (two_zpow_le_iff.2 (by omega))

theorem ofParts_rounded (h : Rounded k e) :
    (∃ m e', ∃ hc : Canonical m e', ofParts false k e = finite false m e' hc ∧
      (m : ℚ) * (2 : ℚ) ^ e' = k * (2 : ℚ) ^ e) ∨
    ofParts false k e = infinite false ∧ (2 : ℚ) ^ (1024 : Int) ≤ k * (2 : ℚ) ^ e := by
  obtain ⟨hleast, hmost, hnormal⟩ := h
  have h53 : twoPow 53 = 9007199254740992 := by decide
  have h52 : twoPow 52 = 4503599627370496 := by decide
  by_cases hc : Canonical k e
  · exact .inl ⟨k, e, hc, dif_pos hc, rfl⟩
  by_cases hfit : k < twoPow 53
  · -- the exponent is too large for any mantissa
    have hlarge : 972 ≤ e := by
      by_contra hsmall
      exact hc ⟨hfit, hleast, by omega, hnormal⟩
    have hcarry : ¬ Canonical (k / 2) (e + 1) := by
      rintro ⟨-, -, hle, -⟩
      omega
    refine .inr ⟨(dif_neg hc).trans (dif_neg hcarry), ?_⟩
    have hk : (2 : ℚ) ^ (52 : Int) ≤ k := by exact_mod_cast hnormal.resolve_right (by omega)
    calc (2 : ℚ) ^ (1024 : Int) = (2 : ℚ) ^ (52 : Int) * (2 : ℚ) ^ (972 : Int) := by
          rw [← zpow_add₀ (by norm_num)]
          norm_num
      _ ≤ k * (2 : ℚ) ^ e := mul_le_mul hk (two_zpow_le_iff.2 hlarge) (two_zpow_pos _).le (Nat.cast_nonneg k)
  · obtain rfl : k = twoPow 53 := by omega
    have hvalue : ((twoPow 53 / 2 : Nat) : ℚ) * (2 : ℚ) ^ (e + 1) = (twoPow 53 : Nat) * (2 : ℚ) ^ e := by
      rw [zpow_add₀ (by norm_num), h53]
      norm_num
      ring
    by_cases hcarry : Canonical (twoPow 53 / 2) (e + 1)
    · exact .inl ⟨_, _, hcarry, (dif_neg hc).trans (dif_pos hcarry), hvalue⟩
    · refine .inr ⟨(dif_neg hc).trans (dif_neg hcarry), ?_⟩
      have hlarge : 971 ≤ e := by
        by_contra hsmall
        exact hcarry ⟨by omega, by omega, by omega, .inl (by omega)⟩
      calc (2 : ℚ) ^ (1024 : Int) = (2 : ℚ) ^ (53 : Int) * (2 : ℚ) ^ (971 : Int) := by
            rw [← zpow_add₀ (by norm_num)]
            norm_num
        _ ≤ (twoPow 53 : Nat) * (2 : ℚ) ^ e := by
            rw [twoPow_cast]
            exact mul_le_mul_of_nonneg_left (two_zpow_le_iff.2 hlarge) (two_zpow_pos _).le

theorem nearestEven_scaleDown_zero (hd : 0 < den) :
    nearestEven (scaleDown 0 den e).1 (scaleDown 0 den e).2 = 0 := by
  have hzero : (scaleDown 0 den e).1 = 0 * (scaleDown 0 den e).2 := by
    rw [scaleDown]
    split <;> simp
  rw [hzero, nearestEven_exact (scaleDown_den_pos hd)]

theorem nearestEven_scaleDown_le (hd : 0 < den) (h : (num : ℚ) / den ≤ (2 : ℚ) ^ (e + k)) :
    nearestEven (scaleDown num den e).1 (scaleDown num den e).2 ≤ twoPow k := by
  have hratio : ((scaleDown num den e).1 : ℚ) / (scaleDown num den e).2 ≤ (twoPow k : Nat) / (1 : Nat) := by
    rw [scaleDown_ratio, div_le_iff₀ (two_zpow_pos e), Nat.cast_one, div_one, twoPow_cast, ← zpow_add₀ (by norm_num),
      add_comm]
    exact h
  calc nearestEven (scaleDown num den e).1 (scaleDown num den e).2 ≤ nearestEven (twoPow k) 1 :=
        nearestEven_le_of_ratio (scaleDown_den_pos hd) Nat.zero_lt_one hratio
    _ = twoPow k := by simpa using nearestEven_exact (m := twoPow k) Nat.zero_lt_one

theorem le_nearestEven_scaleDown (hd : 0 < den) (h : (2 : ℚ) ^ (e + k) ≤ (num : ℚ) / den) :
    twoPow k ≤ nearestEven (scaleDown num den e).1 (scaleDown num den e).2 := by
  have hratio : ((twoPow k : Nat) : ℚ) / (1 : Nat) ≤ (scaleDown num den e).1 / (scaleDown num den e).2 := by
    rw [scaleDown_ratio, le_div_iff₀ (two_zpow_pos e), Nat.cast_one, div_one, twoPow_cast, ← zpow_add₀ (by norm_num),
      add_comm]
    exact h
  calc twoPow k = nearestEven (twoPow k) 1 := by simpa using (nearestEven_exact (m := twoPow k) Nat.zero_lt_one).symm
    _ ≤ nearestEven (scaleDown num den e).1 (scaleDown num den e).2 :=
        nearestEven_le_of_ratio Nat.zero_lt_one (scaleDown_den_pos hd) hratio

theorem ofRatio_parts (num : Nat) (hd : 0 < den) : ∃ e, HasExponent ((num : ℚ) / den) e ∧
    Rounded (nearestEven (scaleDown num den e).1 (scaleDown num den e).2) e ∧
    ofRatio false num den = ofParts false (nearestEven (scaleDown num den e).1 (scaleDown num den e).2) e := by
  by_cases hnum : num = 0
  · subst hnum
    have hsmall : ((0 : Nat) : ℚ) / den < (2 : ℚ) ^ (-1074 + 53 : Int) := by
      rw [Nat.cast_zero, zero_div]
      exact two_zpow_pos _
    refine ⟨-1074, ⟨le_rfl, hsmall, .inl rfl⟩, ?_, ?_⟩
    · rw [nearestEven_scaleDown_zero hd]
      exact ⟨le_rfl, Nat.zero_le _, .inr rfl⟩
    · rw [nearestEven_scaleDown_zero hd, ofRatio, if_pos rfl]
      exact (dif_pos (by decide)).symm
  · have hexp := exponentOf_hasExponent (Nat.pos_of_ne_zero hnum) hd
    refine ⟨exponentOf num den, hexp, ?_, if_neg hnum⟩
    exact ⟨hexp.least, nearestEven_scaleDown_le hd hexp.below.le,
      hexp.above.symm.imp_left (le_nearestEven_scaleDown hd)⟩

theorem ofRatio_le (hd : 0 < den) (hd' : 0 < den') (h : (num : ℚ) / den ≤ (num' : ℚ) / den') :
    le (ofRatio false num den) (ofRatio false num' den') = true := by
  obtain ⟨e, hexp, hrounded, heq⟩ := ofRatio_parts num hd
  obtain ⟨e', hexp', hrounded', heq'⟩ := ofRatio_parts num' hd'
  have hpos : 0 < (scaleDown num den e).2 := scaleDown_den_pos hd
  have hpos' : 0 < (scaleDown num' den' e').2 := scaleDown_den_pos hd'
  have hvalue : (nearestEven (scaleDown num den e).1 (scaleDown num den e).2 : ℚ) * (2 : ℚ) ^ e ≤
      nearestEven (scaleDown num' den' e').1 (scaleDown num' den' e').2 * (2 : ℚ) ^ e' := by
    rcases (hexp.mono h hexp').lt_or_eq with hlt | rfl
    · -- a mantissa at the smaller exponent is at most one at the larger exponent
      have hmost := hrounded.most
      have hnormal := hrounded'.normal.resolve_right (by have := hrounded.least; omega)
      have hmostq : (nearestEven (scaleDown num den e).1 (scaleDown num den e).2 : ℚ) ≤ (2 : ℚ) ^ (53 : Int) := by
        exact_mod_cast hmost
      have hnormalq : (2 : ℚ) ^ (52 : Int) ≤ nearestEven (scaleDown num' den' e').1 (scaleDown num' den' e').2 := by
        exact_mod_cast hnormal
      calc _ ≤ (2 : ℚ) ^ (53 : Int) * (2 : ℚ) ^ e := mul_le_mul_of_nonneg_right hmostq (two_zpow_pos e).le
        _ = (2 : ℚ) ^ (53 + e) := (zpow_add₀ (by norm_num) _ _).symm
        _ ≤ (2 : ℚ) ^ (52 + e') := two_zpow_le_iff.2 (by omega)
        _ = (2 : ℚ) ^ (52 : Int) * (2 : ℚ) ^ e' := zpow_add₀ (by norm_num) _ _
        _ ≤ _ := mul_le_mul_of_nonneg_right hnormalq (two_zpow_pos e').le
    · refine mul_le_mul_of_nonneg_right ?_ (two_zpow_pos e).le
      have hround := nearestEven_le_of_ratio hpos hpos' (by
        rw [scaleDown_ratio, scaleDown_ratio]
        exact div_le_div_of_nonneg_right h (two_zpow_pos e).le)
      exact_mod_cast hround
  rw [heq, heq']
  rcases ofParts_rounded hrounded with ⟨m, f, hc, hparts, hm⟩ | ⟨hparts, hm⟩ <;>
    rcases ofParts_rounded hrounded' with ⟨m', f', hc', hparts', hm'⟩ | ⟨hparts', hm'⟩ <;> rw [hparts, hparts']
  · rwa [le_finite, hm, hm']
  · rfl
  · have hlt := canonical_lt hc'
    rw [hm'] at hlt
    exact absurd (hm.trans hvalue) (not_le.2 hlt)
  · rfl

theorem ofRatio_unsigned (hd : 0 < den) : (ofRatio false num den).Unsigned := by
  obtain ⟨e, -, hrounded, heq⟩ := ofRatio_parts num hd
  rw [heq]
  rcases ofParts_rounded hrounded with ⟨m, f, hc, hparts, -⟩ | ⟨hparts, -⟩ <;> rw [hparts]
  · exact .finite m f hc
  · exact .infinite

theorem Unsigned.lt_iff_ne (hx : x.Unsigned) (hy : y.Unsigned) (hle : le x y = true) : lt x y = true ↔ x ≠ y := by
  cases hx with
  | infinite =>
    cases hy with
    | infinite => simp [lt, compare?]
    | finite m' e' h' => cases hle
  | finite m e h =>
    cases hy with
    | infinite => simp [lt, compare?]
    | finite m' e' h' =>
      rw [le_finite] at hle
      rw [lt_finite, hle.lt_iff_ne, not_iff_not]
      constructor
      · intro heq
        have hexp := canonical_hasExponent h
        rw [heq] at hexp
        obtain rfl := hexp.unique (canonical_hasExponent h')
        rw [mul_left_inj' (two_zpow_pos e).ne', Nat.cast_inj] at heq
        subst heq
        rfl
      · intro heq
        cases heq
        rfl

theorem Unsigned.not_lt_of_le (hx : x.Unsigned) (hy : y.Unsigned) (hle : le x y = true) : lt y x = false := by
  cases hx with
  | infinite =>
    cases hy with
    | infinite => rfl
    | finite m' e' h' => cases hle
  | finite m e h =>
    cases hy with
    | infinite => rfl
    | finite m' e' h' =>
      rw [le_finite] at hle
      rw [Bool.eq_false_iff, Ne, lt_finite]
      exact not_lt.2 hle

theorem ofRatio_lt_iff (hd : 0 < den) (hd' : 0 < den') : lt (ofRatio false num den) (ofRatio false num' den') = true ↔
    (num : ℚ) / den < (num' : ℚ) / den' ∧ ofRatio false num den ≠ ofRatio false num' den' := by
  have hx : (ofRatio false num den).Unsigned := ofRatio_unsigned hd
  have hy : (ofRatio false num' den').Unsigned := ofRatio_unsigned hd'
  rcases lt_or_ge ((num : ℚ) / den) ((num' : ℚ) / den') with hlt | hge
  · rw [hx.lt_iff_ne hy (ofRatio_le hd hd' hlt.le), and_iff_right hlt]
  · rw [hy.not_lt_of_le hx (ofRatio_le hd' hd hge)]
    simp [not_lt.2 hge]

theorem signed_not {s : Bool} : signed (!s) k = -signed s k := by
  cases s <;> simp [signed]

theorem lt_neg_neg : lt x.neg y.neg = lt y x := by
  cases x with
  | nan => cases y <;> rfl
  | infinite s =>
    cases y with
    | nan => rfl
    | infinite t => cases s <;> cases t <;> rfl
    | finite t m' e' h' => cases s <;> rfl
  | finite s m e h =>
    cases y with
    | nan => rfl
    | infinite t => cases t <;> rfl
    | finite t m' e' h' =>
      simp only [lt, neg, compare?, aligned, signed_not, min_comm e e']
      rw [Bool.eq_iff_iff, beq_iff_eq, beq_iff_eq, Option.some.injEq, Option.some.injEq, compare_lt_iff_lt,
        compare_lt_iff_lt]
      exact neg_lt_neg_iff

theorem ofRatio_true : ofRatio true num den = (ofRatio false num den).neg := by
  simp only [ofRatio, ofParts]
  split
  · rfl
  · split
    · rfl
    · split <;> rfl

theorem neg_inj : x.neg = y.neg ↔ x = y := by
  have hneg (z : Binary64) : z.neg.neg = z := by cases z <;> simp [neg]
  exact ⟨fun h => by rw [← hneg x, h, hneg], fun h => by rw [h]⟩

theorem zero_lt_ofRatio (hk : 0 < k) : lt (zero false) (ofRatio false k 1) = true := by
  have hzero : ofRatio false 0 1 = zero false := if_pos rfl
  have hcast : ((0 : Nat) : ℚ) / (1 : Nat) < (k : ℚ) / (1 : Nat) := by
    rw [Nat.cast_one, div_one, div_one]
    exact_mod_cast hk
  have hone : le (ofRatio false 1 1) (ofRatio false k 1) = true := ofRatio_le Nat.zero_lt_one Nat.zero_lt_one (by
    rw [Nat.cast_one, div_one, div_one]
    exact_mod_cast hk)
  rw [← hzero, ofRatio_lt_iff Nat.zero_lt_one Nat.zero_lt_one]
  refine ⟨hcast, fun heq => ?_⟩
  obtain ⟨m, e, h, hv, hexact⟩ := ofInt_eq_finite (i := 1) (by decide)
  have hfinite : ofRatio false 1 1 = finite false m e h := hexact
  rw [← heq, hzero, hfinite, zero, le_finite, hv, Nat.cast_zero, zero_mul] at hone
  exact absurd hone (by norm_num)

theorem Unsigned.neg_lt (hx : x.Unsigned) (hpos : lt (zero false) x = true) (hy : y.Unsigned) :
    lt x.neg y = true ∧ lt y x.neg = false := by
  cases hx with
  | infinite => cases hy <;> exact ⟨rfl, rfl⟩
  | finite m e h =>
    cases hy with
    | infinite => exact ⟨rfl, rfl⟩
    | finite m' e' h' =>
      have hm : 0 < m := by
        by_contra hm
        obtain rfl : m = 0 := by omega
        simp [lt, zero, compare?, aligned, signed] at hpos
      have hleft : 0 < m * twoPow (e - min e e').toNat := Nat.mul_pos hm (twoPow_pos _)
      have hright : 0 ≤ m' * twoPow (e' - min e e').toNat := Nat.zero_le _
      simp only [lt, neg, compare?, aligned, signed, Bool.not_false, Bool.false_eq_true, if_true, if_false,
        min_comm e' e]
      constructor
      · rw [beq_iff_eq, Option.some.injEq, compare_lt_iff_lt]
        omega
      · rw [beq_eq_false_iff_ne, Ne, Option.some.injEq, compare_lt_iff_lt]
        omega

theorem ofInt_of_nonneg (hi : 0 ≤ i) : ofInt i = ofRatio false i.natAbs 1 := by
  rw [ofInt, decide_eq_false (not_lt.2 hi)]

theorem ofInt_of_neg (hi : i < 0) : ofInt i = (ofRatio false i.natAbs 1).neg := by
  rw [ofInt, decide_eq_true hi, ofRatio_true]

/-- The numbers nearest to two integers are in the order of the integers, or they are the same. -/
theorem lt_ofInt_iff : lt (ofInt i) (ofInt j) = true ↔ i < j ∧ ofInt i ≠ ofInt j := by
  have hunsigned (k : Nat) : (ofRatio false k 1).Unsigned := ofRatio_unsigned Nat.zero_lt_one
  have horder (a b : Int) : lt (ofRatio false a.natAbs 1) (ofRatio false b.natAbs 1) = true ↔
      a.natAbs < b.natAbs ∧ ofRatio false a.natAbs 1 ≠ ofRatio false b.natAbs 1 := by
    rw [ofRatio_lt_iff Nat.zero_lt_one Nat.zero_lt_one, Nat.cast_one, div_one, div_one, Nat.cast_lt]
  have hmixed {a b : Int} (ha : a < 0) (hb : 0 ≤ b) :
      lt (ofInt a) (ofInt b) = true ∧ lt (ofInt b) (ofInt a) = false := by
    rw [ofInt_of_neg ha, ofInt_of_nonneg hb]
    exact (hunsigned _).neg_lt (zero_lt_ofRatio (by omega)) (hunsigned _)
  rcases lt_or_ge i 0 with hi | hi <;> rcases lt_or_ge j 0 with hj | hj
  · rw [ofInt_of_neg hi, ofInt_of_neg hj, lt_neg_neg, horder, Ne, Ne, neg_inj, eq_comm]
    exact and_congr_left' (by omega)
  · have hlt := (hmixed hi hj).1
    have hne : ofInt i ≠ ofInt j := by
      intro heq
      have hge := (hmixed hi hj).2
      rw [heq] at hlt hge
      exact absurd hlt (by simp [hge])
    rw [hlt, eq_self_iff_true, true_iff]
    exact ⟨by omega, hne⟩
  · simp [(hmixed hj hi).2, show ¬ i < j by omega]
  · rw [ofInt_of_nonneg hi, ofInt_of_nonneg hj, horder]
    exact and_congr_left' (by omega)

theorem ofInt_eq_iff_of_exact (hi : i.natAbs ≤ greatestExact) : ofInt i = ofInt j ↔ i = j := by
  have hbound {a : Int} (ha : a.natAbs ≤ greatestExact) : a.natAbs < twoPow 53 := lt_of_le_of_lt ha (by decide)
  refine ⟨fun heq => ?_, fun h => h ▸ rfl⟩
  by_cases hj : j.natAbs ≤ greatestExact
  · have htruncate := congrArg truncate? heq
    rw [truncate?_ofInt (hbound hi), truncate?_ofInt (hbound hj)] at htruncate
    exact Option.some.inj htruncate
  · have hlarge := greatestExact_lt_ofInt (not_le.1 hj)
    have hsmall := not_greatestExact_lt (isFinite_ofInt (hbound hi))
      (.inr (withinMagnitude_ofInt (by decide) hi))
    rw [heq, hlarge] at hsmall
    cases hsmall

end ItemMapper.Binary64
