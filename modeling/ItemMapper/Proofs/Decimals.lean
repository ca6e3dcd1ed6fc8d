import ItemMapper.Number.Shortest
import ItemMapper.Proofs.Rounding

/-!
# Decimals

A decimal is read as its value is rounded, so the zeros at its end do not matter. The shortest decimal of a number
reads back as that number: each of the candidates was read back when it was found, and all digits do it exactly.
-/

namespace ItemMapper

namespace Binary64

variable {digits digits' m : Nat} {e e' exponent exponent' : Int} {s : Bool} {tie : Tie}

theorem tenPow_cast (k : Nat) : ((tenPow k : Nat) : ℚ) = (10 : ℚ) ^ (k : Int) := by
  simp [tenPow]

theorem tenPow_toNat_cast (h : 0 ≤ e) : ((tenPow e.toNat : Nat) : ℚ) = (10 : ℚ) ^ e := by
  rw [tenPow_cast, Int.toNat_of_nonneg h]

theorem tenPow_pos (k : Nat) : 0 < tenPow k := Nat.pow_pos (by omega)

theorem eight_le_ten_zpow (k : Nat) : (2 : ℚ) ^ (3 * (k : Int)) ≤ (10 : ℚ) ^ (k : Int) := by
  rw [zpow_mul, zpow_natCast, zpow_natCast]
  exact pow_le_pow_left₀ (by norm_num) (by norm_num) k

theorem ofDecimal_eq : ofDecimal s digits e =
    if 0 ≤ e then ofRatio s (digits * tenPow e.toNat) 1 else ofRatio s digits (tenPow (-e).toNat) := by
  rw [ofDecimal]
  split
  · rename_i hzero
    rw [hzero]
    split <;> simp [ofRatio]
  rename_i hdigits
  split
  · rename_i hlarge
    rw [if_pos (by omega)]
    refine (ofRatio_infinite (by omega) ?_).symm
    have hone : (1 : ℚ) ≤ digits := by exact_mod_cast Nat.one_le_iff_ne_zero.2 hdigits
    have hpow : (2 : ℚ) ^ (1024 : Int) ≤ (10 : ℚ) ^ (e.toNat : Int) :=
      le_trans (two_zpow_le_iff.2 (by omega)) (eight_le_ten_zpow e.toNat)
    have hten : (0 : ℚ) < (10 : ℚ) ^ (e.toNat : Int) := by positivity
    rw [Nat.cast_mul, tenPow_cast, Nat.cast_one, div_one]
    calc (2 : ℚ) ^ (1024 : Int) ≤ (10 : ℚ) ^ (e.toNat : Int) := hpow
      _ = 1 * (10 : ℚ) ^ (e.toNat : Int) := (one_mul _).symm
      _ ≤ digits * (10 : ℚ) ^ (e.toNat : Int) := mul_le_mul_of_nonneg_right hone hten.le
  rename_i hnotlarge
  split
  · rename_i hsmall
    rw [if_neg (by omega)]
    refine (ofRatio_zero (tenPow_pos _) ?_).symm
    obtain ⟨-, hhigh⟩ := log2_bounds (Nat.pos_of_ne_zero hdigits)
    have hten : (0 : ℚ) < (10 : ℚ) ^ ((-e).toNat : Int) := by positivity
    rw [tenPow_cast, div_lt_iff₀ hten]
    calc (digits : ℚ) < (2 : ℚ) ^ ((digits.log2 : Int) + 1) := hhigh
      _ ≤ (2 : ℚ) ^ (-1075 + 3 * ((-e).toNat : Int)) := two_zpow_le_iff.2 (by omega)
      _ = (2 : ℚ) ^ (-1075 : Int) * (2 : ℚ) ^ (3 * ((-e).toNat : Int)) := zpow_add₀ (by norm_num) _ _
      _ ≤ (2 : ℚ) ^ (-1075 : Int) * (10 : ℚ) ^ ((-e).toNat : Int) :=
          mul_le_mul_of_nonneg_left (eight_le_ten_zpow _) (two_zpow_pos _).le
  · rfl

theorem ofDecimal_ratio (digits : Nat) (e : Int) : ∃ num den : Nat, 0 < den ∧
    (num : ℚ) / den = digits * (10 : ℚ) ^ e ∧ ∀ s, ofDecimal s digits e = ofRatio s num den := by
  by_cases he : 0 ≤ e
  · refine ⟨digits * tenPow e.toNat, 1, by omega, ?_, fun s => ?_⟩
    · rw [Nat.cast_mul, tenPow_toNat_cast he, Nat.cast_one, div_one]
    · rw [ofDecimal_eq, if_pos he]
  · have hneg : 0 ≤ -e := by omega
    refine ⟨digits, tenPow (-e).toNat, tenPow_pos _, ?_, fun s => ?_⟩
    · rw [tenPow_toNat_cast hneg, zpow_neg, div_inv_eq_mul]
    · rw [ofDecimal_eq, if_neg he]

theorem ofDecimal_congr (h : (digits : ℚ) * (10 : ℚ) ^ exponent = digits' * (10 : ℚ) ^ exponent') :
    ofDecimal s digits exponent = ofDecimal s digits' exponent' := by
  obtain ⟨num, den, hden, hvalue, hread⟩ := ofDecimal_ratio digits exponent
  obtain ⟨num', den', hden', hvalue', hread'⟩ := ofDecimal_ratio digits' exponent'
  rw [hread, hread']
  exact ofRatio_congr hden hden' (hvalue.trans (h.trans hvalue'.symm))

theorem ofDecimal_exact (hc : Canonical m e) (h : (digits : ℚ) * (10 : ℚ) ^ exponent = m * (2 : ℚ) ^ e) :
    ofDecimal s digits exponent = finite s m e hc := by
  obtain ⟨num, den, hden, hvalue, hread⟩ := ofDecimal_ratio digits exponent
  rw [hread]
  exact ofRatio_exact hc hden (hvalue.trans h)

theorem ofDecimal_signed {hc : Canonical m e} (h : ofDecimal false digits exponent = finite false m e hc) :
    ofDecimal s digits exponent = finite s m e hc := by
  obtain ⟨num, den, -, -, hread⟩ := ofDecimal_ratio digits exponent
  rw [hread] at h ⊢
  exact ofRatio_signed h

end Binary64

namespace Decimal

theorem trim_value (digits : Nat) (exponent : Int) :
    ((trim digits exponent).digits : ℚ) * (10 : ℚ) ^ (trim digits exponent).exponent =
      digits * (10 : ℚ) ^ exponent := by
  induction digits, exponent using trim.induct with
  | case1 digits exponent h ih =>
    rw [trim, if_pos h, ih]
    have hdigits : (digits : ℚ) = (digits / 10 : Nat) * 10 := by
      have hnat : digits = digits / 10 * 10 := by omega
      exact_mod_cast hnat
    rw [hdigits, zpow_add_one₀ (by norm_num)]
    ring
  | case2 digits exponent h => rw [trim, if_neg h]

theorem read_trim {negative : Bool} {digits : Nat} {exponent : Int} :
    (trim digits exponent).read negative = .ofDecimal negative digits exponent :=
  Binary64.ofDecimal_congr (trim_value digits exponent)

end Decimal

namespace Binary64

variable {m : Nat} {e : Int} {tie : Tie} {target : Binary64} {d : Decimal} {num den : Nat}

theorem neighbour?_read (h : neighbour? tie target num den e = some d) : d.read false = target := by
  simp only [neighbour?] at h
  split at h
  · rename_i hlow
    split at h
    · rename_i hhigh
      cases h
      -- whichever of the two is nearer, both read back
      split
      · exact hlow
      · split
        · exact hhigh
        · cases tie
          · exact hhigh
          · dsimp only
            split
            · exact hlow
            · exact hhigh
    · cases h
      exact hlow
  · split at h
    · rename_i hhigh
      cases h
      exact hhigh
    · cases h

theorem exactDecimal_read (h : Canonical m e) : (exactDecimal m e).read false = finite false m e h := by
  rw [exactDecimal]
  split
  · rename_i he
    refine ofDecimal_exact h ?_
    rw [Nat.cast_mul, twoPow_toNat_cast he, zpow_zero, mul_one]
  · rename_i he
    refine ofDecimal_exact h ?_
    have hneg : 0 ≤ -e := by omega
    have hfive : ((fivePow (-e).toNat : Nat) : ℚ) = (5 : ℚ) ^ (-e) := by
      rw [fivePow, Nat.pow_eq, Nat.cast_pow, ← zpow_natCast, Int.toNat_of_nonneg hneg]
      norm_num
    have hten : (10 : ℚ) ^ e = (5 : ℚ) ^ e * (2 : ℚ) ^ e := by
      rw [← mul_zpow]
      norm_num
    have hpos : (0 : ℚ) < (5 : ℚ) ^ e := by positivity
    rw [Nat.cast_mul, hfive, hten, zpow_neg]
    field_simp

/-- The shortest decimal of a number reads back as the number. -/
theorem shortest_read {s : Bool} (h : Canonical m e) : (shortest tie m e h).read s = finite s m e h := by
  refine ofDecimal_signed ?_
  change (shortest tie m e h).read false = finite false m e h
  rw [shortest]
  split
  · rename_i hm
    exact ofDecimal_exact h (by simp [hm])
  · simp only [Decimal.read_trim]
    cases hfound : (List.range 17).findSome? fun (n : Nat) => neighbour? tie (finite false m e h)
        (scaleDown m 1 (-e)).1 (scaleDown m 1 (-e)).2
        (leadingExponent (scaleDown m 1 (-e)).1 (scaleDown m 1 (-e)).2 - n) with
    | none => exact exactDecimal_read h
    | some d =>
      obtain ⟨n, -, hn⟩ := List.exists_of_findSome?_eq_some hfound
      exact neighbour?_read hn

end Binary64

end ItemMapper
