import ItemMapper.Number.Binary64
import Mathlib.Algebra.Order.Field.Power
import Mathlib.Data.Rat.Cast.Order
import Mathlib.Tactic.FieldSimp
import Mathlib.Tactic.Linarith
import Mathlib.Tactic.NormNum
import Mathlib.Tactic.Positivity
import Mathlib.Tactic.Ring

/-!
# Rounding

What a quotient is rounded to depends on its value alone: the exponent is the only one at which the mantissa has 53
bits, or the least one, and a value that is a number of the format is rounded to itself.
-/

namespace ItemMapper.Binary64

variable {num den num' den' n d n' d' m : Nat} {e e' : Int} {s : Bool} {q q' : ℚ}

theorem twoPow_pos (k : Nat) : 0 < twoPow k := Nat.pow_pos (by omega)

theorem twoPow_cast (k : Nat) : ((twoPow k : Nat) : ℚ) = (2 : ℚ) ^ (k : Int) := by
  simp [twoPow]

theorem twoPow_toNat_cast (h : 0 ≤ e) : ((twoPow e.toNat : Nat) : ℚ) = (2 : ℚ) ^ e := by
  rw [twoPow_cast, Int.toNat_of_nonneg h]

theorem two_zpow_pos (e : Int) : (0 : ℚ) < (2 : ℚ) ^ e := by positivity

theorem two_zpow_lt_iff : (2 : ℚ) ^ e < (2 : ℚ) ^ e' ↔ e < e' := zpow_lt_zpow_iff_right₀ (by norm_num)

theorem two_zpow_le_iff : (2 : ℚ) ^ e ≤ (2 : ℚ) ^ e' ↔ e ≤ e' := zpow_le_zpow_iff_right₀ (by norm_num)

theorem scaleDown_den_pos (h : 0 < den) : 0 < (scaleDown num den e).2 := by
  rw [scaleDown]
  split
  · exact Nat.mul_pos h (twoPow_pos _)
  · exact h

theorem scaleDown_ratio : ((scaleDown num den e).1 : ℚ) / (scaleDown num den e).2 = (num : ℚ) / den / (2 : ℚ) ^ e := by
  rw [scaleDown]
  split
  · rename_i he
    simp only [Nat.cast_mul, twoPow_toNat_cast he, div_div]
  · rename_i he
    have hneg : 0 ≤ -e := by omega
    simp only [Nat.cast_mul, twoPow_toNat_cast hneg, zpow_neg]
    have hpos := two_zpow_pos e
    field_simp

/-- The exponent at which a value has a mantissa of 53 bits; the least exponent will do for a smaller one. -/
structure HasExponent (q : ℚ) (e : Int) : Prop where
  least : -1074 ≤ e
  below : q < (2 : ℚ) ^ (e + 53)
  above : e = -1074 ∨ (2 : ℚ) ^ (e + 52) ≤ q

theorem HasExponent.mono (hq : q ≤ q') (h : HasExponent q e) (h' : HasExponent q' e') : e ≤ e' := by
  rcases h.above with he | he
  · have hleast := h'.least
    omega
  · have hlt : (2 : ℚ) ^ (e + 52) < (2 : ℚ) ^ (e' + 53) := lt_of_le_of_lt (he.trans hq) h'.below
    rw [two_zpow_lt_iff] at hlt
    omega

theorem HasExponent.unique (h : HasExponent q e) (h' : HasExponent q e') : e = e' :=
  le_antisymm (h.mono le_rfl h') (h'.mono le_rfl h)

theorem log2_bounds (h : 0 < n) : (2 : ℚ) ^ (n.log2 : Int) ≤ n ∧ (n : ℚ) < (2 : ℚ) ^ ((n.log2 : Int) + 1) := by
  have hlow : 2 ^ n.log2 ≤ n := Nat.log2_self_le (by omega)
  have hhigh : n < 2 ^ (n.log2 + 1) := Nat.lt_log2_self
  constructor
  · rw [zpow_natCast]
    exact_mod_cast hlow
  · have hcast : (n : ℚ) < (2 : ℚ) ^ (n.log2 + 1) := by exact_mod_cast hhigh
    rwa [← zpow_natCast, Nat.cast_add, Nat.cast_one] at hcast

theorem exponentOf_hasExponent (hn : 0 < num) (hd : 0 < den) : HasExponent ((num : ℚ) / den) (exponentOf num den) := by
  obtain ⟨hnlow, hnhigh⟩ := log2_bounds hn
  obtain ⟨hdlow, hdhigh⟩ := log2_bounds hd
  have hden : (0 : ℚ) < den := by exact_mod_cast hd
  have hlow : (2 : ℚ) ^ ((num.log2 : Int) - den.log2 - 53 + 52) ≤ (num : ℚ) / den := by
    rw [le_div_iff₀ hden]
    calc (2 : ℚ) ^ ((num.log2 : Int) - den.log2 - 53 + 52) * den
        ≤ (2 : ℚ) ^ ((num.log2 : Int) - den.log2 - 53 + 52) * (2 : ℚ) ^ ((den.log2 : Int) + 1) :=
          mul_le_mul_of_nonneg_left hdhigh.le (two_zpow_pos _).le
      _ = (2 : ℚ) ^ (num.log2 : Int) := by
          rw [← zpow_add₀ (by norm_num)]
          congr 1
          ring
      _ ≤ num := hnlow
  have hhigh : (num : ℚ) / den < (2 : ℚ) ^ ((num.log2 : Int) - den.log2 - 53 + 1 + 53) := by
    rw [div_lt_iff₀ hden]
    calc (num : ℚ) < (2 : ℚ) ^ ((num.log2 : Int) + 1) := hnhigh
      _ = (2 : ℚ) ^ ((num.log2 : Int) - den.log2 - 53 + 1 + 53) * (2 : ℚ) ^ (den.log2 : Int) := by
          rw [← zpow_add₀ (by norm_num)]
          congr 1
          ring
      _ ≤ (2 : ℚ) ^ ((num.log2 : Int) - den.log2 - 53 + 1 + 53) * den :=
          mul_le_mul_of_nonneg_left hdlow (two_zpow_pos _).le
  have hcompare (e : Int) : (scaleDown num den e).1 < twoPow 53 * (scaleDown num den e).2 ↔
      (num : ℚ) / den < (2 : ℚ) ^ (e + 53) := by
    have hpos : (0 : ℚ) < (scaleDown num den e).2 := by exact_mod_cast scaleDown_den_pos hd
    rw [← Nat.cast_lt (α := ℚ), Nat.cast_mul, ← div_lt_iff₀ hpos, scaleDown_ratio, div_lt_iff₀ (two_zpow_pos e),
      twoPow_cast, ← zpow_add₀ (by norm_num)]
    have hexp : ((53 : Nat) : Int) + e = e + 53 := by
      push_cast
      ring
    rw [hexp]
  rw [exponentOf]
  simp only [hcompare]
  by_cases hsmall : (num : ℚ) / den < (2 : ℚ) ^ ((num.log2 : Int) - den.log2 - 53 + 53)
  · rw [if_pos hsmall]
    refine ⟨le_max_left _ _, lt_of_lt_of_le hsmall (two_zpow_le_iff.2 (by omega)), ?_⟩
    rcases le_or_gt ((num.log2 : Int) - den.log2 - 53) (-1074) with hle | hgt
    · exact .inl (max_eq_left hle)
    · rw [max_eq_right hgt.le]
      exact .inr hlow
  · rw [if_neg hsmall]
    refine ⟨le_max_left _ _, lt_of_lt_of_le hhigh (two_zpow_le_iff.2 (by omega)), ?_⟩
    rcases le_or_gt ((num.log2 : Int) - den.log2 - 53 + 1) (-1074) with hle | hgt
    · exact .inl (max_eq_left hle)
    · rw [max_eq_right hgt.le]
      refine .inr (le_trans (two_zpow_le_iff.2 ?_) (not_lt.1 hsmall))
      omega

theorem nearestEven_mul_right (hk : 0 < m) : nearestEven (n * m) (d * m) = nearestEven n d := by
  have hlt : 2 * (n % d * m) < d * m ↔ 2 * (n % d) < d := by
    rw [← mul_assoc]
    exact Nat.mul_lt_mul_right hk
  have hgt : d * m < 2 * (n % d * m) ↔ d < 2 * (n % d) := by
    rw [← mul_assoc]
    exact Nat.mul_lt_mul_right hk
  simp only [nearestEven, Nat.mul_div_mul_right _ _ hk, Nat.mul_mod_mul_right, hlt, hgt]

theorem nearestEven_congr (hd : 0 < d) (hd' : 0 < d') (h : n * d' = n' * d) : nearestEven n d = nearestEven n' d' := by
  rw [← nearestEven_mul_right hd', h, mul_comm d d', nearestEven_mul_right hd]

theorem nearestEven_exact (hd : 0 < d) : nearestEven (m * d) d = m := by
  simp [nearestEven, Nat.mul_div_cancel _ hd, hd]

theorem ofRatio_congr (hd : 0 < den) (hd' : 0 < den') (h : (num : ℚ) / den = (num' : ℚ) / den') :
    ofRatio s num den = ofRatio s num' den' := by
  have hden : (0 : ℚ) < den := by exact_mod_cast hd
  have hden' : (0 : ℚ) < den' := by exact_mod_cast hd'
  by_cases hnum : num = 0
  · have hnum' : num' = 0 := by
      rw [hnum, Nat.cast_zero, zero_div, eq_comm, div_eq_zero_iff] at h
      rcases h with h | h
      · exact_mod_cast h
      · exact absurd h hden'.ne'
    rw [ofRatio, ofRatio, if_pos hnum, if_pos hnum']
  · have hnum' : num' ≠ 0 := by
      rintro rfl
      rw [Nat.cast_zero, zero_div, div_eq_zero_iff] at h
      rcases h with h | h
      · exact hnum (by exact_mod_cast h)
      · exact hden.ne' h
    have hexp := exponentOf_hasExponent (Nat.pos_of_ne_zero hnum) hd
    rw [h] at hexp
    have heq := hexp.unique (exponentOf_hasExponent (Nat.pos_of_ne_zero hnum') hd')
    have hpos : 0 < (scaleDown num den (exponentOf num den)).2 := scaleDown_den_pos hd
    have hpos' : 0 < (scaleDown num' den' (exponentOf num den)).2 := scaleDown_den_pos hd'
    have hcross : (scaleDown num den (exponentOf num den)).1 * (scaleDown num' den' (exponentOf num den)).2 =
        (scaleDown num' den' (exponentOf num den)).1 * (scaleDown num den (exponentOf num den)).2 := by
      have hratio : ((scaleDown num den (exponentOf num den)).1 : ℚ) / (scaleDown num den (exponentOf num den)).2 =
          (scaleDown num' den' (exponentOf num den)).1 / (scaleDown num' den' (exponentOf num den)).2 := by
        rw [scaleDown_ratio, scaleDown_ratio, h]
      rw [div_eq_div_iff (by exact_mod_cast hpos.ne') (by exact_mod_cast hpos'.ne')] at hratio
      exact_mod_cast hratio
    rw [ofRatio, ofRatio, if_neg hnum, if_neg hnum', ← heq]
    simp only [nearestEven_congr hpos hpos' hcross]

theorem canonical_hasExponent (h : Canonical m e) : HasExponent ((m : ℚ) * (2 : ℚ) ^ e) e := by
  obtain ⟨hlt, hleast, -, hnormal⟩ := h
  refine ⟨hleast, ?_, hnormal.symm.imp id fun hm => ?_⟩
  · have hcast : (m : ℚ) < (2 : ℚ) ^ (53 : Int) := by exact_mod_cast hlt
    rw [add_comm, zpow_add₀ (by norm_num)]
    exact mul_lt_mul_of_pos_right hcast (two_zpow_pos e)
  · have hcast : (2 : ℚ) ^ (52 : Int) ≤ (m : ℚ) := by exact_mod_cast hm
    rw [add_comm, zpow_add₀ (by norm_num)]
    exact mul_le_mul_of_nonneg_right hcast (two_zpow_pos e).le

/-- A value that is a number of the format is rounded to it. -/
theorem ofRatio_exact (h : Canonical m e) (hd : 0 < den) (hq : (num : ℚ) / den = (m : ℚ) * (2 : ℚ) ^ e) :
    ofRatio s num den = finite s m e h := by
  have hden : (0 : ℚ) < den := by exact_mod_cast hd
  by_cases hnum : num = 0
  · have hm : m = 0 := by
      rw [hnum, Nat.cast_zero, zero_div, eq_comm, mul_eq_zero] at hq
      rcases hq with hq | hq
      · exact_mod_cast hq
      · exact absurd hq (two_zpow_pos e).ne'
    obtain ⟨-, -, -, hnormal⟩ := id h
    have he : e = -1074 := hnormal.resolve_left (by simp [hm])
    subst hm he
    rw [ofRatio, if_pos hnum, zero]
  · have hexp := exponentOf_hasExponent (Nat.pos_of_ne_zero hnum) hd
    rw [hq] at hexp
    have heq := hexp.unique (canonical_hasExponent h)
    have hpos : 0 < (scaleDown num den e).2 := scaleDown_den_pos hd
    have hscaled : (scaleDown num den e).1 = m * (scaleDown num den e).2 := by
      have hratio : ((scaleDown num den e).1 : ℚ) / (scaleDown num den e).2 = m := by
        rw [scaleDown_ratio, hq, mul_div_assoc, div_self (two_zpow_pos e).ne', mul_one]
      rw [div_eq_iff (by exact_mod_cast hpos.ne')] at hratio
      exact_mod_cast hratio
    rw [ofRatio, if_neg hnum, heq]
    simp only [hscaled, nearestEven_exact hpos]
    rw [ofParts, dif_pos h]

theorem ofRatio_signed {h : Canonical m e} (hr : ofRatio false num den = finite false m e h) :
    ofRatio s num den = finite s m e h := by
  rw [ofRatio] at hr ⊢
  split
  · rename_i hnum
    rw [if_pos hnum, zero] at hr
    cases hr
    rfl
  · rename_i hnum
    rw [if_neg hnum] at hr
    simp only [ofParts] at hr ⊢
    split
    · rename_i hc
      rw [dif_pos hc] at hr
      cases hr
      rfl
    · rename_i hc
      rw [dif_neg hc] at hr
      split
      · rename_i hc'
        rw [dif_pos hc'] at hr
        cases hr
        rfl
      · rename_i hc'
        rw [dif_neg hc'] at hr
        cases hr

theorem ofRatio_infinite (hd : 0 < den) (h : (2 : ℚ) ^ (1024 : Int) ≤ (num : ℚ) / den) :
    ofRatio s num den = infinite s := by
  have hnum : num ≠ 0 := by
    rintro rfl
    rw [Nat.cast_zero, zero_div] at h
    exact absurd h (not_le.2 (two_zpow_pos _))
  have hexp := exponentOf_hasExponent (Nat.pos_of_ne_zero hnum) hd
  have hlarge := lt_of_le_of_lt h hexp.below
  rw [two_zpow_lt_iff] at hlarge
  have hhere (k : Nat) : ¬ Canonical k (exponentOf num den) := by
    rintro ⟨-, -, hle, -⟩
    omega
  have hnext (k : Nat) : ¬ Canonical k (exponentOf num den + 1) := by
    rintro ⟨-, -, hle, -⟩
    omega
  rw [ofRatio, if_neg hnum]
  simp only [ofParts]
  rw [dif_neg (hhere _), dif_neg (hnext _)]

theorem ofRatio_zero (hd : 0 < den) (h : (num : ℚ) / den < (2 : ℚ) ^ (-1075 : Int)) : ofRatio s num den = zero s := by
  by_cases hnum : num = 0
  · rw [ofRatio, if_pos hnum]
  have hexp := exponentOf_hasExponent (Nat.pos_of_ne_zero hnum) hd
  have he : exponentOf num den = -1074 := by
    refine hexp.above.resolve_right fun habove => ?_
    have hsmall := lt_of_le_of_lt habove h
    rw [two_zpow_lt_iff] at hsmall
    have hleast := hexp.least
    omega
  have hpos : 0 < (scaleDown num den (-1074)).2 := scaleDown_den_pos hd
  have hhalf : 2 * (scaleDown num den (-1074)).1 < (scaleDown num den (-1074)).2 := by
    have hposq : (0 : ℚ) < (scaleDown num den (-1074)).2 := by exact_mod_cast hpos
    have hratio : ((scaleDown num den (-1074)).1 : ℚ) / (scaleDown num den (-1074)).2 < 1 / 2 := by
      rw [scaleDown_ratio, div_lt_iff₀ (two_zpow_pos _)]
      refine lt_of_lt_of_eq h ?_
      rw [show (-1075 : Int) = -1 + -1074 by norm_num, zpow_add₀ (by norm_num)]
      norm_num
    rw [div_lt_div_iff₀ hposq (by norm_num)] at hratio
    have hcast : ((2 * (scaleDown num den (-1074)).1 : Nat) : ℚ) < (scaleDown num den (-1074)).2 := by
      push_cast
      linarith
    exact_mod_cast hcast
  have hround : nearestEven (scaleDown num den (-1074)).1 (scaleDown num den (-1074)).2 = 0 := by
    have hlt : (scaleDown num den (-1074)).1 < (scaleDown num den (-1074)).2 := by omega
    simp [nearestEven, Nat.div_eq_of_lt hlt, Nat.mod_eq_of_lt hlt, hhalf]
  rw [ofRatio, if_neg hnum, he]
  simp only [hround, ofParts, zero]
  rw [dif_pos (by decide)]

end ItemMapper.Binary64
