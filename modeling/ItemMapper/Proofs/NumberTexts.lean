import ItemMapper.Proofs.Decimals
import ItemMapper.Proofs.Digits
import ItemMapper.Proofs.WholeNumbers
import ItemMapper.Wire.Marshal

/-!
# Number texts

The stored text of a finite number is read as that number, and the text of an integer as that integer: as a number
where that is exact, else as a big integer.
-/

namespace ItemMapper

namespace NumberReader

open NumberLayout

variable {s : Bool} {c : Char} {ds fs cs rest : List Char} {d : Decimal}

theorem asciiLower_of_digit (h : isAsciiDigit c = true) : asciiLower c = c := by
  rw [isAsciiDigit, Bool.and_eq_true, decide_eq_true_iff, decide_eq_true_iff] at h
  rw [asciiLower, if_neg]
  intro hletter
  have hle : 'A' ≤ '9' := Char.le_trans hletter.1 h.2
  exact absurd hle (by decide)

theorem float?_sign (h : isAsciiDigit c = true) : float? (sign s ++ c :: rest) = decimal? s (c :: rest) := by
  have hn : c ≠ 'n' := by
    intro he
    rw [he] at h
    cases h
  have hi : c ≠ 'i' := by
    intro he
    rw [he] at h
    cases h
  rw [float?, splitSign_sign h]
  simp [asciiLower_of_digit h, hn, hi]

theorem splitDigits_append (h : ∀ c ∈ ds, isAsciiDigit c = true)
    (hr : ∀ c, rest.head? = some c → isAsciiDigit c = false) :
    splitDigits (ds ++ rest) = (ds, rest) := by
  rw [splitDigits, List.takeWhile_append_of_pos h, List.dropWhile_append_of_pos h]
  cases rest with
  | nil => simp
  | cons c rest => simp [hr c rfl]

theorem splitDigits_self (h : ∀ c ∈ ds, isAsciiDigit c = true) : splitDigits ds = (ds, []) := by
  have happend : splitDigits (ds ++ []) = (ds, []) := splitDigits_append h (by simp)
  rwa [List.append_nil] at happend

theorem decimal?_digits (hne : ds ≠ []) (h : ∀ c ∈ ds, isAsciiDigit c = true) :
    decimal? s ds = some (.ofDecimal s (natOfDigits ds) 0) := by
  rw [decimal?, splitDigits_self h]
  simp [splitFraction, exponent?, hne]

theorem decimal?_point (hne : ds ≠ []) (h : ∀ c ∈ ds, isAsciiDigit c = true) (hf : ∀ c ∈ fs, isAsciiDigit c = true) :
    decimal? s (ds ++ '.' :: fs) = some (.ofDecimal s (natOfDigits (ds ++ fs)) (-(fs.length : Int))) := by
  have hpoint : ∀ c, ('.' :: fs).head? = some c → isAsciiDigit c = false := by
    intro c hc
    obtain rfl := Option.some.inj hc
    decide
  rw [decimal?, splitDigits_append h hpoint]
  simp [splitFraction, splitDigits_self hf, exponent?, hne]

theorem isAsciiDigit_of_mem_zeros {n : Nat} (h : c ∈ zeros n) : isAsciiDigit c = true := by
  obtain rfl := List.eq_of_mem_replicate h
  decide

theorem plain_ofDecimal : plain.ofDecimal d =
    if 0 ≤ d.exponent then natDigits d.digits ++ zeros d.exponent.toNat
    else if 0 ≤ d.exponent + (natDigits d.digits).length - 1 then
      (natDigits d.digits).take ((d.exponent + (natDigits d.digits).length - 1).toNat + 1) ++
        '.' :: (natDigits d.digits).drop ((d.exponent + (natDigits d.digits).length - 1).toNat + 1)
    else '0' :: '.' :: zeros (-(d.exponent + (natDigits d.digits).length - 1) - 1).toNat ++ natDigits d.digits := by
  simp [NumberLayout.ofDecimal, plain]

theorem float?_plain : float? (sign s ++ plain.ofDecimal d) = some (d.read s) := by
  obtain ⟨c, rest, hd, hc⟩ := natDigits_eq_cons d.digits
  have hall : ∀ c ∈ natDigits d.digits, isAsciiDigit c = true := fun _ h => isAsciiDigit_of_mem_natDigits h
  have hne : natDigits d.digits ≠ [] := natDigits_ne_nil
  rw [plain_ofDecimal]
  split
  · rename_i he
    have hdigits : ∀ c ∈ natDigits d.digits ++ zeros d.exponent.toNat, isAsciiDigit c = true := by
      intro c hmem
      rcases List.mem_append.1 hmem with hmem | hmem
      · exact hall c hmem
      · exact isAsciiDigit_of_mem_zeros hmem
    have hread := decimal?_digits (s := s) (List.append_ne_nil_of_left_ne_nil hne _) hdigits
    rw [hd, List.cons_append] at hread ⊢
    rw [float?_sign hc, hread, ← List.cons_append, ← hd, natOfDigits_append_zeros, natOfDigits_natDigits]
    refine congrArg some (Binary64.ofDecimal_congr ?_)
    rw [Nat.cast_mul, Binary64.tenPow_toNat_cast he, zpow_zero, mul_one]
  · rename_i he
    split
    · rename_i hlead
      have hlength : 0 < (natDigits d.digits).length := List.length_pos_iff.2 hne
      generalize hk : (d.exponent + (natDigits d.digits).length - 1).toNat = k
      have htake : ∀ c ∈ (natDigits d.digits).take (k + 1), isAsciiDigit c = true :=
        fun c hmem => hall c (List.mem_of_mem_take hmem)
      have hdrop : ∀ c ∈ (natDigits d.digits).drop (k + 1), isAsciiDigit c = true :=
        fun c hmem => hall c (List.mem_of_mem_drop hmem)
      have hread : decimal? s ((natDigits d.digits).take (k + 1) ++ '.' :: (natDigits d.digits).drop (k + 1)) = _ :=
        decimal?_point (by simp [hne]) htake hdrop
      have hexponent : -(((natDigits d.digits).drop (k + 1)).length : Int) = d.exponent := by
        rw [List.length_drop]
        omega
      rw [List.take_append_drop, natOfDigits_natDigits, hexponent] at hread
      rw [hd, List.take_succ_cons, List.cons_append] at hread ⊢
      rw [float?_sign hc, hread]
      rfl
    · rename_i hlead
      generalize hk : (-(d.exponent + (natDigits d.digits).length - 1) - 1).toNat = k
      have hzero : ∀ c ∈ ['0'], isAsciiDigit c = true := by
        intro c hmem
        rw [List.mem_singleton.1 hmem]
        rfl
      have hfraction : ∀ c ∈ zeros k ++ natDigits d.digits, isAsciiDigit c = true := by
        intro c hmem
        rcases List.mem_append.1 hmem with hmem | hmem
        · exact isAsciiDigit_of_mem_zeros hmem
        · exact hall c hmem
      have hread := decimal?_point (s := s) (by simp) hzero hfraction
      have hexponent : -((zeros k ++ natDigits d.digits).length : Int) = d.exponent := by
        rw [List.length_append, zeros, List.length_replicate]
        omega
      have hdigits : ['0'] ++ (zeros k ++ natDigits d.digits) = zeros (k + 1) ++ natDigits d.digits := rfl
      rw [hdigits, natOfDigits_zeros_append, natOfDigits_natDigits, hexponent] at hread
      refine (float?_sign (by decide)).trans ?_
      exact hread

theorem float?_intChars {i : Int} : float? (intChars i) = some (.ofInt i) := by
  obtain ⟨c, rest, hd, hc⟩ := natDigits_eq_cons i.natAbs
  have hread := decimal?_digits (s := decide (i < 0)) natDigits_ne_nil fun c hmem =>
    isAsciiDigit_of_mem_natDigits (n := i.natAbs) hmem
  rw [natOfDigits_natDigits] at hread
  rw [intChars, hd, float?_sign hc, ← hd, hread, Binary64.ofDecimal_eq, if_pos le_rfl]
  simp [Binary64.ofInt, tenPow]

end NumberReader

namespace Binary64

open NumberLayout NumberReader

variable {x : Binary64}

theorem float?_storedChars (hx : x.isFinite = true) : float? x.storedChars = some x := by
  cases x with
  | nan => cases hx
  | infinite s => cases hx
  | finite s m e h =>
    rw [storedChars]
    split
    · rename_i hwhole
      rw [Bool.and_eq_true] at hwhole
      have hvalue := value_of_isIntegral hwhole.1
      generalize (if 0 ≤ e then m * twoPow e.toNat else m / twoPow (-e).toNat) = k at hvalue ⊢
      obtain ⟨c, rest, hd, hc⟩ := natDigits_eq_cons k
      have hread := decimal?_digits (s := s) natDigits_ne_nil fun c hmem =>
        isAsciiDigit_of_mem_natDigits (n := k) hmem
      rw [natOfDigits_natDigits] at hread
      rw [hd, float?_sign hc, ← hd, hread]
      exact congrArg some (ofDecimal_exact h (by rw [zpow_zero, mul_one, hvalue]))
    · rw [NumberLayout.chars, float?_plain]
      exact congrArg some (shortest_read h)

end Binary64

namespace Wire

variable {x : Binary64} {i : Int}

theorem readNumber_storedText (hx : x.isFinite = true)
    (hexact : x.isIntegral = false ∨ x.withinMagnitude Binary64.greatestExact = true) :
    readNumber x.storedText = .number x := by
  rw [readNumber, Binary64.storedText, String.toList_ofList]
  simp only [Binary64.float?_storedChars hx, Option.getD_some, Binary64.not_greatestExact_lt hx hexact]
  rfl

/-- An integer comes back as a plain number where that is exact, else as a big integer. -/
theorem readNumber_intText (hl : NumberReader.leastBig ≤ i) (hg : i ≤ NumberReader.greatestBig) :
    readNumber (intText i) = Value.ofInt i := by
  have hbig : NumberReader.big? (intChars i) = some i := NumberReader.integer?_intChars hl hg
  rw [readNumber, intText, String.toList_ofList]
  simp only [NumberReader.float?_intChars, Option.getD_some, hbig, Value.ofInt]
  by_cases hi : i.natAbs ≤ Binary64.greatestExact
  · have hsmall : i.natAbs < twoPow 53 := lt_of_le_of_lt hi (by decide)
    rw [Binary64.not_greatestExact_lt (Binary64.isFinite_ofInt hsmall)
      (.inr (Binary64.withinMagnitude_ofInt (by decide) hi)), if_pos hi]
    rfl
  · rw [Binary64.greatestExact_lt_ofInt (not_le.1 hi), if_neg hi]
    rfl

end Wire

end ItemMapper
