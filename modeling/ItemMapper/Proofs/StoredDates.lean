import ItemMapper.Proofs.Restored
import ItemMapper.Proofs.StoredTexts
import Mathlib.Data.Nat.Cast.Order.Field

/-!
# Stored dates

A date is stored as a count of milliseconds or of seconds. Given as a number again, such a count means the same date
only if its format takes it for what it is: a count of seconds has to have ten characters. Read back, it is a date
again, unless it lies outside the years of the calendar.
-/

namespace ItemMapper

namespace Binary64

variable {x : Binary64} {m k : Nat} {e i : Int} {s : Bool} {h : Canonical m e}

theorem floor?_of_value (hv : (m : ℚ) * (2 : ℚ) ^ e = k) : (finite s m e h).floor? = some (signed s k) := by
  rw [floor?]
  split
  · rename_i he
    rw [← twoPow_toNat_cast he] at hv
    have hk : m * twoPow e.toNat = k := by exact_mod_cast hv
    rw [hk]
  · rename_i he
    have hpos : ((twoPow (-e).toNat : Nat) : Int) ≠ 0 := by exact_mod_cast (twoPow_pos _).ne'
    have hsigned : signed s m = signed s k * (twoPow (-e).toNat : Nat) := by
      rw [mantissa_of_value hv he]
      cases s <;> simp [signed]
    rw [hsigned, Int.mul_ediv_cancel _ hpos]

theorem floor?_ofInt (hi : i.natAbs < twoPow 53) : (ofInt i).floor? = some i := by
  obtain ⟨m, e, h, hv, heq⟩ := ofInt_eq_finite hi
  rw [heq, floor?_of_value hv, signed_natAbs]

theorem wholePart_le : ((if 0 ≤ e then m * twoPow e.toNat else m / twoPow (-e).toNat : Nat) : ℚ) ≤ m * (2 : ℚ) ^ e := by
  split
  · rename_i he
    rw [Nat.cast_mul, twoPow_toNat_cast he]
  · rename_i he
    have hneg : 0 ≤ -e := by omega
    have hdiv : ((m / twoPow (-e).toNat : Nat) : ℚ) ≤ (m : ℚ) / (twoPow (-e).toNat : Nat) := Nat.cast_div_le
    rwa [twoPow_toNat_cast hneg, zpow_neg, div_inv_eq_mul] at hdiv

theorem natAbs_truncate?_le {bound : Nat} (hb : bound < twoPow 53) (hx : withinMagnitude bound x = true)
    (h : x.truncate? = some i) : i.natAbs ≤ bound := by
  cases x with
  | nan => cases h
  | infinite s => cases h
  | finite s m e hc =>
    rw [withinMagnitude_finite hb] at hx
    obtain rfl := Option.some.inj h
    rw [natAbs_signed]
    exact_mod_cast wholePart_le.trans hx

theorem withinMagnitude_mono {bound other : Nat} (ho : other < twoPow 53) (hle : bound ≤ other) (hf : x.isFinite = true)
    (hx : withinMagnitude bound x = true) : withinMagnitude other x = true := by
  cases x with
  | nan => cases hf
  | infinite s => cases hf
  | finite s m e hc =>
    rw [withinMagnitude_finite (lt_of_le_of_lt hle ho)] at hx
    rw [withinMagnitude_finite ho]
    exact hx.trans (by exact_mod_cast hle)

end Binary64

namespace DateFormat

open Binary64

variable {format : DateFormat} {x : Binary64} {i ms : Int} {t : Instant}

def expand (format : DateFormat) (i : Int) : Int :=
  match format with
  | timestamp => i
  | epoch => i * 1000

@[simp] theorem encode_expand : format.encode (format.expand i) = i := by
  cases format with
  | timestamp => rfl
  | epoch => exact Int.mul_ediv_cancel i (by decide)

def Steady : DateFormat → Int → Prop
  | timestamp, i => i.natAbs ≤ greatestTimestamp
  | epoch, i => (intChars i).length = 10 ∨ i = 0 ∨ i = -1

def Recalls : DateFormat → Int → Prop
  | timestamp, i => i.natAbs ≤ greatestTimestamp
  | epoch, i => Instant.leastMillis ≤ i * 1000 ∧ i * 1000 ≤ Instant.greatestMillis

theorem natAbs_lt_of_ten (h : (intChars i).length = 10) : i.natAbs < 10000000000 := by
  have hlength : (NumberLayout.natDigits i.natAbs).length ≤ 10 := by
    rw [← h, intChars, List.length_append]
    omega
  exact (Nat.length_toDigits_le_iff (by omega) (by omega)).1 hlength

theorem wrapWord_of_ten (h : (intChars i).length = 10) : wrapWord (i * 1000) = i * 1000 := by
  have hlt := natAbs_lt_of_ten h
  have hword : twoPow 64 = 18446744073709551616 := by decide
  rw [wrapWord, hword]
  exact Int.bmod_eq_of_le (by omega) (by omega)

theorem floorWord_ofInt (hi : i.natAbs ≤ greatestTimestamp) : floorWord (ofInt i) = i := by
  have hl : NumberReader.leastWord = -9223372036854775808 := by decide
  have hg : NumberReader.greatestWord = 9223372036854775807 := by decide
  rw [greatestTimestamp] at hi
  have hsmall : i.natAbs < twoPow 53 := lt_of_le_of_lt hi (by decide)
  rw [floorWord, floor?_ofInt hsmall, Option.getD_some, hl, hg]
  omega

theorem ofNumber?_ofInt (hi : i.natAbs ≤ greatestTimestamp) : format.ofNumber? (ofInt i) =
    some (if format = epoch ∧ (intChars i).length = 10 then i * 1000 else i) := by
  have hsmall : i.natAbs < twoPow 53 := lt_of_le_of_lt hi greatestTimestamp_lt
  rw [ofNumber?, isFinite_ofInt hsmall, floorWord_ofInt hi]
  simp only [Bool.not_true, Bool.false_eq_true, if_false]
  split
  · rename_i hten
    rw [wrapWord_of_ten hten.2]
  · exact wholeMillis?_ofInt hi

theorem of_ofNumber? (h : format.ofNumber? x = some ms) : x.isFinite = true ∧
    (format = epoch ∧ (intChars (floorWord x)).length = 10 ∧ ms = floorWord x * 1000 ∨
      x.withinMagnitude greatestTimestamp = true ∧ x.truncate? = some ms) := by
  rw [ofNumber?] at h
  split at h
  · cases h
  · rename_i hfinite
    refine ⟨by simpa using hfinite, ?_⟩
    split at h
    · rename_i hten
      obtain rfl := Option.some.inj h
      exact .inl ⟨hten.1, hten.2, wrapWord_of_ten hten.2⟩
    · rw [wholeMillis?] at h
      split at h
      · rename_i hwithin
        rw [Bool.and_eq_true] at hwithin
        exact .inr ⟨hwithin.2, h⟩
      · cases h

theorem natAbs_encode_ofNumber? (h : format.ofNumber? x = some ms) : (format.encode ms).natAbs ≤ greatestTimestamp := by
  obtain ⟨-, hten | hwhole⟩ := of_ofNumber? h
  · obtain ⟨rfl, hten, rfl⟩ := hten
    have hlt := natAbs_lt_of_ten hten
    rw [greatestTimestamp, encode]
    omega
  · have hle := natAbs_truncate?_le greatestTimestamp_lt hwhole.1 hwhole.2
    rw [greatestTimestamp] at hle ⊢
    cases format <;> simp only [encode] <;> omega

theorem exact_of_ofNumber? (h : format.ofNumber? x = some ms) :
    x.isIntegral = false ∨ x.withinMagnitude greatestExact = true := by
  obtain ⟨hfinite, hten | hwhole⟩ := of_ofNumber? h
  · by_cases hintegral : x.isIntegral = true
    · right
      obtain ⟨-, hten, -⟩ := hten
      have hlt := natAbs_lt_of_ten hten
      cases x with
      | nan => cases hfinite
      | infinite s => cases hfinite
      | finite s m e hc =>
        have hvalue := value_of_isIntegral hintegral
        generalize (if 0 ≤ e then m * twoPow e.toNat else m / twoPow (-e).toNat) = k at hvalue
        have hk : (signed s k).natAbs = k := natAbs_signed
        have hl : NumberReader.leastWord = -9223372036854775808 := by decide
        have hg : NumberReader.greatestWord = 9223372036854775807 := by decide
        rw [floorWord, floor?_of_value hvalue, Option.getD_some, hl, hg] at hlt
        have hsmall : k ≤ greatestExact := by
          rw [greatestExact]
          have htwo : twoPow 53 = 9007199254740992 := by decide
          omega
        rw [withinMagnitude_finite (by decide), hvalue]
        exact_mod_cast hsmall
    · left
      simpa using hintegral
  · right
    exact withinMagnitude_mono (by decide) (by decide) hfinite hwhole.1

theorem steady_iff (h : format.ofNumber? x = some ms) :
    ofInt (format.encode ms) = x ↔ ∃ i, x = ofInt i ∧ format.Steady i := by
  constructor
  · intro hx
    have hle := natAbs_encode_ofNumber? h
    refine ⟨format.encode ms, hx.symm, ?_⟩
    rw [← hx, ofNumber?_ofInt hle, Option.some.injEq] at h
    cases format with
    | timestamp => exact hle
    | epoch =>
      rw [Steady]
      by_cases hten : (intChars (epoch.encode ms)).length = 10
      · exact .inl hten
      · right
        rw [if_neg (by simp [hten]), encode] at h
        rw [encode]
        omega
  · intro hsteady
    obtain ⟨i, rfl, hi⟩ := hsteady
    cases format with
    | timestamp =>
      rw [ofNumber?_ofInt hi, if_neg (by simp), Option.some.injEq] at h
      rw [encode, h]
    | epoch =>
      have hle : i.natAbs ≤ greatestTimestamp := by
        rw [greatestTimestamp]
        rcases hi with hten | hi
        · have hlt := natAbs_lt_of_ten hten
          omega
        · omega
      rw [ofNumber?_ofInt hle, Option.some.injEq] at h
      rw [← h, encode]
      by_cases hten : (intChars i).length = 10
      · rw [if_pos ⟨rfl, hten⟩, Int.mul_ediv_cancel i (by decide)]
      · rw [if_neg (by simp [hten])]
        have hi := hi.resolve_left hten
        congr 1
        omega

theorem recalls_encode (h : t.InCalendar) : format.Recalls (format.encode t.millis) := by
  cases format with
  | timestamp => exact natAbs_encode_le h
  | epoch =>
    obtain ⟨hl, hg⟩ := h
    rw [Instant.leastMillis] at hl
    rw [Instant.greatestMillis] at hg
    rw [Recalls, encode, Instant.leastMillis, Instant.greatestMillis]
    omega

theorem recalls_of_steady (h : format.Steady i) : format.Recalls i := by
  cases format with
  | timestamp => exact h
  | epoch =>
    rw [Recalls, Instant.leastMillis, Instant.greatestMillis]
    rcases h with hten | hi
    · have hlt := natAbs_lt_of_ten hten
      omega
    · omega

theorem decode?_ofInt (h : format.Recalls i) : format.decode? (ofInt i) = some (format.expand i) := by
  cases format with
  | timestamp => exact wholeMillis?_ofInt h
  | epoch =>
    rw [Recalls, Instant.leastMillis, Instant.greatestMillis] at h
    have hsmall : i.natAbs < twoPow 53 := lt_of_le_of_lt (b := 8334601228800) (by omega) (by decide)
    rw [decode?, mul_ofInt hsmall (by decide) (by decide)]
    apply wholeMillis?_ofInt
    rw [greatestTimestamp]
    omega

theorem inCalendar_of_ofMillis? (h : Instant.ofMillis? ms = some t) : t.InCalendar ∧ t.millis = ms := by
  rw [Instant.ofMillis?] at h
  split at h
  · rename_i hrange
    obtain rfl := Option.some.inj h
    rw [Instant.InCalendar, Instant.millis_ofMillis]
    exact ⟨hrange, rfl⟩
  · cases h

def readBack (format : DateFormat) (x : Binary64) : Value :=
  (((format.decode? x).bind Instant.ofMillis?).map .date).getD (.number x)

theorem stored?_number (h : format.ofNumber? x = some ms) :
    format.stored? (.number x) = some (.number (ofInt (format.encode ms))) := by
  rw [stored?, millis?, h, Option.map_some]

theorem stored?_readBack (h : format.ofNumber? x = some ms) : ∃ y, format.stored? (format.readBack x) = some (.number y) := by
  rw [readBack]
  cases (format.decode? x).bind Instant.ofMillis? with
  | some t => exact ⟨_, rfl⟩
  | none => exact ⟨_, stored?_number h⟩

/-- A number that counts as a date is stored as it is when it is read back, just if it is a count that recalls its
date. -/
theorem recalls_iff (h : format.ofNumber? x = some ms) :
    format.stored? (format.readBack x) = some (.number x) ↔ ∃ i, x = ofInt i ∧ format.Recalls i := by
  rw [readBack]
  cases hdate : (format.decode? x).bind Instant.ofMillis? with
  | some t =>
    obtain ⟨read, hread, ht⟩ := Option.bind_eq_some_iff.1 hdate
    obtain ⟨hcalendar, rfl⟩ := inCalendar_of_ofMillis? ht
    have hstored : format.stored? (.date t) = some (.number (ofInt (format.encode t.millis))) := rfl
    rw [Option.map_some, Option.getD_some, hstored, Option.some.injEq, Value.number.injEq]
    constructor
    · intro hx
      exact ⟨format.encode t.millis, hx.symm, recalls_encode hcalendar⟩
    · intro hrecalls
      obtain ⟨i, rfl, hi⟩ := hrecalls
      rw [decode?_ofInt hi, Option.some.injEq] at hread
      rw [← hread, encode_expand]
  | none =>
    rw [Option.map_none, Option.getD_none, stored?_number h, Option.some.injEq, Value.number.injEq, steady_iff h]
    refine exists_congr fun i => and_congr_right fun hx => ⟨recalls_of_steady, fun hi => ?_⟩
    subst hx
    rw [decode?_ofInt hi, Option.bind_some] at hdate
    cases format with
    | timestamp => exact hi
    | epoch =>
      have hin : Instant.ofMillis? (expand epoch i) = some (.ofMillis (i * 1000)) := if_pos hi
      rw [hin] at hdate
      cases hdate

end DateFormat

end ItemMapper
