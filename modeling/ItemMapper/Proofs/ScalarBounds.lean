import ItemMapper.Proofs.OrderedRounding
import ItemMapper.Proofs.ReachedPositions
import ItemMapper.Proofs.StoredDates
import ItemMapper.Proofs.Validated

/-!
# Bounds of scalars

Bounds are compared after rounding. A big integer is compared with its bounds as the numbers nearest to them, so what
lies beyond a bound is refused only if it is another number. A date is compared as its stored number is read again: a
count of seconds is taken for one only if it has ten characters, and counts milliseconds otherwise.
-/

namespace ItemMapper

variable {m : Modifiers} {k : Scalar} {v context : Value} {path table : String} {phase : Phase} {s : Pass} {i : Int}
  {t : Instant} {format : DateFormat}

namespace Node

theorem violationsOf_scalar (path : String) (s : Pass) (hp : phase ≠ .custom) :
    ((scalar m k).violationsOf path v phase s).2 = s ∧
    (((scalar m k).violationsOf path v phase s).1 = [] ↔ phase.Demand (scalar m k) v) := by
  rw [violationsOf_eq_surveyed hp, surveyed, Survey.visit, Survey.enter, Phase.demand_iff path]
  cases phase.visits v with
  | false => exact ⟨rfl, by simp⟩
  | true =>
    have hadded : (Survey.addAll path (phase.check (scalar m k) v path) { picks := s.picks }).violations = [] ↔
        phase.check (scalar m k) v path = [] := by simp [Survey.addAll_eq_nil_iff]
    exact ⟨rfl, by simpa [isUnion] using hadded⟩

theorem failure?_phase {n : Node} {phases : List Phase} {e : Rejection}
    (h : (n.failure? path table v phases s).1 = some e) : e.phase ∈ phases := by
  induction phases generalizing s with
  | nil => cases h
  | cons phase rest ih =>
    rw [failure?_cons] at h
    split at h
    · exact List.mem_cons_of_mem _ (ih h)
    · obtain rfl := Option.some.inj h
      exact List.mem_cons_self

theorem failure?_of_demand {rest : List Phase} (hp : phase ≠ .custom) (h : phase.Demand (scalar m k) v) :
    (scalar m k).failure? path table v (phase :: rest) s = (scalar m k).failure? path table v rest s := by
  obtain ⟨hs, hfound⟩ := violationsOf_scalar (m := m) (k := k) (v := v) path s hp
  rw [failure?_cons, hs, hfound.2 h]
  rfl

theorem validate_range_iff (hrequired : Phase.required.Demand (scalar m k) v) (htype : Phase.type.Demand (scalar m k) v)
    (henum : Phase.enum.Demand (scalar m k) v) :
    (∃ e, ((scalar m k).validate path table v s).1 = some e ∧ e.phase = .range) ↔
      ¬ Phase.range.Demand (scalar m k) v := by
  rw [validate, Phase.all, failure?_of_demand (by decide) hrequired, failure?_of_demand (by decide) htype,
    failure?_of_demand (by decide) henum]
  constructor
  · rintro ⟨e, he, hrange⟩ hdemand
    rw [failure?_of_demand (by decide) hdemand] at he
    have hlast := List.mem_singleton.1 (failure?_phase he)
    cases hrange.symm.trans hlast
  · intro hdemand
    rw [← (violationsOf_scalar path s (by decide)).2, ← List.isEmpty_iff] at hdemand
    rw [failure?_cons, if_neg hdemand]
    exact ⟨_, rfl, rfl⟩

section BigInts

variable {least greatest : Option Int}

theorem bigInt_demand_iff (hmin : m.min = least.map .bigInt) (hmax : m.max = greatest.map .bigInt) :
    ¬ Phase.range.Demand (scalar m .bigInt) (.bigInt i) ↔ (∃ b ∈ least, i < b ∧ Binary64.ofInt i ≠ .ofInt b) ∨
      ∃ b ∈ greatest, b < i ∧ Binary64.ofInt b ≠ .ofInt i := by
  have hbound (b : Option Int) : Phase.numberBound (b.map .bigInt) = b.map Binary64.ofInt := by cases b <;> rfl
  simp only [Phase.Demand, Value.isUndefined, Phase.Bounded, Phase.HasSize, hmin, hmax, hbound, Option.map_eq_some_iff,
    forall_exists_index, and_imp, forall_apply_eq_imp_iff₂, ← Binary64.lt_ofInt_iff]
  rw [true_imp_iff, not_and_or]
  simp [Option.mem_def]

/-- A big integer violates its bounds just if it lies beyond one of them and is rounded to another number. So no
violation is missed where the integer or the bound is exact as a number. -/
theorem bigInt_violates_iff (hmin : m.min = least.map .bigInt) (hmax : m.max = greatest.map .bigInt) :
    (((scalar m .bigInt).violationsOf path (.bigInt i) .range s).1 ≠ [] ↔
      (∃ b ∈ least, i < b ∧ Binary64.ofInt i ≠ .ofInt b) ∨ ∃ b ∈ greatest, b < i ∧ Binary64.ofInt b ≠ .ofInt i) ∧
    ((∀ b, b ∈ least ∨ b ∈ greatest →
        i.natAbs ≤ Binary64.greatestExact ∨ b.natAbs ≤ Binary64.greatestExact) →
      (((scalar m .bigInt).violationsOf path (.bigInt i) .range s).1 ≠ [] ↔
        (∃ b ∈ least, i < b) ∨ ∃ b ∈ greatest, b < i)) := by
  have hviolates := (not_congr (violationsOf_scalar path s (by decide)).2).trans
    (bigInt_demand_iff (i := i) hmin hmax)
  refine ⟨hviolates, fun hexact => hviolates.trans ?_⟩
  have hne {b : Int} (hb : b ∈ least ∨ b ∈ greatest) : Binary64.ofInt i = .ofInt b ↔ i = b := by
    rcases hexact b hb with h | h
    · exact Binary64.ofInt_eq_iff_of_exact h
    · rw [eq_comm, Binary64.ofInt_eq_iff_of_exact h, eq_comm]
  refine or_congr (exists_congr fun b => and_congr_right fun hb => ?_)
    (exists_congr fun b => and_congr_right fun hb => ?_)
  · rw [Ne, hne (.inl hb)]
    exact and_iff_left_of_imp fun hlt => hlt.ne
  · rw [ne_comm, Ne, hne (.inr hb)]
    exact and_iff_left_of_imp fun hlt => hlt.ne'

def wholeCounts : Modifiers := { min := some (.bigInt 0), max := some (.bigInt 9007199254740992) }

theorem negative_count_violates :
    ((scalar wholeCounts .bigInt).violationsOf "n" (.bigInt (-1)) .range {}).1 ≠ [] := by
  have hmin : wholeCounts.min = (some 0).map .bigInt := rfl
  have hmax : wholeCounts.max = (some 9007199254740992).map .bigInt := rfl
  exact ((bigInt_violates_iff hmin hmax).2 fun _ _ => .inl (by decide)).2 (.inl ⟨0, rfl, by decide⟩)

/-- The integer after the greatest count is rounded to that count. -/
theorem excessive_count_passes : (9007199254740992 : Int) < 9007199254740993 ∧
    ((scalar wholeCounts .bigInt).violationsOf "n" (.bigInt 9007199254740993) .range {}).1 = [] :=
  ⟨by decide, by decide +kernel⟩

end BigInts

end Node

def Instant.Before (t u : Instant) : Prop := t.nanos < u.nanos

instance (t u : Instant) : Decidable (t.Before u) := inferInstanceAs (Decidable (t.nanos < u.nanos))

theorem Instant.before_ofMillis {ms : Int} : t.Before (.ofMillis ms) ↔ t.millis < ms := by
  rw [Before, ofMillis, millis, Int.ediv_lt_iff_lt_mul (by decide)]

namespace DateFormat

/-- The counts of seconds that have ten characters, a sign being one: those of the years from 2001 to 2286, and
those of the years from 1938 to 1966, which lie before 1970. -/
def TenCharacters (seconds : Int) : Prop :=
  1000000000 ≤ seconds ∧ seconds ≤ 9999999999 ∨ -999999999 ≤ seconds ∧ seconds ≤ -100000000

instance (seconds : Int) : Decidable (TenCharacters seconds) :=
  inferInstanceAs (Decidable (1000000000 ≤ seconds ∧ seconds ≤ 9999999999 ∨ _))

/-- The instant that the stored number of a date is taken for when it is given again. -/
def taken (format : DateFormat) (t : Instant) : Instant :=
  match format with
  | timestamp => .ofMillis t.millis
  | epoch => .ofMillis (if TenCharacters (t.millis / 1000) then t.millis / 1000 * 1000 else t.millis / 1000)

theorem length_natDigits_iff {n k : Nat} (hk : 0 < k) :
    (NumberLayout.natDigits n).length = k + 1 ↔ 10 ^ k ≤ n ∧ n < 10 ^ (k + 1) := by
  have hleast : (NumberLayout.natDigits n).length ≤ k ↔ n < 10 ^ k := Nat.length_toDigits_le_iff (by decide) hk
  have hmost : (NumberLayout.natDigits n).length ≤ k + 1 ↔ n < 10 ^ (k + 1) :=
    Nat.length_toDigits_le_iff (by decide) k.succ_pos
  rw [← not_lt, ← hleast, ← hmost]
  omega

theorem length_intChars_iff : (intChars i).length = 10 ↔ TenCharacters i := by
  have hnine := length_natDigits_iff (n := i.natAbs) (k := 8) (by decide)
  have hten := length_natDigits_iff (n := i.natAbs) (k := 9) (by decide)
  rw [intChars, List.length_append, TenCharacters]
  by_cases hneg : i < 0
  · rw [decide_eq_true hneg, NumberLayout.sign]
    simp only [if_true, List.length_singleton]
    omega
  · rw [decide_eq_false hneg, NumberLayout.sign]
    simp only [Bool.false_eq_true, if_false, List.length_nil]
    omega

theorem millis?_encode (h : t.InCalendar) :
    format.millis? (.number (.ofInt (format.encode t.millis))) = some (format.taken t).millis := by
  rw [millis?, ofNumber?_ofInt (natAbs_encode_le h)]
  cases format with
  | timestamp => simp [taken, encode]
  | epoch => simp only [taken, true_and, length_intChars_iff, encode, Instant.millis_ofMillis]

/-- A stored date is taken for itself under the timestamp format; under the epoch format, if its seconds have ten
characters or there are none. -/
theorem taken_eq_floor_iff : format.taken t = format.floor t ↔
    format = timestamp ∨ TenCharacters (t.millis / 1000) ∨ t.millis / 1000 = 0 := by
  cases format with
  | timestamp => simp [taken, floor]
  | epoch =>
    simp only [taken, floor, Instant.ofMillis, Instant.mk.injEq, reduceCtorEq, false_or]
    split
    · simp [*]
    · simp only [*, false_or]
      omega

end DateFormat

namespace Node

section Dates

variable {earliest latest : Option Instant}

theorem forStore_date (hsetter : m.setter = none) : (scalar m .date).forStore (.date t) context =
    pure (.number (.ofInt ((scalar m .date).dateFormat.encode t.millis))) := by
  have hset : setOwn ⟨.date t, context⟩ (scalar m .date) (.date t) =
      pure (.number (.ofInt ((scalar m .date).dateFormat.encode t.millis))) := setOwn_eq hsetter
  simp [forStore, fill, withDefault, shape, setValue, hset, prune, Value.isUndefined]

theorem date_demand_iff {x : Binary64} {ms : Int} (hx : (scalar m .date).millis? (.number x) = some ms)
    (hmin : m.min = earliest.map .date) (hmax : m.max = latest.map .date) :
    ¬ Phase.range.Demand (scalar m .date) (.number x) ↔
      (∃ b ∈ earliest, ms < b.millis) ∨ ∃ b ∈ latest, b.millis < ms := by
  have hbound (b : Option Instant) : (b.map .date).bind (scalar m .date).millis? = b.map Instant.millis := by
    cases b <;> rfl
  simp only [Phase.Demand, Value.isUndefined, Phase.Bounded, hx, Option.some.injEq, forall_eq', Phase.InTime, modifiers,
    hmin, hmax, hbound, Option.map_eq_some_iff, forall_exists_index, and_imp, forall_apply_eq_imp_iff₂]
  rw [true_imp_iff, not_and_or]
  simp [Option.mem_def]

/-- A date is refused for its bounds, once it is stored, just if what its stored number is taken for lies before the
whole milliseconds of the one or after the other. That is the date itself, less what its format does not count, under
the timestamp format, and otherwise only if its seconds have ten characters or there are none. -/
theorem date_refused_iff (hsetter : m.setter = none) (henum : m.enumValues = []) (hmin : m.min = earliest.map .date)
    (hmax : m.max = latest.map .date) (ht : t.InCalendar) :
    ((∃ e, (((scalar m .date).forStore (.date t) context >>= (scalar m .date).validate path table) s).1 = some e ∧
        e.phase = .range) ↔
      (∃ b ∈ earliest, ((scalar m .date).dateFormat.taken t).Before (DateFormat.timestamp.floor b)) ∨
        ∃ b ∈ latest, b.Before ((scalar m .date).dateFormat.taken t)) ∧
    ((scalar m .date).dateFormat.taken t = (scalar m .date).dateFormat.floor t ↔
      (scalar m .date).dateFormat = .timestamp ∨ DateFormat.TenCharacters (t.millis / 1000) ∨ t.millis / 1000 = 0) := by
  refine ⟨?_, DateFormat.taken_eq_floor_iff⟩
  have hread : (scalar m .date).millis? (.number (.ofInt ((scalar m .date).dateFormat.encode t.millis))) =
      some ((scalar m .date).dateFormat.taken t).millis := DateFormat.millis?_encode ht
  have htaken : ∃ ms, (scalar m .date).dateFormat.taken t = .ofMillis ms := by
    cases (scalar m .date).dateFormat <;> exact ⟨_, rfl⟩
  rw [forStore_date hsetter, pure_bind, validate_range_iff, date_demand_iff hread hmin hmax]
  · obtain ⟨ms, hms⟩ := htaken
    simp only [hms, DateFormat.floor, Instant.before_ofMillis, Instant.millis_ofMillis]
  · exact fun _ => rfl
  · intro _
    simp [Phase.Takes, accepts, isDate, hread]
  · exact fun _ => .inl henum

def firstDays (format : DateFormat) : Modifiers :=
  { format := some format, min := some (.date (.ofMillis 600000)), max := some (.date (.ofMillis 172800000)) }

def secondDay : Instant := .ofMillis 86400000

theorem secondDay_not_refused : ¬ ∃ e, (((scalar (firstDays .timestamp) .date).forStore (.date secondDay) .null >>=
    (scalar (firstDays .timestamp) .date).validate "at" "tbl") {}).1 = some e ∧ e.phase = .range := by
  have hmin : (firstDays .timestamp).min = (some (.ofMillis 600000)).map .date := rfl
  have hmax : (firstDays .timestamp).max = (some (.ofMillis 172800000)).map .date := rfl
  rw [(date_refused_iff rfl rfl hmin hmax ⟨by decide, by decide⟩).1]
  rintro (⟨b, hb, hbefore⟩ | ⟨b, hb, hbefore⟩)
  · obtain rfl := Option.some.inj hb
    exact absurd hbefore (by decide)
  · obtain rfl := Option.some.inj hb
    exact absurd hbefore (by decide)

/-- Its 86400 seconds are taken for milliseconds, which are less than two minutes. -/
theorem secondDay_refused : ¬ (DateFormat.epoch.floor secondDay).Before (.ofMillis 600000) ∧
    ¬ (Instant.ofMillis 172800000).Before (DateFormat.epoch.floor secondDay) ∧
    ∃ e, (((scalar (firstDays .epoch) .date).forStore (.date secondDay) .null >>=
      (scalar (firstDays .epoch) .date).validate "at" "tbl") {}).1 = some e ∧ e.phase = .range := by
  refine ⟨by decide, by decide, ?_⟩
  have hphase : (((scalar (firstDays .epoch) .date).forStore (.date secondDay) .null >>=
      (scalar (firstDays .epoch) .date).validate "at" "tbl") {}).1.map Rejection.phase = some .range := by
    decide +kernel
  exact Option.map_eq_some_iff.1 hphase

end Dates

end Node

end ItemMapper
