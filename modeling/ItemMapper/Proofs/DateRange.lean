import ItemMapper.Proofs.StoredDates

/-!
# The range of dates

Whatever is read as a date lies within the greatest timestamp, and no count of seconds overflows when it is turned
into milliseconds. One reading is out of line: a text of ten bytes is a count of seconds in the epoch format without
any look at its size, and by an exponent ten bytes can be a number of any size.
-/

namespace ItemMapper

open NumberReader (leastWord greatestWord float?)

/-- All texts of dates are read within the greatest timestamp. -/
class LawfulDateTexts [DateTexts] : Prop where
  natAbs_date?_le : ∀ cs ms, DateTexts.date? cs = some ms → ms.natAbs ≤ DateFormat.greatestTimestamp
  natAbs_firstOfYear?_le : ∀ year ms, DateTexts.firstOfYear? year = some ms → ms.natAbs ≤ DateFormat.greatestTimestamp

namespace DateReader

def Completes (answer : Option Int) : Prop := ∀ ms, answer = some ms → ∃ r : Reading, r.millis? = some ms

variable {α : Type} {answer other : Option Int} {cs : List Char} {r : Reading} {parts : List Part} {year ms : Int}

theorem Completes.none : Completes none := fun _ h => by cases h

theorem Completes.millis? : Completes r.millis? := fun _ h => ⟨r, h⟩

theorem Completes.bind {first : Option α} {next : α → Option Int} (h : ∀ a, Completes (next a)) :
    Completes (first.bind next) := fun ms hms => by
  obtain ⟨a, -, ha⟩ := Option.bind_eq_some_iff.1 hms
  exact h a ms ha

theorem Completes.ite {c : Prop} [Decidable c] (h : Completes answer) : Completes (if c then answer else .none) := by
  split
  · exact h
  · exact .none

theorem Completes.orElse (h : Completes answer) (h' : Completes other) : Completes (answer <|> other) := by
  cases answer with
  | none => exact h'
  | some ms => exact h

theorem timestamp?_completes : Completes (timestamp? cs) := by
  refine .bind fun ⟨_, _⟩ => .bind fun _ => .bind fun ⟨_, _⟩ => .bind fun _ => .bind fun ⟨_, rest⟩ => ?_
  cases rest with
  | nil => exact .none
  | cons c rest =>
    dsimp only
    split
    · exact .bind fun _ => .bind fun ⟨_, _⟩ => .bind fun _ => .bind fun ⟨_, _⟩ => .bind fun _ => .bind fun ⟨_, _⟩ =>
        .bind fun ⟨_, _⟩ => .bind fun ⟨_, _⟩ => .ite .millis?
    · exact .none

theorem mailDate?_completes : Completes (mailDate? cs) := by
  refine .bind fun ⟨_, _⟩ => .bind fun ⟨_, _⟩ => .bind fun _ => .bind fun ⟨_, _⟩ => .bind fun _ => .bind fun ⟨_, _⟩ =>
    .bind fun _ => .bind fun ⟨_, _⟩ => .bind fun _ => .bind fun ⟨_, rest⟩ => ?_
  -- The seconds may be missing.
  dsimp only
  split <;> exact .bind fun ⟨_, _⟩ => .bind fun _ => .bind fun ⟨_, _⟩ => .ite .millis?

theorem readParts?_completes : Completes (readParts? parts r cs) := by
  induction parts generalizing r cs with
  | nil => exact .ite .millis?
  | cons p parts ih => exact .bind fun _ => ih

theorem date?_completes : Completes (date? cs) := by
  refine .orElse timestamp?_completes (.orElse mailDate?_completes (.orElse ?_ readParts?_completes))
  intro ms h
  obtain ⟨parts, -, hread⟩ := List.exists_of_findSome?_eq_some h
  exact readParts?_completes ms hread

theorem Reading.natAbs_millis?_le (h : r.millis? = some ms) : ms.natAbs ≤ DateFormat.greatestTimestamp := by
  simp only [Reading.millis?, Option.ite_none_right_eq_some, Option.map_eq_some_iff, Bool.and_eq_true,
    decide_eq_true_eq] at h
  obtain ⟨⟨⟨⟨-, hsecond⟩, -⟩, -⟩, t, ht, rfl⟩ := h
  rw [Instant.ofMillis?, Option.ite_none_right_eq_some, Instant.leastMillis, Instant.greatestMillis] at ht
  rw [DateFormat.greatestTimestamp]
  omega

theorem natAbs_date?_le (h : date? cs = some ms) : ms.natAbs ≤ DateFormat.greatestTimestamp := by
  obtain ⟨r, hr⟩ := date?_completes ms h
  exact Reading.natAbs_millis?_le hr

theorem natAbs_firstOfYear?_le (h : firstOfYear? year = some ms) : ms.natAbs ≤ DateFormat.greatestTimestamp := by
  have hmonth : 1 ≤ 2 := by decide
  simp only [firstOfYear?, Option.ite_none_right_eq_some, CalendarDay.valid, CalendarDay.leastYear,
    CalendarDay.greatestYear, Bool.and_eq_true, decide_eq_true_eq] at h
  obtain ⟨⟨⟨⟨⟨⟨hleast, hgreatest⟩, -⟩, -⟩, -⟩, -⟩, hms⟩ := h
  obtain rfl := Option.some.inj hms
  have hleast : -262143 ≤ year := of_decide_eq_true hleast
  have hgreatest : year ≤ 262142 := of_decide_eq_true hgreatest
  simp only [CalendarDay.number, hmonth, if_true, DateFormat.greatestTimestamp]
  omega

end DateReader

instance : LawfulDateTexts := ⟨fun _ _ => DateReader.natAbs_date?_le, fun _ _ => DateReader.natAbs_firstOfYear?_le⟩

namespace DateFormat

open Binary64

variable {format : DateFormat} {v : Value} {s : String} {x : Binary64} {n ms : Int}

def seconds? (format : DateFormat) : Value → Option Int
  | .number x => if x.isFinite ∧ format = epoch ∧ (intChars (floorWord x)).length = 10 then some (floorWord x) else none
  | .string s => (float? (Text.trim s.toList)).bind fun x =>
    if x.isFinite ∧ s.utf8ByteSize = 10 ∧ format = epoch then some (floorWord x) else none
  | _ => none

/-- The milliseconds of a value are those of its seconds, exactly, and within the greatest timestamp. -/
structure ReadsWithin [DateTexts] (format : DateFormat) (v : Value) : Prop where
  product : ∀ n, format.seconds? v = some n →
    format.millis? v = some (n * 1000) ∧ leastWord ≤ n * 1000 ∧ n * 1000 ≤ greatestWord
  bound : ∀ ms, format.millis? v = some ms → ms.natAbs ≤ greatestTimestamp

/-- A text of ten bytes, blanks included, for a count of seconds that lies behind the greatest timestamp. -/
def IsFarText (s : String) : Prop := s.utf8ByteSize = 10 ∧
  ∃ x, float? (Text.trim s.toList) = some x ∧ x.isFinite = true ∧ greatestTimestamp < (floorWord x * 1000).natAbs

theorem natAbs_wholeMillis?_le (h : wholeMillis? x = some ms) : ms.natAbs ≤ greatestTimestamp := by
  rw [wholeMillis?, Option.ite_none_right_eq_some, Bool.and_eq_true] at h
  exact natAbs_truncate?_le greatestTimestamp_lt h.1.2 h.2

theorem ofNumber?_cases (format : DateFormat) (x : Binary64) :
    (∃ n, format.seconds? (.number x) = some n ∧ format.ofNumber? x = some (n * 1000) ∧ n.natAbs < 10000000000) ∨
    format.seconds? (.number x) = none ∧ ∀ ms, format.ofNumber? x = some ms → ms.natAbs ≤ greatestTimestamp := by
  rw [seconds?, ofNumber?]
  by_cases hfinite : x.isFinite = true
  · by_cases hten : format = epoch ∧ (intChars (floorWord x)).length = 10
    · refine .inl ⟨floorWord x, ?_, ?_, natAbs_lt_of_ten hten.2⟩
      · rw [if_pos ⟨hfinite, hten⟩]
      · rw [if_neg (by simp [hfinite]), if_pos hten, wrapWord_of_ten hten.2]
    · refine .inr ⟨if_neg fun h => hten h.2, fun ms h => ?_⟩
      rw [if_neg (by simp [hfinite]), if_neg hten] at h
      exact natAbs_wholeMillis?_le h
  · refine .inr ⟨if_neg fun h => hfinite h.1, fun ms h => ?_⟩
    rw [if_pos (by simp [hfinite])] at h
    cases h

theorem ofText?_cases [DateTexts] [LawfulDateTexts] (format : DateFormat) (s : String) :
    (∃ n, format.seconds? (.string s) = some n ∧ format.ofText? s = some (wrapWord (n * 1000))) ∨
    format.seconds? (.string s) = none ∧ ∀ ms, format.ofText? s = some ms → ms.natAbs ≤ greatestTimestamp := by
  rw [seconds?, ofText?]
  by_cases hempty : (Text.trim s.toList).isEmpty = true
  · rw [List.isEmpty_iff.1 hempty]
    exact .inr ⟨rfl, fun ms h => by cases h⟩
  rw [if_neg hempty]
  cases hread : float? (Text.trim s.toList) with
  | none => exact .inr ⟨rfl, LawfulDateTexts.natAbs_date?_le _⟩
  | some x =>
    dsimp only [Option.bind_some]
    by_cases hfinite : x.isFinite = true
    · by_cases hten : s.utf8ByteSize = 10 ∧ format = epoch
      · refine .inl ⟨floorWord x, if_pos ⟨hfinite, hten⟩, ?_⟩
        rw [if_neg (by simp [hfinite]), if_pos hten]
      · refine .inr ⟨if_neg fun h => hten h.2, fun ms h => ?_⟩
        rw [if_neg (by simp [hfinite]), if_neg hten] at h
        split at h
        · exact LawfulDateTexts.natAbs_firstOfYear?_le _ _ h
        · exact natAbs_wholeMillis?_le h
    · refine .inr ⟨if_neg fun h => hfinite h.1, fun ms h => ?_⟩
      rw [if_pos (by simp [hfinite])] at h
      cases h

theorem wrapWord_of_word (hl : leastWord ≤ n) (hg : n ≤ greatestWord) : wrapWord n = n := by
  have hleast : leastWord = -9223372036854775808 := by decide
  have hgreatest : greatestWord = 9223372036854775807 := by decide
  have hword : twoPow 64 = 18446744073709551616 := by decide
  rw [wrapWord, hword]
  exact Int.bmod_eq_of_le (by omega) (by omega)

theorem word_of_natAbs_le (h : n.natAbs ≤ greatestTimestamp) : leastWord ≤ n ∧ n ≤ greatestWord := by
  have hleast : leastWord = -9223372036854775808 := by decide
  have hgreatest : greatestWord = 9223372036854775807 := by decide
  rw [greatestTimestamp] at h
  omega

theorem readsWithin_of_none [DateTexts] (hseconds : format.seconds? v = none)
    (hbound : ∀ ms, format.millis? v = some ms → ms.natAbs ≤ greatestTimestamp) : ReadsWithin format v where
  product n hn := by
    rw [hseconds] at hn
    cases hn
  bound := hbound

theorem readsWithin_of_seconds [DateTexts] (hseconds : format.seconds? v = some n) (hread : format.millis? v = some (n * 1000))
    (hn : (n * 1000).natAbs ≤ greatestTimestamp) : ReadsWithin format v where
  product n' hn' := by
    obtain rfl := Option.some.inj (hseconds.symm.trans hn')
    exact ⟨hread, word_of_natAbs_le hn⟩
  bound ms hms := by
    obtain rfl := Option.some.inj (hread.symm.trans hms)
    exact hn

theorem readsWithin_number [DateTexts] : ReadsWithin format (.number x) := by
  obtain ⟨n, hseconds, hread, hn⟩ | ⟨hseconds, hbound⟩ := ofNumber?_cases format x
  · refine readsWithin_of_seconds hseconds hread ?_
    rw [greatestTimestamp]
    omega
  · exact readsWithin_of_none hseconds hbound

theorem readsWithin_string [DateTexts] [LawfulDateTexts] : ReadsWithin format (.string s) ↔ ¬(format = epoch ∧ IsFarText s) := by
  constructor
  · rintro hwithin ⟨rfl, hten, x, hread, hfinite, hfar⟩
    have hseconds : epoch.seconds? (.string s) = some (floorWord x) := by
      rw [seconds?, hread]
      exact if_pos ⟨hfinite, hten, rfl⟩
    have hbound := hwithin.bound _ (hwithin.product _ hseconds).1
    omega
  · intro hnot
    obtain ⟨n, hseconds, hread⟩ | ⟨hseconds, hbound⟩ := ofText?_cases format s
    · have hle : (n * 1000).natAbs ≤ greatestTimestamp := by
        refine Nat.le_of_not_lt fun hfar => hnot ?_
        obtain ⟨x, hx, hfloor⟩ := Option.bind_eq_some_iff.1 hseconds
        obtain ⟨⟨hfinite, hten, hepoch⟩, hn⟩ := Option.ite_none_right_eq_some.1 hfloor
        obtain rfl := Option.some.inj hn
        exact ⟨hepoch, hten, x, hx, hfinite, hfar⟩
      obtain ⟨hl, hg⟩ := word_of_natAbs_le hle
      exact readsWithin_of_seconds hseconds (by rw [millis?, hread, wrapWord_of_word hl hg]) hle
    · exact readsWithin_of_none hseconds hbound

/-- A value is read within the greatest timestamp, and without an overflow, unless it is a far text in the epoch
format. -/
theorem readsWithin_iff [DateTexts] [LawfulDateTexts] (format : DateFormat) (v : Value)
    (hv : ∀ t, v = .date t → t.InCalendar) :
    ReadsWithin format v ↔ ¬(format = epoch ∧ ∃ s, v = .string s ∧ IsFarText s) := by
  cases v with
  | string s =>
    rw [readsWithin_string]
    simp
  | number x => exact iff_of_true readsWithin_number (by simp)
  | date t =>
    refine iff_of_true (readsWithin_of_none rfl fun ms hms => ?_) (by simp)
    obtain rfl := Option.some.inj hms
    have hbound : (timestamp.encode t.millis).natAbs ≤ greatestTimestamp := natAbs_encode_le (hv t rfl)
    exact hbound
  | _ => exact iff_of_true (readsWithin_of_none rfl fun ms hms => by cases hms) (by simp)

theorem secondsText_readsWithin : ReadsWithin epoch (.string "1701444084") := by
  refine (readsWithin_iff epoch (.string "1701444084") fun t h => by cases h).2 ?_
  rintro ⟨-, s, hs, -, x, hread, -, hfar⟩
  obtain rfl := Value.string.inj hs
  have hfloor : (float? (Text.trim "1701444084".toList)).map floorWord = some 1701444084 := by decide +kernel
  rw [hread, Option.map_some, Option.some.injEq] at hfloor
  rw [hfloor] at hfar
  exact absurd hfar (by decide)

/-- Ten bytes with an exponent: the first text is read as a time far behind the greatest timestamp, and the product for
the second one is no word. -/
theorem farText_not_within : epoch.millis? (.string "9.0000e+15") = some 9000000000000000000 ∧
    ¬ReadsWithin epoch (.string "9.0000e+15") ∧
    epoch.seconds? (.string "1000000e10") = some 10000000000000000 ∧ greatestWord < 10000000000000000 * 1000 := by
  have hread : epoch.millis? (.string "9.0000e+15") = some 9000000000000000000 := by decide +kernel
  exact ⟨hread, fun h => absurd (h.bound _ hread) (by decide), by decide +kernel, by decide⟩

end DateFormat

end ItemMapper
