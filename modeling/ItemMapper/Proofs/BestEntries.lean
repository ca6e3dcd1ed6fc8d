import ItemMapper.Schema.Prediction
import Mathlib.Data.Prod.Lex
import Mathlib.Order.Bounds.Defs

/-!
# Best entries

Of some scored entries the best one is the first of the highest standing: first the score counts, then that an entry is
closed. So its score is the highest one, and it is the first closed entry of this score, or the first entry of this
score if they are all open. Scores of any linear order will do; those of variants count half points.
-/

namespace ItemMapper

variable {α : Type} {entries seen : List (α × Bool)} {e f : α × Bool} {x y : Entrant α} {place : Nat} {score : α}

def standing (e : α × Bool) : α ×ₗ Bool := toLex (e.1, !e.2)

def Entrant.entry (x : Entrant α) : α × Bool := (x.score, x.isOpen)

theorem standing_injective : Function.Injective (standing : α × Bool → α ×ₗ Bool) := by
  intro e f h
  obtain ⟨hscore, hclosed⟩ := Prod.mk.inj (toLex_inj.1 h)
  exact Prod.ext hscore (Bool.not_inj hclosed)

variable [LinearOrder α]

theorem standing_lt_iff : standing e < standing f ↔ e.1 < f.1 ∨ e.1 = f.1 ∧ e.2 = true ∧ f.2 = false := by
  rw [standing, standing, Prod.Lex.toLex_lt_toLex, Bool.lt_iff]
  simp only [Bool.not_eq_false', Bool.not_eq_true']

theorem standing_le_iff : standing e ≤ standing f ↔ e.1 ≤ f.1 ∧ (e.1 = f.1 → e.2 = false → f.2 = false) := by
  rw [standing, standing, Prod.Lex.toLex_le_toLex', Bool.le_iff_imp]
  simp only [Bool.not_eq_true']

theorem Entrant.better_iff : x.better y = true ↔ standing y.entry < standing x.entry := by
  rw [standing_lt_iff, better, Bool.or_eq_true, Bool.and_eq_true, Bool.and_eq_true, decide_eq_true_iff,
    decide_eq_true_iff, Bool.not_eq_true', and_assoc, eq_comm (a := x.score)]
  rfl

structure Wins (entries : List (α × Bool)) (x : Entrant α) : Prop where
  entered : entries[x.place]? = some x.entry
  highest : ∀ e ∈ entries, standing e ≤ standing x.entry
  first : ∀ j < x.place, ∀ e, entries[j]? = some e → standing e < standing x.entry

namespace Wins

theorem mem (h : Wins entries x) : x.entry ∈ entries := List.mem_of_getElem? h.entered

theorem place_lt (h : Wins entries x) : x.place < entries.length := (List.getElem?_eq_some_iff.1 h.entered).1

theorem place_le (hx : Wins entries x) (hy : Wins entries y) : x.place ≤ y.place := by
  -- otherwise `y` is an earlier entry, and `x` is above those
  by_contra hlt
  have hbehind := hx.first y.place (not_le.1 hlt) y.entry hy.entered
  exact hbehind.not_ge (hy.highest x.entry hx.mem)

theorem unique (hx : Wins entries x) (hy : Wins entries y) : x = y := by
  have hplace : x.place = y.place := le_antisymm (hx.place_le hy) (hy.place_le hx)
  have hentry : some x.entry = some y.entry := by rw [← hx.entered, hplace, hy.entered]
  cases x
  cases y
  cases hplace
  cases hentry
  rfl

theorem single (e : α × Bool) : Wins [e] ⟨0, e.1, e.2⟩ where
  entered := rfl
  highest := by simp [Entrant.entry]
  first := by simp

theorem step (h : Wins seen x) (e : α × Bool) :
    Wins (seen ++ [e]) (if Entrant.better ⟨seen.length, e.1, e.2⟩ x then ⟨seen.length, e.1, e.2⟩ else x) := by
  split
  · rename_i hbetter
    have hlt : standing x.entry < standing e := Entrant.better_iff.1 hbetter
    refine ⟨List.getElem?_concat_length, fun f hf => ?_, fun j hj f hf => ?_⟩
    · obtain hf | hf := List.mem_append.1 hf
      · exact (h.highest f hf).trans hlt.le
      · rw [List.mem_singleton.1 hf]
        rfl
    · rw [List.getElem?_append_left hj] at hf
      exact (h.highest f (List.mem_of_getElem? hf)).trans_lt hlt
  · rename_i hbetter
    have hle : standing e ≤ standing x.entry := not_lt.1 fun hlt => hbetter (Entrant.better_iff.2 hlt)
    refine ⟨?_, fun f hf => ?_, fun j hj f hf => ?_⟩
    · rw [List.getElem?_append_left h.place_lt]
      exact h.entered
    · obtain hf | hf := List.mem_append.1 hf
      · exact h.highest f hf
      · rwa [List.mem_singleton.1 hf]
    · rw [List.getElem?_append_left (hj.trans h.place_lt)] at hf
      exact h.first j hj f hf

theorem run (h : Wins seen x) (rest : List (α × Bool)) :
    ∃ winner, bestFrom seen.length (some x) rest = some winner ∧ Wins (seen ++ rest) winner := by
  induction rest generalizing seen x with
  | nil => exact ⟨x, rfl, by rwa [List.append_nil]⟩
  | cons e rest ih =>
    obtain ⟨winner, hwinner, hwins⟩ := ih (h.step e)
    rw [List.length_append, List.length_singleton] at hwinner
    rw [List.append_assoc] at hwins
    exact ⟨winner, hwinner, hwins⟩

theorem isGreatest (h : Wins entries x) : IsGreatest {s | ∃ e ∈ entries, e.1 = s} x.score := by
  refine ⟨⟨x.entry, h.mem, rfl⟩, ?_⟩
  rintro s ⟨e, he, rfl⟩
  exact (standing_le_iff.1 (h.highest e he)).1

theorem findIdx?_eq {p : α × Bool → Bool} (h : Wins entries x) (hp : ∀ e ∈ entries, p e = true ↔ e = x.entry) :
    entries.findIdx? p = some x.place := by
  obtain ⟨hplace, hentry⟩ := List.getElem?_eq_some_iff.1 h.entered
  refine List.findIdx?_eq_some_iff_getElem.2 ⟨hplace, (hp _ (List.getElem_mem hplace)).2 hentry, fun j hj hpj => ?_⟩
  have heq := (hp _ (List.getElem_mem (hj.trans hplace))).1 hpj
  exact (h.first j hj _ (List.getElem?_eq_getElem _)).ne (congrArg standing heq)

theorem of_findIdx? {p : α × Bool → Bool} (hp : ∀ e ∈ entries, p e = true ↔ e = x.entry)
    (hhighest : ∀ e ∈ entries, standing e ≤ standing x.entry) (hfind : entries.findIdx? p = some x.place) :
    Wins entries x := by
  obtain ⟨hplace, hpx, hbefore⟩ := List.findIdx?_eq_some_iff_getElem.1 hfind
  refine ⟨List.getElem?_eq_some_iff.2 ⟨hplace, (hp _ (List.getElem_mem hplace)).1 hpx⟩, hhighest, fun j hj e he => ?_⟩
  obtain ⟨hlt, rfl⟩ := List.getElem?_eq_some_iff.1 he
  have hmem := List.getElem_mem hlt
  exact (hhighest _ hmem).lt_of_ne fun heq => hbefore j hj ((hp _ hmem).2 (standing_injective heq))

end Wins

theorem bestOf_wins (h : entries ≠ []) :
    ∃ winner, bestOf entries = some (winner.place, winner.score) ∧ Wins entries winner := by
  obtain ⟨e, rest, rfl⟩ := List.exists_cons_of_ne_nil h
  obtain ⟨winner, hwinner, hwins⟩ := (Wins.single e).run rest
  rw [List.length_singleton] at hwinner
  refine ⟨winner, ?_, hwins⟩
  rw [bestOf, bestFrom, hwinner, Option.map_some]

theorem bestOf_eq_none_iff : bestOf entries = none ↔ entries = [] := by
  refine ⟨fun hnone => ?_, fun h => h ▸ rfl⟩
  by_contra h
  obtain ⟨winner, hwinner, -⟩ := bestOf_wins h
  rw [hnone] at hwinner
  cases hwinner

theorem bestOf_eq_some_iff : bestOf entries = some (place, score) ↔ ∃ isOpen, Wins entries ⟨place, score, isOpen⟩ := by
  constructor
  · intro h
    have hne : entries ≠ [] := by
      rintro rfl
      cases h
    obtain ⟨winner, hwinner, hwins⟩ := bestOf_wins hne
    rw [h] at hwinner
    cases hwinner
    exact ⟨winner.isOpen, hwins⟩
  · rintro ⟨isOpen, h⟩
    obtain ⟨winner, hwinner, hwins⟩ := bestOf_wins (List.ne_nil_of_mem h.mem)
    rw [hwinner, hwins.unique h]

theorem decide_closed_iff : decide (e.1 = score ∧ e.2 = false) = true ↔ e = (score, false) := by
  rw [decide_eq_true_iff, Prod.ext_iff]

theorem decide_open_iff (hopen : e.1 = score → e.2 = true) : decide (e.1 = score) = true ↔ e = (score, true) := by
  rw [decide_eq_true_iff, Prod.ext_iff]
  exact ⟨fun hscore => ⟨hscore, hopen hscore⟩, And.left⟩

/-- There is a best entry unless there is none. It has the highest score, and is the first closed one of this score if
there is one, and the first one of this score if they are all open. -/
theorem bestOf_breaks_ties (entries : List (α × Bool)) : (bestOf entries = none ↔ entries = []) ∧
    ∀ place score, bestOf entries = some (place, score) ↔
      IsGreatest {s | ∃ e ∈ entries, e.1 = s} score ∧
        ((∃ e ∈ entries, e.1 = score ∧ e.2 = false) →
          entries.findIdx? (fun e => e.1 = score ∧ e.2 = false) = some place) ∧
        ((∀ e ∈ entries, e.1 = score → e.2 = true) → entries.findIdx? (fun e => e.1 = score) = some place) := by
  refine ⟨bestOf_eq_none_iff, fun place score => bestOf_eq_some_iff.trans ⟨?_, ?_⟩⟩
  · rintro ⟨isOpen, h⟩
    refine ⟨h.isGreatest, fun ⟨e, he, hscore, hclosed⟩ => ?_, fun hopen => ?_⟩
    · obtain rfl : isOpen = false := (standing_le_iff.1 (h.highest e he)).2 hscore hclosed
      exact h.findIdx?_eq fun e he => decide_closed_iff
    · obtain rfl : isOpen = true := hopen _ h.mem rfl
      exact h.findIdx?_eq fun e he => decide_open_iff (hopen e he)
  · rintro ⟨⟨-, hgreatest⟩, hclosed, hopen⟩
    have hscore : ∀ e ∈ entries, e.1 ≤ score := fun e he => hgreatest ⟨e, he, rfl⟩
    by_cases hties : ∃ e ∈ entries, e.1 = score ∧ e.2 = false
    · refine ⟨false, .of_findIdx? (fun e he => decide_closed_iff) (fun e he => ?_) (hclosed hties)⟩
      exact standing_le_iff.2 ⟨hscore e he, fun _ _ => rfl⟩
    · -- all entries of the score are open, so the first of them is the first of the highest standing
      have hties : ∀ e ∈ entries, e.1 = score → e.2 = true := fun e he htie =>
        eq_true_of_ne_false fun hclosed => hties ⟨e, he, htie, hclosed⟩
      refine ⟨true, .of_findIdx? (fun e he => decide_open_iff (hties e he)) (fun e he => ?_) (hopen hties)⟩
      exact standing_le_iff.2 ⟨hscore e he, fun htie hclosed => (hties e he htie).symm.trans hclosed⟩

example : bestOf [(2, true), (3, true), (1, false), (3, false), (3, false)] = some (3, 3) := by decide

end ItemMapper
