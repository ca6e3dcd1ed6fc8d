import ItemMapper.Text.Blank
import ItemMapper.Text.Split
import Mathlib.Data.List.Infix

/-!
# Where texts are cut

The cuts of a text at a separator, at blanks and at its ends, told by the parts that it is put together from.
-/

namespace ItemMapper.Text

variable {sep lead tail cs x y z piece : List Char} {a c : Char}

theorem after?_append : after? lead (lead ++ x) = some x := by
  induction lead with
  | nil => rfl
  | cons l rest ih => simpa [after?] using ih

theorem after?_eq_some_iff : after? lead cs = some x ↔ cs = lead ++ x := by
  constructor
  · intro h
    induction lead generalizing cs with
    | nil => exact Option.some.inj h
    | cons l rest ih =>
      cases cs with
      | nil => cases h
      | cons c cs =>
        rw [after?] at h
        split at h
        · rename_i hl
          rw [hl, ih h, List.cons_append]
        · cases h
  · rintro rfl
    exact after?_append

theorem after?_isSome_iff : (after? lead cs).isSome = true ↔ lead <+: cs := by
  rw [Option.isSome_iff_exists]
  exact exists_congr fun rest => after?_eq_some_iff.trans eq_comm

theorem before?_eq_some_iff : before? tail cs = some x ↔ cs = x ++ tail := by
  rw [before?, Option.map_eq_some_iff]
  constructor
  · rintro ⟨front, hfront, rfl⟩
    have hreverse := congrArg List.reverse (after?_eq_some_iff.1 hfront)
    simpa using hreverse
  · rintro rfl
    exact ⟨x.reverse, after?_eq_some_iff.2 (by simp), by simp⟩

def Clear (sep x y : List Char) : Prop := ∀ v, v <:+ x → v ≠ [] → ¬ sep <+: v ++ y

theorem Clear.of_cons (h : Clear sep (c :: x) y) : Clear sep x y := fun v hv => h v (hv.trans (List.suffix_cons c x))

theorem Clear.head (h : Clear sep (c :: x) y) : (after? sep (c :: x ++ y)).isSome = false := by
  rw [Bool.eq_false_iff, ne_eq, after?_isSome_iff]
  exact h (c :: x) List.suffix_rfl (List.cons_ne_nil c x)

theorem Clear.cons (hhead : ¬ sep <+: c :: (x ++ y)) (h : Clear sep x y) : Clear sep (c :: x) y := by
  intro v hv hne hp
  rcases List.suffix_cons_iff.1 hv with rfl | hv
  · exact hhead hp
  · exact h v hv hne hp

theorem Clear.append (hx : Clear sep x (y ++ z)) (hy : Clear sep y z) : Clear sep (x ++ y) z := by
  induction x with
  | nil => exact hy
  | cons c x ih =>
    have hhead := hx (c :: x) List.suffix_rfl (List.cons_ne_nil c x)
    rw [List.cons_append]
    exact Clear.cons (by rwa [List.append_assoc]) (ih hx.of_cons)

theorem prefix_of_straddle (ha : a ∉ sep) (hp : a :: sep <+: x ++ a :: y) (hne : x ≠ []) : a :: sep <+: x := by
  by_contra hnot
  obtain ⟨v, hv⟩ : x <+: a :: sep := by
    rcases List.prefix_or_prefix_of_prefix hp (List.prefix_append x _) with h | h
    · exact absurd h hnot
    · exact h
  obtain ⟨c, x, rfl⟩ := List.exists_cons_of_ne_nil hne
  obtain ⟨rfl, hsep⟩ : c = a ∧ x ++ v = sep := List.cons.inj hv
  cases v with
  | nil => exact hnot (by rw [← hsep, List.append_nil])
  | cons d v =>
    obtain ⟨rest, hrest⟩ := hp
    have htail : x ++ (d :: v ++ rest) = x ++ c :: y := by
      rw [← List.append_assoc, hsep]
      exact (List.cons.inj hrest).2
    obtain rfl : d = c := (List.cons.inj (List.append_cancel_left htail)).1
    exact ha (by rw [← hsep]; simp)

theorem Clear.of_head (ha : a ∉ sep) (h : ¬ a :: sep <:+: x) : Clear (a :: sep) x (a :: y) := fun _ hv hne hp =>
  h ((prefix_of_straddle ha hp hne).isInfix.trans hv.isInfix)

theorem Clear.of_uncut (h : ¬ sep <:+: x) : Clear sep x [] := fun v hv _ hp =>
  h ((List.append_nil v ▸ hp).isInfix.trans hv.isInfix)

theorem Clear.of_not_mem (h : a ∉ x) : Clear (a :: sep) x y := by
  rintro v hv hne ⟨rest, hrest⟩
  obtain ⟨c, v, rfl⟩ := List.exists_cons_of_ne_nil hne
  obtain ⟨rfl, -⟩ := List.cons.inj hrest
  exact h (hv.subset List.mem_cons_self)

theorem Clear.of_second (h : c ∉ x) (hy : ∀ d ∈ y.head?, d ≠ c) : Clear (a :: c :: sep) x y := by
  rintro v hv hne ⟨rest, hrest⟩
  rcases v with _ | ⟨d, _ | ⟨e, v⟩⟩
  · exact hne rfl
  · cases y with
    | nil => simp at hrest
    | cons e y =>
      obtain ⟨-, hrest⟩ := List.cons.inj hrest
      exact hy e rfl (List.cons.inj hrest).1.symm
  · obtain ⟨-, hrest⟩ := List.cons.inj hrest
    obtain ⟨rfl, -⟩ := List.cons.inj hrest
    exact h (hv.subset (List.mem_cons_of_mem _ List.mem_cons_self))

theorem splitOnce?_append (h : Clear sep x y) :
    splitOnce? sep (x ++ y) = (splitOnce? sep y).map fun (front, rest) => (x ++ front, rest) := by
  induction x with
  | nil => simp
  | cons c x ih =>
    have hhead := h.head
    rw [Option.isSome_eq_false_iff, Option.isNone_iff_eq_none] at hhead
    rw [List.cons_append, splitOnce?, ← List.cons_append, hhead, ih h.of_cons, Option.map_map]
    rfl

theorem splitOnce?_self (hs : sep ≠ []) : splitOnce? sep (sep ++ y) = some ([], y) := by
  obtain ⟨c, rest, rfl⟩ := List.exists_cons_of_ne_nil hs
  rw [List.cons_append, splitOnce?, ← List.cons_append, after?_append]

theorem splitOnce?_of_clear (h : Clear sep x (sep ++ y)) (hs : sep ≠ []) :
    splitOnce? sep (x ++ (sep ++ y)) = some (x, y) := by
  rw [splitOnce?_append h, splitOnce?_self hs]
  exact congrArg (fun front => some (front, y)) (List.append_nil x)

theorem splitOnce?_eq_none (h : Clear sep x []) (hs : sep ≠ []) : splitOnce? sep x = none := by
  obtain ⟨c, rest, rfl⟩ := List.exists_cons_of_ne_nil hs
  have hcut := splitOnce?_append h
  rwa [List.append_nil] at hcut

theorem splitOnce?_eq_some (h : splitOnce? sep cs = some (x, y)) : cs = x ++ (sep ++ y) := by
  induction cs generalizing x with
  | nil =>
    rw [splitOnce?] at h
    split at h
    · cases h
      simp_all
    · cases h
  | cons c rest ih =>
    rw [splitOnce?] at h
    split at h
    · rename_i tail htail
      cases h
      rw [List.nil_append]
      exact after?_eq_some_iff.1 htail
    · obtain ⟨⟨front, tail⟩, hrest, he⟩ := Option.map_eq_some_iff.1 h
      cases he
      rw [ih hrest, List.cons_append]

theorem contains_iff (hs : sep ≠ []) : contains sep cs = true ↔ sep <:+: cs := by
  constructor
  · intro h
    obtain ⟨⟨front, rest⟩, hsplit⟩ := Option.isSome_iff_exists.1 h
    exact ⟨front, rest, by rw [List.append_assoc, ← splitOnce?_eq_some hsplit]⟩
  · intro h
    rw [contains, Option.isSome_iff_ne_none]
    intro hnone
    induction cs with
    | nil => exact hs (List.infix_nil.1 h)
    | cons c rest ih =>
      rw [splitOnce?] at hnone
      split at hnone
      · cases hnone
      · rename_i hafter
        rcases List.infix_cons_iff.1 h with hp | hi
        · rw [← after?_isSome_iff, hafter] at hp
          cases hp
        · exact ih hi (Option.map_eq_none_iff.1 hnone)

theorem splitFrom_of_clear (h : Clear sep x y) :
    splitFrom sep 0 piece (x ++ y) = splitFrom sep 0 (x.reverse ++ piece) y := by
  induction x generalizing piece with
  | nil => rfl
  | cons c x ih =>
    have hhead := h.head
    rw [List.cons_append] at hhead
    rw [List.cons_append, splitFrom, if_neg (by rw [hhead]; exact Bool.false_ne_true), ih h.of_cons, List.reverse_cons,
      List.append_assoc]
    rfl

theorem splitFrom_skip : splitFrom sep x.length piece (x ++ y) = splitFrom sep 0 piece y := by
  induction x with
  | nil => rfl
  | cons c x ih => exact ih

theorem splitAt_of_uncut (h : ¬ sep <:+: x) : splitAt sep x = [x] := by
  have hclear : splitFrom sep 0 [] (x ++ []) = splitFrom sep 0 (x.reverse ++ []) [] :=
    splitFrom_of_clear (Clear.of_uncut h)
  rw [List.append_nil, List.append_nil] at hclear
  rw [splitAt, hclear, splitFrom, List.reverse_reverse]

theorem splitAt_of_clear (h : Clear sep x y) : ∃ p ps, splitAt sep (x ++ y) = (x ++ p) :: ps := by
  have hfirst (skip : Nat) (piece cs : List Char) :
      ∃ p ps, splitFrom sep skip piece cs = (piece.reverse ++ p) :: ps := by
    induction cs generalizing skip piece with
    | nil => exact ⟨[], [], by cases skip <;> simp [splitFrom]⟩
    | cons c rest ih =>
      cases skip with
      | succ n => exact ih n piece
      | zero =>
        rw [splitFrom]
        split
        · exact ⟨[], _, by rw [List.append_nil]⟩
        · obtain ⟨p, ps, hp⟩ := ih 0 (c :: piece)
          exact ⟨c :: p, ps, by rw [hp]; simp⟩
  obtain ⟨p, ps, hp⟩ := hfirst 0 (x.reverse ++ []) y
  exact ⟨p, ps, by rw [splitAt, splitFrom_of_clear h, hp]; simp⟩

/-- A separator whose first character does not come again in it overlaps with no other: a text is cut at it whatever
stands around. -/
theorem splitAt_append (ha : a ∉ sep) :
    splitAt (a :: sep) (x ++ (a :: sep ++ y)) = splitAt (a :: sep) x ++ splitAt (a :: sep) y := by
  have hcut (skip : Nat) (piece x : List Char) (hskip : skip ≤ x.length) :
      splitFrom (a :: sep) skip piece (x ++ (a :: sep ++ y)) =
        splitFrom (a :: sep) skip piece x ++ splitAt (a :: sep) y := by
    induction x generalizing skip piece with
    | nil =>
      obtain rfl : skip = 0 := Nat.le_zero.1 hskip
      have hfound : (after? (a :: sep) (a :: (sep ++ y))).isSome = true :=
        after?_isSome_iff.2 (List.prefix_append (a :: sep) y)
      have hpiece : splitFrom (a :: sep) 0 piece (a :: (sep ++ y)) =
          piece.reverse :: splitFrom (a :: sep) sep.length [] (sep ++ y) := if_pos hfound
      rw [List.nil_append, List.cons_append, hpiece, splitFrom_skip]
      rfl
    | cons c x ih =>
      cases skip with
      | succ n => exact ih n piece (Nat.le_of_succ_le_succ hskip)
      | zero =>
        rw [List.cons_append, splitFrom, splitFrom]
        by_cases hp : a :: sep <+: c :: x
        · have hlong : a :: sep <+: c :: (x ++ (a :: sep ++ y)) := hp.trans (List.prefix_append (c :: x) _)
          rw [if_pos (after?_isSome_iff.2 hp), if_pos (after?_isSome_iff.2 hlong), ih, List.cons_append]
          simpa using hp.length_le
        · have hlong : ¬ a :: sep <+: c :: (x ++ (a :: sep ++ y)) := fun h =>
            hp (prefix_of_straddle ha h (List.cons_ne_nil c x))
          rw [if_neg (fun h => hp (after?_isSome_iff.1 h)), if_neg (fun h => hlong (after?_isSome_iff.1 h))]
          exact ih 0 (c :: piece) (Nat.zero_le _)
  exact hcut 0 [] x (Nat.zero_le _)

theorem free_of_any {p : Char → Bool} (h : x.any p = false) : ∀ c ∈ x, p c = false := fun c hc => by
  simpa using List.any_eq_false.1 h c hc

theorem wordsFrom_append {word : List Char} (h : isBlank c = true) :
    wordsFrom word (x ++ c :: y) = wordsFrom word x ++ words y := by
  induction x generalizing word with
  | nil =>
    have hword : wordsFrom word (c :: y) = if word.isEmpty then wordsFrom [] y else word.reverse :: wordsFrom [] y :=
      if_pos h
    rw [List.nil_append, hword, wordsFrom]
    split <;> rfl
  | cons d x ih =>
    rw [List.cons_append, wordsFrom, wordsFrom]
    split
    · split
      · exact ih
      · rw [ih, List.cons_append]
    · exact ih

theorem words_append (h : isBlank c = true) : words (x ++ c :: y) = words x ++ words y := wordsFrom_append h

theorem words_cons (h : isBlank c = false) : ∃ w ws, words (c :: x) = (c :: w) :: ws := by
  have hword (word : List Char) : ∃ w ws, wordsFrom (word ++ [c]) x = (c :: w) :: ws := by
    induction x generalizing word with
    | nil => exact ⟨word.reverse, [], by simp [wordsFrom]⟩
    | cons d x ih =>
      rw [wordsFrom]
      split
      · exact ⟨word.reverse, _, by rw [if_neg (by simp)]; simp; rfl⟩
      · exact ih (d :: word)
  rw [words, wordsFrom, if_neg (by rw [h]; exact Bool.false_ne_true)]
  exact hword []

theorem words_of_no_blank (hx : x ≠ []) (h : ∀ c ∈ x, isBlank c = false) : words x = [x] := by
  have hword (word : List Char) (hne : word ≠ [] ∨ x ≠ []) : wordsFrom word x = [word.reverse ++ x] := by
    clear hx
    induction x generalizing word with
    | nil =>
      rw [wordsFrom, if_neg (by simpa using hne), List.append_nil]
    | cons c x ih =>
      obtain ⟨hc, hrest⟩ := List.forall_mem_cons.1 h
      rw [wordsFrom, if_neg (by rw [hc]; exact Bool.false_ne_true), ih hrest (c :: word) (.inl (List.cons_ne_nil c word)),
        List.reverse_cons, List.append_assoc]
      rfl
  exact hword [] (.inr hx)

theorem trimEnd_of_getLast? (h : ∀ c ∈ x.getLast?, isBlank c = false) : trimEnd x = x := by
  rw [trimEnd]
  cases hr : x.reverse with
  | nil => simpa using hr.symm
  | cons c rest =>
    have hlast : x.getLast? = some c := by rw [← List.head?_reverse, hr, List.head?_cons]
    rw [List.dropWhile_cons_of_neg (by simp [h c hlast]), ← hr, List.reverse_reverse]

structure Trimmed (x : List Char) : Prop where
  ne_nil : x ≠ []
  head : ∀ c ∈ x.head?, isBlank c = false
  last : ∀ c ∈ x.getLast?, isBlank c = false

namespace Trimmed

theorem of_no_blank (hx : x ≠ []) (h : ∀ c ∈ x, isBlank c = false) : Trimmed x :=
  ⟨hx, fun c hc => h c (List.mem_of_head? hc), fun c hc => h c (List.mem_of_getLast? hc)⟩

theorem append (hx : Trimmed x) (hy : Trimmed y) : Trimmed (x ++ (z ++ y)) where
  ne_nil := List.append_ne_nil_of_left_ne_nil hx.ne_nil _
  head c hc := by
    rw [List.head?_append_of_ne_nil _ hx.ne_nil] at hc
    exact hx.head c hc
  last c hc := by
    rw [← List.append_assoc, List.getLast?_append_of_ne_nil _ hy.ne_nil] at hc
    exact hy.last c hc

theorem trim_eq (hx : Trimmed x) : trim x = x := by
  obtain ⟨c, rest, rfl⟩ := List.exists_cons_of_ne_nil hx.ne_nil
  have hstart : trimStart (c :: rest) = c :: rest := List.dropWhile_cons_of_neg (by simp [hx.head c rfl])
  rw [trim, hstart, trimEnd_of_getLast? hx.last]

theorem trim_cons (hx : Trimmed x) (h : isBlank c = true) : trim (c :: x) = x := by
  have hstart : trimStart (c :: x) = trimStart x := List.dropWhile_cons_of_pos h
  rw [trim, hstart, ← trim, hx.trim_eq]

end Trimmed

end ItemMapper.Text
