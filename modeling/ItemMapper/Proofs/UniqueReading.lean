import ItemMapper.Proofs.Rendered

/-!
# Unique reading

The text of a condition and the tables of its tokens determine the condition, up to connectives over a single condition
and up to what becomes of its literals. A text is read from left to right: where its first part ends can be told from
the text alone.
-/

namespace ItemMapper

open NumberLayout NumberReader

variable {ν ν' β β' : Type}

def Term.WellFormed : Term ν β → Prop
  | path steps => steps ≠ []
  | literal _ => True
  | size steps => steps ≠ []

mutual

/-- No path and no list of candidates is empty, and every connective joins two parts at least. -/
def Outline.WellFormed : Outline ν β → Prop
  | .compare l _ r => l.WellFormed ∧ r.WellFormed
  | .between v l h => v.WellFormed ∧ l.WellFormed ∧ h.WellFormed
  | .isIn v cs => v.WellFormed ∧ cs ≠ [] ∧ ∀ c ∈ cs, c.WellFormed
  | .logical _ parts => 2 ≤ parts.length ∧ Outline.AllWellFormed parts
  | .not inner => Outline.WellFormed inner
  | .function _ steps a => steps ≠ [] ∧ ∀ x ∈ a, x.WellFormed

def Outline.AllWellFormed : List (Outline ν β) → Prop
  | [] => True
  | p :: rest => Outline.WellFormed p ∧ Outline.AllWellFormed rest

end

def Operand.WellFormed : Operand → Prop
  | path p => p.elements ≠ []
  | literal _ => True
  | size p => p.elements ≠ []

mutual

/-- No path, no list of candidates and no connective is empty. -/
def Condition.WellFormed : Condition → Prop
  | .compare l _ r => l.WellFormed ∧ r.WellFormed
  | .between v l h => v.WellFormed ∧ l.WellFormed ∧ h.WellFormed
  | .isIn v cs => v.WellFormed ∧ cs ≠ [] ∧ ∀ c ∈ cs, c.WellFormed
  | .logical _ cs => cs ≠ [] ∧ Condition.AllWellFormed cs
  | .not inner => Condition.WellFormed inner
  | .function _ p a => p.elements ≠ [] ∧ ∀ x ∈ a, x.WellFormed

def Condition.AllWellFormed : List Condition → Prop
  | [] => True
  | c :: rest => Condition.WellFormed c ∧ Condition.AllWellFormed rest

end

theorem Condition.allWellFormed_iff {cs : List Condition} : Condition.AllWellFormed cs ↔ ∀ c ∈ cs, c.WellFormed := by
  induction cs with
  | nil => simp [Condition.AllWellFormed]
  | cons c rest ih => simp [Condition.AllWellFormed, ih]

section Maps

variable {f : ν → ν'} {g : β → β'}

theorem Term.wellFormed_map {x : Term ν β} : (x.map f g).WellFormed ↔ x.WellFormed := by
  cases x <;> simp [Term.map, Term.WellFormed]

mutual

theorem Outline.wellFormed_map : ∀ x : Outline ν β, (x.map f g).WellFormed ↔ x.WellFormed
  | .compare l op r => by simp [Outline.map, Outline.WellFormed, Term.wellFormed_map]
  | .between v l h => by simp [Outline.map, Outline.WellFormed, Term.wellFormed_map]
  | .isIn v cs => by simp [Outline.map, Outline.WellFormed, Term.wellFormed_map]
  | .logical op parts => by
    rw [Outline.map, Outline.WellFormed, Outline.WellFormed, Outline.allWellFormed_mapAll parts, Outline.mapAll_eq,
      List.length_map]
  | .not inner => Outline.wellFormed_map inner
  | .function name steps a => by simp [Outline.map, Outline.WellFormed, Term.wellFormed_map]

theorem Outline.allWellFormed_mapAll : ∀ xs : List (Outline ν β),
    Outline.AllWellFormed (Outline.mapAll f g xs) ↔ Outline.AllWellFormed xs
  | [] => Iff.rfl
  | x :: rest => and_congr (Outline.wellFormed_map x) (Outline.allWellFormed_mapAll rest)

end

end Maps

section Trees

variable {f : String → ν} {g : Value → β}

theorem Operand.outline_wellFormed {o : Operand} : (o.outline f g).WellFormed ↔ o.WellFormed := by
  cases o <;> simp [Operand.outline, Term.WellFormed, Operand.WellFormed, DocumentPath.outline]

theorem Outline.joined_wellFormed {op : Connective} {parts : List (Outline ν β)} (hne : parts ≠ [])
    (h : Outline.AllWellFormed parts) : (Outline.joined op parts).WellFormed := by
  rcases parts with _ | ⟨x, _ | ⟨y, rest⟩⟩
  · exact absurd rfl hne
  · exact h.1
  · exact ⟨by simp, h⟩

mutual

theorem Condition.outline_wellFormed : ∀ c : Condition, c.WellFormed → (c.outline f g).WellFormed
  | .compare l op r, h => ⟨Operand.outline_wellFormed.2 h.1, Operand.outline_wellFormed.2 h.2⟩
  | .between v l u, h => ⟨Operand.outline_wellFormed.2 h.1, Operand.outline_wellFormed.2 h.2.1,
      Operand.outline_wellFormed.2 h.2.2⟩
  | .isIn v cs, h => by
    obtain ⟨hv, hne, hall⟩ := h
    refine ⟨Operand.outline_wellFormed.2 hv, by simpa using hne, ?_⟩
    simpa [Operand.outline_wellFormed] using hall
  | .logical op cs, h => by
    obtain ⟨hne, hall⟩ := h
    refine Outline.joined_wellFormed ?_ (Condition.outlines_wellFormed cs hall)
    rw [Condition.outlines_eq]
    simpa using hne
  | .not inner, h => Condition.outline_wellFormed inner h
  | .function name p a, h => by
    obtain ⟨hp, ha⟩ := h
    refine ⟨by simpa [DocumentPath.outline] using hp, ?_⟩
    simpa [Operand.outline_wellFormed] using ha

theorem Condition.outlines_wellFormed : ∀ cs : List Condition, Condition.AllWellFormed cs →
    Outline.AllWellFormed (Condition.outlines f g cs)
  | [], _ => trivial
  | c :: rest, h => ⟨Condition.outline_wellFormed c h.1, Condition.outlines_wellFormed rest h.2⟩

end

end Trees

def EndsTerm (rest : List Char) : Prop := ∀ c ∈ rest.head?, c = ' ' ∨ c = ')' ∨ c = ','

variable {r r' : List Char} {j k : Nat} {p q : List (Step Nat)} {x y : Term Nat Nat}

theorem natDigits_append_inj (hr : ∀ c ∈ r.head?, isAsciiDigit c = false) (hr' : ∀ c ∈ r'.head?, isAsciiDigit c = false)
    (h : natDigits j ++ r = natDigits k ++ r') : j = k ∧ r = r' := by
  have hdigits := congrArg (List.takeWhile isAsciiDigit) h
  rw [takeWhile_append_of_head hr, takeWhile_append_of_head hr', takeWhile_natDigits, takeWhile_natDigits] at hdigits
  rw [hdigits] at h
  exact ⟨natDigits_injective hdigits, List.append_cancel_left h⟩

theorem EndsTerm.not_digit (h : EndsTerm r) : ∀ c ∈ r.head?, isAsciiDigit c = false := by
  intro c hc
  rcases h c hc with rfl | rfl | rfl <;> decide

theorem restChars_not_digit (h : EndsTerm r) : ∀ c ∈ (Step.restChars p ++ r).head?, isAsciiDigit c = false := by
  rcases p with _ | ⟨k | i, rest⟩
  · exact h.not_digit
  · rintro _ ⟨⟩
    decide
  · rintro _ ⟨⟩
    decide

theorem restChars_append_inj (hr : EndsTerm r) (hr' : EndsTerm r') (h : Step.restChars p ++ r = Step.restChars q ++ r') :
    p = q ∧ r = r' := by
  have hstop {s : Step Nat} {rest t t' : List _} (ht : EndsTerm t) : t ≠ Step.restChars (s :: rest) ++ t' := by
    rintro rfl
    cases s <;> simp [EndsTerm, Step.restChars, DocumentPath.indexChars] at ht
  induction p generalizing q with
  | nil =>
    cases q with
    | nil => exact ⟨rfl, h⟩
    | cons s rest => exact absurd h (hstop hr)
  | cons s rest ih =>
    cases q with
    | nil => exact absurd h.symm (hstop hr')
    | cons s' rest' =>
      cases s with
      | name k =>
        cases s' with
        | name k' =>
          simp only [Step.restChars, nameChars, List.cons_append, List.append_assoc, List.cons.injEq, true_and] at h
          obtain ⟨rfl, hrest⟩ := natDigits_append_inj (restChars_not_digit hr) (restChars_not_digit hr') h
          obtain ⟨rfl, hr⟩ := ih hrest
          exact ⟨rfl, hr⟩
        | index i' => simp [Step.restChars, DocumentPath.indexChars] at h
      | index i =>
        cases s' with
        | name k' => simp [Step.restChars, DocumentPath.indexChars] at h
        | index i' =>
          simp only [Step.restChars, DocumentPath.indexChars, List.cons_append, List.append_assoc, List.nil_append,
            List.cons.injEq, true_and] at h
          have hbracket {t : List Char} : ∀ c ∈ (']' :: t).head?, isAsciiDigit c = false := by
            rintro _ ⟨⟩
            decide
          obtain ⟨rfl, hrest⟩ := natDigits_append_inj hbracket hbracket h
          obtain ⟨rfl, hr⟩ := ih (List.cons.inj hrest).2
          exact ⟨rfl, hr⟩

theorem stepChars_append_inj (hp : p ≠ []) (hq : q ≠ []) (hr : EndsTerm r) (hr' : EndsTerm r')
    (h : Step.chars p ++ r = Step.chars q ++ r') : p = q ∧ r = r' := by
  have hpoint {s : Nat} {rest : List (Step Nat)} {t : List Char} :
      '.' :: (Step.chars (.name s :: rest) ++ t) = Step.restChars (.name s :: rest) ++ t := rfl
  rcases p with _ | ⟨k | i, rest⟩
  · exact absurd rfl hp
  · rcases q with _ | ⟨k' | i', rest'⟩
    · exact absurd rfl hq
    · exact restChars_append_inj hr hr' (by rw [← hpoint, ← hpoint, h])
    · simp [Step.chars, nameChars, Step.restChars, DocumentPath.indexChars] at h
  · rcases q with _ | ⟨k' | i', rest'⟩
    · exact absurd rfl hq
    · simp [Step.chars, nameChars, Step.restChars, DocumentPath.indexChars] at h
    · exact restChars_append_inj hr hr' h

theorem stepChars_eq_cons (hp : p ≠ []) : ∃ c t, Step.chars p = c :: t ∧ (c = '#' ∨ c = '[') := by
  rcases p with _ | ⟨k | i, rest⟩
  · exact absurd rfl hp
  · exact ⟨'#', _, rfl, .inl rfl⟩
  · exact ⟨'[', _, rfl, .inr rfl⟩

theorem term_append_inj (hx : x.WellFormed) (hy : y.WellFormed) (hr : EndsTerm r) (hr' : EndsTerm r')
    (h : x.chars ++ r = y.chars ++ r') : x = y ∧ r = r' := by
  have hliteral {p : List (Step Nat)} {k : Nat} {t t' : List Char} (hp : p ≠ []) :
      Step.chars p ++ t ≠ valueChars k ++ t' := by
    obtain ⟨c, rest, hc, rfl | rfl⟩ := stepChars_eq_cons hp <;> simp [hc, valueChars]
  have hsize {p q : List (Step Nat)} {t t' : List Char} (hp : p ≠ []) :
      Step.chars p ++ t ≠ call "size" (Step.chars q) ++ t' := by
    obtain ⟨c, rest, hc, rfl | rfl⟩ := stepChars_eq_cons hp <;> simp [hc, call]
  cases x with
  | path p =>
    cases y with
    | path q =>
      obtain ⟨rfl, hrest⟩ := stepChars_append_inj hx hy hr hr' h
      exact ⟨rfl, hrest⟩
    | literal k => exact absurd h (hliteral hx)
    | size q => exact absurd h (hsize hx)
  | literal j =>
    cases y with
    | path q => exact absurd h.symm (hliteral hy)
    | literal k =>
      simp only [Term.chars, valueChars, List.cons_append, List.cons.injEq, true_and] at h
      obtain ⟨rfl, hrest⟩ := natDigits_append_inj hr.not_digit hr'.not_digit h
      exact ⟨rfl, hrest⟩
    | size q => simp [Term.chars, valueChars, call] at h
  | size p =>
    cases y with
    | path q => exact absurd h.symm (hsize hy)
    | literal k => simp [Term.chars, valueChars, call] at h
    | size q =>
      have hclose {t : List Char} : EndsTerm (')' :: t) := by
        rintro _ ⟨⟩
        exact .inr (.inl rfl)
      simp only [Term.chars, call, inParentheses, List.append_assoc, List.append_cancel_left_eq, List.cons_append,
        List.nil_append, List.cons.injEq, true_and] at h
      obtain ⟨rfl, hrest⟩ := stepChars_append_inj hx hy hclose hclose h
      exact ⟨rfl, (List.cons.inj hrest).2⟩

theorem termChars_injective (hx : x.WellFormed) (hy : y.WellFormed) (h : x.chars = y.chars) : x = y := by
  have hend : EndsTerm [] := by
    rintro _ ⟨⟩
  exact (term_append_inj hx hy hend hend (by rw [h])).1

theorem intercalate_cons_flatMap {sep x : List Char} {xs : List (List Char)} :
    sep.intercalate (x :: xs) = x ++ xs.flatMap (sep ++ ·) := by
  induction xs generalizing x with
  | nil => simp
  | cons y rest ih => rw [List.intercalate_cons_cons, ih, List.flatMap_cons, List.append_assoc, List.append_assoc]

def furtherChars (cs : List (Term Nat Nat)) : List Char := cs.flatMap fun c => ", ".toList ++ c.chars

theorem furtherChars_endsTerm {cs : List (Term Nat Nat)} : EndsTerm (furtherChars cs ++ ')' :: r) := by
  cases cs with
  | nil =>
    rintro _ ⟨⟩
    exact .inr (.inl rfl)
  | cons c rest =>
    rintro _ ⟨⟩
    exact .inr (.inr rfl)

theorem furtherChars_append_inj {cs ds : List (Term Nat Nat)} (hc : ∀ c ∈ cs, c.WellFormed) (hd : ∀ d ∈ ds, d.WellFormed)
    (h : furtherChars cs ++ ')' :: r = furtherChars ds ++ ')' :: r') : cs = ds ∧ r = r' := by
  induction cs generalizing ds with
  | nil =>
    cases ds with
    | nil => exact ⟨rfl, (List.cons.inj h).2⟩
    | cons d rest => simp [furtherChars] at h
  | cons c cs ih =>
    cases ds with
    | nil => simp [furtherChars] at h
    | cons d ds =>
      obtain ⟨hc, hcs⟩ := List.forall_mem_cons.1 hc
      obtain ⟨hd, hds⟩ := List.forall_mem_cons.1 hd
      simp only [furtherChars, List.flatMap_cons, List.append_assoc, List.append_cancel_left_eq] at h
      obtain ⟨rfl, hrest⟩ := term_append_inj hc hd furtherChars_endsTerm furtherChars_endsTerm h
      obtain ⟨rfl, hr⟩ := ih hcs hds hrest
      exact ⟨rfl, hr⟩

inductive Form where
  | leaf
  | joined
  | negated
  | function
  deriving DecidableEq

def Form.ofChar : Char → Form
  | '(' => joined
  | 'N' => negated
  | 'a' => function
  | 'b' => function
  | 'c' => function
  | _ => leaf

def Outline.form : Outline ν β → Form
  | .compare .. => .leaf
  | .between .. => .leaf
  | .isIn .. => .leaf
  | .logical .. => .joined
  | .not .. => .negated
  | .function .. => .function

theorem term_eq_cons (hx : x.WellFormed) : ∃ c t, x.chars = c :: t ∧ Form.ofChar c = .leaf := by
  cases x with
  | path p => obtain ⟨c, t, hc, rfl | rfl⟩ := stepChars_eq_cons hx <;> exact ⟨_, _, hc, rfl⟩
  | literal k => exact ⟨_, _, rfl, rfl⟩
  | size p => exact ⟨'s', _, rfl, rfl⟩

def Connective.furtherChars (op : Connective) (parts : List (Outline Nat Nat)) : List Char :=
  parts.flatMap fun p => op.between ++ inParentheses p.chars

theorem logical_chars {op : Connective} {p : Outline Nat Nat} {parts : List (Outline Nat Nat)} :
    (Outline.logical op (p :: parts)).chars = inParentheses p.chars ++ op.furtherChars parts := by
  rw [Outline.chars, Outline.allChars_eq, List.map_cons, intercalate_cons_flatMap, List.flatMap_map,
    Connective.furtherChars]

theorem chars_eq_cons (f : Outline Nat Nat) (hf : f.WellFormed) : ∃ c t, f.chars = c :: t ∧ Form.ofChar c = f.form := by
  have leads {x : Term Nat Nat} {t : List Char} (hx : x.WellFormed) :
      ∃ c t', x.chars ++ t = c :: t' ∧ Form.ofChar c = .leaf := by
    obtain ⟨c, t', hc, hleaf⟩ := term_eq_cons hx
    exact ⟨c, t' ++ t, by rw [hc, List.cons_append], hleaf⟩
  cases f with
  | compare l op r =>
    rw [Outline.chars, linked, List.append_assoc]
    exact leads hf.1
  | between v l h =>
    rw [Outline.chars, linked, List.append_assoc]
    exact leads hf.1
  | isIn v cs => exact leads hf.1
  | logical op parts =>
    cases parts with
    | nil => exact absurd hf.1 (by simp)
    | cons p rest => exact ⟨'(', _, logical_chars, rfl⟩
  | not inner => exact ⟨'N', _, rfl, rfl⟩
  | function name steps a => cases a <;> cases name <;> exact ⟨_, _, rfl, rfl⟩

def EndsCondition (rest : List Char) : Prop := ∀ c ∈ rest.head?, c = ')'

variable {f g : Outline Nat Nat}

theorem EndsCondition.endsTerm (h : EndsCondition r) : EndsTerm r := fun c hc => .inr (.inl (h c hc))

theorem endsCondition_close : EndsCondition (')' :: r) := by
  rintro _ ⟨⟩
  rfl

theorem endsTerm_link {link : String} (h : link.toList.head?.any (fun c => c == ' ' || c == ',') = true) :
    EndsTerm (link.toList ++ r) := by
  obtain ⟨c, rest, hlink, hc⟩ : ∃ c rest, link.toList = c :: rest ∧ (c = ' ' ∨ c = ',') := by
    cases hlink : link.toList with
    | nil => simp [hlink] at h
    | cons c rest => exact ⟨c, rest, rfl, by simpa [hlink] using h⟩
  rw [hlink]
  rintro _ ⟨⟩
  exact hc.elim .inl fun hc => .inr (.inr hc)

theorem comparison_append_inj {op op' : Comparison} {t t' : List Char}
    (h : op.text.toList ++ ' ' :: t = op'.text.toList ++ ' ' :: t') : op = op' ∧ t = t' := by
  cases op <;> cases op' <;> simp_all [Comparison.text]

theorem predicate_append_inj {name name' : Predicate} {t t' : List Char}
    (h : name.text.toList ++ '(' :: t = name'.text.toList ++ '(' :: t') : name = name' ∧ t = t' := by
  cases name <;> cases name' <;> simp_all [Predicate.text]

theorem compare_append_inj {l l' x x' : Term Nat Nat} {op op' : Comparison}
    (hf : (Outline.compare l op x).WellFormed) (hg : (Outline.compare l' op' x').WellFormed) (hr : EndsTerm r)
    (hr' : EndsTerm r') (h : (Outline.compare l op x).chars ++ r = (Outline.compare l' op' x').chars ++ r') :
    Outline.compare l op x = .compare l' op' x' ∧ r = r' := by
  simp only [Outline.chars, linked, String.toList_append, List.append_assoc] at h
  obtain ⟨rfl, hrest⟩ := term_append_inj hf.1 hg.1 (endsTerm_link (by decide)) (endsTerm_link (by decide)) h
  have hspace {t : List Char} : " ".toList ++ t = ' ' :: t := by simp
  rw [hspace, hspace] at hrest
  obtain ⟨rfl, hright⟩ := comparison_append_inj (List.cons.inj hrest).2
  obtain ⟨rfl, hr⟩ := term_append_inj hf.2 hg.2 hr hr' hright
  exact ⟨rfl, hr⟩

theorem between_append_inj {v v' l l' u u' : Term Nat Nat} (hf : (Outline.between v l u).WellFormed)
    (hg : (Outline.between v' l' u').WellFormed) (hr : EndsTerm r) (hr' : EndsTerm r')
    (h : (Outline.between v l u).chars ++ r = (Outline.between v' l' u').chars ++ r') :
    Outline.between v l u = .between v' l' u' ∧ r = r' := by
  simp only [Outline.chars, linked, List.append_assoc] at h
  obtain ⟨rfl, hrest⟩ := term_append_inj hf.1 hg.1 (endsTerm_link (by decide)) (endsTerm_link (by decide)) h
  obtain ⟨rfl, hhigh⟩ := term_append_inj hf.2.1 hg.2.1 (endsTerm_link (by decide)) (endsTerm_link (by decide))
    (List.append_cancel_left hrest)
  obtain ⟨rfl, hr⟩ := term_append_inj hf.2.2 hg.2.2 hr hr' (List.append_cancel_left hhigh)
  exact ⟨rfl, hr⟩

theorem isIn_append_inj {v v' : Term Nat Nat} {cs cs' : List (Term Nat Nat)} (hf : (Outline.isIn v cs).WellFormed)
    (hg : (Outline.isIn v' cs').WellFormed) (h : (Outline.isIn v cs).chars ++ r = (Outline.isIn v' cs').chars ++ r') :
    Outline.isIn v cs = .isIn v' cs' ∧ r = r' := by
  obtain ⟨hv, hne, hcs⟩ := hf
  obtain ⟨hv', hne', hcs'⟩ := hg
  obtain ⟨c, rest, rfl⟩ := List.exists_cons_of_ne_nil hne
  obtain ⟨c', rest', rfl⟩ := List.exists_cons_of_ne_nil hne'
  obtain ⟨hc, hrest⟩ := List.forall_mem_cons.1 hcs
  obtain ⟨hc', hrest'⟩ := List.forall_mem_cons.1 hcs'
  simp only [Outline.chars, call, inParentheses, List.append_assoc, List.map_cons, intercalate_cons_flatMap,
    List.flatMap_map, List.cons_append, List.nil_append] at h
  obtain ⟨rfl, hlist⟩ := term_append_inj hv hv' (endsTerm_link (by decide)) (endsTerm_link (by decide)) h
  have hlist := (List.cons.inj (List.append_cancel_left hlist)).2
  obtain ⟨rfl, hfurther⟩ := term_append_inj hc hc' furtherChars_endsTerm furtherChars_endsTerm hlist
  obtain ⟨rfl, hr⟩ := furtherChars_append_inj hrest hrest' hfurther
  exact ⟨rfl, hr⟩

theorem leaf_append_inj (hf : f.WellFormed) (hg : g.WellFormed) (hleaf : f.form = .leaf) (hleaf' : g.form = .leaf)
    (hr : EndsTerm r) (hr' : EndsTerm r') (h : f.chars ++ r = g.chars ++ r') : f = g ∧ r = r' := by
  have hcompare_between {l x v u w : Term Nat Nat} {op : Comparison} {t t' : List Char}
      (hl : l.WellFormed) (hv : v.WellFormed) :
      (Outline.compare l op x).chars ++ t ≠ (Outline.between v u w).chars ++ t' := by
    intro h
    simp only [Outline.chars, linked, String.toList_append, List.append_assoc] at h
    obtain ⟨-, hrest⟩ := term_append_inj hl hv (endsTerm_link (by decide)) (endsTerm_link (by decide)) h
    cases op <;> simp [Comparison.text] at hrest
  have hcompare_isIn {l x v : Term Nat Nat} {op : Comparison} {cs : List (Term Nat Nat)} {t t' : List Char}
      (hl : l.WellFormed) (hv : v.WellFormed) : (Outline.compare l op x).chars ++ t ≠ (Outline.isIn v cs).chars ++ t' := by
    intro h
    simp only [Outline.chars, linked, call, String.toList_append, List.append_assoc] at h
    obtain ⟨-, hrest⟩ := term_append_inj hl hv (endsTerm_link (by decide)) (endsTerm_link (by decide)) h
    cases op <;> simp [Comparison.text] at hrest
  have hbetween_isIn {v u w v' : Term Nat Nat} {cs : List (Term Nat Nat)} {t t' : List Char}
      (hv : v.WellFormed) (hv' : v'.WellFormed) : (Outline.between v u w).chars ++ t ≠ (Outline.isIn v' cs).chars ++ t' := by
    intro h
    simp only [Outline.chars, linked, call, List.append_assoc] at h
    obtain ⟨-, hrest⟩ := term_append_inj hv hv' (endsTerm_link (by decide)) (endsTerm_link (by decide)) h
    simp at hrest
  cases f with
  | compare l op x =>
    cases g with
    | compare l' op' x' => exact compare_append_inj hf hg hr hr' h
    | between v' l' u' => exact absurd h (hcompare_between hf.1 hg.1)
    | isIn v' cs' => exact absurd h (hcompare_isIn hf.1 hg.1)
    | _ => cases hleaf'
  | between v l u =>
    cases g with
    | compare l' op' x' => exact absurd h.symm (hcompare_between hg.1 hf.1)
    | between v' l' u' => exact between_append_inj hf hg hr hr' h
    | isIn v' cs' => exact absurd h (hbetween_isIn hf.1 hg.1)
    | _ => cases hleaf'
  | isIn v cs =>
    cases g with
    | compare l' op' x' => exact absurd h.symm (hcompare_isIn hg.1 hf.1)
    | between v' l' u' => exact absurd h.symm (hbetween_isIn hg.1 hf.1)
    | isIn v' cs' => exact isIn_append_inj hf hg h
    | _ => cases hleaf'
  | _ => cases hleaf

theorem function_append_inj {name name' : Predicate} {p p' : List (Step Nat)} {a a' : Option (Term Nat Nat)}
    (hf : (Outline.function name p a).WellFormed) (hg : (Outline.function name' p' a').WellFormed)
    (h : (Outline.function name p a).chars ++ r = (Outline.function name' p' a').chars ++ r') :
    Outline.function name p a = .function name' p' a' ∧ r = r' := by
  obtain ⟨hp, ha⟩ := hf
  obtain ⟨hp', ha'⟩ := hg
  cases a with
  | none =>
    cases a' with
    | none =>
      simp only [Outline.chars, call, inParentheses, List.append_assoc, List.cons_append, List.nil_append] at h
      obtain ⟨rfl, hpath⟩ := predicate_append_inj h
      obtain ⟨rfl, hr⟩ := stepChars_append_inj hp hp' endsCondition_close.endsTerm endsCondition_close.endsTerm hpath
      exact ⟨rfl, (List.cons.inj hr).2⟩
    | some y =>
      simp only [Outline.chars, call, inParentheses, linked, List.append_assoc, List.cons_append, List.nil_append] at h
      obtain ⟨-, hpath⟩ := predicate_append_inj h
      obtain ⟨-, hr⟩ := stepChars_append_inj hp hp' endsCondition_close.endsTerm (endsTerm_link (by decide)) hpath
      cases hr
  | some x =>
    cases a' with
    | none =>
      simp only [Outline.chars, call, inParentheses, linked, List.append_assoc, List.cons_append, List.nil_append] at h
      obtain ⟨-, hpath⟩ := predicate_append_inj h
      obtain ⟨-, hr⟩ := stepChars_append_inj hp hp' (endsTerm_link (by decide)) endsCondition_close.endsTerm hpath
      cases hr
    | some y =>
      simp only [Outline.chars, call, inParentheses, linked, List.append_assoc, List.cons_append, List.nil_append] at h
      obtain ⟨rfl, hpath⟩ := predicate_append_inj h
      obtain ⟨rfl, hargument⟩ := stepChars_append_inj hp hp' (endsTerm_link (by decide)) (endsTerm_link (by decide)) hpath
      obtain ⟨rfl, hr⟩ := term_append_inj (ha x rfl) (ha' y rfl) endsCondition_close.endsTerm
        endsCondition_close.endsTerm (List.append_cancel_left hargument)
      exact ⟨rfl, (List.cons.inj hr).2⟩

theorem form_of_chars (hf : f.WellFormed) (hg : g.WellFormed) (h : f.chars ++ r = g.chars ++ r') : f.form = g.form := by
  obtain ⟨c, t, hc, hform⟩ := chars_eq_cons f hf
  obtain ⟨c', t', hc', hform'⟩ := chars_eq_cons g hg
  rw [hc, hc'] at h
  rw [← hform, ← hform', (List.cons.inj h).1]

theorem between_append_connective {op op' : Connective} {t t' : List Char}
    (h : op.between ++ t = op'.between ++ t') : op = op' ∧ t = t' := by
  cases op <;> cases op' <;> simp_all [Connective.between, Connective.text]

mutual

/-- A text begins with one condition at most, and tells where that ends. -/
theorem chars_append_inj : ∀ (f g : Outline Nat Nat) {r r' : List Char}, f.WellFormed → g.WellFormed → EndsCondition r →
    EndsCondition r' → f.chars ++ r = g.chars ++ r' → f = g ∧ r = r'
  | .compare l op x, g, r, r', hf, hg, hr, hr', h =>
    leaf_append_inj hf hg rfl (form_of_chars hf hg h).symm hr.endsTerm hr'.endsTerm h
  | .between v l u, g, r, r', hf, hg, hr, hr', h =>
    leaf_append_inj hf hg rfl (form_of_chars hf hg h).symm hr.endsTerm hr'.endsTerm h
  | .isIn v cs, g, r, r', hf, hg, hr, hr', h =>
    leaf_append_inj hf hg rfl (form_of_chars hf hg h).symm hr.endsTerm hr'.endsTerm h
  | .function name p a, g, r, r', hf, hg, hr, hr', h => by
    have hform := form_of_chars hf hg h
    cases g with
    | function name' p' a' => exact function_append_inj hf hg h
    | _ => cases hform
  | .not inner, g, r, r', hf, hg, hr, hr', h => by
    have hform := form_of_chars hf hg h
    cases g with
    | not inner' =>
      simp only [Outline.chars, call, inParentheses, List.append_assoc, List.cons_append, List.nil_append,
        List.append_cancel_left_eq, List.cons.injEq, true_and] at h
      obtain ⟨rfl, hrest⟩ := chars_append_inj inner inner' hf hg endsCondition_close endsCondition_close h
      exact ⟨rfl, (List.cons.inj hrest).2⟩
    | _ => cases hform
  | .logical op [], g, r, r', hf, hg, hr, hr', h => absurd hf.1 (by simp)
  | .logical op (p :: ps), g, r, r', hf, hg, hr, hr', h => by
    have hform := form_of_chars hf hg h
    cases g with
    | logical op' qs =>
      obtain ⟨hlen, hp, hps⟩ := hf
      cases qs with
      | nil => exact absurd hg.1 (by simp)
      | cons q qs =>
        obtain ⟨-, hq, hqs⟩ := hg
        rw [logical_chars, logical_chars, inParentheses, inParentheses] at h
        simp only [List.append_assoc, List.cons_append, List.nil_append, List.cons.injEq, true_and] at h
        obtain ⟨rfl, hrest⟩ := chars_append_inj p q hp hq endsCondition_close endsCondition_close h
        obtain ⟨rfl, hop, hr⟩ := furtherChars_of_connective ps qs hps hqs hr hr' (List.cons.inj hrest).2
        have hne : ps ≠ [] := by
          rintro rfl
          simp at hlen
        rw [hop hne]
        exact ⟨rfl, hr⟩
    | _ => cases hform

theorem furtherChars_of_connective : ∀ (ps qs : List (Outline Nat Nat)) {op op' : Connective} {r r' : List Char},
    Outline.AllWellFormed ps → Outline.AllWellFormed qs → EndsCondition r → EndsCondition r' →
    op.furtherChars ps ++ r = op'.furtherChars qs ++ r' → ps = qs ∧ (ps ≠ [] → op = op') ∧ r = r'
  | [], [], _, _, _, _, _, _, _, _, h => ⟨rfl, fun hne => absurd rfl hne, h⟩
  | [], q :: qs, op, op', r, r', _, _, hr, _, h => by
    have hnil : op.furtherChars [] = [] := rfl
    rw [hnil, List.nil_append] at h
    rw [h] at hr
    cases hr ' ' rfl
  | p :: ps, [], op, op', r, r', _, _, _, hr', h => by
    have hnil : op'.furtherChars [] = [] := rfl
    rw [hnil, List.nil_append] at h
    rw [← h] at hr'
    cases hr' ' ' rfl
  | p :: ps, q :: qs, op, op', r, r', hps, hqs, hr, hr', h => by
    rw [Connective.furtherChars, Connective.furtherChars, List.flatMap_cons, List.flatMap_cons, List.append_assoc,
      List.append_assoc, List.append_assoc, List.append_assoc] at h
    obtain ⟨rfl, hparts⟩ := between_append_connective h
    simp only [inParentheses, List.append_assoc, List.cons_append, List.nil_append, List.cons.injEq, true_and] at hparts
    obtain ⟨rfl, hrest⟩ := chars_append_inj p q hps.1 hqs.1 endsCondition_close endsCondition_close hparts
    have hfurther : op.furtherChars ps ++ r = op.furtherChars qs ++ r' := (List.cons.inj hrest).2
    obtain ⟨rfl, -, hr⟩ := furtherChars_of_connective ps qs hps.2 hqs.2 hr hr' hfurther
    exact ⟨rfl, fun _ => rfl, hr⟩

end

theorem chars_injective {f g : Outline Nat Nat} (hf : f.WellFormed) (hg : g.WellFormed) (h : f.chars = g.chars) :
    f = g := by
  have hnil : EndsCondition [] := by
    rintro _ ⟨⟩
  exact (chars_append_inj f g hf hg hnil hnil (by rw [List.append_nil, List.append_nil, h])).1

namespace Condition

variable {c c₁ c₂ : Condition} {options o₁ o₂ : MarshalOptions} {t t₁ t₂ : Tokens} {text : String}

/-- The text of a condition is that of an outline in whose tokens the condition is found again. -/
theorem outline_of_render (hc : c.WellFormed) (h : c.render.run { options } = (.ok text, t)) :
    ∃ f : Outline Nat Nat, f.WellFormed ∧ text.toList = f.chars ∧
      f.map t.nameAt? t.wireAt? = c.outline some options.wire? := by
  obtain ⟨hlead, tokens, -, f, hf, hmap⟩ := (Rendering.render_spells c).reachable .refl h .refl
  obtain rfl : t.options = options := (hlead.extends .new).options
  have houtline : f.map t.nameAt? t.wireAt? = c.outline some t.options.wire? := hmap _ Tokens.reads_wire?
  refine ⟨f, ?_, hf, houtline⟩
  rw [← Outline.wellFormed_map (f := t.nameAt?) (g := t.wireAt?), houtline]
  exact outline_wellFormed c hc

/-- Conditions with one text and the same names and values of its tokens are the same, but for connectives over a single
condition, and as far as the wire forms of their literals are `seen`. -/
theorem outline_eq_of_render {γ : Type} (seen : Wire → γ) (h₁ : c₁.WellFormed) (h₂ : c₂.WellFormed)
    (hr₁ : c₁.render.run { options := o₁ } = (.ok text, t₁)) (hr₂ : c₂.render.run { options := o₂ } = (.ok text, t₂))
    (hnames : ∀ token, Entries.get? token t₁.names = Entries.get? token t₂.names)
    (hvalues : ∀ token, (Entries.get? token t₁.values).map seen = (Entries.get? token t₂.values).map seen) :
    c₁.outline id (fun v => (o₁.wire? v).map seen) = c₂.outline id (fun v => (o₂.wire? v).map seen) := by
  obtain ⟨f, hf, htext₁, hmap₁⟩ := outline_of_render h₁ hr₁
  obtain ⟨g, hg, htext₂, hmap₂⟩ := outline_of_render h₂ hr₂
  obtain rfl := chars_injective hf hg (htext₁.symm.trans htext₂)
  have hsame : f.map t₁.nameAt? (fun k => (t₁.wireAt? k).map seen) =
      f.map t₂.nameAt? fun k => (t₂.wireAt? k).map seen := by
    have hn : t₁.nameAt? = t₂.nameAt? := funext fun k => hnames (Tokens.nameToken k)
    have hv : (fun k => (t₁.wireAt? k).map seen) = fun k => (t₂.wireAt? k).map seen :=
      funext fun k => hvalues (Tokens.valueToken k)
    rw [hn, hv]
  have hread (c : Condition) (o : MarshalOptions) (t : Tokens) (hmap : f.map t.nameAt? t.wireAt? = c.outline some o.wire?) :
      c.outline id (fun v => (o.wire? v).map seen) =
        (f.map t.nameAt? fun k => (t.wireAt? k).map seen).map (·.getD "") id := by
    have hseen := congrArg (Outline.map (·.getD "") (Option.map seen)) hmap
    rw [Outline.map_map, map_outline] at hseen
    rw [Outline.map_map]
    exact hseen.symm
  rw [hread c₁ o₁ t₁ hmap₁, hread c₂ o₂ t₂ hmap₂, hsame]

def isOpen : Condition := .comparePath (.field "state") .eq (.string "open")

def secondNote : Condition := .function .attributeExists ⟨[.name "notes", .index 2]⟩ none

def openText : String := "(#n0 = :v1) AND (NOT (attribute_exists(#n2[2])))"

def openTokens : Tokens where
  names := [("#n0", "state"), ("#n2", "notes")]
  values := [(":v1", .s "open")]
  nameTokens := [("state", "#n0"), ("notes", "#n2")]
  valueTokens := [("S:open", ":v1")]
  counter := 3

theorem open_outline_eq :
    (Condition.logical .and [.logical .or [isOpen], .not secondNote]).render.run {} = (.ok openText, openTokens) ∧
      (Condition.logical .and [isOpen, .not secondNote]).render.run {} = (.ok openText, openTokens) ∧
      (Condition.logical .and [.logical .or [isOpen], .not secondNote]).outline id
          (fun v => (MarshalOptions.wire? {} v).map id) =
        (Condition.logical .and [isOpen, .not secondNote]).outline id (fun v => (MarshalOptions.wire? {} v).map id) := by
  have hopen : isOpen.WellFormed := ⟨List.cons_ne_nil _ _, trivial⟩
  have hnote : secondNote.WellFormed := ⟨List.cons_ne_nil _ _, by simp⟩
  have hnested : (Condition.logical .and [.logical .or [isOpen], .not secondNote]).WellFormed :=
    ⟨List.cons_ne_nil _ _, ⟨List.cons_ne_nil _ _, hopen, trivial⟩, hnote, trivial⟩
  have hplain : (Condition.logical .and [isOpen, .not secondNote]).WellFormed :=
    ⟨List.cons_ne_nil _ _, hopen, hnote, trivial⟩
  refine ⟨rfl, rfl, ?_⟩
  exact outline_eq_of_render id hnested hplain rfl rfl (fun _ => rfl) fun _ => rfl

end Condition

end ItemMapper
