import ItemMapper.Proofs.Conjuncts
import ItemMapper.Proofs.ExactTokens
import ItemMapper.Proofs.ReadConditions

/-!
# Conditions in memory

The memory store answers a condition with its meaning or not at all, though it cuts the text without reading it. A text
is cut at the parts of an outermost AND, and inside parts that are no single condition: the first piece of such a part
begins with a parenthesis or with NOT, or has an OR in it, and is refused.
-/

namespace ItemMapper

open MemoryExpression

variable {u : Tokens} {issued : List String} {item : Option Item} {text x y : List Char} {r : Bool} {c : Char}
  {f : Outline Nat Nat}

theorem capital_notin_term {t : Term Nat Nat} : 'A' ∉ t.chars := fun h => absurd (termChars_subset h) (by decide)

theorem joint_eq : joint = ") AND (".toList := by
  delta joint
  rfl

theorem joint_notin_chars (hf : f.WellFormed) (hform : f.form = .leaf ∨ f.form = .function) : ¬ joint <:+: f.chars := by
  have hcapital (h : 'A' ∉ f.chars) : ¬ joint <:+: f.chars := fun hi => h (hi.subset (by decide))
  cases f with
  | compare l op t =>
    refine hcapital ?_
    rw [compare_chars]
    cases op <;> simp [Comparison.text, capital_notin_term]
  | between v l t =>
    rintro ⟨front, back, h⟩
    have hchars : (Outline.between v l t).chars = (v.chars ++ " BETWEEN ".toList ++ l.chars ++ [' ']) ++
        'A' :: ("ND ".toList ++ t.chars) := by
      simp [Outline.chars, linked]
    have hjoint : front ++ joint ++ back = (front ++ ") ".toList) ++ 'A' :: ("ND (".toList ++ back) := by
      simp [joint_eq]
    have hfront : 'A' ∉ v.chars ++ " BETWEEN ".toList ++ l.chars ++ [' '] := by simp [capital_notin_term]
    have hback : 'A' ∉ "ND ".toList ++ t.chars := by simp [capital_notin_term]
    rw [hjoint, hchars, eq_comm, List.append_cons_inj_of_notMem hfront hback] at h
    obtain ⟨c, rest, hc, hleaf⟩ := term_eq_cons hf.2.2
    have hparenthesis := h.2.2
    rw [hc] at hparenthesis
    simp at hparenthesis
    rw [hparenthesis.1] at hleaf
    cases hleaf
  | isIn v cs =>
    refine hcapital ?_
    obtain ⟨t, rest, rfl⟩ := List.exists_cons_of_ne_nil hf.2.1
    simp [Outline.chars, call, inParentheses, intercalate_cons_flatMap, capital_notin_term]
  | function name p a =>
    have hpath : 'A' ∉ Step.chars p := fun h => absurd (stepChars_subset h) (by decide)
    refine hcapital ?_
    cases a <;> cases name <;> simp [Outline.chars, call, inParentheses, linked, Predicate.text, hpath, capital_notin_term]
  | logical op parts => rcases hform with hform | hform <;> cases hform
  | not inner => rcases hform with hform | hform <;> cases hform

theorem conjunct_of_compound (hu : Tokens.Numbered issued u.names u.values) (hform : Form.ofChar c ≠ .function)
    (hblank : Text.isBlank c = false) (hc : c ∉ tokenAlphabet) : u.bindings.conjunct item (c :: text) ≠ .ok r := by
  intro h
  rw [conjunct_of_head hform] at h
  obtain ⟨path, operator, value, hwords, ⟨name, hname⟩, -⟩ := of_comparison h
  obtain ⟨w, ws, hw⟩ := Text.words_cons (x := text) hblank
  rw [hw] at hwords
  cases hwords
  exact name_ne_ok hu List.mem_cons_self hc hname

theorem conjunct_of_arguments (hu : Tokens.Numbered issued u.names u.values)
    (hclose : ∀ function ∈ memoryFunctions, ∀ a ∈ arguments? function text, ')' ∈ a)
    (h : u.bindings.conjunct item text = .ok r) : u.bindings.comparison item text = .ok r := by
  have hname {token : List Char} {stored : Option Wire} (hmem : ')' ∈ token)
      (h : u.bindings.attributeOf item token = .ok stored) : False := by
    obtain ⟨name, hname, -⟩ := attributeOf_ok_iff.1 h
    exact name_ne_ok hu hmem (by decide) hname
  rw [Bindings.conjunct] at h
  split at h
  · rename_i path hpath
    obtain ⟨stored, hstored, -⟩ := Outcome.of_bind h
    exact (hname (hclose "attribute_exists" (by simp [memoryFunctions]) path hpath) hstored).elim
  · rename_i path _ hpath
    obtain ⟨stored, hstored, -⟩ := Outcome.of_bind h
    exact (hname (hclose "attribute_not_exists" (by simp [memoryFunctions]) path hpath) hstored).elim
  · rename_i arguments _ _ harguments
    have hmem : ')' ∈ arguments := hclose "begins_with" (by simp [memoryFunctions]) arguments harguments
    rw [Bindings.beginning] at h
    split at h
    · cases h
    · rename_i path front hsplit
      obtain ⟨stored, hstored, h⟩ := Outcome.of_bind h
      obtain ⟨w, hw, -⟩ := Outcome.of_bind h
      rw [Text.splitOnce?_eq_some hsplit] at hmem
      rcases List.mem_append.1 hmem with hmem | hmem
      · exact (hname hmem hstored).elim
      · have hfront : ')' ∈ front := by simpa using hmem
        exact absurd hw (value_ne_ok hu hfront (by decide))
  · exact h

theorem conjunct_or_ne_ok (hu : Tokens.Numbered issued u.names u.values) :
    u.bindings.conjunct item (x ++ ") OR (".toList ++ y) ≠ .ok r := by
  intro h
  have htext : x ++ ") OR (".toList ++ y = (x ++ [')']) ++ ' ' :: ("OR".toList ++ ' ' :: '(' :: y) := by simp
  have hclose (function : String) (hfunction : function ∈ memoryFunctions) (a : List Char)
      (ha : a ∈ arguments? function (x ++ ") OR (".toList ++ y)) : ')' ∈ a := by
    obtain ⟨rest, hrest, ha⟩ := Option.bind_eq_some_iff.1 ha
    obtain ⟨rest', hrest', ha⟩ := Option.bind_eq_some_iff.1 ha
    have hcall : x ++ ") OR (".toList ++ y = (function.toList ++ '(' :: a) ++ [')'] := by
      rw [Text.after?_eq_some_iff.1 hrest, Text.after?_eq_some_iff.1 hrest', Text.before?_eq_some_iff.1 ha]
      simp
    have hlast := congrArg List.dropLast hcall
    rw [htext, List.dropLast_append_of_ne_nil (List.cons_ne_nil _ _), List.dropLast_concat] at hlast
    have hmem : ')' ∈ function.toList ++ '(' :: a := by
      rw [← hlast]
      simp
    have hfree : ')' ∉ function.toList := by
      simp only [memoryFunctions, List.mem_cons, List.not_mem_nil, or_false] at hfunction
      rcases hfunction with rfl | rfl | rfl <;> decide
    simpa [hfree] using hmem
  obtain ⟨path, operator, value, hwords, ⟨name, hname⟩, w, hw⟩ := of_comparison (conjunct_of_arguments hu hclose h)
  obtain ⟨v, vs, hv⟩ := Text.words_cons (c := '(') (x := y) (by decide)
  have hor : Text.words "OR".toList = ["OR".toList] := by decide
  have hwhole : Text.words ((x ++ [')']) ++ ' ' :: ("OR".toList ++ ' ' :: '(' :: y)) =
      Text.words (x ++ [')']) ++ ("OR".toList :: ('(' :: v) :: vs) := by
    rw [Text.words_append (c := ' ') (by decide), Text.words_append (c := ' ') (by decide), hor, hv]
    rfl
  rw [htext, hwhole] at hwords
  -- one of the three words is OR, and the parenthesis comes behind it
  rcases hx : Text.words (x ++ [')']) with _ | ⟨a, _ | ⟨b, rest⟩⟩
  · rw [hx] at hwords
    cases hwords
    exact name_ne_ok hu (c := 'O') (by decide) (by decide) hname
  · rw [hx] at hwords
    cases hwords
    exact value_ne_ok hu List.mem_cons_self (by decide) hw
  · rw [hx] at hwords
    have hlen := congrArg List.length hwords
    simp at hlen
    omega

def juncture (op : Connective) : List Char := ')' :: op.between ++ ['(']

theorem juncture_and : juncture .and = joint := rfl

theorem logical_eq_inner {op : Connective} {p : Outline Nat Nat} {ps : List (Outline Nat Nat)} :
    (Outline.logical op (p :: ps)).chars =
      inParentheses (p.chars ++ ps.flatMap fun q => juncture op ++ q.chars) := by
  have hfurther {x : List Char} : x ++ [')'] ++ op.furtherChars ps =
      x ++ (ps.flatMap fun q => juncture op ++ q.chars) ++ [')'] := by
    induction ps generalizing x with
    | nil => simp [Connective.furtherChars]
    | cons q rest ih =>
      have hq := @ih (x ++ juncture op ++ q.chars)
      rw [List.flatMap_cons, Connective.furtherChars, List.flatMap_cons, ← Connective.furtherChars]
      simpa [juncture, inParentheses] using hq
  rw [logical_chars, inParentheses, inParentheses, List.cons_append, List.cons_append, List.cons_append, hfurther]

theorem conjuncts_of_head (h : c ≠ '(') : conjuncts (c :: text) = [c :: text] := by
  have hopen : Text.after? ['('] (c :: text) = none := if_neg fun he => h he.symm
  rw [conjuncts, hopen]
  rfl

theorem conjuncts_of_parentheses : conjuncts (inParentheses text) =
    if Text.contains joint (inParentheses text) then Text.splitAt joint text else [inParentheses text] := by
  have hinner : (Text.after? ['('] (inParentheses text)).bind (Text.before? [')']) = some text :=
    Text.before?_eq_some_iff.2 rfl
  rw [conjuncts, hinner]

theorem splitAt_parts {p : Outline Nat Nat} {ps : List (Outline Nat Nat)} :
    Text.splitAt joint (p.chars ++ ps.flatMap fun q => joint ++ q.chars) =
      (p :: ps).flatMap fun q => Text.splitAt joint q.chars := by
  have hcut (x y : List Char) : Text.splitAt joint (x ++ (joint ++ y)) = Text.splitAt joint x ++ Text.splitAt joint y :=
    Text.splitAt_append (by decide)
  induction ps generalizing p with
  | nil => simp
  | cons q rest ih =>
    rw [List.flatMap_cons, List.append_assoc, hcut, ih]
    simp only [List.flatMap_cons]

theorem Outline.parts_of_length {fs : List (Outline Nat Nat)} (h : 2 ≤ fs.length) : ∃ p q rest, fs = p :: q :: rest := by
  rcases fs with _ | ⟨p, _ | ⟨q, rest⟩⟩
  · simp at h
  · simp at h
  · exact ⟨p, q, rest, rfl⟩

theorem conjuncts_and {fs : List (Outline Nat Nat)} (h : 2 ≤ fs.length) :
    conjuncts (Outline.logical .and fs).chars = fs.flatMap fun f => Text.splitAt joint f.chars := by
  obtain ⟨p, q, rest, rfl⟩ := Outline.parts_of_length h
  have hjoint : Text.contains joint (inParentheses (p.chars ++ (q :: rest).flatMap fun q => joint ++ q.chars)) = true := by
    rw [Text.contains_iff (by decide)]
    refine ⟨'(' :: p.chars, q.chars ++ (rest.flatMap fun q => joint ++ q.chars) ++ [')'], ?_⟩
    simp [inParentheses]
  rw [logical_eq_inner, juncture_and, conjuncts_of_parentheses, if_pos hjoint, splitAt_parts]

theorem allHold_cons {b : Bool} {rest : List (List Char)} (h : u.bindings.conjunct item text = .ok b) :
    u.bindings.allHold item (text :: rest) = if b then u.bindings.allHold item rest else .ok false := by
  rw [Bindings.allHold, h]
  cases b <;> rfl

theorem of_allHold_cons {rest : List (List Char)} (h : u.bindings.allHold item (text :: rest) = .ok r) :
    ∃ b, u.bindings.conjunct item text = .ok b := by
  rw [Bindings.allHold] at h
  obtain ⟨b, hb, -⟩ := Outcome.of_bind h
  exact ⟨b, hb⟩

theorem allHold_singleton : u.bindings.allHold item [text] = u.bindings.conjunct item text := by
  rw [Bindings.allHold]
  cases u.bindings.conjunct item text with
  | error e => rfl
  | ok b => cases b <;> rfl

theorem compound_eq_cons (hf : f.WellFormed) (hform : f.form = .joined ∨ f.form = .negated) :
    ∃ c t, f.chars = c :: t ∧ (c = '(' ∨ c = 'N') := by
  cases f with
  | not inner => exact ⟨'N', _, rfl, .inr rfl⟩
  | logical op parts =>
    rcases parts with _ | ⟨p, ps⟩
    · exact absurd hf.1 (by simp)
    · exact ⟨'(', _, logical_eq_inner, .inl rfl⟩
  | _ => rcases hform with hform | hform <;> cases hform

/-- The cut of a compound condition begins with a piece that is refused. -/
theorem splitAt_compound (hu : Tokens.Numbered issued u.names u.values) (hf : f.WellFormed)
    (hform : f.form = .joined ∨ f.form = .negated) : ∃ piece pieces,
      Text.splitAt joint (f.chars ++ y) = piece :: pieces ∧ ∀ r, u.bindings.conjunct item piece ≠ .ok r := by
  obtain ⟨c, t, hc, hhead⟩ := compound_eq_cons hf hform
  have hclear : Text.Clear joint [c] (t ++ y) := by
    refine Text.Clear.of_not_mem ?_
    rcases hhead with rfl | rfl <;> decide
  obtain ⟨w, ws, hw⟩ := Text.splitAt_of_clear hclear
  refine ⟨c :: w, ws, by rw [hc]; exact hw, fun r => ?_⟩
  rcases hhead with rfl | rfl
  · exact conjunct_of_compound hu (by decide) (by decide) (by decide)
  · exact conjunct_of_compound hu (by decide) (by decide) (by decide)

theorem Outline.form_cases (f : Outline Nat Nat) :
    (f.form = .leaf ∨ f.form = .function) ∨ f.form = .joined ∨ f.form = .negated := by
  cases f <;> simp [Outline.form]

theorem allHold_or (hu : Tokens.Numbered issued u.names u.values) {fs : List (Outline Nat Nat)}
    (hf : (Outline.logical .or fs).WellFormed) :
    u.bindings.allHold item (conjuncts (Outline.logical .or fs).chars) ≠ .ok r := by
  obtain ⟨hlen, hfs⟩ := hf
  obtain ⟨p, q, rest, rfl⟩ := Outline.parts_of_length hlen
  intro h
  rw [logical_eq_inner, conjuncts_of_parentheses] at h
  split at h
  · rcases p.form_cases with hform | hform
    · -- the first piece goes on behind the first OR
      let z := q.chars ++ rest.flatMap fun q => juncture .or ++ q.chars
      have hinner : p.chars ++ ((q :: rest).flatMap fun q => juncture .or ++ q.chars) = p.chars ++ ") OR (".toList ++ z := by
        simp [juncture, Connective.between, Connective.text, z]
      have hother : ¬ joint <+: ')' :: (" OR (".toList ++ z) := by
        rintro ⟨_, h⟩
        simp [joint_eq] at h
      have hor : Text.Clear joint ") OR (".toList z := Text.Clear.cons hother (Text.Clear.of_not_mem (by decide))
      have hclear : Text.Clear joint (p.chars ++ ") OR (".toList) z :=
        Text.Clear.append (Text.Clear.of_head (by decide) (joint_notin_chars hfs.1 hform)) hor
      obtain ⟨w, ws, hw⟩ := Text.splitAt_of_clear hclear
      rw [hinner, hw] at h
      obtain ⟨b, hb⟩ := of_allHold_cons h
      exact conjunct_or_ne_ok hu hb
    · obtain ⟨piece, pieces, hsplit, hrefused⟩ := splitAt_compound hu hfs.1 hform
      rw [hsplit] at h
      obtain ⟨b, hb⟩ := of_allHold_cons h
      exact hrefused b hb
  · obtain ⟨b, hb⟩ := of_allHold_cons h
    exact conjunct_of_compound hu (by decide) (by decide) (by decide) hb

section Meaning

variable {options : MarshalOptions} {other : Condition → Bool} {d : Condition}

theorem eval_of_supported (hd : d.Collapsed) (h : (d.outline some options.wire?).supported? item = some r) :
    d.eval options item other = r := by
  have hlogical (op : Connective) (cs : List Condition) : d ≠ .logical op cs := by
    rintro rfl
    rw [Condition.outline, Condition.outlines_eq, Outline.joined_of_length (by rw [List.length_map]; exact hd.1)] at h
    cases h
  rw [supported?_outline hlogical] at h
  cases d with
  | logical op cs => exact absurd rfl (hlogical op cs)
  | not inner => cases h
  | _ => simp [Condition.eval, h]

theorem evalAll_of_allHold (hu : Tokens.Numbered issued u.names u.values) {fs : List (Outline Nat Nat)}
    {ds : List Condition} (hf : Outline.AllWellFormed fs) (hd : Condition.AllCollapsed ds)
    (hmap : fs.map (Outline.map u.nameAt? u.wireAt?) = ds.map (Condition.outline some options.wire?))
    (h : u.bindings.allHold item (fs.flatMap fun f => Text.splitAt joint f.chars) = .ok r) :
    Condition.evalAll options item other ds = r := by
  induction fs generalizing ds with
  | nil =>
    obtain rfl := List.map_eq_nil_iff.1 hmap.symm
    exact Except.ok.inj h
  | cons f fs ih =>
    obtain ⟨d, ds, rfl, hmapd, hmaps⟩ := List.map_eq_cons_iff.1 hmap.symm
    rw [List.flatMap_cons] at h
    rcases f.form_cases with hform | hform
    · rw [Text.splitAt_of_uncut (joint_notin_chars hf.1 hform), List.singleton_append] at h
      obtain ⟨b, hb⟩ := of_allHold_cons h
      have heval : d.eval options item other = b :=
        eval_of_supported hd.1 (by rw [hmapd]; exact supported_of_conjunct hu hf.1 hform hb)
      rw [allHold_cons hb] at h
      rw [Condition.evalAll, heval]
      cases b with
      | false => exact Except.ok.inj h
      | true => exact ih hf.2 hd.2 hmaps.symm h
    · obtain ⟨piece, pieces, hsplit, hrefused⟩ := splitAt_compound hu (y := []) hf.1 hform
      rw [List.append_nil] at hsplit
      rw [hsplit] at h
      obtain ⟨b, hb⟩ := of_allHold_cons h
      exact absurd hb (hrefused b)

/-- What the store answers is the meaning of the condition. -/
theorem eval_of_allHold (hu : Tokens.Numbered issued u.names u.values) (hf : f.WellFormed) (hd : d.Collapsed)
    (hmap : f.map u.nameAt? u.wireAt? = d.outline some options.wire?)
    (h : u.bindings.allHold item (conjuncts f.chars) = .ok r) : d.eval options item other = r := by
  have hsingle (hform : f.form = .leaf ∨ f.form = .function) : d.eval options item other = r := by
    obtain ⟨c, t, hc, hchar⟩ := chars_eq_cons f hf
    have hhead : c ≠ '(' := by
      rintro rfl
      rw [← hchar] at hform
      rcases hform with hform | hform <;> cases hform
    rw [hc, conjuncts_of_head hhead, allHold_singleton, ← hc] at h
    exact eval_of_supported hd (by rw [← hmap]; exact supported_of_conjunct hu hf hform h)
  cases f with
  | compare l op x => exact hsingle (.inl rfl)
  | between v l x => exact hsingle (.inl rfl)
  | isIn v cs => exact hsingle (.inl rfl)
  | function name p a => exact hsingle (.inr rfl)
  | not inner =>
    have hrefused : u.bindings.conjunct item (Outline.not inner).chars ≠ .ok r :=
      conjunct_of_compound hu (by decide) (by decide) (by decide)
    have hwhole : conjuncts (Outline.not inner).chars = [(Outline.not inner).chars] := conjuncts_of_head (by decide)
    rw [hwhole, allHold_singleton] at h
    exact absurd h hrefused
  | logical op fs =>
    cases op with
    | or => exact absurd h (allHold_or hu hf)
    | and =>
      cases d with
      | logical op ds =>
        rw [Condition.outline, Condition.outlines_eq, Outline.joined_of_length (by rw [List.length_map]; exact hd.1),
          Outline.map, Outline.mapAll_eq] at hmap
        obtain ⟨rfl, hmaps⟩ := Outline.logical.inj hmap
        rw [conjuncts_and hf.1] at h
        exact evalAll_of_allHold hu hf.2 hd.2 hmaps h
      | _ => cases hmap

theorem form_of_supported (h : ((f.map u.nameAt? u.wireAt?).supported? item).isSome = true) :
    f.form = .leaf ∨ f.form = .function := by
  cases f <;> first | exact .inl rfl | exact .inr rfl | cases h

theorem allHold_of_supported {fs : List (Outline Nat Nat)} (hf : Outline.AllWellFormed fs)
    (h : ∀ f ∈ fs, ((f.map u.nameAt? u.wireAt?).supported? item).isSome = true) :
    ∃ r, u.bindings.allHold item (fs.flatMap fun f => Text.splitAt joint f.chars) = .ok r := by
  induction fs with
  | nil => exact ⟨true, rfl⟩
  | cons f fs ih =>
    obtain ⟨hfirst, hrest⟩ := List.forall_mem_cons.1 h
    obtain ⟨b, hb⟩ := Option.isSome_iff_exists.1 hfirst
    rw [List.flatMap_cons, Text.splitAt_of_uncut (joint_notin_chars hf.1 (form_of_supported hfirst)),
      List.singleton_append, allHold_cons (conjunct_of_supported hb)]
    cases b with
    | false => exact ⟨false, rfl⟩
    | true => exact ih hf.2 hrest

theorem allHold_of_evaluable {g : Value → Wire} (hf : f.WellFormed) (hd : d.Evaluable)
    (hmap : f.map u.nameAt? u.wireAt? = d.outline some fun v => some (g v)) :
    ∃ r, u.bindings.allHold item (conjuncts f.chars) = .ok r := by
  cases hd with
  | single hd =>
    have hsome : ((f.map u.nameAt? u.wireAt?).supported? item).isSome = true := by
      rw [hmap]
      exact isSome_supported?_outline hd
    obtain ⟨b, hb⟩ := Option.isSome_iff_exists.1 hsome
    obtain ⟨c, t, hc, hchar⟩ := chars_eq_cons f hf
    have hhead : c ≠ '(' := by
      rintro rfl
      rcases form_of_supported hsome with hform | hform <;> rw [← hchar] at hform <;> cases hform
    refine ⟨b, ?_⟩
    rw [hc, conjuncts_of_head hhead, allHold_singleton, ← hc]
    exact conjunct_of_supported hb
  | all hlen hds =>
    rename_i ds
    cases f with
    | logical op fs =>
      rw [Condition.outline, Condition.outlines_eq, Outline.joined_of_length (by rw [List.length_map]; omega),
        Outline.map, Outline.mapAll_eq] at hmap
      obtain ⟨rfl, hmaps⟩ := Outline.logical.inj hmap
      rw [conjuncts_and hf.1]
      refine allHold_of_supported hf.2 fun f hmem => ?_
      have hmapped : f.map u.nameAt? u.wireAt? ∈ ds.map (Condition.outline some fun v => some (g v)) := by
        rw [← hmaps]
        exact List.mem_map_of_mem hmem
      obtain ⟨d, hd, he⟩ := List.mem_map.1 hmapped
      rw [← he]
      exact isSome_supported?_outline (hds d hd)
    | _ =>
      rw [Condition.outline, Condition.outlines_eq, Outline.joined_of_length (by rw [List.length_map]; omega)] at hmap
      cases hmap

end Meaning

namespace ConditionDocument

variable {schema : Schema} {doc : Value} {parent : Option String} {s s' : Session} {c : Condition}
  {options : MarshalOptions} {t t' u : Tokens} {text : String}

/-- The memory store answers the text of a condition that was read from a document with the meaning of the condition or
not at all. A supported condition, and several that must all hold, it does answer. -/
theorem holds_rendered (hread : (schema.readCondition doc parent).run s = (.ok (some c), s'))
    (ht : ({ options } : Tokens).Leads t) (hrender : c.render.run t = (.ok text, t')) (hlater : t'.Leads u)
    (item : Option Item) (other : Condition → Bool) :
    (∀ r, Bindings.holds ⟨u.names, u.values⟩ item (some text) = .ok r → c.eval options item other = r) ∧
      (c.collapse.Evaluable → ∃ r, Bindings.holds ⟨u.names, u.values⟩ item (some text) = .ok r) := by
  obtain ⟨hleads, tokens, -, f, htext, hmap⟩ := (Rendering.render_spells c).reachable ht hrender hlater
  obtain ⟨later, hu⟩ := hleads.indexed .new
  obtain rfl : u.options = options := (hleads.extends .new).options
  have houtline : f.map u.nameAt? u.wireAt? = c.outline some u.options.wire? := hmap _ Tokens.reads_wire?
  have hf : f.WellFormed := by
    rw [← Outline.wellFormed_map (f := u.nameAt?) (g := u.wireAt?), houtline]
    exact Condition.outline_wellFormed c (read_wellFormed doc hread)
  have hholds : Bindings.holds ⟨u.names, u.values⟩ item (some text) = u.bindings.allHold item (conjuncts f.chars) := by
    rw [Bindings.holds, htext]
    rfl
  rw [hholds]
  constructor
  · intro r h
    rw [← Condition.eval_collapse]
    exact eval_of_allHold hu.toNumbered hf (Condition.collapse_collapsed c) (by rw [Condition.outline_collapse, houtline]) h
  · intro hc
    have htotal : f.map u.nameAt? u.wireAt? = c.outline some fun v => some (u.options.wireD v) := hmap _ Tokens.reads_wireD
    exact allHold_of_evaluable hf hc (by rw [Condition.outline_collapse, htotal])

def uncounted : Value := .map [("state", .string "open"), ("count", .map [("$exists", .bool false)])]

def uncountedCondition : Condition :=
  .logical .and [.comparePath (.field "state") .eq (.string "open"), .function .attributeNotExists (.field "count") none]

def uncountedText : String := "(#n0 = :v1) AND (attribute_not_exists(#n2))"

def uncountedTokens : Tokens where
  names := [("#n0", "state"), ("#n2", "count")]
  values := [(":v1", .s "open")]
  nameTokens := [("state", "#n0"), ("count", "#n2")]
  valueTokens := [("S:open", ":v1")]
  counter := 3

def openItem : Item := [("id", .s "a"), ("state", .s "open")]

theorem uncounted_holds_rendered :
    (∃ s', (Mapper.counters.schema.readCondition uncounted none).run {} = (.ok (some uncountedCondition), s')) ∧
      uncountedCondition.render.run {} = (.ok uncountedText, uncountedTokens) ∧
      uncountedCondition.eval {} (some openItem) (fun _ => false) = true ∧
      ∃ r, Bindings.holds ⟨uncountedTokens.names, uncountedTokens.values⟩ (some openItem) (some uncountedText) = .ok r := by
  have hread : ∃ s', (Mapper.counters.schema.readCondition uncounted none).run {} = (.ok (some uncountedCondition), s') :=
    ⟨_, rfl⟩
  have hrender : uncountedCondition.render.run {} = (.ok uncountedText, uncountedTokens) := rfl
  have hsupported : uncountedCondition.collapse.Evaluable := by
    refine .all (by decide) fun c hc => ?_
    simp only [Condition.collapseAll, List.mem_cons, List.not_mem_nil, or_false] at hc
    rcases hc with rfl | rfl <;> rfl
  obtain ⟨s', hread'⟩ := hread
  obtain ⟨hsound, hanswer⟩ := holds_rendered hread' .refl hrender .refl (some openItem) fun _ => false
  exact ⟨⟨s', hread'⟩, hrender, hsound true (by decide +kernel), hanswer hsupported⟩

end ConditionDocument

end ItemMapper
