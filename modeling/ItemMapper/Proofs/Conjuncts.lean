import ItemMapper.Proofs.ConditionMeaning
import ItemMapper.Proofs.Outcomes
import ItemMapper.Proofs.TermTexts

/-!
# Single conjuncts

What the memory store makes of the text of one condition. The text of a supported condition has the condition's value.
Every other text is refused, since some token is looked up in it that the tables do not hold, or its words are not three.
-/

namespace ItemMapper

open MemoryExpression

def comparisonValue (item : Option Item) (name : String) (op : Comparison) (w : Wire) : Bool :=
  match item.bind (Entries.get? name) with
  | none => false
  | some stored => op.holds (stored.order? w)

def Outline.supported? (item : Option Item) : Outline (Option String) (Option Wire) → Option Bool
  | .compare (.path [.name (some name)]) op (.literal (some w)) => some (comparisonValue item name op w)
  | .function .attributeExists [.name (some name)] none => some (item.bind (Entries.get? name)).isSome
  | .function .attributeNotExists [.name (some name)] none => some (item.bind (Entries.get? name)).isNone
  | .function .beginsWith [.name (some name)] (some (.literal (some w))) =>
    some (((item.bind (Entries.get? name)).map fun stored => stored.beginsWith w).getD false)
  | _ => none

theorem Outline.of_supported? {item : Option Item} {d : Outline (Option String) (Option Wire)} {r : Bool}
    (h : d.supported? item = some r) :
    (∃ name op w, d = .compare (.path [.name (some name)]) op (.literal (some w)) ∧ comparisonValue item name op w = r) ∨
    (∃ name, d = .function .attributeExists [.name (some name)] none ∧ (item.bind (Entries.get? name)).isSome = r) ∨
    (∃ name, d = .function .attributeNotExists [.name (some name)] none ∧ (item.bind (Entries.get? name)).isNone = r) ∨
    ∃ name w, d = .function .beginsWith [.name (some name)] (some (.literal (some w))) ∧
      ((item.bind (Entries.get? name)).map fun stored => stored.beginsWith w).getD false = r := by
  unfold supported? at h
  split at h
  · exact .inl ⟨_, _, _, rfl, Option.some.inj h⟩
  · exact .inr (.inl ⟨_, rfl, Option.some.inj h⟩)
  · exact .inr (.inr (.inl ⟨_, rfl, Option.some.inj h⟩))
  · exact .inr (.inr (.inr ⟨_, _, rfl, Option.some.inj h⟩))
  · cases h

section Trees

variable {options : MarshalOptions} {item : Option Item} {c : Condition}

theorem supported?_outline (hc : ∀ op cs, c ≠ .logical op cs) :
    (c.outline some options.wire?).supported? item = c.supported? options item := by
  cases c with
  | compare l op r =>
    rcases l with ⟨_ | ⟨s | i, _ | ⟨e, rest⟩⟩⟩ | v | p <;> cases r <;> try rfl
    rename_i v
    simp only [Condition.outline, Operand.outline, DocumentPath.outline, PathStep.outline, List.map_cons, List.map_nil,
      Condition.supported?]
    cases options.wire? v <;> rfl
  | function name p a =>
    rcases p with ⟨_ | ⟨s | i, _ | ⟨e, rest⟩⟩⟩ <;> cases name <;> rcases a with _ | ⟨q | v | q⟩ <;> try rfl
    simp only [Condition.outline, Operand.outline, DocumentPath.outline, PathStep.outline, List.map_cons, List.map_nil,
      Option.map_some, Condition.supported?]
    cases options.wire? v <;> rfl
  | logical op cs => exact absurd rfl (hc op cs)
  | _ => rfl

theorem isSome_supported?_outline {g : Value → Wire} (h : c.isSupported = true) :
    ((c.outline some fun v => some (g v)).supported? item).isSome = true := by
  cases c with
  | compare l op r =>
    rcases l with ⟨_ | ⟨s | i, _ | ⟨e, rest⟩⟩⟩ | v | p <;> cases r <;> first | rfl | cases h
  | function name p a =>
    rcases p with ⟨_ | ⟨s | i, _ | ⟨e, rest⟩⟩⟩ <;> cases name <;> rcases a with _ | ⟨q | v | q⟩ <;> first | rfl | cases h
  | _ => cases h

end Trees

section Texts

variable {u : Tokens} {issued : List String} {item : Option Item} {text : List Char} {c : Char} {t : List Char}

theorem verdict?_text {op : Comparison} {order : Option Ordering} :
    verdict? op.text.toList order = some (op.holds order) := by
  cases op <;> rfl

theorem startsWith_eq {stored front : Wire} : startsWith stored front = stored.beginsWith front := by
  cases stored <;> cases front <;> try rfl
  rename_i text front
  rw [startsWith, Wire.beginsWith, Bool.eq_iff_iff, Text.after?_isSome_iff, List.isPrefixOf_iff_prefix]

theorem attributeOf_ok_iff {token : List Char} {stored : Option Wire} : u.bindings.attributeOf item token = .ok stored ↔
    ∃ name, u.bindings.name token = .ok name ∧ item.bind (Entries.get? name) = stored := by
  rw [Bindings.attributeOf]
  cases u.bindings.name token with
  | error e => simp [bind, Except.bind]
  | ok name => simp [bind, Except.bind, pure, Except.pure]

theorem comparison_ok {path value : List Char} {op : Comparison} {name : String} {w : Wire}
    (hwords : Text.words text = [path, op.text.toList, value]) (hname : u.bindings.name path = .ok name)
    (hvalue : u.bindings.value value = .ok w) :
    u.bindings.comparison item text = .ok (comparisonValue item name op w) := by
  have hpath : u.bindings.attributeOf item path = .ok (item.bind (Entries.get? name)) :=
    attributeOf_ok_iff.2 ⟨name, hname, rfl⟩
  rw [Bindings.comparison, hwords, comparisonValue]
  simp only [hvalue, hpath, bind, Except.bind, verdict?_text]
  cases item.bind (Entries.get? name) <;> rfl

theorem of_comparison {r : Bool} (h : u.bindings.comparison item text = .ok r) : ∃ path operator value,
    Text.words text = [path, operator, value] ∧ (∃ name, u.bindings.name path = .ok name) ∧
      ∃ w, u.bindings.value value = .ok w := by
  rw [Bindings.comparison] at h
  split at h
  · rename_i path operator value hwords
    obtain ⟨w, hw, h⟩ := Outcome.of_bind h
    obtain ⟨stored, hstored, -⟩ := Outcome.of_bind h
    obtain ⟨name, hname, -⟩ := attributeOf_ok_iff.1 hstored
    exact ⟨path, operator, value, hwords, ⟨name, hname⟩, w, hw⟩
  · cases h

theorem arguments?_call {function : String} {arguments : List Char} :
    arguments? function (call function arguments) = some arguments := by
  rw [arguments?, call, inParentheses, Text.after?_append, Option.bind_eq_bind, Option.bind_some]
  exact Text.before?_eq_some_iff.2 rfl

def memoryFunctions : List String := ["attribute_exists", "attribute_not_exists", "begins_with"]

theorem arguments?_of_head {function : String} (hf : function ∈ memoryFunctions) (h : Form.ofChar c ≠ .function) :
    arguments? function (c :: t) = none := by
  have hne : c ≠ 'a' ∧ c ≠ 'b' := by
    constructor <;> rintro rfl <;> exact h rfl
  have ha : ¬ 'a' = c := fun he => hne.1 he.symm
  have hb : ¬ 'b' = c := fun he => hne.2 he.symm
  simp only [memoryFunctions, List.mem_cons, List.not_mem_nil, or_false] at hf
  rcases hf with rfl | rfl | rfl <;> simp [arguments?, Text.after?, ha, hb]

theorem conjunct_of_arguments? (h : ∀ function ∈ memoryFunctions, arguments? function text = none) :
    u.bindings.conjunct item text = u.bindings.comparison item text := by
  rw [Bindings.conjunct, h _ (by simp [memoryFunctions]), h _ (by simp [memoryFunctions]), h _ (by simp [memoryFunctions])]

theorem conjunct_of_head (h : Form.ofChar c ≠ .function) :
    u.bindings.conjunct item (c :: t) = u.bindings.comparison item (c :: t) :=
  conjunct_of_arguments? fun _ hf => arguments?_of_head hf h

theorem conjunct_exists (arguments : List Char) : u.bindings.conjunct item (call "attribute_exists" arguments) =
    (u.bindings.attributeOf item arguments).map Option.isSome := by
  simp only [Bindings.conjunct, arguments?_call]
  cases u.bindings.attributeOf item arguments <;> rfl

theorem conjunct_notExists (arguments : List Char) : u.bindings.conjunct item (call "attribute_not_exists" arguments) =
    (u.bindings.attributeOf item arguments).map Option.isNone := by
  have hexists : arguments? "attribute_exists" (call "attribute_not_exists" arguments) = none := by
    simp [arguments?, call, Text.after?]
  simp only [Bindings.conjunct, arguments?_call, hexists]
  cases u.bindings.attributeOf item arguments <;> rfl

theorem conjunct_beginsWith (arguments : List Char) : u.bindings.conjunct item (call "begins_with" arguments) =
    u.bindings.beginning item (call "begins_with" arguments) arguments := by
  have hexists : arguments? "attribute_exists" (call "begins_with" arguments) = none := by
    simp [arguments?, call, Text.after?]
  have hnotexists : arguments? "attribute_not_exists" (call "begins_with" arguments) = none := by
    simp [arguments?, call, Text.after?]
  rw [Bindings.conjunct, arguments?_call, hexists, hnotexists]

theorem conjunct_other {function : String} (hf : function = "attribute_type" ∨ function = "contains")
    (arguments : List Char) : u.bindings.conjunct item (call function arguments) =
      u.bindings.comparison item (call function arguments) := by
  refine conjunct_of_arguments? fun other hother => ?_
  simp only [memoryFunctions, List.mem_cons, List.not_mem_nil, or_false] at hother
  rcases hf with rfl | rfl <;> rcases hother with rfl | rfl | rfl <;> simp [arguments?, call, Text.after?]

theorem compare_chars {l x : Term Nat Nat} {op : Comparison} :
    (Outline.compare l op x).chars = l.chars ++ ' ' :: (op.text.toList ++ ' ' :: x.chars) := by
  simp [Outline.chars, linked]

theorem words_compare {l x : Term Nat Nat} {op : Comparison} (h : (Outline.compare l op x).WellFormed) :
    Text.words (Outline.compare l op x).chars = [l.chars, op.text.toList, x.chars] := by
  have hop : Text.words op.text.toList = [op.text.toList] := by cases op <;> rfl
  rw [compare_chars, Text.words_append (by decide), Text.words_append (by decide), words_termChars h.1, hop,
    words_termChars h.2]
  rfl

theorem words_between {v l x : Term Nat Nat} (h : (Outline.between v l x).WellFormed) :
    (Text.words (Outline.between v l x).chars).length = 5 := by
  have hchars : (Outline.between v l x).chars =
      v.chars ++ ' ' :: ("BETWEEN".toList ++ ' ' :: (l.chars ++ ' ' :: ("AND".toList ++ ' ' :: x.chars))) := by
    simp [Outline.chars, linked]
  have hbetween : Text.words "BETWEEN".toList = ["BETWEEN".toList] := by decide
  have hand : Text.words "AND".toList = ["AND".toList] := by decide
  rw [hchars, Text.words_append (by decide), Text.words_append (by decide), Text.words_append (by decide),
    Text.words_append (by decide), words_termChars h.1, words_termChars h.2.1, words_termChars h.2.2, hbetween, hand]
  rfl

theorem words_isIn {v : Term Nat Nat} {cs : List (Term Nat Nat)} (h : (Outline.isIn v cs).WellFormed) :
    ∃ w ws, Text.words (Outline.isIn v cs).chars = v.chars :: "IN".toList :: ('(' :: w) :: ws := by
  have hchars : (Outline.isIn v cs).chars =
      v.chars ++ ' ' :: ("IN".toList ++ ' ' :: '(' :: (", ".toList.intercalate (cs.map Term.chars) ++ [')'])) := by
    simp [Outline.chars, call, inParentheses]
  have hin : Text.words "IN".toList = ["IN".toList] := by decide
  obtain ⟨w, ws, hw⟩ := Text.words_cons (c := '(') (x := ", ".toList.intercalate (cs.map Term.chars) ++ [')']) (by decide)
  refine ⟨w, ws, ?_⟩
  rw [hchars, Text.words_append (by decide), Text.words_append (by decide), words_termChars h.1, hin, hw]
  rfl

theorem predicate_no_blank {name : Predicate} : ∀ c ∈ name.text.toList, Text.isBlank c = false := by
  refine Text.free_of_any ?_
  cases name <;> decide

theorem words_function {name : Predicate} {p : List (Step Nat)} {a : Option (Term Nat Nat)} :
    (Text.words (Outline.function name p a).chars).length ≤ 2 := by
  have hpath : ∀ c ∈ Step.chars p, Text.isBlank c = false := fun _ hc => not_blank_of_term (stepChars_subset hc)
  have hopen : Text.isBlank '(' = false := by decide
  have hclose : Text.isBlank ')' = false := by decide
  have hcomma : Text.isBlank ',' = false := by decide
  cases a with
  | none =>
    have hall : ∀ c ∈ (Outline.function name p none).chars, Text.isBlank c = false := by
      simp only [Outline.chars, call, inParentheses, List.mem_append, List.mem_cons, List.not_mem_nil, or_false]
      rintro c (hc | (rfl | hc) | rfl)
      exacts [predicate_no_blank c hc, hopen, hpath c hc, hclose]
    rw [Text.words_of_no_blank (by simp [Outline.chars, call, inParentheses]) hall]
    exact Nat.le_succ 1
  | some x =>
    have hchars : (Outline.function name p (some x)).chars =
        (name.text.toList ++ '(' :: (Step.chars p ++ [','])) ++ ' ' :: (x.chars ++ [')']) := by
      simp [Outline.chars, call, inParentheses, linked]
    have hfirst : ∀ c ∈ name.text.toList ++ '(' :: (Step.chars p ++ [',']), Text.isBlank c = false := by
      simp only [List.mem_append, List.mem_cons, List.not_mem_nil, or_false]
      rintro c (hc | rfl | hc | rfl)
      exacts [predicate_no_blank c hc, hopen, hpath c hc, hcomma]
    have hsecond : ∀ c ∈ x.chars ++ [')'], Text.isBlank c = false := by
      simp only [List.mem_append, List.mem_cons, List.not_mem_nil, or_false]
      rintro c (hc | rfl)
      exacts [not_blank_of_term (termChars_subset hc), hclose]
    rw [hchars, Text.words_append (by decide), Text.words_of_no_blank (by simp) hfirst,
      Text.words_of_no_blank (by simp) hsecond]
    exact Nat.le_refl 2

end Texts

section Values

variable {u : Tokens} {issued : List String} {item : Option Item} {text : List Char} {name : String} {w : Wire} {r : Bool}
  {j k : Nat}

theorem conjunct_compare_eq {l x : Term Nat Nat} {op : Comparison} (h : (Outline.compare l op x).WellFormed) :
    u.bindings.conjunct item (Outline.compare l op x).chars = u.bindings.comparison item (Outline.compare l op x).chars := by
  obtain ⟨c, t, hc, hform⟩ := chars_eq_cons _ h
  have hhead : Form.ofChar c ≠ .function := by
    rw [hform]
    exact Form.noConfusion
  rw [hc, conjunct_of_head hhead]

theorem conjunct_compare {op : Comparison} (hname : u.nameAt? k = some name) (hw : u.wireAt? j = some w) :
    u.bindings.conjunct item (Outline.compare (.path [.name k]) op (.literal j)).chars =
      .ok (comparisonValue item name op w) := by
  have hwf : (Outline.compare (.path [.name k]) op (.literal j) : Outline Nat Nat).WellFormed :=
    ⟨List.cons_ne_nil _ _, trivial⟩
  have hpath : u.bindings.name (Term.path [.name k]).chars = .ok name := by
    rw [nameTerm_chars]
    exact name_nameChars hname
  rw [conjunct_compare_eq hwf]
  exact comparison_ok (words_compare hwf) hpath (value_valueChars hw)

theorem splitOnce?_arguments {p : List (Step Nat)} {x : List Char} :
    Text.splitOnce? ", ".toList (linked ", " (Step.chars p) x) = some (Step.chars p, x) := by
  have hclear : Text.Clear ", ".toList (Step.chars p) (", ".toList ++ x) :=
    Text.Clear.of_not_mem fun hc => comma_notin_term (stepChars_subset hc)
  rw [linked, List.append_assoc]
  exact Text.splitOnce?_of_clear hclear (by decide)

theorem beginning_ok {p : List (Step Nat)} {x : List Char} (hname : u.bindings.name (Step.chars p) = .ok name)
    (hw : u.bindings.value x = .ok w) : u.bindings.beginning item text (linked ", " (Step.chars p) x) =
      .ok (((item.bind (Entries.get? name)).map fun stored => stored.beginsWith w).getD false) := by
  have hpath : u.bindings.attributeOf item (Step.chars p) = .ok (item.bind (Entries.get? name)) :=
    attributeOf_ok_iff.2 ⟨name, hname, rfl⟩
  rw [Bindings.beginning, splitOnce?_arguments]
  simp only [hpath, hw, bind, Except.bind, startsWith_eq]
  rfl

theorem of_beginning {p : List (Step Nat)} {x : List Char}
    (h : u.bindings.beginning item text (linked ", " (Step.chars p) x) = .ok r) :
    (∃ name, u.bindings.name (Step.chars p) = .ok name) ∧ ∃ w, u.bindings.value x = .ok w := by
  rw [Bindings.beginning, splitOnce?_arguments] at h
  obtain ⟨stored, hstored, h⟩ := Outcome.of_bind h
  obtain ⟨w, hw, -⟩ := Outcome.of_bind h
  obtain ⟨name, hname, -⟩ := attributeOf_ok_iff.1 hstored
  exact ⟨⟨name, hname⟩, w, hw⟩

theorem nameStep_chars : Step.chars [.name k] = nameChars k := nameTerm_chars

/-- A condition that is supported once its tokens are looked up has its value by its text. -/
theorem conjunct_of_supported {f : Outline Nat Nat} (h : (f.map u.nameAt? u.wireAt?).supported? item = some r) :
    u.bindings.conjunct item f.chars = .ok r := by
  have hfound {k : Nat} {name : String} (hname : u.nameAt? k = some name) :
      u.bindings.name (Step.chars [.name k]) = .ok name := by
    rw [nameStep_chars]
    exact name_nameChars hname
  have hattribute {k : Nat} {name : String} (hname : u.nameAt? k = some name) :
      u.bindings.attributeOf item (Step.chars [.name k]) = .ok (item.bind (Entries.get? name)) :=
    attributeOf_ok_iff.2 ⟨name, hfound hname, rfl⟩
  rcases Outline.of_supported? h with ⟨name, op, w, hd, hr⟩ | ⟨name, hd, hr⟩ | ⟨name, hd, hr⟩ | ⟨name, w, hd, hr⟩
  · cases f with
    | compare l op' x =>
      obtain ⟨hl, rfl, hx⟩ := Outline.compare.inj hd
      obtain ⟨k, rfl, hk⟩ := Term.of_map_name hl
      obtain ⟨j, rfl, hj⟩ := Term.of_map_literal hx
      rw [conjunct_compare hk hj, hr]
    | _ => cases hd
  · cases f with
    | function predicate p a =>
      obtain ⟨rfl, hp, ha⟩ := Outline.function.inj hd
      obtain ⟨k, rfl, hk⟩ := Step.of_map_name hp
      obtain rfl := Option.map_eq_none_iff.1 ha
      rw [Outline.chars, Predicate.text, conjunct_exists, hattribute hk, ← hr]
      rfl
    | _ => cases hd
  · cases f with
    | function predicate p a =>
      obtain ⟨rfl, hp, ha⟩ := Outline.function.inj hd
      obtain ⟨k, rfl, hk⟩ := Step.of_map_name hp
      obtain rfl := Option.map_eq_none_iff.1 ha
      rw [Outline.chars, Predicate.text, conjunct_notExists, hattribute hk, ← hr]
      rfl
    | _ => cases hd
  · cases f with
    | function predicate p a =>
      obtain ⟨rfl, hp, ha⟩ := Outline.function.inj hd
      obtain ⟨k, rfl, hk⟩ := Step.of_map_name hp
      obtain ⟨x, rfl, hx⟩ := Option.map_eq_some_iff.1 ha
      obtain ⟨j, rfl, hj⟩ := Term.of_map_literal hx
      rw [Outline.chars, Predicate.text, conjunct_beginsWith, Term.chars, beginning_ok (hfound hk) (value_valueChars hj), hr]
    | _ => cases hd

/-- What is between the parentheses of a function. -/
def argumentChars (p : List (Step Nat)) : Option (Term Nat Nat) → List Char
  | none => Step.chars p
  | some x => linked ", " (Step.chars p) x.chars

theorem function_chars {predicate : Predicate} {p : List (Step Nat)} {a : Option (Term Nat Nat)} :
    (Outline.function predicate p a).chars = call predicate.text (argumentChars p a) := by
  cases a <;> rfl

variable (hu : Tokens.Numbered issued u.names u.values)

include hu

theorem comparison_ne_ok {path operator value : List Char} (hwords : Text.words text = [path, operator, value])
    {c : Char} (hc : c ∉ tokenAlphabet) (hmem : c ∈ path ∨ c ∈ value) : u.bindings.comparison item text ≠ .ok r := by
  intro h
  obtain ⟨path', operator', value', hwords', ⟨name, hname⟩, w, hw⟩ := of_comparison h
  rw [hwords] at hwords'
  cases hwords'
  rcases hmem with hmem | hmem
  · exact name_ne_ok hu hmem hc hname
  · exact value_ne_ok hu hmem hc hw

theorem path_of_attributeOf {p : List (Step Nat)} {stored : Option Wire} (hp : p ≠ [])
    (h : u.bindings.attributeOf item (Step.chars p) = .ok stored) : ∃ k name, p = [.name k] ∧ u.nameAt? k = some name := by
  obtain ⟨name, hname, -⟩ := attributeOf_ok_iff.1 h
  obtain ⟨k, hk, hat⟩ := path_of_name hu hp hname
  exact ⟨k, name, hk, hat⟩

theorem of_presence {p : List (Step Nat)} {a : Option (Term Nat Nat)} {present : Option Wire → Bool} (hp : p ≠ [])
    (h : (u.bindings.attributeOf item (argumentChars p a)).map present = .ok r) :
    a = none ∧ ∃ k name, p = [.name k] ∧ u.nameAt? k = some name := by
  obtain ⟨stored, hstored, -⟩ := Outcome.of_map h
  cases a with
  | none => exact ⟨rfl, path_of_attributeOf hu hp hstored⟩
  | some x =>
    obtain ⟨name, hname, -⟩ := attributeOf_ok_iff.1 hstored
    have hcomma : ',' ∈ linked ", " (Step.chars p) x.chars := by simp [linked]
    exact absurd hname (name_ne_ok hu hcomma (by decide))

theorem of_beginsWith {p : List (Step Nat)} {a : Option (Term Nat Nat)} (hp : p ≠ [])
    (ha : ∀ x, a = some x → x.WellFormed) (h : u.bindings.beginning item text (argumentChars p a) = .ok r) :
    ∃ k name j w, p = [.name k] ∧ u.nameAt? k = some name ∧ a = some (.literal j) ∧ u.wireAt? j = some w := by
  cases a with
  | none =>
    have hnone : Text.splitOnce? ", ".toList (Step.chars p) = none :=
      Text.splitOnce?_eq_none (Text.Clear.of_not_mem fun hc => comma_notin_term (stepChars_subset hc)) (by decide)
    rw [argumentChars, Bindings.beginning, hnone] at h
    cases h
  | some x =>
    obtain ⟨⟨name, hname⟩, w, hw⟩ := of_beginning h
    obtain ⟨k, rfl, hk⟩ := path_of_name hu hp hname
    obtain ⟨j, rfl, hj⟩ := term_of_value hu (ha x rfl) hw
    exact ⟨k, name, j, w, rfl, hk, rfl, hj⟩

theorem isSome_of_function {predicate : Predicate} {p : List (Step Nat)} {a : Option (Term Nat Nat)}
    (hf : (Outline.function predicate p a).WellFormed)
    (h : u.bindings.conjunct item (Outline.function predicate p a).chars = .ok r) :
    ∃ r', ((Outline.function predicate p a).map u.nameAt? u.wireAt?).supported? item = some r' := by
  obtain ⟨hp, ha⟩ := hf
  have hcompared (hc : u.bindings.comparison item (Outline.function predicate p a).chars = .ok r) : False := by
    obtain ⟨path, operator, value, hwords, -⟩ := of_comparison hc
    have hlen : (Text.words (Outline.function predicate p a).chars).length ≤ 2 := words_function
    rw [hwords] at hlen
    exact absurd hlen (by simp)
  cases predicate with
  | attributeExists =>
    rw [function_chars, Predicate.text, conjunct_exists] at h
    obtain ⟨rfl, k, name, rfl, hk⟩ := of_presence hu hp h
    refine ⟨(item.bind (Entries.get? name)).isSome, ?_⟩
    simp only [Outline.map, List.map_cons, List.map_nil, Step.map, hk, Option.map_none, Outline.supported?]
  | attributeNotExists =>
    rw [function_chars, Predicate.text, conjunct_notExists] at h
    obtain ⟨rfl, k, name, rfl, hk⟩ := of_presence hu hp h
    refine ⟨(item.bind (Entries.get? name)).isNone, ?_⟩
    simp only [Outline.map, List.map_cons, List.map_nil, Step.map, hk, Option.map_none, Outline.supported?]
  | beginsWith =>
    rw [function_chars, Predicate.text, conjunct_beginsWith] at h
    obtain ⟨k, name, j, w, rfl, hk, rfl, hj⟩ := of_beginsWith hu hp ha h
    refine ⟨((item.bind (Entries.get? name)).map fun stored => stored.beginsWith w).getD false, ?_⟩
    simp only [Outline.map, List.map_cons, List.map_nil, Step.map, Term.map, hk, hj, Option.map_some, Outline.supported?]
  | attributeType =>
    rw [function_chars] at h hcompared
    exact (hcompared (by rwa [Predicate.text, conjunct_other (.inl rfl)] at h)).elim
  | contains =>
    rw [function_chars] at h hcompared
    exact (hcompared (by rwa [Predicate.text, conjunct_other (.inr rfl)] at h)).elim

theorem isSome_of_leaf {f : Outline Nat Nat} (hf : f.WellFormed) (hform : f.form = .leaf)
    (h : u.bindings.comparison item f.chars = .ok r) : ∃ r', (f.map u.nameAt? u.wireAt?).supported? item = some r' := by
  obtain ⟨path, operator, value, hwords, ⟨name, hname⟩, w, hw⟩ := of_comparison h
  cases f with
  | compare l op x =>
    rw [words_compare hf] at hwords
    cases hwords
    obtain ⟨k, rfl, hk⟩ := term_of_name hu hf.1 hname
    obtain ⟨j, rfl, hj⟩ := term_of_value hu hf.2 hw
    refine ⟨comparisonValue item name op w, ?_⟩
    simp only [Outline.map, Term.map, List.map_cons, List.map_nil, Step.map, hk, hj, Outline.supported?]
  | between v l x =>
    have hlen := words_between hf
    rw [hwords] at hlen
    cases hlen
  | isIn v cs =>
    obtain ⟨w, ws, hlist⟩ := words_isIn hf
    rw [hwords] at hlist
    cases hlist
    exact absurd h (comparison_ne_ok hu hwords (c := '(') (by decide) (.inr List.mem_cons_self))
  | _ => cases hform

theorem isSome_of_conjunct {f : Outline Nat Nat} (hf : f.WellFormed) (hform : f.form = .leaf ∨ f.form = .function)
    (h : u.bindings.conjunct item f.chars = .ok r) : ∃ r', (f.map u.nameAt? u.wireAt?).supported? item = some r' := by
  rcases hform with hleaf | hfunction
  · obtain ⟨c, t, hc, hform⟩ := chars_eq_cons f hf
    have hhead : Form.ofChar c ≠ .function := by
      rw [hform, hleaf]
      exact Form.noConfusion
    rw [hc, conjunct_of_head hhead, ← hc] at h
    exact isSome_of_leaf hu hf hleaf h
  · cases f with
    | function predicate p a => exact isSome_of_function hu hf h
    | _ => cases hfunction

/-- Whatever the store answers is the value of the condition with its tokens looked up. -/
theorem supported_of_conjunct {f : Outline Nat Nat} (hf : f.WellFormed) (hform : f.form = .leaf ∨ f.form = .function)
    (h : u.bindings.conjunct item f.chars = .ok r) : (f.map u.nameAt? u.wireAt?).supported? item = some r := by
  obtain ⟨r', hr'⟩ := isSome_of_conjunct hu hf hform h
  obtain rfl := Except.ok.inj ((conjunct_of_supported hr').symm.trans h)
  exact hr'

end Values

end ItemMapper
