import ItemMapper.Memory.Store
import ItemMapper.Proofs.Conjuncts
import ItemMapper.Proofs.ExactTokens
import ItemMapper.Proofs.UpdateMeaning
import ItemMapper.Proofs.UpdateTexts

/-!
# Updates in memory

The memory store carries out an update of plain actions as if all of them were applied at once, though it goes through
their texts one after the other. An update with any other action is refused, since the first piece of such an action has
something in it that no table leads from, and a refused update leaves the tables alone.
-/

namespace ItemMapper

open MemoryExpression

variable {u : Tokens} {issued : List String} {item item' : Item} {text x y : List Char}

theorem actions_of_no_comma (h : ',' ∉ x) : actions x = [x] :=
  Text.splitAt_of_uncut fun hi => h (hi.subset (by decide))

theorem actions_of_comma (h : ',' ∉ x) : actions (x ++ (", ".toList ++ y)) = x :: actions y := by
  have hcut : actions (x ++ (", ".toList ++ y)) = actions x ++ actions y := Text.splitAt_append (by decide)
  rw [hcut, actions_of_no_comma h, List.singleton_append]

theorem words_assignment (hx : Text.words x = [x]) :
    Text.words (x ++ ' ' :: '=' :: ' ' :: y) = x :: ['='] :: Text.words y := by
  have hequals : Text.words ['='] = [['=']] := by decide
  have hrest : '=' :: ' ' :: y = ['='] ++ ' ' :: y := rfl
  rw [Text.words_append (by decide), hrest, Text.words_append (by decide), hx, hequals]
  rfl

theorem words_sum {sign : Char} (hsign : sign = '+' ∨ sign = '-') (hx : Text.words x = [x]) (hy : Text.words y = [y]) :
    Text.words (x ++ ' ' :: sign :: ' ' :: y) = [x, [sign], y] := by
  have hword : Text.words [sign] = [[sign]] := by rcases hsign with rfl | rfl <;> decide
  have hrest : sign :: ' ' :: y = [sign] ++ ' ' :: y := rfl
  rw [Text.words_append (by decide), hrest, Text.words_append (by decide), hx, hword, hy]
  rfl

theorem words_stepChars {p : List (Step Nat)} (h : p ≠ []) : Text.words (Step.chars p) = [Step.chars p] :=
  words_termChars (x := .path p) h

theorem of_assign_words (h : u.bindings.assign item text = .ok item') :
    (∃ path value, Text.words text = [path, ['='], value] ∧ (∃ name, u.bindings.name path = .ok name) ∧
      ∃ w, u.bindings.value value = .ok w) ∨
    ∃ path sign value, Text.words text = [path, ['='], path, [sign], value] ∧ (∃ name, u.bindings.name path = .ok name) ∧
      ∃ w, u.bindings.value value = .ok w := by
  rw [Bindings.assign] at h
  split at h
  · rename_i path value hwords
    obtain ⟨name, hname, h⟩ := Outcome.of_bind h
    obtain ⟨w, hw, -⟩ := Outcome.of_bind h
    exact .inl ⟨path, value, hwords, ⟨name, hname⟩, w, hw⟩
  · rename_i path source sign value hwords
    split at h
    · rename_i hsource
      obtain ⟨rfl, -⟩ := hsource
      obtain ⟨name, hname, h⟩ := Outcome.of_bind h
      split at h
      · cases h
      · obtain ⟨w, hw, -⟩ := Outcome.of_bind h
        exact .inr ⟨source, sign, value, hwords, ⟨name, hname⟩, w, hw⟩
    · cases h
  · cases h

namespace UpdateOutline

inductive PlainSet {ν β : Type} : List (Step ν) × Source ν β → Prop
  | literal (x : ν) (v : β) : PlainSet ([.name x], .term (.literal v))
  | plus (x : ν) (v : β) : PlainSet ([.name x], .plus (.path [.name x]) (.literal v))
  | minus (x : ν) (v : β) : PlainSet ([.name x], .minus (.path [.name x]) (.literal v))

def lookUp (u : Tokens) (a : List (Step Nat) × Source Nat Nat) :
    List (Step (Option String)) × Source (Option String) (Option Wire) :=
  (a.1.map (Step.map u.nameAt?), a.2.map u.nameAt? u.wireAt?)

theorem PlainSet.lookUp {a : List (Step Nat) × Source Nat Nat} (h : PlainSet a) : PlainSet (lookUp u a) := by
  cases h with
  | literal k j => exact .literal (u.nameAt? k) (u.wireAt? j)
  | plus k j => exact .plus (u.nameAt? k) (u.wireAt? j)
  | minus k j => exact .minus (u.nameAt? k) (u.wireAt? j)

variable {p q : List (Step Nat)} {s t : Term Nat Nat} {src : Source Nat Nat} {a : List (Step Nat) × Source Nat Nat}
  {fs : List (List (Step Nat) × Source Nat Nat)}

theorem setChars_eq : setChars (p, src) = Step.chars p ++ ' ' :: '=' :: ' ' :: src.chars := by
  simp [setChars, linked]

theorem plus_chars : (Source.plus s t).chars = s.chars ++ ' ' :: '+' :: ' ' :: t.chars := by
  simp [Source.chars, linked]

theorem minus_chars : (Source.minus s t).chars = s.chars ++ ' ' :: '-' :: ' ' :: t.chars := by
  simp [Source.chars, linked]

theorem comma_notin_set (h : ',' ∉ src.chars) : ',' ∉ setChars (p, src) := by
  rw [setChars_eq]
  simpa using ⟨fun hc => comma_notin_term (stepChars_subset hc), h⟩

theorem comma_notin_chars : ',' ∉ s.chars := fun hc => comma_notin_term (termChars_subset hc)

section Refused

variable (hu : Tokens.Numbered issued u.names u.values)

include hu

theorem plain_of_sum {sign : Char} (hsign : sign = '+' ∨ sign = '-') (hp : p ≠ []) (hs : s.WellFormed) (ht : t.WellFormed)
    (h : u.bindings.assign item (Step.chars p ++ ' ' :: '=' :: ' ' :: (s.chars ++ ' ' :: sign :: ' ' :: t.chars)) =
      .ok item') :
    ∃ k j, p = [.name k] ∧ s = .path [.name k] ∧ t = .literal j := by
  have hwords := words_assignment (y := s.chars ++ ' ' :: sign :: ' ' :: t.chars) (words_stepChars hp)
  rw [words_sum hsign (words_termChars hs) (words_termChars ht)] at hwords
  rcases of_assign_words h with ⟨path, value, hshort, -⟩ | ⟨path, sign, value, hlong, ⟨name, hname⟩, w, hw⟩
  · rw [hwords] at hshort
    cases hshort
  · rw [hwords, List.cons.injEq, List.cons.injEq, List.cons.injEq, List.cons.injEq, List.cons.injEq] at hlong
    obtain ⟨rfl, -, hsource, -, rfl, -⟩ := hlong
    obtain ⟨k, rfl, -⟩ := path_of_name hu hp hname
    obtain ⟨j, rfl, -⟩ := term_of_value hu ht hw
    have hpath : (Term.path [.name k] : Term Nat Nat).WellFormed := List.cons_ne_nil _ _
    exact ⟨k, j, rfl, termChars_injective hs hpath hsource, rfl⟩

theorem call_refused {function : List Char} (hf : ∀ c ∈ function, Text.isBlank c = false) (hp : p ≠ [])
    (hx : ∀ c ∈ x, Text.isBlank c = false) :
    u.bindings.assign item (Step.chars p ++ ' ' :: '=' :: ' ' :: (function ++ '(' :: x)) ≠ .ok item' := by
  intro h
  have hcall : Text.words (function ++ '(' :: x) = [function ++ '(' :: x] := by
    refine Text.words_of_no_blank (by simp) fun c hc => ?_
    simp only [List.mem_append, List.mem_cons] at hc
    rcases hc with hc | rfl | hc
    exacts [hf c hc, by decide, hx c hc]
  have hwords := words_assignment (y := function ++ '(' :: x) (words_stepChars hp)
  rw [hcall] at hwords
  rcases of_assign_words h with ⟨path, value, hshort, -, w, hw⟩ | ⟨path, sign, value, hlong, -⟩
  · rw [hwords] at hshort
    cases hshort
    exact value_ne_ok hu (List.mem_append_right _ List.mem_cons_self) (by decide) hw
  · rw [hwords] at hlong
    exact absurd (congrArg List.length hlong) (by simp)

theorem exists_piece (hp : a.1 ≠ []) (hs : a.2.WellFormed) : ∃ piece pieces, actions (setChars a) = piece :: pieces ∧
    ∀ item item', u.bindings.assign item piece = .ok item' → PlainSet a := by
  obtain ⟨p, src⟩ := a
  have hpath : ',' ∉ Step.chars p := fun hc => comma_notin_term (stepChars_subset hc)
  have hterm {t : Term Nat Nat} : ∀ c ∈ t.chars, Text.isBlank c = false := fun _ hc =>
    not_blank_of_term (termChars_subset hc)
  cases src with
  | term t =>
    refine ⟨_, [], actions_of_no_comma (comma_notin_set comma_notin_chars), fun item item' h => ?_⟩
    have hwords := words_assignment (y := t.chars) (words_stepChars hp)
    rw [words_termChars hs] at hwords
    rw [setChars_eq, Source.chars] at h
    rcases of_assign_words h with ⟨path, value, hshort, ⟨name, hname⟩, w, hw⟩ | ⟨path, sign, value, hlong, -⟩
    · rw [hwords] at hshort
      cases hshort
      obtain ⟨k, rfl, -⟩ := path_of_name hu hp hname
      obtain ⟨j, rfl, -⟩ := term_of_value hu hs hw
      exact .literal k j
    · rw [hwords] at hlong
      exact absurd (congrArg List.length hlong) (by simp)
  | plus s t =>
    have hcomma : ',' ∉ (Source.plus s t).chars := by simp [plus_chars, comma_notin_chars]
    refine ⟨_, [], actions_of_no_comma (comma_notin_set hcomma), fun item item' h => ?_⟩
    rw [setChars_eq, plus_chars] at h
    obtain ⟨k, j, rfl, rfl, rfl⟩ := plain_of_sum hu (.inl rfl) hp hs.1 hs.2 h
    exact .plus k j
  | minus s t =>
    have hcomma : ',' ∉ (Source.minus s t).chars := by simp [minus_chars, comma_notin_chars]
    refine ⟨_, [], actions_of_no_comma (comma_notin_set hcomma), fun item item' h => ?_⟩
    rw [setChars_eq, minus_chars] at h
    obtain ⟨k, j, rfl, rfl, rfl⟩ := plain_of_sum hu (.inr rfl) hp hs.1 hs.2 h
    exact .minus k j
  | ifNotExists q t =>
    have hfirst : setChars (p, .ifNotExists q t) = (Step.chars p ++ ' ' :: '=' :: ' ' :: ("if_not_exists".toList ++
        '(' :: Step.chars q)) ++ (", ".toList ++ (t.chars ++ [')'])) := by
      simp [setChars, Source.chars, call, linked, inParentheses]
    have hcomma : ',' ∉ Step.chars p ++ ' ' :: '=' :: ' ' :: ("if_not_exists".toList ++ '(' :: Step.chars q) := by
      have hq : ',' ∉ Step.chars q := fun hc => comma_notin_term (stepChars_subset hc)
      simp [hpath, hq]
    rw [hfirst]
    refine ⟨_, _, actions_of_comma hcomma, fun item item' h => ?_⟩
    exact absurd h (call_refused hu (Text.free_of_any (by decide)) hp (hterm (t := .path q)))
  | listAppend s t =>
    have hfirst : setChars (p, .listAppend s t) = (Step.chars p ++ ' ' :: '=' :: ' ' :: ("list_append".toList ++
        '(' :: s.chars)) ++ (", ".toList ++ (t.chars ++ [')'])) := by
      simp [setChars, Source.chars, call, linked, inParentheses]
    have hcomma : ',' ∉ Step.chars p ++ ' ' :: '=' :: ' ' :: ("list_append".toList ++ '(' :: s.chars) := by
      simp [hpath, comma_notin_chars]
    rw [hfirst]
    refine ⟨_, _, actions_of_comma hcomma, fun item item' h => ?_⟩
    exact absurd h (call_refused hu (Text.free_of_any (by decide)) hp hterm)

theorem plain_of_assignments (hf : ∀ a ∈ fs, a.1 ≠ [] ∧ a.2.WellFormed)
    (h : ((fs.map setChars).flatMap actions).foldlM u.bindings.assign item = .ok item') : ∀ a ∈ fs, PlainSet a := by
  induction fs generalizing item with
  | nil => exact fun a ha => absurd ha List.not_mem_nil
  | cons a rest ih =>
    obtain ⟨⟨hp, hs⟩, hrest⟩ := List.forall_mem_cons.1 hf
    obtain ⟨piece, pieces, hpieces, hplain⟩ := exists_piece hu hp hs
    rw [List.map_cons, List.flatMap_cons, List.foldlM_append] at h
    obtain ⟨item₁, hfirst, h⟩ := Outcome.of_bind h
    rw [hpieces, List.foldlM_cons] at hfirst
    obtain ⟨item₂, hpiece, -⟩ := Outcome.of_bind hfirst
    exact List.forall_mem_cons.2 ⟨hplain item item₂ hpiece, ih hrest h⟩

theorem names_of_removals {ps : List (List (Step Nat))} (hne : ∀ p ∈ ps, p ≠ [])
    (h : ((ps.map Step.chars).flatMap actions).foldlM u.bindings.remove item = .ok item') :
    ∀ p ∈ ps, ∃ k, p = [.name k] := by
  induction ps generalizing item with
  | nil => exact fun p hp => absurd hp List.not_mem_nil
  | cons p rest ih =>
    obtain ⟨hp, hrest⟩ := List.forall_mem_cons.1 hne
    have hpath : ',' ∉ Step.chars p := fun hc => comma_notin_term (stepChars_subset hc)
    rw [List.map_cons, List.flatMap_cons, actions_of_no_comma hpath, List.singleton_append, List.foldlM_cons] at h
    obtain ⟨item₁, hfirst, h⟩ := Outcome.of_bind h
    rw [Bindings.remove, (IsAction.of_path hp).trimmed.trim_eq] at hfirst
    obtain ⟨name, hname, -⟩ := Outcome.of_bind hfirst
    obtain ⟨k, hk, -⟩ := path_of_name hu hp hname
    exact List.forall_mem_cons.2 ⟨⟨k, hk⟩, ih hrest h⟩

end Refused

end UpdateOutline

section Trees

variable {options : MarshalOptions} {update : Update} {a : Assignment} {f : UpdateOutline Nat Nat} {name : String} {w : Wire}
  {g : Value → Option Wire}

theorem DocumentPath.eq_field {p : DocumentPath} {z : Option String} (h : p.outline some = [.name z]) :
    ∃ name, p = .field name ∧ some name = z := by
  obtain ⟨elements⟩ := p
  obtain ⟨s, rfl, hs⟩ := List.map_eq_singleton_iff.1 h
  cases s with
  | name name => exact ⟨name, rfl, Step.name.inj hs⟩
  | index i => cases hs

theorem Operand.eq_path {o : Operand} {z : Option String} (h : o.outline some g = .path [.name z]) :
    ∃ name, o = .path (.field name) ∧ some name = z := by
  cases o with
  | path p =>
    obtain ⟨name, rfl, hz⟩ := DocumentPath.eq_field (Term.path.inj h)
    exact ⟨name, rfl, hz⟩
  | literal v => cases h
  | size p => cases h

theorem Operand.eq_literal {o : Operand} {z : Option Wire} (h : o.outline some g = .literal z) : ∃ v, o = .literal v := by
  cases o with
  | path p => cases h
  | literal v => exact ⟨v, rfl⟩
  | size p => cases h

theorem Assignment.plain_of_outline {x : List (Step (Option String)) × Source (Option String) (Option Wire)}
    (h : UpdateOutline.PlainSet x) (hx : (a.path.outline some, a.value.outline some g) = x) : a.Plain := by
  obtain ⟨path, value⟩ := a
  cases h with
  | literal z v =>
    obtain ⟨hp, hv⟩ := Prod.mk.inj hx
    obtain ⟨name, rfl, -⟩ := DocumentPath.eq_field hp
    cases value with
    | operand o =>
      obtain ⟨v, rfl⟩ := Operand.eq_literal (Source.term.inj hv)
      exact .literal name v
    | _ => cases hv
  | plus z v =>
    obtain ⟨hp, hv⟩ := Prod.mk.inj hx
    obtain ⟨name, rfl, rfl⟩ := DocumentPath.eq_field hp
    cases value with
    | plus l r =>
      obtain ⟨hl, hr⟩ := Source.plus.inj hv
      obtain ⟨source, rfl, hsource⟩ := Operand.eq_path hl
      obtain ⟨v, rfl⟩ := Operand.eq_literal hr
      obtain rfl := Option.some.inj hsource
      exact .plus source v
    | _ => cases hv
  | minus z v =>
    obtain ⟨hp, hv⟩ := Prod.mk.inj hx
    obtain ⟨name, rfl, rfl⟩ := DocumentPath.eq_field hp
    cases value with
    | minus l r =>
      obtain ⟨hl, hr⟩ := Source.minus.inj hv
      obtain ⟨source, rfl, hsource⟩ := Operand.eq_path hl
      obtain ⟨v, rfl⟩ := Operand.eq_literal hr
      obtain rfl := Option.some.inj hsource
      exact .minus source v
    | _ => cases hv

/-- An update that is carried out is plain. -/
theorem Update.plain_of_update {text : String} (hu : Tokens.Numbered issued u.names u.values) (hf : f.WellFormed)
    (htext : text.toList = f.chars) (hmap : f.map u.nameAt? u.wireAt? = update.outline some g)
    (h : u.bindings.update text item = .ok item') : update.Plain := by
  obtain ⟨hsets, hremoves, hadds, hdeletes⟩ := UpdateOutline.mk.inj hmap
  rw [UpdateOutline.update_chars hf htext] at h
  obtain ⟨assigned, hassigned, h⟩ := Outcome.of_bind h
  obtain ⟨removed, hremoved, h⟩ := Outcome.of_bind h
  have hplain := UpdateOutline.plain_of_assignments hu hf.sets hassigned
  have hnames := UpdateOutline.names_of_removals hu hf.removes hremoved
  have hmembers : f.adds = [] ∧ f.deletes = [] := by
    by_contra hnot
    rw [if_neg (by simpa using hnot)] at h
    cases h
  refine ⟨fun a ha => ?_, fun p hp => ?_, ?_, ?_⟩
  · have hmem := List.mem_map_of_mem (f := fun a : Assignment => (a.path.outline some, a.value.outline some g)) ha
    rw [← hsets] at hmem
    obtain ⟨b, hb, he⟩ := List.mem_map.1 hmem
    exact Assignment.plain_of_outline (hplain b hb).lookUp he.symm
  · have hmem := List.mem_map_of_mem (f := DocumentPath.outline (some : String → Option String)) hp
    rw [← hremoves] at hmem
    obtain ⟨q, hq, he⟩ := List.mem_map.1 hmem
    obtain ⟨k, rfl⟩ := hnames q hq
    obtain ⟨name, hname, -⟩ := DocumentPath.eq_field he.symm
    exact ⟨name, hname⟩
  · rw [hmembers.1] at hadds
    exact List.map_eq_nil_iff.1 hadds.symm
  · rw [hmembers.2] at hdeletes
    exact List.map_eq_nil_iff.1 hdeletes.symm

theorem assign_literal {path value : List Char} (hwords : Text.words text = [path, ['='], value])
    (hname : u.bindings.name path = .ok name) (hvalue : u.bindings.value value = .ok w) :
    u.bindings.assign item text = .ok (Entries.insert name w item) := by
  rw [Bindings.assign, hwords]
  simp only [hname, hvalue, bind, Except.bind, pure, Except.pure]

theorem assign_sum {path value : List Char} {sign : Char} {current sum : Wire}
    (hwords : Text.words text = [path, ['='], path, [sign], value]) (hsign : sign = '+' ∨ sign = '-')
    (hname : u.bindings.name path = .ok name) (hvalue : u.bindings.value value = .ok w)
    (hcurrent : Entries.get? name item = some current) (hsum : current.combine (sign == '-') w = .ok sum) :
    u.bindings.assign item text = .ok (Entries.insert name sum item) := by
  rw [Bindings.assign, hwords]
  simp only [hname, hvalue, hcurrent, hsum, bind, Except.bind, pure, Except.pure]
  exact if_pos ⟨trivial, hsign⟩

theorem words_valueChars {j : Nat} : Text.words (valueChars j) = [valueChars j] := words_termChars (x := .literal j) trivial

theorem name_nameStep {k : Nat} (hk : u.nameAt? k = some name) : u.bindings.name (Step.chars [.name k]) = .ok name := by
  rw [nameStep_chars]
  exact name_nameChars hk

theorem assign_own {k : Nat} {s t : Term Nat Nat} {sign : Char} {v : Value} (hd : u.Distinct) (hk : u.nameAt? k = some name)
    (hsign : sign = '+' ∨ sign = '-') (hs : s.map u.nameAt? u.wireAt? = .path [.name (some name)])
    (ht : t.map u.nameAt? u.wireAt? = .literal (options.wire? v))
    (hw : (do ((← Entries.get? name item).combine (sign == '-') (← options.wire? v)).toOption) = some w) :
    u.bindings.assign item (Step.chars [.name k] ++ ' ' :: '=' :: ' ' :: (s.chars ++ ' ' :: sign :: ' ' :: t.chars)) =
      .ok (Entries.insert name w item) := by
  obtain ⟨k', rfl, hk'⟩ := Term.of_map_name hs
  obtain rfl := hd.nameAt?_inj hk' hk
  obtain ⟨j, rfl, hj⟩ := Term.of_map_literal ht
  obtain ⟨current, hcurrent, hw⟩ := Option.bind_eq_some_iff.1 hw
  obtain ⟨literal, hliteral, hw⟩ := Option.bind_eq_some_iff.1 hw
  have hpath : Text.words (Step.chars [.name k']) = [Step.chars [.name k']] := words_stepChars (List.cons_ne_nil _ _)
  have hwords := words_assignment (y := Step.chars [.name k'] ++ ' ' :: sign :: ' ' :: valueChars j) hpath
  rw [words_sum hsign hpath words_valueChars] at hwords
  exact assign_sum hwords hsign (name_nameStep hk) (value_valueChars (hj.trans hliteral)) hcurrent
    (Outcome.of_toOption hw)

theorem assign_plain (hd : u.Distinct) (ha : a.Plain) {x : List (Step Nat) × Source Nat Nat}
    (hx : UpdateOutline.lookUp u x = (a.path.outline some, a.value.outline some options.wire?))
    (hpath : a.path = .field name) (hw : a.value.value? options item = some w)
    (hsame : Entries.get? name item' = Entries.get? name item) :
    actions (UpdateOutline.setChars x) = [UpdateOutline.setChars x] ∧
      u.bindings.assign item' (UpdateOutline.setChars x) = .ok (Entries.insert name w item') := by
  obtain ⟨p, src⟩ := x
  obtain ⟨hp, hs⟩ := Prod.mk.inj hx
  rw [hpath] at hp
  obtain ⟨k, rfl, hk⟩ := Step.of_map_name hp
  cases ha with
  | literal name' v =>
    obtain rfl : name' = name := by simpa [DocumentPath.field] using hpath
    cases src with
    | term t =>
      obtain ⟨j, rfl, hj⟩ := Term.of_map_literal (Source.term.inj hs)
      have hcomma : ',' ∉ (Source.term (.literal j)).chars :=
        UpdateOutline.comma_notin_chars (s := .literal j)
      refine ⟨actions_of_no_comma (UpdateOutline.comma_notin_set hcomma), ?_⟩
      have hwords := words_assignment (y := valueChars j) (words_stepChars (List.cons_ne_nil (.name k) []))
      rw [words_valueChars] at hwords
      rw [UpdateOutline.setChars_eq]
      exact assign_literal hwords (name_nameStep hk) (value_valueChars (hj.trans hw))
    | _ => cases hs
  | plus name' v =>
    obtain rfl : name' = name := by simpa [DocumentPath.field] using hpath
    cases src with
    | plus s t =>
      have hcomma : ',' ∉ (Source.plus s t).chars := by simp [UpdateOutline.plus_chars, UpdateOutline.comma_notin_chars]
      obtain ⟨hl, hr⟩ := Source.plus.inj hs
      refine ⟨actions_of_no_comma (UpdateOutline.comma_notin_set hcomma), ?_⟩
      rw [UpdateOutline.setChars_eq, UpdateOutline.plus_chars]
      exact assign_own hd hk (.inl rfl) hl hr (by rw [hsame]; exact hw)
    | _ => cases hs
  | minus name' v =>
    obtain rfl : name' = name := by simpa [DocumentPath.field] using hpath
    cases src with
    | minus s t =>
      have hcomma : ',' ∉ (Source.minus s t).chars := by simp [UpdateOutline.minus_chars, UpdateOutline.comma_notin_chars]
      obtain ⟨hl, hr⟩ := Source.minus.inj hs
      refine ⟨actions_of_no_comma (UpdateOutline.comma_notin_set hcomma), ?_⟩
      rw [UpdateOutline.setChars_eq, UpdateOutline.minus_chars]
      exact assign_own hd hk (.inr rfl) hl hr (by rw [hsame]; exact hw)
    | _ => cases hs

/-- Assignments one after the other make the changes that they stand for, since each changes what no later one looks at. -/
theorem assignments_plain (hd : u.Distinct) {as : List Assignment} {xs : List (List (Step Nat) × Source Nat Nat)}
    (hx : xs.map (UpdateOutline.lookUp u) = as.map fun a => (a.path.outline some, a.value.outline some options.wire?))
    (ha : ∀ a ∈ as, a.Plain) (hw : ∀ a ∈ as, ∃ w, a.value.value? options item = some w)
    (hdistinct : (as.map fun a => a.path.text).Nodup)
    (hsame : ∀ a ∈ as, Entries.get? a.path.text item' = Entries.get? a.path.text item) :
    ((xs.map UpdateOutline.setChars).flatMap actions).foldlM u.bindings.assign item' =
      .ok ((as.filterMap (Assignment.change? options item)).foldl (fun es c => Entries.insert c.1 c.2 es) item') := by
  induction xs generalizing as item' with
  | nil =>
    obtain rfl := List.map_eq_nil_iff.1 hx.symm
    rfl
  | cons x xs ih =>
    obtain ⟨a, as, rfl, hxa, hxs⟩ := List.map_eq_cons_iff.1 hx.symm
    obtain ⟨haplain, haothers⟩ := List.forall_mem_cons.1 ha
    obtain ⟨⟨w, haw⟩, hwothers⟩ := List.forall_mem_cons.1 hw
    rw [List.map_cons, List.nodup_cons] at hdistinct
    obtain ⟨hanew, hothers⟩ := hdistinct
    obtain ⟨hasame, hsames⟩ := List.forall_mem_cons.1 hsame
    obtain ⟨name, hpath⟩ := haplain.target
    rw [hpath, DocumentPath.text_field] at hasame hanew
    obtain ⟨hpieces, hassign⟩ := assign_plain hd haplain hxa.symm hpath haw hasame
    have hnext : ∀ b ∈ as, Entries.get? b.path.text (Entries.insert name w item') = Entries.get? b.path.text item := by
      intro b hb
      have hne : name ≠ b.path.text := fun he => hanew (he ▸ List.mem_map_of_mem hb)
      rw [Entries.get?_insert_of_ne hne, hsames b hb]
    rw [List.map_cons, List.flatMap_cons, hpieces, List.singleton_append, List.foldlM_cons, hassign,
      List.filterMap_cons_some (Assignment.change?_field hpath haw), List.foldl_cons]
    exact ih hxs.symm haothers hwothers hothers hnext

theorem removals_plain {ps : List DocumentPath} {qs : List (List (Step Nat))}
    (hq : qs.map (List.map (Step.map u.nameAt?)) = ps.map (DocumentPath.outline some))
    (hp : ∀ p ∈ ps, ∃ name, p = .field name) :
    ((qs.map Step.chars).flatMap actions).foldlM u.bindings.remove item =
      .ok ((ps.filterMap DocumentPath.topLevel?).foldl (fun es name => Entries.erase name es) item) := by
  induction qs generalizing ps item with
  | nil =>
    obtain rfl := List.map_eq_nil_iff.1 hq.symm
    rfl
  | cons q qs ih =>
    obtain ⟨p, ps, rfl, hqp, hqs⟩ := List.map_eq_cons_iff.1 hq.symm
    obtain ⟨⟨name, rfl⟩, hothers⟩ := List.forall_mem_cons.1 hp
    obtain ⟨k, rfl, hk⟩ := Step.of_map_name hqp.symm
    have hcomma : ',' ∉ Step.chars [.name k] := fun hc => comma_notin_term (stepChars_subset hc)
    have hne : ([.name k] : List (Step Nat)) ≠ [] := List.cons_ne_nil _ _
    have hremove : u.bindings.remove item (Step.chars [.name k]) = .ok (Entries.erase name item) := by
      rw [Bindings.remove, (IsAction.of_path hne).trimmed.trim_eq, name_nameStep hk]
      rfl
    rw [List.map_cons, List.flatMap_cons, actions_of_no_comma hcomma, List.singleton_append, List.foldlM_cons, hremove,
      List.filterMap_cons_some DocumentPath.topLevel?_field, List.foldl_cons]
    exact ih hqs.symm hothers

theorem Update.WellFormed.nodup_paths (h : update.WellFormed) : (update.sets.map fun a => a.path.text).Nodup := by
  have hdistinct := h.distinct
  simp only [targets, List.map_append, List.map_map] at hdistinct
  exact hdistinct.of_append_left.of_append_left.of_append_left

theorem Update.update_of_values {text : String} (hd : u.Distinct) (hwf : update.WellFormed) (hf : f.WellFormed)
    (htext : text.toList = f.chars) (hmap : f.map u.nameAt? u.wireAt? = update.outline some options.wire?)
    (hitem : (Entries.keys item).Nodup) (hplain : update.Plain)
    (hvalue : ∀ a ∈ update.sets, ∃ w, a.value.value? options item = some w) :
    u.bindings.update text item = .ok (update.applied options item) := by
  obtain ⟨hsets, hremoves, hadds, hdeletes⟩ := UpdateOutline.mk.inj hmap
  have hkeys : (Entries.keys (update.changes options item)).Nodup := by
    rw [changes, Assignment.keys_changes hplain.sets hvalue]
    exact hwf.nodup_paths
  have hmembers : (f.adds.isEmpty && f.deletes.isEmpty) = true := by
    rw [hplain.adds] at hadds
    rw [hplain.deletes] at hdeletes
    rw [List.map_eq_nil_iff.1 hadds, List.map_eq_nil_iff.1 hdeletes]
    rfl
  have happlied : update.removedNames.foldl (fun es name => Entries.erase name es)
      ((update.changes options item).foldl (fun es c => Entries.insert c.1 c.2 es) item) = update.applied options item := by
    rw [Entries.foldl_erase (Entries.nodup_keys_foldl_insert hitem), Entries.foldl_insert hitem hkeys]
    rfl
  rw [UpdateOutline.update_chars hf htext, assignments_plain hd hsets hplain.sets hvalue hwf.nodup_paths fun _ _ => rfl]
  simp only [bind, Except.bind, removals_plain hremoves hplain.removes]
  rw [if_pos hmembers]
  exact congrArg Except.ok happlied

theorem Update.update_plain {text : String} {total : Value → Wire} (hd : u.Distinct) (hwf : update.WellFormed)
    (hf : f.WellFormed) (htext : text.toList = f.chars)
    (hmap : f.map u.nameAt? u.wireAt? = update.outline some options.wire?)
    (htotal : f.map u.nameAt? u.wireAt? = update.outline some fun v => some (total v))
    (hitem : (Entries.keys item).Nodup) (hplain : update.Plain)
    (hcomputable : ∀ a ∈ update.sets, a.value.Computable options item) :
    u.bindings.update text item = .ok (update.applied options item) := by
  refine update_of_values hd hwf hf htext hmap hitem hplain fun a ha => ?_
  have hsame := (UpdateOutline.mk.inj (hmap.symm.trans htotal)).1
  have houtline := (Prod.mk.inj (List.map_inj_left.1 hsame a ha)).2
  exact (hplain.sets a ha).value_ne_none houtline (hcomputable a ha)

end Trees

section Refusals

variable {α β : Type} {z : Except Refusal α} {b : Bindings}

def Faults (z : Except Refusal α) : Prop := ∀ e, z = .error e → e.error.code = .validation

theorem Faults.ok {v : α} : Faults (.ok v) := by
  rintro _ ⟨⟩

theorem Faults.bind {next : α → Except Refusal β} (hz : Faults z) (hnext : ∀ v, Faults (next v)) : Faults (z >>= next) := by
  intro e he
  cases z with
  | error e' =>
    obtain rfl : e' = e := Except.error.inj he
    exact hz e' rfl
  | ok v => exact hnext v e he

theorem Faults.foldlM {next : α → β → Except Refusal α} (hnext : ∀ v w, Faults (next v w)) (ws : List β) (v : α) :
    Faults (ws.foldlM next v) := by
  induction ws generalizing v with
  | nil => exact .ok
  | cons w rest ih =>
    rw [List.foldlM_cons]
    exact (hnext v w).bind ih

theorem unsupported_faults : Faults (unsupported text : Except Refusal α) := by
  rintro _ ⟨⟩
  rfl

theorem name_faults : Faults (b.name text) := by
  rw [Bindings.name]
  split
  · exact .ok
  · rintro _ ⟨⟩
    rfl

theorem value_faults : Faults (b.value text) := by
  rw [Bindings.value]
  split
  · exact .ok
  · rintro _ ⟨⟩
    rfl

theorem combine_faults {subtract : Bool} {v w : Wire} : Faults (v.combine subtract w) := by
  unfold Wire.combine
  split
  · split
    · exact .ok
    · rintro _ ⟨⟩
      rfl
    · rintro _ ⟨⟩
      rfl
  · rintro _ ⟨⟩
    rfl

theorem assign_faults : Faults (b.assign item text) := by
  unfold Bindings.assign
  split
  · exact name_faults.bind fun _ => value_faults.bind fun _ => .ok
  · split
    · refine name_faults.bind fun _ => ?_
      split
      · rintro _ ⟨⟩
        rfl
      · exact value_faults.bind fun _ => combine_faults.bind fun _ => .ok
    · exact unsupported_faults
  · exact unsupported_faults

theorem remove_faults : Faults (b.remove item text) := name_faults.bind fun _ => .ok

theorem update_faults {expression : String} : Faults (b.update expression item) := by
  refine Faults.foldlM (fun item c => ?_) _ _
  unfold Bindings.clause
  split
  · exact Faults.foldlM (fun _ _ => assign_faults) _ _
  · split
    · exact Faults.foldlM (fun _ _ => remove_faults) _ _
    · exact unsupported_faults

end Refusals

theorem Serving.updateItem_refused {r : Request.UpdateItem} {tables : List (String × MemoryTable)} {t : MemoryTable}
    {expression : String} {e : Refusal} (htable : Entries.get? r.tableName tables = some t)
    (hcondition : Bindings.holds ⟨r.names, r.values⟩ (t.find? r.key) r.condition = .ok true)
    (hupdate : r.update = some expression)
    (he : Bindings.update ⟨r.names, r.values⟩ expression ((t.find? r.key).getD r.key) = .error e) :
    (updateItem r).run tables = (.error e, tables) := by
  have hget : (table r.tableName).run tables = (.ok t, tables) := by
    have hstate : (get : Serving (List (String × MemoryTable))).run tables = (.ok tables, tables) := rfl
    rw [table, Outcome.run_bind, hstate]
    simp only [htable]
    rfl
  have hok {α : Type} (v : α) : (ofExcept (.ok v)).run tables = (.ok v, tables) := rfl
  have herror {α : Type} : (ofExcept (.error e : Except Refusal α)).run tables = (.error e, tables) := rfl
  have hrequire : (require true).run tables = (.ok (), tables) := rfl
  rw [updateItem]
  simp only [Outcome.run_bind, hget, hcondition, hok, hrequire, hupdate, he, herror]

namespace UpdateDocument

variable {schema : Schema} {doc : Value} {table : String} {s s' : Session} {update : Update} {options : MarshalOptions}
  {t t' : Tokens} {expression : String}

/-- The memory store carries out the text of a plain update that was read from a document as the update itself, and
refuses any other update without a trace. -/
theorem update_rendered (hread : (schema.readUpdate table doc).run s = (.ok update, s'))
    (ht : ({ options } : Tokens).Leads t) (hrender : update.render.run t = (.ok (some expression), t'))
    (hlater : t'.Leads u) :
    (∀ item : Item, (Entries.keys item).Nodup → update.Plain → (∀ a ∈ update.sets, a.value.Computable options item) →
      Bindings.update ⟨u.names, u.values⟩ expression item = .ok (update.applied options item)) ∧
    (¬ update.Plain → ∀ (r : Request.UpdateItem) (tables : List (String × MemoryTable)) (stored : MemoryTable),
      r.update = some expression → r.names = u.names → r.values = u.values →
      Entries.get? r.tableName tables = some stored →
      Bindings.holds ⟨r.names, r.values⟩ (stored.find? r.key) r.condition = .ok true →
        ∃ e, (Serving.updateItem r).run tables = (.error e, tables) ∧ e.error.code = .validation) := by
  obtain ⟨hleads, tokens, -, f, htext, hmap⟩ := (Rendering.update_spells update).reachable ht hrender hlater
  obtain ⟨later, hu⟩ := hleads.indexed .new
  obtain rfl : u.options = options := (hleads.extends .new).options
  have htext : expression.toList = f.chars := by
    rw [Option.map_some] at htext
    split at htext
    · cases htext
    · exact Option.some.inj htext
  have houtline : f.map u.nameAt? u.wireAt? = update.outline some u.options.wire? := hmap _ Tokens.reads_wire?
  have hwf := readUpdate_wellFormed hread
  have hf : f.WellFormed := UpdateOutline.wellFormed_of_map (houtline ▸ Update.outline_wellFormed hwf)
  constructor
  · intro item hitem hplain hcomputable
    have htotal : f.map u.nameAt? u.wireAt? = update.outline some fun v => some (u.options.wireD v) :=
      hmap _ Tokens.reads_wireD
    exact Update.update_plain hu.distinct hwf hf htext houtline htotal hitem hplain hcomputable
  · intro hplain r tables stored hupdate hnames hvalues htable hcondition
    cases he : Bindings.update ⟨r.names, r.values⟩ expression ((stored.find? r.key).getD r.key) with
    | ok item =>
      rw [hnames, hvalues] at he
      exact absurd (Update.plain_of_update hu.toNumbered hf htext houtline he) hplain
    | error e => exact ⟨e, Serving.updateItem_refused htable hcondition hupdate he, update_faults e he⟩

def closingUpdate : Update where
  sets := [⟨.field "state", .operand (.literal (.string "closed"))⟩,
    ⟨.field "count", .plus (.path (.field "count")) (.literal (.number (.ofInt 1)))⟩]

def closingTokens : Tokens where
  names := [("#n0", "state"), ("#n2", "count")]
  values := [(":v1", .s "closed"), (":v3", .n "1")]
  nameTokens := [("state", "#n0"), ("count", "#n2")]
  valueTokens := [("S:closed", ":v1"), ("N:1", ":v3")]
  counter := 4

def starting : Value := .map [("$ifNotExists", .map [("count", .number (.ofInt 1))])]

def startingUpdate : Update where
  sets := [⟨.field "count", .ifNotExists (.field "count") (.literal (.number (.ofInt 1)))⟩]

def startingTokens : Tokens where
  names := [("#n0", "count")]
  values := [(":v1", .n "1")]
  nameTokens := [("count", "#n0")]
  valueTokens := [("N:1", ":v1")]
  counter := 2

def counter : Item := [("id", .s "a"), ("state", .s "open"), ("count", .n "2")]

def counterTables : List (String × MemoryTable) := [("counters", { key := ["id"], items := [counter] })]

def startingRequest : Request.UpdateItem where
  tableName := "counters"
  key := [("id", .s "a")]
  update := some "SET #n0 = if_not_exists(#n0, :v1)"
  names := startingTokens.names
  values := startingTokens.values

theorem counter_update_rendered :
    Bindings.update ⟨closingTokens.names, closingTokens.values⟩ "SET #n0 = :v1, #n2 = #n2 + :v3" counter =
        .ok (closingUpdate.applied {} counter) ∧
      ∃ e, (Serving.updateItem startingRequest).run counterTables = (.error e, counterTables) ∧
        e.error.code = .validation := by
  have hclosing : ∃ s', (Mapper.counters.schema.readUpdate "counters" Mapper.closing).run {} = (.ok closingUpdate, s') :=
    ⟨_, rfl⟩
  have hstarting : ∃ s', (Mapper.counters.schema.readUpdate "counters" starting).run {} = (.ok startingUpdate, s') :=
    ⟨_, rfl⟩
  have hplain : closingUpdate.Plain := by
    refine ⟨List.forall_mem_cons.2 ⟨.literal _ _, List.forall_mem_cons.2 ⟨.plus _ _, by simp⟩⟩, ?_, rfl, rfl⟩
    exact fun p hp => absurd hp List.not_mem_nil
  have hcomputable : ∀ a ∈ closingUpdate.sets, a.value.Computable {} counter := by
    obtain ⟨left, hleft⟩ := Option.isSome_iff_exists.1 (by decide +kernel : (NumberReader.float? "2".toList).isSome = true)
    obtain ⟨right, hright⟩ := Option.isSome_iff_exists.1 (by decide +kernel : (NumberReader.float? "1".toList).isSome = true)
    refine List.forall_mem_cons.2 ⟨?_, List.forall_mem_cons.2 ⟨?_, by simp⟩⟩
    · rintro name v (h | h) <;> cases h
    · rintro name v (h | h) <;> cases h
      exact ⟨"2", "1", left, right, rfl, rfl, hleft, hright⟩
  have hother : ¬ startingUpdate.Plain := by
    intro h
    cases h.sets _ List.mem_cons_self
  have hempty : ({ options := {} } : Tokens).Leads {} := .refl
  have hclosed : closingUpdate.render.run {} = (.ok (some "SET #n0 = :v1, #n2 = #n2 + :v3"), closingTokens) := rfl
  have hstarted : startingUpdate.render.run {} = (.ok (some "SET #n0 = if_not_exists(#n0, :v1)"), startingTokens) := rfl
  obtain ⟨s', hclosing⟩ := hclosing
  obtain ⟨s'', hstarting⟩ := hstarting
  have hclosed := update_rendered hclosing hempty hclosed .refl
  have hstarted := update_rendered hstarting hempty hstarted .refl
  exact ⟨hclosed.1 counter (by decide) hplain hcomputable,
    hstarted.2 hother startingRequest counterTables _ rfl rfl rfl rfl rfl⟩

end UpdateDocument

end ItemMapper
