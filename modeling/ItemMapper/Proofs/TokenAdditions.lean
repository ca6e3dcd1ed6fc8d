import ItemMapper.Proofs.Mentions
import ItemMapper.Proofs.Rendered

/-!
# Additions to the tables of tokens

Whatever paths and values are entered one after the other, the numbers of the tokens are the first ones there are, a
name has one token, and values share one exactly where they are equal texts, numbers, booleans or nulls.
-/

namespace ItemMapper

def Wire.isPrimitive : Wire → Bool
  | .s _ | .n _ | .bool _ | .null _ => true
  | _ => false

theorem Wire.isPrimitive_iff {w : Wire} : w.isPrimitive = true ↔ ∃ key, w.identity? = some key := by
  cases w <;> simp [isPrimitive, identity?]

namespace Tokens

/-- What can be entered: the names of a path, a value in its wire form, or a wire value as it is. -/
inductive Addition where
  | path (p : DocumentPath)
  | value (v : Value)
  | wire (w : Wire)

def Addition.wire? (options : MarshalOptions) : Addition → Option Wire
  | .path _ => none
  | .value v => options.wire? v
  | .wire w => some w

def perform : Addition → Tokens → Except MarshalError String × Tokens
  | .path p, t => (.ok (t.addPath p).1, (t.addPath p).2)
  | .value v, t => t.addValue v
  | .wire w, t => (.ok (t.addWire w).1, (t.addWire w).2)

/-- The answers to additions that are made one after the other, and the tables that they leave. -/
def run : List Addition → Tokens → List (Except MarshalError String) × Tokens
  | [], t => ([], t)
  | a :: rest, t => ((perform a t).1 :: (run rest (perform a t).2).1, (run rest (perform a t).2).2)

def answers (options : MarshalOptions) (additions : List Addition) : List (Except MarshalError String) :=
  (run additions { options }).1

def filled (options : MarshalOptions) (additions : List Addition) : Tokens := (run additions { options }).2

def tokenOf (t : Tokens) (name : String) : String := (Entries.get? name t.nameTokens).getD ""

def IsEntered (additions : List Addition) (name : String) : Prop := ∃ p, .path p ∈ additions ∧ .name name ∈ p.elements

structure Consistent (options : MarshalOptions) (additions : List Addition) : Prop where
  counter : (filled options additions).counter =
    (filled options additions).names.length + (filled options additions).values.length
  /-- From the names and from the keys of the values the ways back lead to just their tokens. -/
  nameTokens : ∀ name token, Entries.get? name (filled options additions).nameTokens = some token ↔
    (token, name) ∈ (filled options additions).names
  valueTokens : ∀ key token, Entries.get? key (filled options additions).valueTokens = some token ↔
    ∃ w, (token, w) ∈ (filled options additions).values ∧ w.identity? = some key
  /-- The numbers of the tokens are those below the number of entries, each in one token. -/
  numbers : ∃ ofNames ofValues : List Nat,
    Entries.keys (filled options additions).names = ofNames.map nameToken ∧
    Entries.keys (filled options additions).values = ofValues.map valueToken ∧
    (ofNames ++ ofValues).Perm
      (List.range ((filled options additions).names.length + (filled options additions).values.length))
  /-- A path is answered with the tokens of its names in their places. -/
  paths : ∀ (i : Nat) (p : DocumentPath), additions[i]? = some (.path p) →
    (answers options additions)[i]? = some (.ok (p.rename (filled options additions).tokenOf).text)
  names : ∀ name, IsEntered additions name →
    Entries.get? ((filled options additions).tokenOf name) (filled options additions).names = some name
  names_inj : ∀ a b, IsEntered additions a → IsEntered additions b →
    ((filled options additions).tokenOf a = (filled options additions).tokenOf b ↔ a = b)
  /-- A value with a wire form is answered with the token under which that form stands. -/
  values : ∀ (i : Nat) (a : Addition) (x : Wire), additions[i]? = some a → a.wire? options = some x →
    ∃ token, (answers options additions)[i]? = some (.ok token) ∧
      Entries.get? token (filled options additions).values = some x
  values_inj : ∀ (i j : Nat) (a b : Addition) (x y : Wire), i ≠ j → additions[i]? = some a → additions[j]? = some b →
    a.wire? options = some x → b.wire? options = some y →
    ((answers options additions)[i]? = (answers options additions)[j]? ↔ x = y ∧ x.isPrimitive = true)
  /-- What stands under a token after some of the additions stands there after all of them. -/
  kept : ∀ (n : Nat) (token : String),
    (∀ name, Entries.get? token (filled options (additions.take n)).names = some name →
      Entries.get? token (filled options additions).names = some name) ∧
    ∀ w, Entries.get? token (filled options (additions.take n)).values = some w →
      Entries.get? token (filled options additions).values = some w
  /-- Without a wire form a value is answered with an error, and nothing is entered. -/
  failed : ∀ (i : Nat) (v : Value), additions[i]? = some (.value v) → options.wire? v = none →
    (∃ e, (answers options additions)[i]? = some (.error e)) ∧
      filled options (additions.take (i + 1)) = filled options (additions.take i)

variable {options : MarshalOptions} {t u : Tokens} {a b : Addition} {additions : List Addition} {issued : List String}
  {names : List (String × String)} {values : List (String × Wire)} {name token key : String} {w x y : Wire} {i j k : Nat}

theorem Numbered.numbers (h : Numbered issued names values) : ∃ ofNames ofValues : List Nat,
    Entries.keys names = ofNames.map nameToken ∧ Entries.keys values = ofValues.map valueToken ∧
    (ofNames ++ ofValues).Perm (List.range (names.length + values.length)) := by
  have hat : ∀ k ∈ List.range issued.length, issued[k]? = some (issued.getD k "") := fun k hk => by
    have hlt := List.mem_range.1 hk
    rw [List.getD_eq_getElem?_getD, List.getElem?_eq_getElem hlt, Option.getD_some]
  have hissued : issued = (List.range issued.length).map (issued.getD · "") := by
    refine List.ext_getElem? fun k => ?_
    rcases Nat.lt_or_ge k issued.length with hk | hk
    · rw [List.getElem?_map, List.getElem?_range hk, hat k (List.mem_range.2 hk)]
      rfl
    · rw [List.getElem?_eq_none hk, List.getElem?_eq_none (by simpa using hk)]
  have hkind : ∀ k ∈ List.range issued.length, isValueToken (issued.getD k "") = !isNameToken (issued.getD k "") := by
    intro k hk
    rcases h.token k _ (hat k hk) with htoken | htoken <;> rw [htoken] <;> simp
  refine ⟨(List.range issued.length).filter fun k => isNameToken (issued.getD k ""),
    (List.range issued.length).filter fun k => !isNameToken (issued.getD k ""), ?_, ?_, ?_⟩
  · rw [h.names]
    conv_lhs => rw [hissued, List.filter_map]
    refine List.map_congr_left fun k hk => ?_
    obtain ⟨hk, hname⟩ := List.mem_filter.1 hk
    refine (h.token k _ (hat k hk)).resolve_right fun htoken => ?_
    simp only [Function.comp_apply, htoken, isNameToken_valueToken, Bool.false_eq_true] at hname
  · rw [h.values]
    conv_lhs => rw [hissued, List.filter_map]
    rw [← List.filter_congr hkind]
    refine List.map_congr_left fun k hk => ?_
    obtain ⟨hk, hvalue⟩ := List.mem_filter.1 hk
    refine (h.token k _ (hat k hk)).resolve_left fun htoken => ?_
    simp only [Function.comp_apply, htoken, isValueToken_nameToken, Bool.false_eq_true] at hvalue
  · rw [← h.length]
    exact List.filter_append_perm _ _

theorem Indexed.tokenOf (h : Indexed issued t) (hname : t.nameAt? k = some name) : t.tokenOf name = nameToken k := by
  rw [Tokens.tokenOf, (h.nameTokens name _).2 (Entries.mem_of_get? hname), Option.getD_some]

theorem Indexed.restChars_rename (h : Indexed issued t) {q : List (Step Nat)} {steps : List PathStep}
    (hq : q.map (Step.map t.nameAt?) = steps.map (PathStep.outline some)) :
    Step.restChars q = DocumentPath.restChars (steps.map (PathStep.rename t.tokenOf)) := by
  induction q generalizing steps with
  | nil =>
    obtain rfl : steps = [] := by simpa using hq.symm
    rfl
  | cons step q ih =>
    obtain _ | ⟨s, steps⟩ := steps
    · cases hq
    obtain ⟨hs, hrest⟩ := List.cons.inj hq
    cases step with
    | name k =>
      cases s with
      | index i => cases hs
      | name s =>
        have hname := h.tokenOf (Step.name.inj hs)
        rw [Step.restChars, List.map_cons, PathStep.rename, hname, DocumentPath.restChars, toList_nameToken, ih hrest]
    | index i =>
      cases s with
      | name s => cases hs
      | index i' =>
        obtain rfl : i = i' := by simpa [Step.map, PathStep.outline] using hs
        rw [Step.restChars, List.map_cons, PathStep.rename, DocumentPath.restChars, ih hrest]

theorem Indexed.chars_rename (h : Indexed issued t) {q : List (Step Nat)} {p : DocumentPath}
    (hq : q.map (Step.map t.nameAt?) = p.elements.map (PathStep.outline some)) :
    Step.chars q = (p.rename t.tokenOf).chars := by
  obtain ⟨steps⟩ := p
  have hrest := h.restChars_rename hq
  cases q with
  | nil =>
    obtain rfl : steps = [] := by simpa using hq.symm
    rfl
  | cons step q =>
    obtain _ | ⟨s, steps⟩ := steps
    · cases hq
    have hs := (List.cons.inj hq).1
    cases step <;> cases s
    case name.index | index.name => cases hs
    -- The two texts with a point in front of the first name are the same.
    case name.name => exact (List.cons.inj hrest).2
    case index.index => exact hrest

theorem addField_found : Entries.get? name (addField name t).2.nameTokens = some (addField name t).1 := by
  rw [addField]
  cases hfound : Entries.get? name t.nameTokens with
  | some token => exact hfound
  | none => exact Entries.get?_insert_self

theorem addElements_found {steps : List PathStep} {out : String} (ht : Indexed issued t) (h : .name name ∈ steps) :
    ∃ token, Entries.get? name (addElements steps out t).2.nameTokens = some token := by
  induction steps generalizing out t issued with
  | nil => cases h
  | cons s rest ih =>
    cases s with
    | name s =>
      obtain ⟨k, -, -, hs⟩ := addField_indexed s ht
      rw [addElements]
      rcases List.mem_cons.1 h with hname | hrest
      · obtain rfl := PathStep.name.inj hname
        obtain ⟨q, -, hextends, -⟩ := addElements_indexed rest
          (if out.isEmpty then (addField name t).1 else out ++ "." ++ (addField name t).1) hs
        exact ⟨_, Entries.get?_of_prefix hextends.nameTokens addField_found⟩
      · exact ih hs hrest
    | index i =>
      exact ih ht ((List.mem_cons.1 h).resolve_left (by simp))

theorem addWire_found (h : w.identity? = some key) :
    Entries.get? key (t.addWire w).2.valueTokens = some (t.addWire w).1 := by
  rw [addWire, h, Option.bind_some]
  cases hfound : Entries.get? key t.valueTokens with
  | some token => exact hfound
  | none => exact Entries.get?_insert_self

theorem addWire_of_not_primitive (h : w.isPrimitive = false) : (t.addWire w).1 = valueToken t.counter := by
  have hnone : w.identity? = none := by
    refine Option.eq_none_iff_forall_ne_some.2 fun key hkey => ?_
    rw [Wire.isPrimitive_iff.2 ⟨key, hkey⟩] at h
    cases h
  rw [addWire, hnone, Option.bind_none]

theorem addValue_cases (v : Value) (t : Tokens) :
    (∃ w, t.options.wire? v = some w ∧ t.addValue v = (.ok (t.addWire w).1, (t.addWire w).2)) ∨
    ∃ e, t.options.wire? v = none ∧ t.addValue v = (.error e, t) := by
  rw [addValue, MarshalOptions.wire?]
  cases Wire.ofValue t.options v with
  | error e => exact .inr ⟨e, rfl, rfl⟩
  | ok o =>
    cases o with
    | none => exact .inr ⟨.undefined, rfl, rfl⟩
    | some w => exact .inl ⟨w, rfl, rfl⟩

theorem perform_of_wire? (h : a.wire? t.options = some w) : perform a t = (.ok (t.addWire w).1, (t.addWire w).2) := by
  cases a with
  | path p => cases h
  | value v =>
    obtain ⟨w', hw, hadd⟩ | ⟨e, hw, -⟩ := addValue_cases v t
    · obtain rfl : w' = w := Option.some.inj (hw.symm.trans h)
      exact hadd
    · cases hw.symm.trans h
  | wire w' =>
    obtain rfl := Option.some.inj h
    rfl

theorem Leads.perform : t.Leads (perform a t).2 := by
  cases a with
  | path p => exact .path p .refl
  | wire w => exact .wire w .refl
  | value v =>
    rw [Tokens.perform]
    obtain ⟨w, -, hadd⟩ | ⟨e, -, hadd⟩ := addValue_cases v t
    · rw [hadd]
      exact .wire w .refl
    · rw [hadd]
      exact .refl

theorem Leads.run : t.Leads (run additions t).2 := by
  induction additions generalizing t with
  | nil => exact .refl
  | cons a rest ih => exact Leads.perform.trans ih

theorem run_getElem? (h : additions[i]? = some a) :
    (run additions t).1[i]? = some (perform a (run (additions.take i) t).2).1 := by
  induction additions generalizing t i with
  | nil => cases h
  | cons b rest ih =>
    cases i with
    | zero =>
      obtain rfl := Option.some.inj h
      rfl
    | succ i => exact ih h

theorem run_take_leads (h : i ≤ j) : (run (additions.take i) t).2.Leads (run (additions.take j) t).2 := by
  induction additions generalizing t i j with
  | nil =>
    rw [List.take_nil, List.take_nil]
    exact .refl
  | cons a rest ih =>
    obtain _ | i := i
    · exact Leads.run
    obtain _ | j := j
    · cases h
    exact ih (Nat.le_of_succ_le_succ h)

theorem run_take_succ (h : additions[i]? = some a) :
    (run (additions.take (i + 1)) t).2 = (perform a (run (additions.take i) t).2).2 := by
  induction additions generalizing t i with
  | nil => cases h
  | cons b rest ih =>
    cases i with
    | zero =>
      obtain rfl := Option.some.inj h
      rfl
    | succ i => exact ih h

theorem filled_leads : Leads { options } (filled options additions) := Leads.run

theorem filled_options : (filled options additions).options = options := (filled_leads.extends .new).options

theorem filled_indexed (options : MarshalOptions) (additions : List Addition) :
    ∃ issued, Indexed issued (filled options additions) := filled_leads.indexed .new

theorem filled_extends_later (h : i ≤ j) :
    (filled options (additions.take i)).Extends (filled options (additions.take j)) := by
  obtain ⟨_, hissued⟩ := filled_indexed options (additions.take i)
  exact (run_take_leads h).extends hissued

theorem filled_extends : (filled options (additions.take i)).Extends (filled options additions) := by
  have hall : additions.take (max i additions.length) = additions := List.take_of_length_le (le_max_right i _)
  conv => rhs; rw [← hall]
  exact filled_extends_later (le_max_left i _)

theorem filled_take_succ (h : additions[i]? = some a) :
    filled options (additions.take (i + 1)) = (perform a (filled options (additions.take i))).2 := run_take_succ h

theorem answers_getElem? (h : additions[i]? = some a) :
    (answers options additions)[i]? = some (perform a (filled options (additions.take i))).1 := run_getElem? h

theorem path_answered {p : DocumentPath} (h : additions[i]? = some (.path p)) :
    (answers options additions)[i]? = some (.ok (p.rename (filled options additions).tokenOf).text) := by
  have hextends : (perform (.path p) (filled options (additions.take i))).2.Extends (filled options additions) := by
    rw [← filled_take_succ h]
    exact filled_extends
  obtain ⟨issued, hissued⟩ := filled_indexed options (additions.take i)
  obtain ⟨later, hlater⟩ := filled_indexed options additions
  obtain ⟨q, htext, -, -, hnames⟩ := addElements_indexed p.elements "" hissued
  have hchars : (addPath p (filled options (additions.take i))).1.toList = Step.chars q := htext
  rw [hlater.chars_rename (hnames _ hextends)] at hchars
  rw [answers_getElem? h, perform, DocumentPath.text, ← hchars, String.ofList_toList]

theorem name_entered (h : IsEntered additions name) :
    Entries.get? ((filled options additions).tokenOf name) (filled options additions).names = some name := by
  obtain ⟨p, hp, hname⟩ := h
  obtain ⟨i, hi⟩ := List.mem_iff_getElem?.1 hp
  obtain ⟨issued, hissued⟩ := filled_indexed options (additions.take i)
  obtain ⟨later, hlater⟩ := filled_indexed options additions
  obtain ⟨token, htoken⟩ : ∃ token, Entries.get? name (addPath p (filled options (additions.take i))).2.nameTokens =
      some token := addElements_found hissued hname
  have hfound : Entries.get? name (filled options additions).nameTokens = some token := by
    refine Entries.get?_of_prefix (filled_extends (i := i + 1)).nameTokens ?_
    rw [filled_take_succ hi]
    exact htoken
  rw [tokenOf, hfound, Option.getD_some]
  exact Entries.get?_of_mem hlater.nodup_names ((hlater.nameTokens name token).1 hfound)

theorem wire_performed (hw : a.wire? options = some w) :
    perform a (filled options (additions.take i)) = (.ok (addWire w (filled options (additions.take i))).1,
      (addWire w (filled options (additions.take i))).2) := by
  refine perform_of_wire? ?_
  rw [filled_options, hw]

theorem value_answered (h : additions[i]? = some a) (hw : a.wire? options = some w) :
    ∃ k, (answers options additions)[i]? = some (.ok (valueToken k)) ∧
      (filled options (additions.take (i + 1))).wireAt? k = some w := by
  obtain ⟨issued, hissued⟩ := filled_indexed options (additions.take i)
  obtain ⟨k, htoken, hat, -⟩ := addWire_indexed (w := w) hissued
  refine ⟨k, ?_, ?_⟩
  · rw [answers_getElem? h, wire_performed hw, htoken]
  · rwa [filled_take_succ h, wire_performed hw]

theorem primitive_answered (h : additions[i]? = some a) (hw : a.wire? options = some w) (hkey : w.identity? = some key) :
    ∃ token, (answers options additions)[i]? = some (.ok token) ∧
      Entries.get? key (filled options additions).valueTokens = some token := by
  refine ⟨(addWire w (filled options (additions.take i))).1, ?_,
    Entries.get?_of_prefix (filled_extends (i := i + 1)).valueTokens ?_⟩
  · rw [answers_getElem? h, wire_performed hw]
  · rw [filled_take_succ h, wire_performed hw]
    exact addWire_found hkey

theorem composite_answered (hij : i < j) (hi : additions[i]? = some a) (hj : additions[j]? = some b)
    (hx : a.wire? options = some x) (hy : b.wire? options = some y) (hcomposite : y.isPrimitive = false) :
    (answers options additions)[i]? ≠ (answers options additions)[j]? := by
  intro hsame
  obtain ⟨k, hanswer, hat⟩ := value_answered hi hx
  obtain ⟨issued, hissued⟩ := filled_indexed options (additions.take j)
  have htoken : valueToken k = valueToken issued.length := by
    rw [hanswer, answers_getElem? hj, wire_performed hy, addWire_of_not_primitive hcomposite] at hsame
    rw [← hissued.counter]
    exact Except.ok.inj (Option.some.inj hsame)
  have hstands := (filled_extends_later (Nat.succ_le_of_lt hij)).wireAt? hat
  obtain ⟨-, -, hmem⟩ := hissued.token_of_values (List.mem_map_of_mem (f := Prod.fst) (Entries.mem_of_get? hstands))
  rw [htoken] at hmem
  exact hissued.new_notin.2 hmem

theorem values_answered_alike (hij : i ≠ j) (hi : additions[i]? = some a) (hj : additions[j]? = some b)
    (hx : a.wire? options = some x) (hy : b.wire? options = some y) :
    (answers options additions)[i]? = (answers options additions)[j]? ↔ x = y ∧ x.isPrimitive = true := by
  constructor
  · intro hsame
    obtain ⟨k, hk, hxat⟩ := value_answered hi hx
    obtain ⟨l, hl, hyat⟩ := value_answered hj hy
    obtain rfl : k = l := by
      rw [hk, hl] at hsame
      exact valueToken_inj (Except.ok.inj (Option.some.inj hsame))
    obtain rfl : x = y := Option.some.inj ((filled_extends.wireAt? hxat).symm.trans (filled_extends.wireAt? hyat))
    refine ⟨rfl, Bool.of_not_eq_false fun hcomposite => ?_⟩
    rcases Nat.lt_or_gt_of_ne hij with hlt | hlt
    · exact composite_answered hlt hi hj hx hy hcomposite hsame
    · exact composite_answered hlt hj hi hy hx hcomposite hsame.symm
  · rintro ⟨rfl, hprimitive⟩
    obtain ⟨key, hkey⟩ := Wire.isPrimitive_iff.1 hprimitive
    obtain ⟨token, hanswer, hfound⟩ := primitive_answered hi hx hkey
    obtain ⟨token', hanswer', hfound'⟩ := primitive_answered hj hy hkey
    rw [hanswer, hanswer', Option.some.inj (hfound.symm.trans hfound')]

theorem value_failed {v : Value} (h : additions[i]? = some (.value v)) (hv : options.wire? v = none) :
    (∃ e, (answers options additions)[i]? = some (.error e)) ∧
      filled options (additions.take (i + 1)) = filled options (additions.take i) := by
  obtain ⟨w, hw, -⟩ | ⟨e, -, hadd⟩ := addValue_cases v (filled options (additions.take i))
  · rw [filled_options, hv] at hw
    cases hw
  · rw [answers_getElem? h, filled_take_succ h, perform, hadd]
    exact ⟨⟨e, rfl⟩, rfl⟩

/-- However paths and values are entered into empty tables, answers and tables belong together. -/
theorem additions_consistent (options : MarshalOptions) (additions : List Addition) : Consistent options additions where
  counter := (filled_indexed options additions).elim fun _ hissued => hissued.counter.trans hissued.length
  nameTokens := (filled_indexed options additions).elim fun _ hissued => hissued.nameTokens
  valueTokens := (filled_indexed options additions).elim fun _ hissued => hissued.valueTokens
  numbers := (filled_indexed options additions).elim fun _ hissued => hissued.numbers
  paths _ _ := path_answered
  names _ := name_entered
  names_inj a b ha hb := by
    refine ⟨fun hsame => ?_, fun hsame => hsame ▸ rfl⟩
    have hname : Entries.get? _ (filled options additions).names = some a := name_entered ha
    rw [hsame, name_entered hb] at hname
    exact (Option.some.inj hname).symm
  values i a x hi hx := by
    obtain ⟨k, hanswer, hat⟩ := value_answered hi hx
    exact ⟨_, hanswer, filled_extends.wireAt? hat⟩
  values_inj _ _ _ _ _ _ := values_answered_alike
  kept _ _ :=
    ⟨fun _ => Entries.get?_of_prefix filled_extends.names, fun _ => Entries.get?_of_prefix filled_extends.values⟩
  failed _ _ := value_failed

end Tokens

end ItemMapper
