import ItemMapper.Proofs.Entries
import ItemMapper.Proofs.TokenTexts

/-!
# Numbering

How the tables of tokens of one request grow. Tokens are numbered by their places in the order in which they are
issued, whichever table they stand in; a token that is there already is issued again for what it stands for.
-/

namespace ItemMapper

section FirstOccurrences

variable {xs ys zs : List String} {x : String}

theorem eraseDups_of_nodup (h : xs.Nodup) : xs.eraseDups = xs := by
  induction xs with
  | nil => rfl
  | cons x rest ih =>
    obtain ⟨hx, hrest⟩ := List.nodup_cons.1 h
    have hkeep : (rest.filter fun y => !y == x) = rest :=
      List.filter_eq_self.2 fun y hy => by simpa using fun hxy : y = x => hx (hxy ▸ hy)
    rw [List.eraseDups_cons, hkeep, ih hrest]

theorem eraseDups_concat (h : xs.Nodup) : (xs ++ [x]).eraseDups = if x ∈ xs then xs else xs ++ [x] := by
  rw [List.eraseDups_append, eraseDups_of_nodup h]
  split
  · simp_all [List.removeAll]
  · have hkeep : [x].removeAll xs = [x] := by simp_all [List.removeAll]
    rw [hkeep, eraseDups_of_nodup (List.nodup_singleton x)]

theorem eraseDups_append_of_nodup (h : xs.eraseDups.Nodup) : (xs.eraseDups ++ ys).eraseDups = (xs ++ ys).eraseDups := by
  have hnew : ys.removeAll xs.eraseDups = ys.removeAll xs := by
    rw [List.removeAll, List.removeAll]
    exact List.filter_congr fun y _ => by simp
  rw [List.eraseDups_append, List.eraseDups_append, eraseDups_of_nodup h, hnew]

end FirstOccurrences

theorem Wire.identity?_inj {x y : Wire} {key : String} (hx : x.identity? = some key) (hy : y.identity? = some key) :
    x = y := by
  have hflag : ∀ a b : Bool, (boolText a).toList = (boolText b).toList → a = b := by decide
  cases x <;> cases y <;> simp only [identity?, Option.some.injEq, reduceCtorEq] at hx hy
  all_goals
    have h := congrArg String.toList (hx.trans hy.symm)
    simp at h
  · exact congrArg s (String.toList_inj.1 h)
  · exact congrArg n (String.toList_inj.1 h)
  · exact congrArg bool (hflag _ _ h)
  · exact congrArg null (hflag _ _ h)

namespace Tokens

def isNameToken (token : String) : Bool := token.toList.head? == some '#'

def isValueToken (token : String) : Bool := token.toList.head? == some ':'

/-- The tables hold just the issued tokens, each numbered by its place. -/
structure Numbered (issued : List String) (names : List (String × String)) (values : List (String × Wire)) : Prop where
  token : ∀ k token, issued[k]? = some token → token = nameToken k ∨ token = valueToken k
  names : Entries.keys names = issued.filter isNameToken
  values : Entries.keys values = issued.filter isValueToken

/-- The counter numbers the next token, and from what stands under a token the way leads back to just that token. -/
structure Indexed (issued : List String) (t : Tokens) : Prop extends Numbered issued t.names t.values where
  counter : t.counter = issued.length
  nameTokens : ∀ name token, Entries.get? name t.nameTokens = some token ↔ (token, name) ∈ t.names
  valueTokens : ∀ key token, Entries.get? key t.valueTokens = some token ↔
    ∃ w, (token, w) ∈ t.values ∧ w.identity? = some key

def Distinct (t : Tokens) : Prop := (t.names.map Prod.snd).Nodup

structure Extends (t u : Tokens) : Prop where
  options : u.options = t.options
  names : t.names <+: u.names
  values : t.values <+: u.values
  nameTokens : t.nameTokens <+: u.nameTokens
  valueTokens : t.valueTokens <+: u.valueTokens

/-- Entering paths and values one after the other leads from one state of the tables to another. -/
inductive Leads (t : Tokens) : Tokens → Prop
  | refl : Leads t t
  | path {u : Tokens} (p : DocumentPath) : Leads t u → Leads t (u.addPath p).2
  | wire {u : Tokens} (w : Wire) : Leads t u → Leads t (u.addWire w).2

variable {t u v : Tokens} {issued : List String} {names : List (String × String)} {values : List (String × Wire)}
  {name token : String} {w : Wire} {j k : Nat}

@[simp] theorem isNameToken_nameToken : isNameToken (nameToken k) = true := by
  rw [isNameToken, toList_nameToken]
  rfl

@[simp] theorem isValueToken_nameToken : isValueToken (nameToken k) = false := by
  rw [isValueToken, toList_nameToken]
  rfl

@[simp] theorem isNameToken_valueToken : isNameToken (valueToken k) = false := by
  rw [isNameToken, toList_valueToken]
  rfl

@[simp] theorem isValueToken_valueToken : isValueToken (valueToken k) = true := by
  rw [isValueToken, toList_valueToken]
  rfl

theorem nameToken_inj (h : nameToken j = nameToken k) : j = k := by
  have hlist := congrArg String.toList h
  rw [toList_nameToken, toList_nameToken, nameChars, nameChars] at hlist
  exact NumberReader.natDigits_injective (List.cons.inj (List.cons.inj hlist).2).2

theorem valueToken_inj (h : valueToken j = valueToken k) : j = k := by
  have hlist := congrArg String.toList h
  rw [toList_valueToken, toList_valueToken, valueChars, valueChars] at hlist
  exact NumberReader.natDigits_injective (List.cons.inj (List.cons.inj hlist).2).2

theorem nameToken_ne_valueToken : nameToken j ≠ valueToken k := by
  intro h
  have hname := congrArg isNameToken h
  simp at hname

namespace Numbered

theorem nil : Numbered [] [] [] := ⟨by simp, rfl, rfl⟩

theorem nodup (h : Numbered issued names values) : issued.Nodup := by
  refine List.nodup_iff_getElem?_ne_getElem?.2 fun i j hij hj heq => ?_
  obtain ⟨token, htoken⟩ : ∃ token, issued[j]? = some token := ⟨issued[j], List.getElem?_eq_getElem hj⟩
  have hi := h.token i token (heq.trans htoken)
  have hj := h.token j token htoken
  have hsame : i = j := by
    rcases hi with rfl | rfl <;> rcases hj with hj | hj
    · exact nameToken_inj hj
    · exact absurd hj nameToken_ne_valueToken
    · exact absurd hj.symm nameToken_ne_valueToken
    · exact valueToken_inj hj
  omega

theorem nodup_names (h : Numbered issued names values) : (Entries.keys names).Nodup := h.names ▸ h.nodup.filter _

theorem nodup_values (h : Numbered issued names values) : (Entries.keys values).Nodup := h.values ▸ h.nodup.filter _

theorem kind (h : Numbered issued names values) {token : String} (ht : token ∈ issued) :
    ∃ k, issued[k]? = some token ∧ (token = nameToken k ∨ token = valueToken k) := by
  obtain ⟨k, hk⟩ := List.mem_iff_getElem?.1 ht
  exact ⟨k, hk, h.token k token hk⟩

theorem length (h : Numbered issued names values) : issued.length = names.length + values.length := by
  have hvalues : issued.filter isValueToken = issued.filter (!isNameToken ·) := by
    refine List.filter_congr fun token ht => ?_
    obtain ⟨k, -, rfl | rfl⟩ := h.kind ht <;> simp
  have hnames := congrArg List.length h.names
  have hlength := congrArg List.length (h.values.trans hvalues)
  rw [Entries.keys, List.length_map] at hnames hlength
  rw [hnames, hlength, List.length_eq_length_filter_add isNameToken]

theorem token_of_names (h : Numbered issued names values) {token : String} (ht : token ∈ Entries.keys names) :
    ∃ k, token = nameToken k ∧ token ∈ issued := by
  rw [h.names, List.mem_filter] at ht
  obtain ⟨k, -, rfl | rfl⟩ := h.kind ht.1
  · exact ⟨k, rfl, ht.1⟩
  · simp at ht

theorem token_of_values (h : Numbered issued names values) {token : String} (ht : token ∈ Entries.keys values) :
    ∃ k, token = valueToken k ∧ token ∈ issued := by
  rw [h.values, List.mem_filter] at ht
  obtain ⟨k, -, rfl | rfl⟩ := h.kind ht.1
  · simp at ht
  · exact ⟨k, rfl, ht.1⟩

theorem token_concat {token : String} (h : Numbered issued names values)
    (ht : token = nameToken issued.length ∨ token = valueToken issued.length) (i : Nat) (s : String)
    (hs : (issued ++ [token])[i]? = some s) : s = nameToken i ∨ s = valueToken i := by
  rcases Nat.lt_trichotomy i issued.length with hi | rfl | hi
  · rw [List.getElem?_append_left hi] at hs
    exact h.token i s hs
  · rw [List.getElem?_concat_length] at hs
    exact Option.some.inj hs ▸ ht
  · rw [List.getElem?_eq_none (by simp; omega)] at hs
    cases hs

theorem addName (h : Numbered issued names values) :
    Numbered (issued ++ [nameToken issued.length]) (names ++ [(nameToken issued.length, name)]) values where
  token := h.token_concat (.inl rfl)
  names := by simp [Entries.keys, ← h.names]
  values := by simp [h.values]

theorem addValue (h : Numbered issued names values) :
    Numbered (issued ++ [valueToken issued.length]) names (values ++ [(valueToken issued.length, w)]) where
  token := h.token_concat (.inr rfl)
  names := by simp [h.names]
  values := by simp [Entries.keys, ← h.values]

theorem new_notin (h : Numbered issued names values) :
    nameToken issued.length ∉ issued ∧ valueToken issued.length ∉ issued := by
  have hbound {k : Nat} {token : String} (hk : issued[k]? = some token) : k < issued.length :=
    (List.getElem?_eq_some_iff.1 hk).1
  constructor
  · intro hmem
    obtain ⟨k, hk, hkind⟩ := h.kind hmem
    rcases hkind with hkind | hkind
    · exact absurd (hbound hk) (by rw [nameToken_inj hkind]; omega)
    · exact nameToken_ne_valueToken hkind
  · intro hmem
    obtain ⟨k, hk, hkind⟩ := h.kind hmem
    rcases hkind with hkind | hkind
    · exact nameToken_ne_valueToken hkind.symm
    · exact absurd (hbound hk) (by rw [valueToken_inj hkind]; omega)

end Numbered

theorem Extends.refl : t.Extends t :=
  ⟨rfl, List.prefix_rfl, List.prefix_rfl, List.prefix_rfl, List.prefix_rfl⟩

theorem Extends.trans (h : t.Extends u) (h' : u.Extends v) : t.Extends v :=
  ⟨h'.options.trans h.options, h.names.trans h'.names, h.values.trans h'.values, h.nameTokens.trans h'.nameTokens,
    h.valueTokens.trans h'.valueTokens⟩

def nameAt? (t : Tokens) (k : Nat) : Option String := Entries.get? (nameToken k) t.names

def wireAt? (t : Tokens) (k : Nat) : Option Wire := Entries.get? (valueToken k) t.values

theorem Extends.nameAt? (h : t.Extends u) (hk : t.nameAt? k = some name) : u.nameAt? k = some name :=
  Entries.get?_of_prefix h.names hk

theorem Extends.wireAt? (h : t.Extends u) (hk : t.wireAt? k = some w) : u.wireAt? k = some w :=
  Entries.get?_of_prefix h.values hk

namespace Indexed

theorem new {options : MarshalOptions} : Indexed [] { options } where
  toNumbered := .nil
  counter := rfl
  nameTokens := by simp [Entries.get?]
  valueTokens := by simp [Entries.get?]

theorem get?_names_new (h : Indexed issued t) : Entries.get? (nameToken t.counter) t.names = none := by
  refine Entries.get?_eq_none_iff.2 fun hmem => ?_
  obtain ⟨-, -, hissued⟩ := h.token_of_names hmem
  exact h.new_notin.1 (h.counter ▸ hissued)

theorem get?_values_new (h : Indexed issued t) : Entries.get? (valueToken t.counter) t.values = none := by
  refine Entries.get?_eq_none_iff.2 fun hmem => ?_
  obtain ⟨-, -, hissued⟩ := h.token_of_values hmem
  exact h.new_notin.2 (h.counter ▸ hissued)

theorem nameAt?_of_get? (h : Indexed issued t) (hfound : Entries.get? name t.nameTokens = some token) :
    ∃ k, token = nameToken k ∧ token ∈ issued ∧ t.nameAt? k = some name := by
  have hmem := (h.nameTokens name token).1 hfound
  obtain ⟨k, rfl, hissued⟩ := h.token_of_names (List.mem_map_of_mem (f := Prod.fst) hmem)
  exact ⟨k, rfl, hissued, Entries.get?_of_mem h.nodup_names hmem⟩

theorem wireAt?_of_get? (h : Indexed issued t) (hfound : w.identity?.bind (Entries.get? · t.valueTokens) = some token) :
    ∃ k, token = valueToken k ∧ token ∈ issued ∧ t.wireAt? k = some w := by
  obtain ⟨key, hkey, hfound⟩ := Option.bind_eq_some_iff.1 hfound
  obtain ⟨x, hmem, hx⟩ := (h.valueTokens key token).1 hfound
  obtain rfl := Wire.identity?_inj hx hkey
  obtain ⟨k, rfl, hissued⟩ := h.token_of_values (List.mem_map_of_mem (f := Prod.fst) hmem)
  exact ⟨k, rfl, hissued, Entries.get?_of_mem h.nodup_values hmem⟩

theorem distinct (h : Indexed issued t) : t.Distinct := by
  refine List.Nodup.map_on (fun e he f hf hsame => ?_) (List.Nodup.of_map Prod.fst h.nodup_names)
  have hback := (h.nameTokens e.2 e.1).2 he
  rw [hsame, (h.nameTokens f.2 f.1).2 hf] at hback
  exact Prod.ext (Option.some.inj hback).symm hsame

end Indexed

/-- A name that is there answers with its token. Any other is entered behind the names, under the next token. -/
theorem addField_cases (h : Indexed issued t) (name : String) :
    (∃ token, Entries.get? name t.nameTokens = some token ∧ t.addField name = (token, t)) ∨
      Entries.get? name t.nameTokens = none ∧ t.addField name = (nameToken t.counter, { t with
        names := t.names ++ [(nameToken t.counter, name)]
        nameTokens := t.nameTokens ++ [(name, nameToken t.counter)]
        counter := t.counter + 1 }) := by
  rw [addField]
  cases hfound : Entries.get? name t.nameTokens with
  | some token => exact .inl ⟨token, rfl, rfl⟩
  | none =>
    refine .inr ⟨rfl, ?_⟩
    simp only [Entries.insert_of_get?_eq_none hfound, Entries.insert_of_get?_eq_none h.get?_names_new]

/-- A value with a key that is there answers with its token. Any other is entered behind the values, under the next
token. -/
theorem addWire_cases (h : Indexed issued t) (w : Wire) :
    (∃ token, w.identity?.bind (Entries.get? · t.valueTokens) = some token ∧ t.addWire w = (token, t)) ∨
      w.identity?.bind (Entries.get? · t.valueTokens) = none ∧ t.addWire w = (valueToken t.counter, { t with
        values := t.values ++ [(valueToken t.counter, w)]
        valueTokens := t.valueTokens ++ (w.identity?.map (·, valueToken t.counter)).toList
        counter := t.counter + 1 }) := by
  rw [addWire]
  cases hfound : w.identity?.bind (Entries.get? · t.valueTokens) with
  | some token => exact .inl ⟨token, rfl, rfl⟩
  | none =>
    refine .inr ⟨rfl, ?_⟩
    simp only [Entries.insert_of_get?_eq_none h.get?_values_new]
    cases hkey : w.identity? with
    | none => simp
    | some key =>
      rw [hkey, Option.bind_some] at hfound
      simp [Entries.insert_of_get?_eq_none hfound]

theorem addField_extends (h : Indexed issued t) : t.Extends (t.addField name).2 := by
  obtain ⟨token, -, hadd⟩ | ⟨-, hadd⟩ := addField_cases h name <;> rw [hadd]
  · exact .refl
  · exact ⟨rfl, List.prefix_append _ _, List.prefix_rfl, List.prefix_append _ _, List.prefix_rfl⟩

theorem addWire_extends (h : Indexed issued t) : t.Extends (t.addWire w).2 := by
  obtain ⟨token, -, hadd⟩ | ⟨-, hadd⟩ := addWire_cases h w <;> rw [hadd]
  · exact .refl
  · exact ⟨rfl, List.prefix_rfl, List.prefix_append _ _, List.prefix_rfl, List.prefix_append _ _⟩

theorem Indexed.addName (h : Indexed issued t) (hnew : Entries.get? name t.nameTokens = none) :
    Indexed (issued ++ [nameToken t.counter]) { t with
      names := t.names ++ [(nameToken t.counter, name)]
      nameTokens := t.nameTokens ++ [(name, nameToken t.counter)]
      counter := t.counter + 1 } where
  toNumbered := h.counter ▸ h.toNumbered.addName
  counter := by simp [h.counter]
  nameTokens other token := by
    have hnot : ∀ token, (token, name) ∉ t.names := fun token hmem => by
      rw [(h.nameTokens name token).2 hmem] at hnew
      cases hnew
    rw [← Entries.insert_of_get?_eq_none hnew, Entries.get?_insert]
    by_cases hname : name = other
    · subst hname
      simp [hnot, eq_comm]
    · simp [hname, h.nameTokens, Ne.symm hname]
  valueTokens := h.valueTokens

theorem Indexed.addValue (h : Indexed issued t) (hnew : w.identity?.bind (Entries.get? · t.valueTokens) = none) :
    Indexed (issued ++ [valueToken t.counter]) { t with
      values := t.values ++ [(valueToken t.counter, w)]
      valueTokens := t.valueTokens ++ (w.identity?.map (·, valueToken t.counter)).toList
      counter := t.counter + 1 } where
  toNumbered := h.counter ▸ h.toNumbered.addValue
  counter := by simp [h.counter]
  nameTokens := h.nameTokens
  valueTokens other token := by
    cases hkey : w.identity? with
    | none => simp [h.valueTokens, hkey, or_and_right, exists_or]
    | some key =>
      rw [hkey, Option.bind_some] at hnew
      have hnot : ∀ token x, (token, x) ∈ t.values → x.identity? ≠ some key := fun token x hmem hx => by
        rw [(h.valueTokens key token).2 ⟨x, hmem, hx⟩] at hnew
        cases hnew
      rw [Option.map_some, Option.toList_some, ← Entries.insert_of_get?_eq_none hnew, Entries.get?_insert]
      by_cases hother : key = other
      · subst hother
        simp only [if_true, Option.some.injEq, List.mem_append, List.mem_singleton, Prod.mk.injEq]
        constructor
        · rintro rfl
          exact ⟨w, .inr ⟨rfl, rfl⟩, hkey⟩
        · rintro ⟨x, hmem | ⟨htoken, -⟩, hx⟩
          · exact absurd hx (hnot token x hmem)
          · exact htoken.symm
      · simp [hother, h.valueTokens, or_and_right, exists_or, hkey]

theorem addField_indexed (name : String) (h : Indexed issued t) : ∃ k, (addField name t).1 = nameToken k ∧
    (addField name t).2.nameAt? k = some name ∧ Indexed (issued ++ [nameToken k]).eraseDups (addField name t).2 := by
  obtain ⟨token, hfound, hadd⟩ | ⟨hnew, hadd⟩ := addField_cases h name <;> rw [hadd]
  · obtain ⟨k, rfl, hissued, hat⟩ := h.nameAt?_of_get? hfound
    exact ⟨k, rfl, hat, by rwa [eraseDups_concat h.nodup, if_pos hissued]⟩
  · refine ⟨t.counter, rfl, Entries.get?_append_self h.get?_names_new, ?_⟩
    rw [eraseDups_concat h.nodup, if_neg (h.counter ▸ h.new_notin.1)]
    exact h.addName hnew

theorem addWire_indexed (h : Indexed issued t) : ∃ k, (addWire w t).1 = valueToken k ∧
    (addWire w t).2.wireAt? k = some w ∧ Indexed (issued ++ [valueToken k]).eraseDups (addWire w t).2 := by
  obtain ⟨token, hfound, hadd⟩ | ⟨hnew, hadd⟩ := addWire_cases h w <;> rw [hadd]
  · obtain ⟨k, rfl, hissued, hat⟩ := h.wireAt?_of_get? hfound
    exact ⟨k, rfl, hat, by rwa [eraseDups_concat h.nodup, if_pos hissued]⟩
  · refine ⟨t.counter, rfl, Entries.get?_append_self h.get?_values_new, ?_⟩
    rw [eraseDups_concat h.nodup, if_neg (h.counter ▸ h.new_notin.2)]
    exact h.addValue hnew

theorem tokensIn_restChars_name {rest : List (Step Nat)} :
    tokensIn (Step.restChars (.name k :: rest)) = nameToken k :: tokensIn (Step.restChars rest) := by
  have hhead : ∀ c ∈ (Step.restChars rest).head?, continuesToken c = false := by
    cases rest with
    | nil => simp [Step.restChars]
    | cons s rest => cases s <;> simp [Step.restChars, DocumentPath.indexChars, continuesToken, NumberReader.isAsciiDigit]
  have hpoint : isGlue ['.'] = true := by decide
  have hglue := tokensIn_glue_start (y := nameChars k ++ Step.restChars rest) hpoint
  rw [tokensIn_append hhead, tokensIn_nameChars] at hglue
  exact hglue

theorem tokensIn_restChars_index {i : Nat} {rest : List (Step Nat)} :
    tokensIn (Step.restChars (.index i :: rest)) = tokensIn (Step.restChars rest) :=
  tokensIn_glue_start isGlue_indexChars

theorem tokensIn_chars {steps : List (Step Nat)} : tokensIn (Step.chars steps) = tokensIn (Step.restChars steps) := by
  have hpoint : isGlue ['.'] = true := by decide
  rcases steps with _ | ⟨k | i, rest⟩
  · rfl
  · exact (tokensIn_glue_start hpoint).symm
  · rfl

theorem addElements_frame {steps : List PathStep} {out : String} :
    (addElements steps out t).2.options = t.options ∧ (addElements steps out t).2.values = t.values := by
  induction steps generalizing out t with
  | nil => exact ⟨rfl, rfl⟩
  | cons s rest ih =>
    cases s with
    | name s =>
      have hfield : (addField s t).2.options = t.options ∧ (addField s t).2.values = t.values := by
        rw [addField]
        cases Entries.get? s t.nameTokens <;> exact ⟨rfl, rfl⟩
      rw [addElements]
      exact ⟨ih.1.trans hfield.1, ih.2.trans hfield.2⟩
    | index i => exact ih

theorem addPath_options {p : DocumentPath} : (t.addPath p).2.options = t.options := addElements_frame.1

theorem addPath_values {p : DocumentPath} : (t.addPath p).2.values = t.values := addElements_frame.2

/-- The names of the steps are entered one after the other, behind what has been written of the path. -/
theorem addElements_indexed (steps : List PathStep) (out : String) (h : Indexed issued t) :
    ∃ q : List (Step Nat),
      (addElements steps out t).1.toList = out.toList ++ (if out.isEmpty then Step.chars q else Step.restChars q) ∧
      t.Extends (addElements steps out t).2 ∧
      Indexed (issued ++ tokensIn (Step.chars q)).eraseDups (addElements steps out t).2 ∧
      ∀ u, (addElements steps out t).2.Extends u → q.map (Step.map u.nameAt?) = steps.map (PathStep.outline some) := by
  induction steps generalizing out t issued with
  | nil =>
    refine ⟨[], ?_, .refl, ?_, fun u _ => rfl⟩
    · simp [addElements, Step.chars, Step.restChars]
    · simpa [addElements, Step.chars, Step.restChars, tokensIn, eraseDups_of_nodup h.nodup] using h
  | cons s rest ih =>
    cases s with
    | name s =>
      obtain ⟨k, htoken, hat, hk⟩ := addField_indexed s h
      obtain ⟨q, hq, hextends, hnum, hmap⟩ :=
        ih (if out.isEmpty then (addField s t).1 else out ++ "." ++ (addField s t).1) hk
      refine ⟨.name k :: q, ?_, (addField_extends h).trans hextends, ?_, fun u hu => ?_⟩
      · have htokenne : nameToken k ≠ "" := by
          intro he
          have hlist := congrArg String.toList he
          rw [toList_nameToken] at hlist
          cases hlist
        rw [addElements, hq, htoken]
        by_cases ho : out = ""
        · simp [ho, htokenne, Step.chars, toList_nameToken]
        · simp [ho, Step.restChars, toList_nameToken]
      · rw [tokensIn_chars, tokensIn_restChars_name, ← List.singleton_append, ← tokensIn_chars]
        rw [← List.append_assoc, ← eraseDups_append_of_nodup hk.nodup]
        exact hnum
      · have hname : u.nameAt? k = some s := (hextends.trans hu).nameAt? hat
        rw [List.map_cons, List.map_cons, hmap u hu, Step.map, hname]
        rfl
    | index i =>
      obtain ⟨q, hq, hextends, hnum, hmap⟩ := ih (out ++ String.ofList (DocumentPath.indexChars i)) h
      refine ⟨.index i :: q, ?_, hextends, ?_, fun u hu => ?_⟩
      · rw [addElements, hq]
        by_cases ho : out = ""
        · subst ho
          simp [Step.chars, Step.restChars, DocumentPath.indexChars]
        · simp [ho, Step.restChars]
      · rw [tokensIn_chars, tokensIn_restChars_index, ← tokensIn_chars]
        exact hnum
      · rw [List.map_cons, List.map_cons, hmap u hu]
        rfl

theorem addPath_extends {p : DocumentPath} (h : Indexed issued t) : t.Extends (t.addPath p).2 := by
  obtain ⟨q, -, hextends, -⟩ := addElements_indexed p.elements "" h
  exact hextends

theorem Leads.trans (h : t.Leads u) (h' : u.Leads v) : t.Leads v := by
  induction h' with
  | refl => exact h
  | path p _ ih => exact ih.path p
  | wire w _ ih => exact ih.wire w

theorem Leads.indexed (h : t.Leads u) (ht : Indexed issued t) : ∃ issued, Indexed issued u := by
  induction h with
  | refl => exact ⟨issued, ht⟩
  | path p _ ih =>
    obtain ⟨issued, h⟩ := ih
    obtain ⟨q, -, -, hq, -⟩ := addElements_indexed p.elements "" h
    exact ⟨_, hq⟩
  | wire w _ ih =>
    obtain ⟨issued, h⟩ := ih
    obtain ⟨k, -, -, hk⟩ := addWire_indexed (w := w) h
    exact ⟨_, hk⟩

theorem Leads.extends (h : t.Leads u) (ht : Indexed issued t) : t.Extends u := by
  induction h with
  | refl => exact .refl
  | path p h ih =>
    obtain ⟨_, hu⟩ := h.indexed ht
    exact ih.trans (addPath_extends hu)
  | wire w h ih =>
    obtain ⟨_, hu⟩ := h.indexed ht
    exact ih.trans (addWire_extends hu)

theorem Distinct.nameAt?_inj (h : t.Distinct) (hj : t.nameAt? j = some name) (hk : t.nameAt? k = some name) : j = k := by
  have hsame := List.inj_on_of_nodup_map h (Entries.mem_of_get? hj) (Entries.mem_of_get? hk) rfl
  exact nameToken_inj (Prod.mk.inj hsame).1

end Tokens

end ItemMapper
