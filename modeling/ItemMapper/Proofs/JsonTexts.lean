import ItemMapper.Proofs.JsonNumbers
import ItemMapper.Proofs.WireJson

/-!
# JSON values and their texts

The text of a JSON value is read as that value, provided its integers are of 64 bits and its floats are finite. The
reader keeps the order of members and items, so that nothing of a value is lost in its text.
-/

namespace ItemMapper

theorem Hex.value?_digit {n : Nat} (h : n < 16) : Hex.value? (Hex.digit n) = some n := by
  have hall : ∀ d : Fin 16, Hex.value? (Hex.digit d) = some d.val := by decide
  exact hall ⟨n, h⟩

namespace Json

open NumberReader (isWord)

inductive Printable : Json → Prop
  | null : Printable .null
  | bool (b : Bool) : Printable (.bool b)
  | int {i : Int} (h : isWord i = true) : Printable (.int i)
  | float {x : Binary64} (h : x.isFinite = true) : Printable (.float x)
  | string (s : String) : Printable (.string s)
  | array {items : List Json} (h : ∀ j ∈ items, Printable j) : Printable (.array items)
  | object {members : List (String × Json)} (h : ∀ e ∈ members, Printable e.2) : Printable (.object members)

variable {c : Char} {acc cs literal rest : List Char} {fuel : Nat} {s : String} {j : Json} {items : List Json}
  {members : List (String × Json)}

theorem unicodeEscape?_control (h : c.toNat < 32) :
    unicodeEscape? ('0' :: '0' :: Hex.digit (c.toNat / 16) :: Hex.digit (c.toNat % 16) :: rest) = some (c, rest) := by
  have hzero : Hex.value? '0' = some 0 := by decide
  have hhigh : Hex.value? (Hex.digit (c.toNat / 16)) = some (c.toNat / 16) := Hex.value?_digit (by omega)
  have hlow : Hex.value? (Hex.digit (c.toNat % 16)) = some (c.toNat % 16) := Hex.value?_digit (by omega)
  have hcode : ((0 * 16 + 0) * 16 + c.toNat / 16) * 16 + c.toNat % 16 = c.toNat := by omega
  have hhex : hex4? ('0' :: '0' :: Hex.digit (c.toNat / 16) :: Hex.digit (c.toNat % 16) :: rest) =
      some (c.toNat, rest) := by
    simp only [hex4?, hzero, hhigh, hlow, Option.bind_eq_bind, Option.bind_some, hcode]
    rfl
  rw [unicodeEscape?, hhex]
  simp only [Option.bind_eq_bind, Option.bind_some]
  rw [if_neg (by omega), if_neg (by omega), Char.ofNat_toNat]
  rfl

theorem parseString_escape : parseString (fuel + 1) acc (escape c ++ rest) = parseString fuel (c :: acc) rest := by
  have hof {n : Nat} (h : c.toNat = n) : Char.ofNat n = c := h ▸ Char.ofNat_toNat c
  rw [escape.eq_def]
  split
  · rfl
  · rfl
  · rfl
  · rfl
  · rfl
  split
  · rename_i h
    rw [← hof h]
    rfl
  split
  · rename_i h
    rw [← hof h]
    rfl
  split
  · rename_i h
    have hread : unicodeEscape? ('0' :: '0' :: Hex.digit (c.toNat / 16) :: Hex.digit (c.toNat % 16) :: rest) = _ :=
      unicodeEscape?_control h
    simp only [List.cons_append, List.nil_append, parseString]
    rw [if_neg (by decide), if_pos trivial, hread]
    rfl
  · rename_i hquote hbackslash _ _ _ _ _ h
    simp only [List.singleton_append, parseString, if_neg hquote, if_neg hbackslash, if_neg h]

theorem parseString_escaped (h : cs.length < fuel) :
    parseString fuel acc (cs.flatMap escape ++ '"' :: rest) = some (String.ofList (acc.reverse ++ cs), rest) := by
  induction cs generalizing acc fuel with
  | nil =>
    obtain ⟨fuel, rfl⟩ := Nat.exists_eq_add_one_of_ne_zero (Nat.ne_zero_of_lt h)
    rw [List.flatMap_nil, List.append_nil]
    rfl
  | cons c cs ih =>
    obtain ⟨fuel, rfl⟩ := Nat.exists_eq_add_one_of_ne_zero (Nat.ne_zero_of_lt h)
    rw [List.flatMap_cons, List.append_assoc, parseString_escape, ih (Nat.lt_of_succ_lt_succ h)]
    simp

theorem length_le_escaped : cs.length ≤ (cs.flatMap escape).length := by
  induction cs with
  | nil => rfl
  | cons c cs ih =>
    have hpos : 0 < (escape c).length := by
      rw [escape.eq_def]
      repeat' split
      all_goals simp
    rw [List.flatMap_cons, List.length_append, List.length_cons]
    omega

theorem parseString_quoted : parseString ((s.toList.flatMap escape ++ '"' :: rest).length + 1) []
    (s.toList.flatMap escape ++ '"' :: rest) = some (s, rest) := by
  have hlength : s.toList.length ≤ (s.toList.flatMap escape).length := length_le_escaped
  rw [parseString_escaped (by rw [List.length_append]; omega), List.reverse_nil, List.nil_append, String.ofList_toList]

theorem not_isJsonBlank_of_isNumberChar (h : isNumberChar c = true) : isJsonBlank c = false := by
  rw [isJsonBlank]
  simp only [Bool.or_eq_false_iff, beq_eq_false_iff_ne, ne_eq]
  refine ⟨⟨⟨?_, ?_⟩, ?_⟩, ?_⟩ <;> rintro rfl <;> cases h

theorem skipBlank_cons (h : isJsonBlank c = false) : skipBlank (c :: rest) = c :: rest :=
  List.dropWhile_cons_of_neg (by simp [h])

theorem parseValue_number (hread : number? literal = some j) (hchars : ∀ c ∈ literal, isNumberChar c = true)
    (hrest : ∀ c, rest.head? = some c → isNumberChar c = false) :
    parseValue (fuel + 1) (literal ++ rest) = some (j, rest) := by
  cases literal with
  | nil => cases hread
  | cons c literal =>
    have hc := hchars c List.mem_cons_self
    have hother {d : Char} (h : isNumberChar d = false) : c ≠ d := by
      rintro rfl
      rw [hc] at h
      cases h
    have hskip : skipBlank (c :: literal ++ rest) = c :: literal ++ rest :=
      skipBlank_cons (not_isJsonBlank_of_isNumberChar hc)
    have htake : (c :: literal ++ rest).takeWhile isNumberChar = c :: literal := by
      rw [List.takeWhile_append_of_pos hchars]
      cases rest with
      | nil => simp
      | cons d rest => simp [hrest d rfl]
    have hdrop : (c :: literal ++ rest).dropWhile isNumberChar = rest := by
      rw [List.dropWhile_append_of_pos hchars]
      cases rest with
      | nil => rfl
      | cons d rest => simp [hrest d rfl]
    rw [parseValue, hskip]
    split
    case h_7 =>
      rw [htake, hdrop, hread]
      rfl
    all_goals
      rename_i heq
      exact absurd (List.cons.inj heq).1 (hother (by decide))

def Stops (rest : List Char) : Prop := ∀ c, rest.head? = some c → isNumberChar c = false

theorem stops_cons (h : isNumberChar c = false) : Stops (c :: rest) := fun d hd => by
  obtain rfl := Option.some.inj hd
  exact h

/-- A value is read from its text, whatever stops it behind, with as much depth as the text has characters. -/
def ReadsBack (j : Json) : Prop := ∀ (rest : List Char) (fuel : Nat), Stops rest → j.render.toList.length ≤ fuel + 1 →
  parseValue (fuel + 1) (j.render.toList ++ rest) = some (j, rest)

structure IsLiteral (j : Json) : Prop where
  read : number? j.render.toList = some j
  chars : ∀ c ∈ j.render.toList, isNumberChar c = true

theorem isLiteral_int {i : Int} (h : isWord i = true) : (int i).IsLiteral := by
  constructor
  · rw [render, intText, String.toList_ofList]
    exact NumberReader.number?_intChars h
  · rw [render, intText, String.toList_ofList]
    exact isNumberChar_intChars i

theorem isLiteral_float {x : Binary64} (h : x.isFinite = true) : (float x).IsLiteral := by
  have htext : (float x).render.toList = NumberLayout.json.chars x := by
    rw [render, floatText, if_pos h, NumberLayout.text, String.toList_ofList]
  obtain ⟨hread, hchars⟩ := number?_json h
  exact ⟨by rwa [htext], by rwa [htext]⟩

theorem IsLiteral.readsBack (h : j.IsLiteral) : j.ReadsBack := fun _ _ hrest _ => parseValue_number h.read h.chars hrest

theorem IsLiteral.eq_cons (h : j.IsLiteral) :
    ∃ c rest, j.render.toList = c :: rest ∧ isJsonBlank c = false ∧ c ≠ ']' := by
  have hread := h.read
  have hchars := h.chars
  cases htext : j.render.toList with
  | nil =>
    rw [htext] at hread
    cases hread
  | cons c rest =>
    rw [htext] at hchars
    have hc := hchars c List.mem_cons_self
    refine ⟨c, rest, rfl, not_isJsonBlank_of_isNumberChar hc, ?_⟩
    rintro rfl
    cases hc

theorem render_array : (array items).render.toList = '[' :: ((renderItems items).toList ++ [']']) := by
  rw [render, String.toList_append, String.toList_append]
  rfl

theorem render_object : (object members).render.toList = '\x7b' :: ((renderMembers members).toList ++ ['\x7d']) := by
  rw [render, String.toList_append, String.toList_append]
  rfl

theorem Printable.eq_cons (h : j.Printable) :
    ∃ c rest, j.render.toList = c :: rest ∧ isJsonBlank c = false ∧ c ≠ ']' := by
  cases h with
  | null => exact ⟨_, _, rfl, rfl, by decide⟩
  | bool b => cases b <;> exact ⟨_, _, rfl, rfl, by decide⟩
  | int hi => exact (isLiteral_int hi).eq_cons
  | float hx => exact (isLiteral_float hx).eq_cons
  | string s =>
    rw [render, quoted, String.toList_ofList]
    exact ⟨_, _, rfl, rfl, by decide⟩
  | array _ => exact ⟨_, _, render_array, rfl, by decide⟩
  | object _ => exact ⟨_, _, render_object, rfl, by decide⟩

theorem ReadsBack.parseValue (h : j.ReadsBack) (hj : j.Printable) (hrest : Stops rest)
    (hfuel : j.render.toList.length ≤ fuel) : parseValue fuel (j.render.toList ++ rest) = some (j, rest) := by
  obtain ⟨c, more, htext, -⟩ := hj.eq_cons
  obtain ⟨fuel, rfl⟩ : ∃ n, fuel = n + 1 := by
    rw [htext, List.length_cons] at hfuel
    exact Nat.exists_eq_add_one_of_ne_zero (by omega)
  exact h rest fuel hrest hfuel

theorem quoted_append : (quoted s).toList ++ rest = '"' :: (s.toList.flatMap escape ++ '"' :: rest) := by
  rw [quoted, String.toList_ofList]
  simp

theorem readsBack_string : (string s).ReadsBack := by
  intro rest fuel _ _
  rw [render, quoted_append, Json.parseValue, skipBlank_cons (by decide)]
  simp only [parseString_quoted]
  rfl

theorem parseValue_bracket (hc : isJsonBlank c = false) (hend : c ≠ ']') : parseValue (fuel + 1) ('[' :: c :: rest) =
    (parseItems fuel (c :: rest)).map fun read => (array read.1, read.2) := by
  have hbracket : skipBlank ('[' :: c :: rest) = '[' :: c :: rest := skipBlank_cons (by decide)
  rw [parseValue.eq_2, hbracket]
  simp only [skipBlank_cons hc]
  split
  · rename_i heq
    exact absurd (List.cons.inj heq).1 hend
  · rfl

theorem renderItems_cons {j' : Json} : (renderItems (j :: j' :: items)).toList =
    j.render.toList ++ ',' :: (renderItems (j' :: items)).toList := by
  have htext : renderItems (j :: j' :: items) = j.render ++ "," ++ renderItems (j' :: items) := by
    rw [renderItems]
    exact List.cons_ne_nil _ _
  rw [htext, String.toList_append, String.toList_append, List.append_assoc]
  rfl

theorem parseItems_render (hitems : ∀ j ∈ items, j.Printable ∧ j.ReadsBack) (hne : items ≠ [])
    (hfuel : (renderItems items).toList.length < fuel) :
    parseItems fuel ((renderItems items).toList ++ ']' :: rest) = some (items, rest) := by
  induction items generalizing fuel with
  | nil => exact absurd rfl hne
  | cons j items ih =>
    obtain ⟨⟨hj, hread⟩, hitems⟩ := List.forall_mem_cons.1 hitems
    obtain ⟨fuel, rfl⟩ := Nat.exists_eq_add_one_of_ne_zero (Nat.ne_zero_of_lt hfuel)
    cases items with
    | nil =>
      rw [renderItems] at hfuel ⊢
      rw [parseItems, hread.parseValue hj (stops_cons (by decide)) (Nat.le_of_lt_succ hfuel)]
      rfl
    | cons j' items =>
      rw [renderItems_cons, List.length_append, List.length_cons] at hfuel
      have hlast : parseItems fuel ((renderItems (j' :: items)).toList ++ ']' :: rest) = some (j' :: items, rest) :=
        ih hitems (List.cons_ne_nil _ _) (by omega)
      rw [renderItems_cons, List.append_assoc, List.cons_append, parseItems,
        hread.parseValue hj (stops_cons (by decide)) (by omega)]
      simp only [Option.bind_eq_bind, Option.bind_some]
      rw [skipBlank_cons (by decide)]
      simp only [hlast]
      rfl

theorem readsBack_array (hitems : ∀ j ∈ items, j.Printable ∧ j.ReadsBack) : (array items).ReadsBack := by
  intro rest fuel _ hfuel
  rw [render_array, List.length_cons, List.length_append, List.length_singleton] at hfuel
  rw [render_array, List.cons_append, List.append_assoc, List.singleton_append]
  cases items with
  | nil => rfl
  | cons j items =>
    have hread : parseItems fuel (_ ++ ']' :: rest) = _ :=
      parseItems_render hitems (List.cons_ne_nil _ _) (Nat.lt_of_succ_le (Nat.le_of_succ_le_succ hfuel))
    obtain ⟨c, more, hcons, hc, hend⟩ : ∃ c more, (renderItems (j :: items)).toList ++ ']' :: rest = c :: more ∧
        isJsonBlank c = false ∧ c ≠ ']' := by
      obtain ⟨c, more, hcons, hc, hend⟩ := (hitems j List.mem_cons_self).1.eq_cons
      cases items with
      | nil => exact ⟨c, _, by rw [renderItems, hcons]; rfl, hc, hend⟩
      | cons j' items => exact ⟨c, _, by rw [renderItems_cons, hcons]; rfl, hc, hend⟩
    rw [hcons] at hread ⊢
    rw [parseValue_bracket hc hend, hread]
    rfl

theorem parseValue_brace (hc : isJsonBlank c = false) (hend : c ≠ '\x7d') : parseValue (fuel + 1) ('\x7b' :: c :: rest) =
    (parseMembers fuel (c :: rest)).map fun read => (object read.1, read.2) := by
  have hbrace : skipBlank ('\x7b' :: c :: rest) = '\x7b' :: c :: rest := skipBlank_cons (by decide)
  rw [parseValue.eq_2, hbrace]
  simp only [skipBlank_cons hc]
  split
  · rename_i heq
    exact absurd (List.cons.inj heq).1 hend
  · rfl

theorem renderMembers_single {e : String × Json} :
    (renderMembers [e]).toList = (quoted e.1).toList ++ ':' :: e.2.render.toList := by
  rw [renderMembers]
  simp only [String.toList_append, List.append_assoc]
  rfl

theorem renderMembers_cons {e e' : String × Json} : (renderMembers (e :: e' :: members)).toList =
    (quoted e.1).toList ++ ':' :: (e.2.render.toList ++ ',' :: (renderMembers (e' :: members)).toList) := by
  have htext : renderMembers (e :: e' :: members) =
      quoted e.1 ++ ":" ++ e.2.render ++ "," ++ renderMembers (e' :: members) := by
    rw [renderMembers]
    exact List.cons_ne_nil _ _
  rw [htext]
  simp only [String.toList_append, List.append_assoc]
  rfl

theorem parseMembers_member {e : String × Json} (he : e.2.Printable ∧ e.2.ReadsBack) (hrest : Stops rest)
    (hfuel : e.2.render.toList.length ≤ fuel) :
    parseMembers (fuel + 1) ((quoted e.1).toList ++ ':' :: (e.2.render.toList ++ rest)) =
      match skipBlank rest with
      | ',' :: rest => (parseMembers fuel rest).map fun (members, rest) => (e :: members, rest)
      | '\x7d' :: rest => some ([e], rest)
      | _ => none := by
  rw [quoted_append, parseMembers, skipBlank_cons (by decide)]
  simp only [parseString_quoted, Option.bind_eq_bind, Option.bind_some]
  rw [skipBlank_cons (by decide)]
  simp only [he.2.parseValue he.1 hrest hfuel, Option.bind_some]
  rcases skipBlank rest with _ | ⟨c, rest⟩
  · rfl
  by_cases hcomma : c = ','
  · subst hcomma
    cases h : parseMembers fuel rest <;> simp [h]
  by_cases hbrace : c = '\x7d'
  · subst hbrace
    rfl
  · simp [hcomma, hbrace]

theorem parseMembers_render (hmembers : ∀ e ∈ members, e.2.Printable ∧ e.2.ReadsBack) (hne : members ≠ [])
    (hfuel : (renderMembers members).toList.length < fuel) :
    parseMembers fuel ((renderMembers members).toList ++ '\x7d' :: rest) = some (members, rest) := by
  induction members generalizing fuel with
  | nil => exact absurd rfl hne
  | cons e members ih =>
    obtain ⟨he, hmembers⟩ := List.forall_mem_cons.1 hmembers
    obtain ⟨fuel, rfl⟩ := Nat.exists_eq_add_one_of_ne_zero (Nat.ne_zero_of_lt hfuel)
    cases members with
    | nil =>
      rw [renderMembers_single, List.length_append, List.length_cons] at hfuel
      rw [renderMembers_single, List.append_assoc, List.cons_append,
        parseMembers_member he (stops_cons (by decide)) (by omega), skipBlank_cons (by decide)]
      rfl
    | cons e' members =>
      rw [renderMembers_cons, List.length_append, List.length_cons, List.length_append, List.length_cons] at hfuel
      have hlast : parseMembers fuel ((renderMembers (e' :: members)).toList ++ '\x7d' :: rest) =
          some (e' :: members, rest) := ih hmembers (List.cons_ne_nil _ _) (by omega)
      rw [renderMembers_cons, List.append_assoc, List.cons_append, List.append_assoc, List.cons_append,
        parseMembers_member he (stops_cons (by decide)) (by omega), skipBlank_cons (by decide)]
      simp only [hlast]
      rfl

theorem readsBack_object (hmembers : ∀ e ∈ members, e.2.Printable ∧ e.2.ReadsBack) : (object members).ReadsBack := by
  intro rest fuel _ hfuel
  rw [render_object, List.length_cons, List.length_append, List.length_singleton] at hfuel
  rw [render_object, List.cons_append, List.append_assoc, List.singleton_append]
  cases members with
  | nil => rfl
  | cons e members =>
    have hread : parseMembers fuel (_ ++ '\x7d' :: rest) = _ :=
      parseMembers_render hmembers (List.cons_ne_nil _ _) (Nat.lt_of_succ_le (Nat.le_of_succ_le_succ hfuel))
    obtain ⟨more, hcons⟩ : ∃ more, (renderMembers (e :: members)).toList ++ '\x7d' :: rest = '"' :: more := by
      cases members with
      | nil => exact ⟨_, by rw [renderMembers_single, List.append_assoc, quoted_append]⟩
      | cons e' members => exact ⟨_, by rw [renderMembers_cons, List.append_assoc, quoted_append]⟩
    rw [hcons] at hread ⊢
    rw [parseValue_brace (by decide) (by decide), hread]
    rfl

theorem Printable.readsBack (h : j.Printable) : j.ReadsBack := by
  induction j with
  | null => exact fun _ _ _ _ => rfl
  | bool b => cases b <;> exact fun _ _ _ _ => rfl
  | int i =>
    cases h with
    | int hi => exact (isLiteral_int hi).readsBack
  | float x =>
    cases h with
    | float hx => exact (isLiteral_float hx).readsBack
  | string s => exact readsBack_string
  | array items ih =>
    cases h with
    | array hitems => exact readsBack_array fun j hj => ⟨hitems j hj, ih j hj (hitems j hj)⟩
  | object members ih =>
    cases h with
    | object hmembers => exact readsBack_object fun e he => ⟨hmembers e he, ih e he (hmembers e he)⟩

/-- A value is read from its text. -/
theorem parse?_render (h : j.Printable) : parse? j.render = some j := by
  have hread := h.readsBack [] j.render.toList.length (by simp [Stops]) (Nat.le_succ _)
  rw [List.append_nil] at hread
  rw [parse?]
  simp only [hread, Option.bind_eq_bind, Option.bind_some]
  rfl

mutual

def floats : Json → List Binary64
  | float x => [x]
  | array items => floatsOfItems items
  | object members => floatsOfMembers members
  | _ => []

def floatsOfItems : List Json → List Binary64
  | [] => []
  | j :: rest => floats j ++ floatsOfItems rest

def floatsOfMembers : List (String × Json) → List Binary64
  | [] => []
  | (_, j) :: rest => floats j ++ floatsOfMembers rest

end

mutual

def depth : Json → Nat
  | array items => depthOfItems items + 1
  | object members => depthOfMembers members + 1
  | _ => 0

def depthOfItems : List Json → Nat
  | [] => 0
  | j :: rest => max (depth j) (depthOfItems rest)

def depthOfMembers : List (String × Json) → Nat
  | [] => 0
  | (_, j) :: rest => max (depth j) (depthOfMembers rest)

end

end Json

/-- A library that writes and reads JSON texts. It may read some floats as their neighbours, and it may refuse what is
nested too deep. -/
structure JsonTexts where
  write : Json → String
  read : String → Option Json
  ReadsExactly : Binary64 → Prop
  greatestDepth : Nat
  read_write : ∀ j : Json, j.Printable → (∀ x ∈ j.floats, ReadsExactly x) → j.depth ≤ greatestDepth →
    read (write j) = some j

def JsonTexts.compact (greatestDepth : Nat) : JsonTexts where
  write := Json.render
  read := Json.parse?
  ReadsExactly _ := True
  greatestDepth := greatestDepth
  read_write _ h _ _ := Json.parse?_render h

end ItemMapper
