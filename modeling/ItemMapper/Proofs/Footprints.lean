import ItemMapper.Proofs.Digits
import ItemMapper.Schema.Survey

/-!
# Footprints

The keys under which variants are picked at a position and below it. Where no declared name has a point, a bracket
or a bar in it, positions side by side have no key in common.
-/

namespace ItemMapper

def isSeparator (c : Char) : Bool := c = '.' || c = '[' || c = '|'

structure ClearName (name : String) : Prop where
  ne_empty : name ≠ ""
  clear : ∀ c ∈ name.toList, isSeparator c = false

def Below (path k : String) : Prop := ∃ c rest, (c = '.' ∨ c = '[') ∧ k.toList = path.toList ++ c :: rest

def Under (key path k : String) : Prop := (∃ j, k.toList = key.toList ++ List.replicate j '|') ∨ Below path k

def Barred (path key : String) : Prop := ∃ j, key.toList = path.toList ++ List.replicate j '|'

variable {path key k : String} {a b : String} {i j : Nat} {xs ys : List Char}

theorem toList_nestedKey : (nestedKey key).toList = key.toList ++ ['|'] := by
  rw [nestedKey, String.toList_append]
  rfl

theorem toList_memberPath :
    (memberPath path a).toList = (if path = "" then [] else path.toList ++ ['.']) ++ a.toList := by
  rw [memberPath]
  split
  · rfl
  · rw [String.toList_append, String.toList_append]
    rfl

theorem toList_elementPath :
    (elementPath path i).toList = path.toList ++ '[' :: NumberLayout.natDigits i ++ [']'] := by
  rw [elementPath, String.toList_append, String.toList_append, intText, String.toList_ofList]
  simp [intChars, NumberLayout.sign]

theorem barred_self : Barred path path := ⟨0, by simp⟩

theorem Barred.nestedKey (h : Barred path key) : Barred path (nestedKey key) := by
  obtain ⟨j, hj⟩ := h
  refine ⟨j + 1, ?_⟩
  rw [toList_nestedKey, hj, List.replicate_succ', List.append_assoc]

theorem memberPath_eq_empty_iff : memberPath path a = "" ↔ path = "" ∧ a = "" := by
  rw [← String.toList_eq_nil_iff, toList_memberPath, List.append_eq_nil_iff, String.toList_eq_nil_iff]
  by_cases hp : path = "" <;> simp [hp]

theorem memberPath_ne_empty (h : ClearName a) : memberPath path a ≠ "" :=
  fun he => h.ne_empty (memberPath_eq_empty_iff.1 he).2

theorem elementPath_ne_empty : elementPath path i ≠ "" := by
  intro he
  have hlist := congrArg String.toList he
  rw [toList_elementPath] at hlist
  simp at hlist

theorem under_self : Under key path key := .inl ⟨0, by simp⟩

theorem Under.of_nestedKey (h : Under (nestedKey key) path k) : Under key path k := by
  rcases h with ⟨j, hj⟩ | h
  · refine .inl ⟨j + 1, ?_⟩
    rw [hj, toList_nestedKey, List.append_assoc, List.replicate_succ]
    rfl
  · exact .inr h

theorem Barred.not_under (h : Barred path key) : ¬ Under (ItemMapper.nestedKey key) path key := by
  rintro (⟨j, hj⟩ | ⟨c, rest, hc, hkey⟩)
  · have hlength := congrArg List.length hj
    rw [toList_nestedKey] at hlength
    simp at hlength
  · obtain ⟨j, hj⟩ := h
    rw [hj] at hkey
    have htail := List.append_cancel_left hkey
    have hmem : c ∈ List.replicate j '|' := htail ▸ List.mem_cons_self
    obtain rfl := List.eq_of_mem_replicate hmem
    rcases hc with hc | hc <;> cases hc

theorem Under.append (h : Under path path k) :
    ∃ rest, k.toList = path.toList ++ rest ∧ ∀ c, rest.head? = some c → isSeparator c = true := by
  rcases h with ⟨j, hj⟩ | ⟨c, rest, hc, hk⟩
  · refine ⟨_, hj, fun c hc => ?_⟩
    obtain rfl := List.eq_of_mem_replicate (List.mem_of_mem_head? hc)
    rfl
  · refine ⟨_, hk, fun d hd => ?_⟩
    obtain rfl := Option.some.inj hd
    rcases hc with rfl | rfl <;> rfl

theorem Under.below_of_member (hp : path ≠ "") (h : Under (memberPath path a) (memberPath path a) k) :
    Below path k := by
  obtain ⟨rest, hk, -⟩ := h.append
  rw [toList_memberPath, if_neg hp] at hk
  exact ⟨'.', a.toList ++ rest, .inl rfl, by simp [hk]⟩

theorem Under.below_of_element (h : Under (elementPath path i) (elementPath path i) k) : Below path k := by
  obtain ⟨rest, hk, -⟩ := h.append
  rw [toList_elementPath] at hk
  exact ⟨'[', _, .inr rfl, by rw [hk, List.append_assoc, List.append_assoc, List.cons_append]⟩

theorem takeWhile_append_separator {stops : Char → Bool} (h : ∀ c ∈ xs, stops c = false)
    (hy : ∀ c, ys.head? = some c → stops c = true) : (xs ++ ys).takeWhile (!stops ·) = xs := by
  rw [List.takeWhile_append_of_pos fun c hc => by simp [h c hc]]
  cases ys with
  | nil => simp
  | cons c rest => simp [hy c rfl]

theorem members_disjoint (ha : ClearName a) (hb : ClearName b) (hka : Under (memberPath path a) (memberPath path a) k)
    (hkb : Under (memberPath path b) (memberPath path b) k) : a = b := by
  obtain ⟨rest, hrest, hr⟩ := hka.append
  obtain ⟨rest', hrest', hr'⟩ := hkb.append
  rw [hrest, toList_memberPath, toList_memberPath, List.append_assoc, List.append_assoc] at hrest'
  have hsame := congrArg (List.takeWhile (!isSeparator ·)) (List.append_cancel_left hrest')
  rw [takeWhile_append_separator ha.clear hr, takeWhile_append_separator hb.clear hr'] at hsame
  exact String.toList_inj.1 hsame

theorem takeWhile_natDigits_append :
    (NumberLayout.natDigits i ++ ']' :: xs).takeWhile NumberReader.isAsciiDigit = NumberLayout.natDigits i := by
  rw [List.takeWhile_append_of_pos fun c hc => NumberReader.isAsciiDigit_of_mem_natDigits hc]
  have hbracket : NumberReader.isAsciiDigit ']' = false := by decide
  simp [hbracket]

theorem elements_disjoint (hi : Under (elementPath path i) (elementPath path i) k)
    (hj : Under (elementPath path j) (elementPath path j) k) : i = j := by
  obtain ⟨rest, hrest, -⟩ := hi.append
  obtain ⟨rest', hrest', -⟩ := hj.append
  rw [hrest, toList_elementPath, toList_elementPath] at hrest'
  simp only [List.append_assoc, List.cons_append, List.nil_append] at hrest'
  have hdigits := congrArg (List.takeWhile NumberReader.isAsciiDigit) (List.cons.inj (List.append_cancel_left hrest')).2
  rw [takeWhile_natDigits_append, takeWhile_natDigits_append] at hdigits
  exact NumberReader.natDigits_injective hdigits

end ItemMapper
