import ItemMapper.Memory.Expression
import ItemMapper.Proofs.Cuts
import ItemMapper.Proofs.UniqueReading

/-!
# Texts of terms

The characters of terms are few: no blank is among them, no comma and no capital letter. So a text in which terms stand
between blanks and commas is cut into these terms, and a word in capitals is found just where it was written. The
tables of tokens lead from the text of a term to what it stands for, and from no other text to anything.
-/

namespace ItemMapper

open NumberReader

def tokenAlphabet : List Char := "0123456789#n:v".toList

def termAlphabet : List Char := "0123456789#n:v.[]()size".toList

variable {c : Char} {j k : Nat} {p : List (Step Nat)} {x : Term Nat Nat}

theorem digit_mem (h : isAsciiDigit c = true) : c ∈ "0123456789".toList := by
  have hall : ∀ n < 58, 48 ≤ n → Char.ofNat n ∈ "0123456789".toList := by decide
  rw [isAsciiDigit, Bool.and_eq_true, decide_eq_true_iff, decide_eq_true_iff] at h
  have hlow : 48 ≤ c.toNat := h.1
  have hhigh : c.toNat ≤ 57 := h.2
  rw [← Char.ofNat_toNat c]
  exact hall c.toNat (by omega) hlow

theorem natDigits_subset_token : NumberLayout.natDigits k ⊆ tokenAlphabet := fun _ hc =>
  List.subset_append_left "0123456789".toList "#n:v".toList (digit_mem (isAsciiDigit_of_mem_natDigits hc))

theorem nameChars_subset : nameChars k ⊆ tokenAlphabet :=
  List.cons_subset.2 ⟨by decide, List.cons_subset.2 ⟨by decide, natDigits_subset_token⟩⟩

theorem valueChars_subset : valueChars k ⊆ tokenAlphabet :=
  List.cons_subset.2 ⟨by decide, List.cons_subset.2 ⟨by decide, natDigits_subset_token⟩⟩

theorem tokenAlphabet_subset : tokenAlphabet ⊆ termAlphabet :=
  List.subset_append_left tokenAlphabet ".[]()size".toList

theorem restChars_subset : Step.restChars p ⊆ termAlphabet := by
  induction p with
  | nil => exact List.nil_subset _
  | cons s rest ih =>
    cases s with
    | name k =>
      have hname : nameChars k ⊆ termAlphabet := List.Subset.trans nameChars_subset tokenAlphabet_subset
      exact List.append_subset.2 ⟨List.cons_subset.2 ⟨by decide, hname⟩, ih⟩
    | index i =>
      have hdigits : NumberLayout.natDigits i ⊆ termAlphabet := List.Subset.trans natDigits_subset_token tokenAlphabet_subset
      have hclose : [']'] ⊆ termAlphabet := by decide
      have hindex : DocumentPath.indexChars i ⊆ termAlphabet :=
        List.append_subset.2 ⟨List.cons_subset.2 ⟨by decide, hdigits⟩, hclose⟩
      exact List.append_subset.2 ⟨hindex, ih⟩

theorem stepChars_subset : Step.chars p ⊆ termAlphabet := by
  rcases p with _ | ⟨k | i, rest⟩
  · exact List.nil_subset _
  · exact List.append_subset.2 ⟨List.Subset.trans nameChars_subset tokenAlphabet_subset, restChars_subset⟩
  · exact restChars_subset

theorem termChars_subset : x.chars ⊆ termAlphabet := by
  cases x with
  | path p => exact stepChars_subset
  | literal k => exact List.Subset.trans valueChars_subset tokenAlphabet_subset
  | size p =>
    have hopen : "size".toList ⊆ termAlphabet := by decide
    have hclose : [')'] ⊆ termAlphabet := by decide
    exact List.append_subset.2 ⟨hopen, List.append_subset.2 ⟨List.cons_subset.2 ⟨by decide, stepChars_subset⟩, hclose⟩⟩

theorem not_blank_of_term (h : c ∈ termAlphabet) : Text.isBlank c = false := by
  have hall : termAlphabet.any Text.isBlank = false := by decide
  exact Text.free_of_any hall c h

theorem not_upper_of_term (h : c ∈ termAlphabet) : c.isUpper = false := by
  have hall : termAlphabet.any Char.isUpper = false := by decide
  exact Text.free_of_any hall c h

theorem comma_notin_term : ',' ∉ termAlphabet := by decide

theorem termChars_ne_nil (hx : x.WellFormed) : x.chars ≠ [] := by
  obtain ⟨c, t, hc, -⟩ := term_eq_cons hx
  simp [hc]

theorem words_termChars (hx : x.WellFormed) : Text.words x.chars = [x.chars] :=
  Text.words_of_no_blank (termChars_ne_nil hx) fun _ hc => not_blank_of_term (termChars_subset hc)

theorem nameTerm_chars : (Term.path [.name k]).chars = nameChars k := by
  rw [Term.chars, Step.chars, Step.restChars, List.append_nil]

def Tokens.bindings (t : Tokens) : Bindings := ⟨t.names, t.values⟩

section LookUps

variable {u : Tokens} {issued : List String} {token : List Char} {name : String} {w : Wire}

theorem ofList_nameChars : String.ofList (nameChars k) = Tokens.nameToken k := by
  rw [← toList_nameToken, String.ofList_toList]

theorem ofList_valueChars : String.ofList (valueChars k) = Tokens.valueToken k := by
  rw [← toList_valueToken, String.ofList_toList]

theorem name_ok_iff : u.bindings.name token = .ok name ↔ Entries.get? (String.ofList token) u.names = some name := by
  rw [Bindings.name, Tokens.bindings]
  cases Entries.get? (String.ofList token) u.names <;> simp

theorem value_ok_iff : u.bindings.value token = .ok w ↔ Entries.get? (String.ofList token) u.values = some w := by
  rw [Bindings.value, Tokens.bindings]
  cases Entries.get? (String.ofList token) u.values <;> simp

theorem name_nameChars (h : u.nameAt? k = some name) : u.bindings.name (nameChars k) = .ok name := by
  rwa [name_ok_iff, ofList_nameChars]

theorem value_valueChars (h : u.wireAt? k = some w) : u.bindings.value (valueChars k) = .ok w := by
  rwa [value_ok_iff, ofList_valueChars]

variable (hu : Tokens.Numbered issued u.names u.values)

include hu

theorem of_name (h : u.bindings.name token = .ok name) : ∃ k, token = nameChars k ∧ u.nameAt? k = some name := by
  rw [name_ok_iff] at h
  have hkey : String.ofList token ∈ Entries.keys u.names := List.mem_map_of_mem (f := Prod.fst) (Entries.mem_of_get? h)
  obtain ⟨k, hk, -⟩ := hu.token_of_names hkey
  have hchars := congrArg String.toList hk
  rw [String.toList_ofList, toList_nameToken] at hchars
  exact ⟨k, hchars, by rwa [Tokens.nameAt?, ← hk]⟩

theorem of_value (h : u.bindings.value token = .ok w) : ∃ k, token = valueChars k ∧ u.wireAt? k = some w := by
  rw [value_ok_iff] at h
  have hkey : String.ofList token ∈ Entries.keys u.values := List.mem_map_of_mem (f := Prod.fst) (Entries.mem_of_get? h)
  obtain ⟨k, hk, -⟩ := hu.token_of_values hkey
  have hchars := congrArg String.toList hk
  rw [String.toList_ofList, toList_valueToken] at hchars
  exact ⟨k, hchars, by rwa [Tokens.wireAt?, ← hk]⟩

theorem term_of_name (hx : x.WellFormed) (h : u.bindings.name x.chars = .ok name) :
    ∃ k, x = .path [.name k] ∧ u.nameAt? k = some name := by
  obtain ⟨k, hk, hat⟩ := of_name hu h
  have hname : (Term.path [.name k] : Term Nat Nat).WellFormed := List.cons_ne_nil _ _
  exact ⟨k, termChars_injective hx hname (by rw [hk, nameTerm_chars]), hat⟩

theorem term_of_value (hx : x.WellFormed) (h : u.bindings.value x.chars = .ok w) :
    ∃ k, x = .literal k ∧ u.wireAt? k = some w := by
  obtain ⟨k, hk, hat⟩ := of_value hu h
  have hliteral : (Term.literal k : Term Nat Nat).WellFormed := trivial
  exact ⟨k, termChars_injective hx hliteral hk, hat⟩

theorem path_of_name (hp : p ≠ []) (h : u.bindings.name (Step.chars p) = .ok name) :
    ∃ k, p = [.name k] ∧ u.nameAt? k = some name := by
  have hpath : (Term.path p : Term Nat Nat).WellFormed := hp
  obtain ⟨k, hk, hat⟩ := term_of_name hu hpath h
  exact ⟨k, Term.path.inj hk, hat⟩

theorem name_ne_ok (hc : c ∈ token) (hnot : c ∉ tokenAlphabet) : u.bindings.name token ≠ .ok name := by
  intro h
  obtain ⟨k, rfl, -⟩ := of_name hu h
  exact hnot (nameChars_subset hc)

theorem value_ne_ok (hc : c ∈ token) (hnot : c ∉ tokenAlphabet) : u.bindings.value token ≠ .ok w := by
  intro h
  obtain ⟨k, rfl, -⟩ := of_value hu h
  exact hnot (valueChars_subset hc)

end LookUps

end ItemMapper
