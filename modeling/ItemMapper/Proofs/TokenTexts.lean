import ItemMapper.Proofs.Digits
import ItemMapper.Proofs.Outlines
import ItemMapper.Expression.Tokens
import Mathlib.Data.List.TakeWhile

/-!
# Tokens in a text

Where the tokens of a text stand. Between two tokens of an expression there is always some glue, which neither begins
nor continues a token, so the tokens of a text are those of its pieces.
-/

namespace ItemMapper

open NumberLayout NumberReader

def numbered? (mark rest : List Char) : Option String :=
  let digits := rest.takeWhile isAsciiDigit
  if digits.isEmpty then none else some (String.ofList (mark ++ digits))

def tokenAt? : List Char → Option String
  | '#' :: 'n' :: rest => numbered? ['#', 'n'] rest
  | ':' :: 'v' :: rest => numbered? [':', 'v'] rest
  | _ => none

/-- The tokens of a text from left to right, as often as they occur. -/
def tokensIn : List Char → List String
  | [] => []
  | c :: rest => (tokenAt? (c :: rest)).toList ++ tokensIn rest

def opensToken (c : Char) : Bool := c == '#' || c == ':'

def continuesToken (c : Char) : Bool := c == 'n' || c == 'v' || isAsciiDigit c

def isGlue : List Char → Bool
  | [] => false
  | c :: rest => !continuesToken c && (c :: rest).all (!opensToken ·)

variable {x y g : List Char} {c : Char} {k : Nat}

theorem tokenAt?_eq_none (h : opensToken c = false) : tokenAt? (c :: x) = none := by
  rw [tokenAt?.eq_3]
  · rintro rest ⟨⟩
    cases h
  · rintro rest ⟨⟩
    cases h

theorem takeWhile_append_of_head (h : ∀ c ∈ y.head?, isAsciiDigit c = false) :
    (x ++ y).takeWhile isAsciiDigit = x.takeWhile isAsciiDigit := by
  induction x with
  | nil =>
    cases y with
    | nil => rfl
    | cons c rest => simp [h c rfl]
  | cons d rest ih => by_cases hd : isAsciiDigit d = true <;> simp [hd, ih]

theorem numbered?_append {mark : List Char} (h : ∀ c ∈ y.head?, isAsciiDigit c = false) :
    numbered? mark (x ++ y) = numbered? mark x := by
  rw [numbered?, numbered?, takeWhile_append_of_head h]

theorem tokenAt?_append (h : ∀ c ∈ y.head?, continuesToken c = false) : tokenAt? (c :: x ++ y) = tokenAt? (c :: x) := by
  have hdigit : ∀ c ∈ y.head?, isAsciiDigit c = false := by
    intro c hc
    have := h c hc
    simp only [continuesToken, Bool.or_eq_false_iff] at this
    exact this.2
  cases hc : opensToken c with
  | false => rw [tokenAt?_eq_none hc, List.cons_append, tokenAt?_eq_none hc]
  | true =>
    have hmark : c = '#' ∨ c = ':' := by simpa [opensToken] using hc
    cases x with
    | nil =>
      cases y with
      | nil => rfl
      | cons d rest =>
        have hd := h d rfl
        have hn : d ≠ 'n' := by rintro rfl; cases hd
        have hv : d ≠ 'v' := by rintro rfl; cases hd
        rcases hmark with rfl | rfl <;> simp [tokenAt?, hn, hv]
    | cons d rest =>
      rcases hmark with rfl | rfl
      · by_cases hd : d = 'n'
        · subst hd
          exact numbered?_append hdigit
        · simp [tokenAt?, hd]
      · by_cases hd : d = 'v'
        · subst hd
          exact numbered?_append hdigit
        · simp [tokenAt?, hd]

theorem tokensIn_append (h : ∀ c ∈ y.head?, continuesToken c = false) :
    tokensIn (x ++ y) = tokensIn x ++ tokensIn y := by
  induction x with
  | nil => rfl
  | cons c rest ih =>
    rw [List.cons_append, tokensIn, ← List.cons_append, tokenAt?_append h, ih, tokensIn, List.append_assoc]

theorem tokensIn_of_all (h : g.all (!opensToken ·) = true) : tokensIn (g ++ y) = tokensIn y := by
  induction g with
  | nil => rfl
  | cons c rest ih =>
    rw [List.all_cons, Bool.and_eq_true, Bool.not_eq_true'] at h
    rw [List.cons_append, tokensIn, tokenAt?_eq_none h.1, ih h.2]
    rfl

theorem tokensIn_glue (h : isGlue g = true) : tokensIn (x ++ g ++ y) = tokensIn x ++ tokensIn y := by
  cases g with
  | nil => cases h
  | cons c rest =>
    rw [isGlue, Bool.and_eq_true, Bool.not_eq_true'] at h
    rw [List.append_assoc, tokensIn_append (by simpa using h.1), tokensIn_of_all h.2]

theorem tokensIn_glue_start (h : isGlue g = true) : tokensIn (g ++ y) = tokensIn y := by
  simpa [tokensIn] using tokensIn_glue (x := []) (y := y) h

theorem tokensIn_glue_end (h : isGlue g = true) : tokensIn (x ++ g) = tokensIn x := by
  simpa [tokensIn] using tokensIn_glue (x := x) (y := []) h

theorem tokensIn_intercalate (h : isGlue g = true) (pieces : List (List Char)) :
    tokensIn (g.intercalate pieces) = pieces.flatMap tokensIn := by
  induction pieces with
  | nil => rfl
  | cons x rest ih =>
    cases rest with
    | nil => simp
    | cons y rest => rw [List.intercalate_cons_cons, tokensIn_glue h, ih, ← List.flatMap_cons]

theorem not_opensToken_of_digit (h : isAsciiDigit c = true) : opensToken c = false := by
  rw [opensToken, Bool.or_eq_false_iff, beq_eq_false_iff_ne, beq_eq_false_iff_ne]
  constructor <;> rintro rfl <;> cases h

theorem intChars_natCast : intChars (k : Int) = natDigits k := by
  simp [intChars, sign]

theorem toList_nameToken : (Tokens.nameToken k).toList = nameChars k := by
  simp [Tokens.nameToken, intText, intChars_natCast, nameChars]

theorem toList_valueToken : (Tokens.valueToken k).toList = valueChars k := by
  simp [Tokens.valueToken, intText, intChars_natCast, valueChars]

theorem takeWhile_natDigits : (natDigits k).takeWhile isAsciiDigit = natDigits k :=
  List.takeWhile_eq_self_iff.2 fun _ hc => isAsciiDigit_of_mem_natDigits hc

theorem numbered?_natDigits {mark : List Char} :
    numbered? mark (natDigits k) = some (String.ofList (mark ++ natDigits k)) := by
  rw [numbered?, takeWhile_natDigits, if_neg (by simp [natDigits_ne_nil])]

theorem tokensIn_natDigits : tokensIn (natDigits k) = [] := by
  have hglue : (natDigits k).all (!opensToken ·) = true :=
    List.all_eq_true.2 fun c hc => by simp [not_opensToken_of_digit (isAsciiDigit_of_mem_natDigits hc)]
  simpa [tokensIn] using tokensIn_of_all (y := []) hglue

theorem tokensIn_nameChars : tokensIn (nameChars k) = [Tokens.nameToken k] := by
  have htoken : String.ofList (['#', 'n'] ++ natDigits k) = Tokens.nameToken k :=
    String.toList_inj.1 (by rw [String.toList_ofList, toList_nameToken]; rfl)
  have hrest : tokensIn ('n' :: natDigits k) = [] := by
    rw [tokensIn, tokenAt?_eq_none rfl, tokensIn_natDigits]
    rfl
  rw [nameChars, tokensIn, hrest, tokenAt?, numbered?_natDigits, htoken]
  rfl

theorem tokensIn_valueChars : tokensIn (valueChars k) = [Tokens.valueToken k] := by
  have htoken : String.ofList ([':', 'v'] ++ natDigits k) = Tokens.valueToken k :=
    String.toList_inj.1 (by rw [String.toList_ofList, toList_valueToken]; rfl)
  have hrest : tokensIn ('v' :: natDigits k) = [] := by
    rw [tokensIn, tokenAt?_eq_none rfl, tokensIn_natDigits]
    rfl
  rw [valueChars, tokensIn, hrest, tokenAt?, numbered?_natDigits, htoken]
  rfl

theorem isGlue_indexChars : isGlue (DocumentPath.indexChars k) = true := by
  have hall : (natDigits k).all (!opensToken ·) = true :=
    List.all_eq_true.2 fun c hc => by simp [not_opensToken_of_digit (isAsciiDigit_of_mem_natDigits hc)]
  have hopen : opensToken '[' = false ∧ opensToken ']' = false ∧ continuesToken '[' = false := by decide
  simp [DocumentPath.indexChars, isGlue, hall, hopen]

end ItemMapper
