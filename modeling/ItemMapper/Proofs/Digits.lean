import ItemMapper.Number.Layout
import ItemMapper.Number.Reader

/-!
# Digits

The digits of a natural number read back as that number, and so do those of an integer with its sign.
-/

namespace ItemMapper

namespace NumberReader

open NumberLayout

variable {n m : Nat} {c : Char} {xs ys : List Char}

theorem isAsciiDigit_of_mem_natDigits (h : c ∈ natDigits n) : isAsciiDigit c = true := by
  have hdigit : c.isDigit = true := Nat.isDigit_of_mem_toDigits (by omega) (by omega) h
  rw [Char.isDigit, Bool.and_eq_true, decide_eq_true_iff, decide_eq_true_iff] at hdigit
  rw [isAsciiDigit, Bool.and_eq_true, decide_eq_true_iff, decide_eq_true_iff]
  exact hdigit

theorem all_isAsciiDigit_natDigits : (natDigits n).all isAsciiDigit = true :=
  List.all_eq_true.2 fun _ hc => isAsciiDigit_of_mem_natDigits hc

theorem natDigits_ne_nil : natDigits n ≠ [] := Nat.toDigits_ne_nil

theorem digitValue_digitChar (h : n < 10) : digitValue n.digitChar = n := by
  have hall : ∀ d : Fin 10, digitValue (Nat.digitChar d) = d := by decide
  exact hall ⟨n, h⟩

theorem natOfDigits_append_singleton : natOfDigits (xs ++ [c]) = 10 * natOfDigits xs + digitValue c := by
  rw [natOfDigits, natOfDigits, List.foldl_append]
  rfl

theorem natOfDigits_natDigits : natOfDigits (natDigits n) = n := by
  induction n using Nat.strongRecOn with
  | _ n ih =>
    rw [natDigits, Nat.toDigits_eq_if (by omega)]
    split
    · rename_i hn
      have hread : natOfDigits [n.digitChar] = 10 * 0 + digitValue n.digitChar := rfl
      rw [hread, digitValue_digitChar hn]
      omega
    · rename_i hn
      rw [natOfDigits_append_singleton, digitValue_digitChar (Nat.mod_lt n (by omega))]
      have hrec := ih (n / 10) (by omega)
      rw [natDigits] at hrec
      rw [hrec]
      omega

theorem natDigits_injective (h : natDigits m = natDigits n) : m = n := by
  rw [← natOfDigits_natDigits (n := m), h, natOfDigits_natDigits]

theorem natOfDigits_zeros_append : natOfDigits (zeros n ++ xs) = natOfDigits xs := by
  induction n with
  | zero => rfl
  | succ n ih =>
    rw [zeros, List.replicate_succ, List.cons_append]
    exact ih

theorem natOfDigits_append_zeros : natOfDigits (xs ++ zeros n) = natOfDigits xs * tenPow n := by
  induction n with
  | zero => simp [zeros]
  | succ n ih =>
    have hzeros : xs ++ zeros (n + 1) = (xs ++ zeros n) ++ ['0'] := by
      rw [zeros, List.replicate_succ', List.append_assoc]
      rfl
    have hzero : digitValue '0' = 0 := by decide
    rw [hzeros, natOfDigits_append_singleton, ih, hzero, tenPow, tenPow, Nat.pow_eq, Nat.pow_eq, Nat.pow_succ]
    rw [Nat.add_zero, Nat.mul_left_comm, Nat.mul_comm 10]

theorem splitSign_sign {negative : Bool} (h : isAsciiDigit c = true) :
    splitSign (sign negative ++ c :: xs) = (negative, c :: xs) := by
  cases negative with
  | true => rfl
  | false =>
    have hminus : c ≠ '-' := by
      intro he
      rw [he] at h
      cases h
    have hplus : c ≠ '+' := by
      intro he
      rw [he] at h
      cases h
    rw [sign, if_neg Bool.false_ne_true, List.nil_append, splitSign]
    · intro rest he
      exact hminus (List.cons.inj he).1
    · intro rest he
      exact hplus (List.cons.inj he).1

theorem natDigits_eq_cons (n : Nat) : ∃ c rest, natDigits n = c :: rest ∧ isAsciiDigit c = true := by
  cases hd : natDigits n with
  | nil => exact absurd hd natDigits_ne_nil
  | cons c rest => exact ⟨c, rest, rfl, isAsciiDigit_of_mem_natDigits (hd ▸ List.mem_cons_self)⟩

theorem splitSign_intChars {i : Int} : splitSign (intChars i) = (decide (i < 0), natDigits i.natAbs) := by
  obtain ⟨c, rest, hd, hc⟩ := natDigits_eq_cons i.natAbs
  rw [intChars, hd, splitSign_sign hc]

theorem integer?_intChars {least greatest i : Int} (hl : least ≤ i) (hg : i ≤ greatest) :
    integer? least greatest (intChars i) = some i := by
  have hsigned : (if decide (i < 0) = true then -(natOfDigits (natDigits i.natAbs) : Int)
      else natOfDigits (natDigits i.natAbs)) = i := by
    rw [natOfDigits_natDigits]
    by_cases hi : i < 0
    · rw [if_pos (decide_eq_true hi)]
      omega
    · rw [if_neg (by simpa using hi)]
      omega
  have hempty : (natDigits i.natAbs).isEmpty = false := List.isEmpty_eq_false_iff.2 natDigits_ne_nil
  rw [integer?, splitSign_intChars]
  simp only [hempty, all_isAsciiDigit_natDigits, Bool.not_true, Bool.or_self, Bool.false_eq_true, if_false, hsigned]
  exact if_pos ⟨hl, hg⟩

end NumberReader

end ItemMapper
