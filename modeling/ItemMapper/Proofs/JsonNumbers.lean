import ItemMapper.Json.Parser
import ItemMapper.Json.Printer
import ItemMapper.Proofs.NumberTexts

/-!
# Numbers in JSON texts

The literal that is written for an integer of 64 bits is read as that integer, and the one for a finite float as that
float: a mark, the point or the letter of the exponent, tells it from the literal of an integer.
-/

namespace ItemMapper

namespace NumberReader

open NumberLayout Json

variable {s : Bool} {c : Char} {n : Nat} {ds fs tail rest cs : List Char} {e i : Int} {d : Decimal}

theorem head?_natDigits (h : n ≠ 0) : (natDigits n).head? ≠ some '0' := by
  induction n using Nat.strongRecOn with
  | _ n ih =>
    rw [natDigits, Nat.toDigits_eq_if (by omega)]
    split
    · rename_i hn
      have hall : ∀ d : Fin 10, d.val ≠ 0 → [Nat.digitChar d].head? ≠ some '0' := by decide
      exact hall ⟨n, hn⟩ h
    · rename_i hn
      have hrec := ih (n / 10) (by omega) (by omega)
      rw [natDigits] at hrec
      rwa [List.head?_append_of_ne_nil _ Nat.toDigits_ne_nil]

theorem exponent?_exponentText : exponent? (exponentText e) = some e := by
  have hdigits : natOfDigits (natDigits e.natAbs) = e.natAbs := natOfDigits_natDigits
  have hall : (natDigits e.natAbs).all isAsciiDigit = true := all_isAsciiDigit_natDigits
  have hne : (natDigits e.natAbs).isEmpty = false := List.isEmpty_eq_false_iff.2 natDigits_ne_nil
  by_cases he : e < 0
  · simp only [exponentText, exponent?, he, if_true, splitSign, hne, hall, hdigits, true_or, Bool.not_true, Bool.or_self,
      Bool.false_eq_true, if_false, Option.some.injEq]
    omega
  · simp only [exponentText, exponent?, he, if_false, splitSign, hne, hall, hdigits, true_or, if_true, Bool.not_true,
      Bool.or_self, Bool.false_eq_true, Option.some.injEq]
    omega

theorem isNumberChar_of_digit (h : isAsciiDigit c = true) : isNumberChar c = true := by
  simp [isNumberChar, h]

theorem isNumberChar_exponentText : ∀ c ∈ exponentText e, isNumberChar c = true := by
  intro c hc
  rw [NumberLayout.exponentText, List.mem_cons, List.mem_cons] at hc
  rcases hc with rfl | rfl | hc
  · decide
  · split <;> decide
  · exact isNumberChar_of_digit (isAsciiDigit_of_mem_natDigits hc)

/-- Digits and what follows them in the literal of a float: a fraction, an exponent, or both. -/
structure FloatLiteral (ds tail fs : List Char) (e : Int) : Prop where
  nonempty : ds ≠ []
  digits : ∀ c ∈ ds, isAsciiDigit c = true
  head : ds.head? = some '0' → ds = ['0']
  mark : ∃ c ∈ tail.head?, isAsciiDigit c = false
  chars : ∀ c ∈ tail, isNumberChar c = true
  parts : ∃ rest, splitFraction tail = (fs, rest) ∧ exponent? rest = some e

namespace FloatLiteral

theorem exponentText (hne : ds ≠ []) (hd : ∀ c ∈ ds, isAsciiDigit c = true) (hz : ds.head? = some '0' → ds = ['0']) :
    FloatLiteral ds (exponentText e) [] e where
  nonempty := hne
  digits := hd
  head := hz
  mark := ⟨'e', rfl, by decide⟩
  chars := isNumberChar_exponentText
  parts := ⟨_, rfl, exponent?_exponentText⟩

theorem point (hne : ds ≠ []) (hd : ∀ c ∈ ds, isAsciiDigit c = true) (hz : ds.head? = some '0' → ds = ['0'])
    (hf : ∀ c ∈ fs, isAsciiDigit c = true) (hhead : ∀ c, rest.head? = some c → isAsciiDigit c = false)
    (hchars : ∀ c ∈ rest, isNumberChar c = true) (he : exponent? rest = some e) :
    FloatLiteral ds ('.' :: (fs ++ rest)) fs e where
  nonempty := hne
  digits := hd
  head := hz
  mark := ⟨'.', rfl, by decide⟩
  chars c hc := by
    rw [List.mem_cons, List.mem_append] at hc
    rcases hc with rfl | hc | hc
    · decide
    · exact isNumberChar_of_digit (hf c hc)
    · exact hchars c hc
  parts := ⟨rest, splitDigits_append hf hhead, he⟩

theorem fraction (hne : ds ≠ []) (hd : ∀ c ∈ ds, isAsciiDigit c = true) (hz : ds.head? = some '0' → ds = ['0'])
    (hf : ∀ c ∈ fs, isAsciiDigit c = true) : FloatLiteral ds ('.' :: fs) fs 0 := by
  have hliteral : FloatLiteral ds ('.' :: (fs ++ [])) fs 0 := .point hne hd hz hf (by simp) (by simp) rfl
  rwa [List.append_nil] at hliteral

variable (h : FloatLiteral ds tail fs e)
include h

theorem all_chars : ∀ c ∈ ds ++ tail, isNumberChar c = true := fun c hc =>
  (List.mem_append.1 hc).elim (fun hc => isNumberChar_of_digit (h.digits c hc)) (h.chars c)

theorem decimal? : decimal? s (ds ++ tail) = some (.ofDecimal s (natOfDigits (ds ++ fs)) (e - fs.length)) := by
  obtain ⟨rest, hsplit, he⟩ := h.parts
  obtain ⟨m, hm, hmark⟩ := h.mark
  have hhead : ∀ c, tail.head? = some c → isAsciiDigit c = false := fun c hc => by
    obtain rfl := Option.some.inj (hc.symm.trans hm)
    exact hmark
  have hne : ds.isEmpty = false := List.isEmpty_eq_false_iff.2 h.nonempty
  rw [NumberReader.decimal?, splitDigits_append h.digits hhead]
  simp only [hsplit, he, hne, Bool.false_and, Bool.false_eq_true, if_false]
  rfl

end FloatLiteral

theorem number?_sign (hc : isAsciiDigit c = true) (hz : c = '0' → ∀ e, rest.head? = some e → isAsciiDigit e = false) :
    number? (sign s ++ c :: rest) =
      if (c :: rest).all isAsciiDigit && !(s && c :: rest == ['0']) then
        if isWord (if s then -(natOfDigits (c :: rest) : Int) else natOfDigits (c :: rest)) then
          some (.int (if s then -(natOfDigits (c :: rest) : Int) else natOfDigits (c :: rest)))
        else (decimal? s (c :: rest)).map .float
      else (decimal? s (c :: rest)).map .float := by
  have hlead : (c == '0' && (rest.head?.map isAsciiDigit).getD false) = false := by
    by_cases hzero : c = '0'
    · cases hhead : rest.head? with
      | none => simp
      | some e => simp [hz hzero e hhead]
    · simp [hzero]
  have hminus : c ≠ '-' := by
    rintro rfl
    cases hc
  cases s with
  | true => simp only [sign, if_true, List.singleton_append, number?, hc, hlead, Bool.not_true, Bool.or_self,
      Bool.false_eq_true, if_false]
  | false =>
    rw [sign, if_neg Bool.false_ne_true, List.nil_append, number?]
    · simp only [hc, hlead, Bool.not_true, Bool.or_self, Bool.false_eq_true, if_false]
    · intro ds heq
      exact hminus (List.cons.inj heq).1

theorem number?_intChars (h : isWord i = true) : number? (intChars i) = some (.int i) := by
  obtain ⟨c, rest, hd, hc⟩ := natDigits_eq_cons i.natAbs
  have hz : c = '0' → i.natAbs = 0 := fun hzero => by
    by_contra hne
    exact head?_natDigits hne (by rw [hd, hzero]; rfl)
  have hi : (if decide (i < 0) = true then -(natOfDigits (c :: rest) : Int) else natOfDigits (c :: rest)) = i := by
    rw [← hd, natOfDigits_natDigits]
    by_cases hi : i < 0
    · rw [if_pos (decide_eq_true hi)]
      omega
    · rw [if_neg (by simpa using hi)]
      omega
  have hzero : (decide (i < 0) && c :: rest == ['0']) = false := by
    by_cases hi : i < 0
    · have hne : c ≠ '0' := fun hc => by
        have habs := hz hc
        omega
      simp [hne]
    · simp [hi]
  rw [intChars, hd, number?_sign hc, hi, hzero, ← hd, all_isAsciiDigit_natDigits]
  · exact if_pos h
  · intro hzero e he
    have hnil : natDigits i.natAbs = ['0'] := by
      rw [hz hzero]
      rfl
    rw [hd] at hnil
    rw [(List.cons.inj hnil).2] at he
    cases he

theorem FloatLiteral.number? (h : FloatLiteral ds tail fs e) :
    number? (sign s ++ (ds ++ tail)) = some (.float (.ofDecimal s (natOfDigits (ds ++ fs)) (e - fs.length))) := by
  obtain ⟨m, hm, hmark⟩ := h.mark
  obtain ⟨c, rest, rfl⟩ := List.exists_cons_of_ne_nil h.nonempty
  have hmixed : (c :: rest ++ tail).all isAsciiDigit = false := by
    refine List.all_eq_false.2 ⟨m, List.mem_append_right _ (List.mem_of_mem_head? hm), ?_⟩
    simp [hmark]
  have hread : NumberReader.decimal? s (c :: rest ++ tail) = _ := h.decimal?
  rw [List.cons_append] at hmixed hread ⊢
  rw [number?_sign (h.digits c List.mem_cons_self), hmixed, Bool.false_and, if_neg Bool.false_ne_true, hread]
  · rfl
  · intro hzero d hd
    have hrest : rest = [] := (List.cons.inj (h.head (by rw [hzero]; rfl))).2
    rw [hrest, List.nil_append] at hd
    obtain rfl := Option.some.inj (hd.symm.trans hm)
    exact hmark

def IsLiteralOf (d : Decimal) (s : Bool) (cs : List Char) : Prop := ∃ ds tail fs e, cs = ds ++ tail ∧
  FloatLiteral ds tail fs e ∧ Binary64.ofDecimal s (natOfDigits (ds ++ fs)) (e - fs.length) = d.read s

theorem FloatLiteral.isLiteralOf (h : FloatLiteral ds tail fs e) (hn : natOfDigits (ds ++ fs) = d.digits)
    (he : e - fs.length = d.exponent) : IsLiteralOf d s (ds ++ tail) := by
  refine ⟨ds, tail, fs, e, rfl, h, ?_⟩
  rw [hn, he]
  rfl

theorem digits_natDigits : ∀ c ∈ natDigits n, isAsciiDigit c = true := fun _ h => isAsciiDigit_of_mem_natDigits h

theorem digits_append (hd : ∀ c ∈ ds, isAsciiDigit c = true) (hf : ∀ c ∈ fs, isAsciiDigit c = true) :
    ∀ c ∈ ds ++ fs, isAsciiDigit c = true := fun c hc => (List.mem_append.1 hc).elim (hd c) (hf c)

theorem digits_zeros : ∀ c ∈ zeros n, isAsciiDigit c = true := fun _ h => isAsciiDigit_of_mem_zeros h

theorem isLiteralOf_whole (hd : d.digits = 0 → d.exponent = 0) (he : 0 ≤ d.exponent) :
    IsLiteralOf d s (natDigits d.digits ++ zeros d.exponent.toNat ++ ['.', '0']) := by
  have hhead : (natDigits d.digits ++ zeros d.exponent.toNat).head? = some '0' →
      natDigits d.digits ++ zeros d.exponent.toNat = ['0'] := by
    intro hhead
    by_cases hzero : d.digits = 0
    · rw [hzero, hd hzero]
      rfl
    · rw [List.head?_append_of_ne_nil _ natDigits_ne_nil] at hhead
      exact absurd hhead (head?_natDigits hzero)
  have hliteral : FloatLiteral (natDigits d.digits ++ zeros d.exponent.toNat) ['.', '0'] ['0'] 0 :=
    .fraction (by simp [natDigits_ne_nil]) (digits_append digits_natDigits digits_zeros) hhead
      (List.forall_mem_singleton.2 rfl)
  have hzeros : natDigits d.digits ++ zeros d.exponent.toNat ++ ['0'] =
      natDigits d.digits ++ zeros (d.exponent.toNat + 1) := by
    rw [List.append_assoc, zeros, zeros, List.replicate_succ']
  have hten : ((tenPow (d.exponent.toNat + 1) : Nat) : ℚ) = (10 : ℚ) ^ (d.exponent + 1) := by
    rw [Binary64.tenPow_cast]
    congr 1
    omega
  refine ⟨_, _, _, _, rfl, hliteral, ?_⟩
  rw [hzeros, natOfDigits_append_zeros, natOfDigits_natDigits]
  refine Binary64.ofDecimal_congr ?_
  rw [Nat.cast_mul, hten, mul_assoc, ← zpow_add₀ (by norm_num)]
  congr 2
  simp

theorem isLiteralOf_mixed (hzero : d.digits ≠ 0) {k : Nat} (hk : 0 < k)
    (hlength : d.exponent = k - (natDigits d.digits).length) (hle : k ≤ (natDigits d.digits).length) :
    IsLiteralOf d s ((natDigits d.digits).take k ++ '.' :: (natDigits d.digits).drop k) := by
  have htake : (natDigits d.digits).take k ≠ [] := by
    rw [ne_eq, List.take_eq_nil_iff, not_or]
    exact ⟨hk.ne', natDigits_ne_nil⟩
  refine (FloatLiteral.fraction htake (fun c hc => digits_natDigits c (List.mem_of_mem_take hc)) ?_
    fun c hc => digits_natDigits c (List.mem_of_mem_drop hc)).isLiteralOf ?_ ?_
  · rw [List.head?_take, if_neg hk.ne']
    exact fun hhead => absurd hhead (head?_natDigits hzero)
  · rw [List.take_append_drop, natOfDigits_natDigits]
  · rw [List.length_drop]
    omega

theorem isLiteralOf_small {k : Nat} (hk : d.exponent = -(k + (natDigits d.digits).length)) :
    IsLiteralOf d s ('0' :: '.' :: zeros k ++ natDigits d.digits) := by
  have hliteral : FloatLiteral ['0'] ('.' :: (zeros k ++ natDigits d.digits)) (zeros k ++ natDigits d.digits) 0 :=
    .fraction (by simp) (List.forall_mem_singleton.2 rfl) (fun _ => rfl) (digits_append digits_zeros digits_natDigits)
  refine hliteral.isLiteralOf ?_ ?_
  · have hzeros : ['0'] ++ (zeros k ++ natDigits d.digits) = zeros (k + 1) ++ natDigits d.digits := rfl
    rw [hzeros, natOfDigits_zeros_append, natOfDigits_natDigits]
  · rw [List.length_append, zeros, List.length_replicate]
    omega

theorem isLiteralOf_exponent (he : e = d.exponent + (natDigits d.digits).length - 1) :
    IsLiteralOf d s (match natDigits d.digits with
      | c :: c' :: rest => c :: '.' :: c' :: rest ++ exponentText e
      | _ => natDigits d.digits ++ exponentText e) := by
  have hdigits : ∀ c ∈ natDigits d.digits, isAsciiDigit c = true := digits_natDigits
  have hread : natOfDigits (natDigits d.digits) = d.digits := natOfDigits_natDigits
  cases hds : natDigits d.digits with
  | nil => exact absurd hds natDigits_ne_nil
  | cons c more =>
    rw [hds] at hdigits hread he
    obtain ⟨hc, hmore⟩ := List.forall_mem_cons.1 hdigits
    have hone : ∀ x ∈ [c], isAsciiDigit x = true := by simpa using hc
    have hzero : [c].head? = some '0' → [c] = ['0'] := fun hhead => by rw [Option.some.inj hhead]
    rw [List.length_cons] at he
    cases more with
    | nil =>
      refine (FloatLiteral.exponentText (List.cons_ne_nil _ _) hone hzero).isLiteralOf hread ?_
      simpa using he
    | cons c' rest =>
      have hmark : ∀ c, (exponentText e).head? = some c → isAsciiDigit c = false := fun c hc => by
        obtain rfl := Option.some.inj hc
        decide
      refine (FloatLiteral.point (List.cons_ne_nil _ _) hone hzero hmore hmark isNumberChar_exponentText
        exponent?_exponentText).isLiteralOf hread ?_
      omega

theorem isLiteralOf_json (hd : d.digits = 0 → d.exponent = 0) : IsLiteralOf d s (json.ofDecimal d) := by
  have hlength : 0 < (natDigits d.digits).length := List.length_pos_iff.2 natDigits_ne_nil
  rw [NumberLayout.ofDecimal]
  split
  · split
    · exact isLiteralOf_whole hd ‹_›
    · rename_i he
      split
      · refine isLiteralOf_mixed (fun hzero => he (hd hzero).ge) ?_ ?_ ?_ <;> omega
      · refine isLiteralOf_small ?_
        omega
  · exact isLiteralOf_exponent rfl

end NumberReader

namespace Json

open NumberLayout NumberReader

variable {x : Binary64} {m : Nat} {e : Int} {c : Char} {s : Bool}

theorem isNumberChar_sign (h : c ∈ sign s) : isNumberChar c = true := by
  cases s with
  | true =>
    rw [List.mem_singleton.1 h]
    decide
  | false => cases h

theorem isNumberChar_intChars (i : Int) : ∀ c ∈ intChars i, isNumberChar c = true := fun _ hc =>
  (List.mem_append.1 hc).elim isNumberChar_sign fun hc => isNumberChar_of_digit (isAsciiDigit_of_mem_natDigits hc)

theorem shortest_exponent {tie : Tie} (h : Binary64.Canonical m e) (hd : (Binary64.shortest tie m e h).digits = 0) :
    (Binary64.shortest tie m e h).exponent = 0 := by
  have hread : (Binary64.shortest tie m e h).read false = _ := Binary64.shortest_read h
  rw [Decimal.read, hd, Binary64.ofDecimal, if_pos rfl, Binary64.zero] at hread
  obtain ⟨-, rfl, -⟩ := Binary64.finite.inj hread
  rfl

/-- The literal of a finite float is read as that float. -/
theorem number?_json (hx : x.isFinite = true) :
    number? (json.chars x) = some (.float x) ∧ ∀ c ∈ json.chars x, isNumberChar c = true := by
  cases x with
  | nan => cases hx
  | infinite s => cases hx
  | finite s m e h =>
    obtain ⟨ds, tail, fs, e', htext, hliteral, hread⟩ : IsLiteralOf (Binary64.shortest .even m e h) s _ :=
      isLiteralOf_json (shortest_exponent h)
    have hchars : json.chars (.finite s m e h) = sign s ++ (ds ++ tail) := congrArg (sign s ++ ·) htext
    rw [hchars, hliteral.number?, hread, Binary64.shortest_read]
    exact ⟨rfl, fun c hc => (List.mem_append.1 hc).elim isNumberChar_sign (hliteral.all_chars c)⟩

end Json

end ItemMapper
