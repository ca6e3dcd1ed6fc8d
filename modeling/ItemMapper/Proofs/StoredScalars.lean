import ItemMapper.Memory.Expression
import ItemMapper.Expression.ConditionDocument
import ItemMapper.Proofs.Marshalled
import ItemMapper.Proofs.NumberTexts
import ItemMapper.Proofs.Prepared

/-!
# Stored scalars

What a put stores for a scalar, and how the memory store compares it. A date node stores a count for what denotes a
date, and a union leaves that to the variant that is picked. Where two scalars are stored as numbers they are compared
as numbers, and all others are equal only to themselves.
-/

namespace ItemMapper

theorem Binary64.isNaN_ofInt {i : Int} : (Binary64.ofInt i).isNaN = false := by
  have hparts (negative : Bool) (m : Nat) (e : Int) : (ofParts negative m e).isNaN = false := by
    unfold ofParts
    split
    · rfl
    · split <;> rfl
  rw [ofInt, ofRatio]
  split
  · rfl
  · exact hparts _ _ _

theorem Binary64.same_self {x : Binary64} (h : x.isNaN = false) : x.same x = true := by
  cases x with
  | nan => cases h
  | infinite s => simp [same, compare?]
  | finite s m e h => simp [same, compare?, aligned]

namespace Value

def isScalar : Value → Bool
  | undefined => false
  | list _ => false
  | map _ => false
  | set _ => false
  | _ => true

def numeric? : Value → Option Binary64
  | number x => some x
  | bigInt i => some (.ofInt i)
  | date t => some (.ofInt t.millis)
  | _ => none

def StoresAs (v w : Value) : Prop := w = v ∨ ∃ format : DateFormat, format.stored? v = some w

theorem StoresAs.isScalar {v w : Value} (hv : v.isScalar = true) (h : v.StoresAs w) : w.isScalar = true := by
  rcases h with rfl | ⟨format, h⟩
  · exact hv
  · obtain ⟨ms, -, rfl⟩ := Option.map_eq_some_iff.1 h
    rfl

def SameNumber (v w : Value) : Prop := ∃ x y, v.numeric? = some x ∧ w.numeric? = some y ∧ x.same y = true

theorem of_not_numeric {v : Value} (hv : v.isScalar = true) (h : v.numeric? = none) :
    v = null ∨ (∃ b, v = bool b) ∨ (∃ t, v = string t) ∨ ∃ bytes, v = binary bytes := by
  cases v <;> simp_all [isScalar, numeric?]

end Value

namespace Wire

variable {options : MarshalOptions} {v w : Value} {x y : Wire} {a : Binary64}

theorem of_numeric? (ha : v.numeric? = some a) (hx : ofValue options v = .ok (some x)) :
    ∃ digits, x = .n digits ∧ NumberReader.float? digits.toList = some a ∧ a.isNaN = false := by
  have hinteger {i : Int} : NumberReader.float? (intText i).toList = some (.ofInt i) := by
    rw [intText, String.toList_ofList, NumberReader.float?_intChars]
  cases v with
  | number b =>
    obtain rfl := Option.some.inj ha
    rw [ofValue, ofNumber] at hx
    split at hx
    · rename_i hfinite
      cases hx
      refine ⟨_, rfl, ?_, by cases b <;> first | rfl | cases hfinite⟩
      rw [Binary64.storedText, String.toList_ofList, Binary64.float?_storedChars hfinite]
    · cases hx
  | bigInt i =>
    obtain rfl := Option.some.inj ha
    cases hx
    exact ⟨_, rfl, hinteger, Binary64.isNaN_ofInt⟩
  | date t =>
    obtain rfl := Option.some.inj ha
    cases hx
    exact ⟨_, rfl, hinteger, Binary64.isNaN_ofInt⟩
  | _ => cases ha

theorem order?_eq_iff_same (hx : x.kind ≠ .n) : x.order? y = some .eq ↔ x.same y = true := by
  cases x with
  | n digits => exact absurd rfl hx
  | s t =>
    cases y with
    | s u => simp [order?, same]
    | _ => simp [order?, same]
  | _ => cases y <;> simp [order?]

theorem order?_eq_iff_of_not_numeric (hv : v.isScalar = true) (hw : w.isScalar = true) (hnone : v.numeric? = none)
    (hx : ofValue options v = .ok (some x)) (hy : ofValue options w = .ok (some y)) :
    x.order? y = some .eq ↔ v = w := by
  have hkind : x.kind ≠ .n := by
    rcases Value.of_not_numeric hv hnone with rfl | ⟨b, rfl⟩ | ⟨t, rfl⟩ | ⟨bytes, rfl⟩ <;> cases hx <;> rintro ⟨⟩
  rw [order?_eq_iff_same hkind]
  cases hw' : w.numeric? with
  | none =>
    rcases Value.of_not_numeric hv hnone with rfl | ⟨b, rfl⟩ | ⟨t, rfl⟩ | ⟨bytes, rfl⟩ <;> cases hx <;>
      rcases Value.of_not_numeric hw hw' with rfl | ⟨b', rfl⟩ | ⟨t', rfl⟩ | ⟨bytes', rfl⟩ <;> cases hy <;> simp [same]
  | some b =>
    obtain ⟨digits, rfl, -⟩ := of_numeric? hw' hy
    constructor
    · intro h
      cases x <;> first | cases h | exact absurd rfl hkind
    · rintro rfl
      rw [hnone] at hw'
      cases hw'

theorem order?_n_eq_iff {digits others : String} {b : Binary64} (ha : NumberReader.float? digits.toList = some a)
    (hb : NumberReader.float? others.toList = some b) : (n digits).order? (n others) = some .eq ↔ a.same b = true := by
  have horder : (n digits).order? (n others) = a.compare? b := by
    simp only [order?, ha, hb]
    rfl
  rw [horder, Binary64.same, beq_iff_eq]

theorem order?_eq_iff (hv : v.isScalar = true) (hw : w.isScalar = true) (hx : ofValue options v = .ok (some x))
    (hy : ofValue options w = .ok (some y)) : x.order? y = some .eq ↔ v = w ∨ v.SameNumber w := by
  cases hv' : v.numeric? with
  | none =>
    rw [order?_eq_iff_of_not_numeric hv hw hv' hx hy]
    refine (or_iff_left ?_).symm
    rintro ⟨a, b, ha, -, -⟩
    rw [hv'] at ha
    cases ha
  | some a =>
    obtain ⟨digits, rfl, ha, hnan⟩ := of_numeric? hv' hx
    cases hw' : w.numeric? with
    | none =>
      constructor
      · intro h
        rcases Value.of_not_numeric hw hw' with rfl | ⟨b, rfl⟩ | ⟨t, rfl⟩ | ⟨bytes, rfl⟩ <;> cases hy <;> cases h
      · rintro (rfl | ⟨-, b, -, hb, -⟩)
        · rw [hv'] at hw'
          cases hw'
        · rw [hw'] at hb
          cases hb
    | some b =>
      obtain ⟨others, rfl, hb, -⟩ := of_numeric? hw' hy
      rw [order?_n_eq_iff ha hb]
      constructor
      · exact fun h => .inr ⟨a, b, hv', hw', h⟩
      · rintro (rfl | ⟨a', b', ha', hb', h⟩)
        · obtain rfl := Option.some.inj (hv'.symm.trans hw')
          exact Binary64.same_self hnan
        · obtain rfl := Option.some.inj (hv'.symm.trans ha')
          obtain rfl := Option.some.inj (hw'.symm.trans hb')
          exact h

theorem exists_ofValue_of_stored? {format : DateFormat} (h : format.stored? v = some w) :
    ∃ x, ofValue options v = .ok (some x) := by
  obtain ⟨ms, hms, -⟩ := Option.map_eq_some_iff.1 h
  cases v with
  | number a =>
    have hfinite : a.isFinite = true := by
      by_contra hinfinite
      have hnone : format.ofNumber? a = none := by rw [DateFormat.ofNumber?, if_pos (by simpa using hinfinite)]
      rw [DateFormat.millis?, hnone] at hms
      cases hms
    exact ⟨.n a.storedText, by rw [ofValue, ofNumber, if_pos hfinite]; rfl⟩
  | string t => exact ⟨_, rfl⟩
  | date t => exact ⟨_, rfl⟩
  | _ => cases hms

theorem exists_of_isScalar {o : Option Wire} (hv : v.isScalar = true) (h : ofValue options v = .ok o) :
    ∃ x, o = some x := by
  cases o with
  | some x => exact ⟨x, rfl⟩
  | none =>
    rw [ofValue_eq_none h] at hv
    cases hv

theorem exists_ofValue_of_storesAs (h : v.StoresAs w) (hw : ofValue options w = .ok (some x)) :
    ∃ x, ofValue options v = .ok (some x) := by
  rcases h with rfl | ⟨format, h⟩
  · exact ⟨x, hw⟩
  · exact exists_ofValue_of_stored? h

end Wire

namespace Node

variable {n : Node} {v : Value} {choose : Chooser} {key path : String}

def scalarForm (n : Node) (v : Value) : Value := if n.isDate && v.truthy then n.storedForm v else v

theorem storesAs_scalarForm : v.StoresAs (n.scalarForm v) := by
  rw [scalarForm, storedForm]
  split
  · split
    · cases h : n.dateFormat.stored? v with
      | none => exact .inl rfl
      | some w => exact .inr ⟨_, h⟩
    · exact .inl rfl
  · exact .inl rfl

theorem scalarForm_of_union (h : n.isUnion = true) : n.scalarForm v = v := by
  cases n with
  | union m variants => rfl
  | _ => cases h

theorem converted_of_scalar (hv : v.isScalar = true) : converted n v = n.scalarForm v := by
  have hpruned {w : Value} (hw : w.isMap = false) : pruned n w = w := by
    cases n with
    | object m fields isOpen => cases w <;> first | rfl | cases hw
    | _ => rfl
  have hassigned : assigned n v = n.scalarForm v := by
    cases n with
    | set m items => cases v <;> first | rfl | cases hv
    | _ => rfl
  rw [converted, Treatment.andThen, hassigned, hpruned]
  have hscalar : (n.scalarForm v).isScalar = true := storesAs_scalarForm.isScalar hv
  generalize n.scalarForm v = w at hscalar
  cases w <;> first | rfl | cases hscalar

theorem rewrite_of_scalar (hv : v.isScalar = true) (hn : n.isUnion = false) :
    n.rewrite choose converted key path v = n.scalarForm v := by
  have hscalar : (n.scalarForm v).isScalar = true := storesAs_scalarForm.isScalar hv
  rw [← converted_of_scalar hv] at hscalar ⊢
  cases n with
  | object m fields isOpen =>
    refine rewrite_object_of_no_map ?_
    cases h : converted (object m fields isOpen) v <;> first | rfl | (rw [h] at hscalar; cases hscalar)
  | list m items =>
    refine rewrite_list_of_no_list fun elements he => ?_
    rw [he] at hscalar
    cases hscalar
  | union m variants => cases hn
  | _ => rfl

theorem storesAs_rewrite (hv : v.isScalar = true) : v.StoresAs (n.rewrite choose converted key path v) := by
  induction n generalizing key with
  | union m variants ih =>
    have hown : converted (union m variants) v = v := converted_of_scalar hv
    by_cases hi : ∃ i n, choose key path variants (converted (union m variants) v) = some i ∧ variants[i]? = some n
    · obtain ⟨i, n, hi, hn⟩ := hi
      rw [rewrite_union_of_some hi hn, hown]
      exact ih n (List.mem_of_getElem? hn)
    · rw [rewrite_union_of_none fun i n hi' hn => hi ⟨i, n, hi', hn⟩, hown]
      exact .inl rfl
  | _ =>
    rw [rewrite_of_scalar hv rfl]
    exact storesAs_scalarForm

end Node

/-- A literal that is compared with an attribute has the form in which its node stores it. -/
theorem ConditionDocument.literalForm_of_scalar {n : Node} {v : Value} (hv : v.isScalar = true) :
    literalForm n v = n.storedForm v := by
  unfold literalForm Node.storedForm
  split
  · split
    · cases hv
    · rfl
    · rfl
    · rfl
    · rename_i hdate hlist hinstant hstring hnumber
      cases v <;> first | rfl | exact absurd rfl (hinstant _) | exact absurd rfl (hstring _) |
        exact absurd rfl (hnumber _)
  · rfl

end ItemMapper
