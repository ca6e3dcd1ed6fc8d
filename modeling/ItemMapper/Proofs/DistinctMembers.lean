import ItemMapper.Value.Basic
import Mathlib.Data.List.Basic

/-!
# Distinct members

The members that a set keeps are some of those it was given, in their order; no two of them are equal and none is
undefined. A set that is so already keeps them all.
-/

namespace ItemMapper.Value

def distinctFrom (before : List Value) : List Value → List Value
  | [] => []
  | v :: rest =>
    if v.isUndefined || isMember v before then distinctFrom before rest else v :: distinctFrom (before ++ [v]) rest

theorem distinct_eq_distinctFrom (members : List Value) : distinct members = distinctFrom [] members := by
  suffices h : ∀ rest before : List Value,
      rest.foldl (fun out v => if v.isUndefined || isMember v out then out else out ++ [v]) before =
        before ++ distinctFrom before rest from h members []
  intro rest
  induction rest with
  | nil => simp [distinctFrom]
  | cons v rest ih =>
    intro before
    rw [List.foldl_cons, ih, distinctFrom]
    split <;> simp

theorem distinctFrom_sublist (before members : List Value) : (distinctFrom before members).Sublist members := by
  induction members generalizing before with
  | nil => exact List.Sublist.slnil
  | cons v rest ih =>
    rw [distinctFrom]
    split
    · exact (ih before).cons v
    · exact (ih (before ++ [v])).cons_cons v

theorem distinct_sublist (members : List Value) : (distinct members).Sublist members := by
  rw [distinct_eq_distinctFrom]
  exact distinctFrom_sublist [] members

theorem mem_of_mem_distinct {members : List Value} {v : Value} (h : v ∈ distinct members) : v ∈ members :=
  (distinct_sublist members).subset h

def AllDistinct (members : List Value) : Prop :=
  (∀ v ∈ members, v.isUndefined = false) ∧ members.Pairwise fun v w => same v w = false

theorem isMember_append (v w : Value) (vs : List Value) : isMember v (vs ++ [w]) = (isMember v vs || same w v) := by
  simp [isMember]

theorem distinctFrom_allDistinct (before members : List Value) : AllDistinct (distinctFrom before members) ∧
    ∀ v ∈ distinctFrom before members, isMember v before = false := by
  induction members generalizing before with
  | nil => simp [distinctFrom, AllDistinct]
  | cons v rest ih =>
    rw [distinctFrom]
    split
    · exact ih before
    · rename_i hv
      rw [Bool.or_eq_true, not_or, Bool.not_eq_true, Bool.not_eq_true] at hv
      obtain ⟨⟨hdef, hpair⟩, hout⟩ := ih (before ++ [v])
      have hlater : ∀ w ∈ distinctFrom (before ++ [v]) rest, isMember w before = false ∧ same v w = false := by
        intro w hw
        have h := hout w hw
        rwa [isMember_append, Bool.or_eq_false_iff] at h
      refine ⟨⟨?_, List.pairwise_cons.2 ⟨fun w hw => (hlater w hw).2, hpair⟩⟩, ?_⟩
      · intro w hw
        rcases List.mem_cons.1 hw with rfl | hw
        · exact hv.1
        · exact hdef w hw
      · intro w hw
        rcases List.mem_cons.1 hw with rfl | hw
        · exact hv.2
        · exact (hlater w hw).1

theorem distinct_allDistinct (members : List Value) : AllDistinct (distinct members) := by
  rw [distinct_eq_distinctFrom]
  exact (distinctFrom_allDistinct [] members).1

theorem distinctFrom_eq_self {before members : List Value} (h : AllDistinct members)
    (hb : ∀ v ∈ members, isMember v before = false) : distinctFrom before members = members := by
  induction members generalizing before with
  | nil => rfl
  | cons v rest ih =>
    have hv : v.isUndefined = false := h.1 v List.mem_cons_self
    have hpair := List.pairwise_cons.1 h.2
    rw [distinctFrom, hv, hb v List.mem_cons_self, Bool.or_false, if_neg Bool.false_ne_true]
    rw [ih ⟨fun w hw => h.1 w (List.mem_cons_of_mem _ hw), hpair.2⟩]
    intro w hw
    rw [isMember_append, hb w (List.mem_cons_of_mem _ hw), hpair.1 w hw, Bool.or_false]

theorem distinct_eq_self_iff {members : List Value} : distinct members = members ↔ AllDistinct members := by
  constructor
  · intro h
    exact h ▸ distinct_allDistinct members
  · intro h
    rw [distinct_eq_distinctFrom]
    exact distinctFrom_eq_self h fun _ _ => rfl

theorem distinct_distinct (members : List Value) : distinct (distinct members) = distinct members :=
  distinct_eq_self_iff.2 (distinct_allDistinct members)

end ItemMapper.Value
