import ItemMapper.Proofs.Entries
import ItemMapper.Schema.Survey

/-!
# Positions

A property of nodes may hold throughout a schema, and a property of a value at its node everywhere in an item: at
each position that declared objects, lists and chosen union variants lead to. A declared field that an item lacks
is a position of the undefined value. Members of sets are no positions of their own.
-/

namespace ItemMapper

/-- Which variant a union is entered by, from the key under which picks are kept, the path, the variants and the
value. -/
abbrev Chooser := String → String → List Node → Value → Option Nat

def Chooser.never : Chooser := fun _ _ _ _ => none

namespace Node

@[induction_eliminator]
theorem induct {P : Node → Prop} (scalar : ∀ m k, P (scalar m k))
    (object : ∀ m fields isOpen, (∀ f ∈ fields, P f.2) → P (object m fields isOpen)) (any : ∀ m, P (any m))
    (list : ∀ m items, P items → P (list m items)) (set : ∀ m items, P items → P (set m items))
    (union : ∀ m variants, (∀ n ∈ variants, P n) → P (union m variants)) (undefined : ∀ m, P (undefined m))
    (n : Node) : P n := by
  refine Node.rec (motive_1 := P) (motive_2 := fun fields => ∀ f ∈ fields, P f.2)
    (motive_3 := fun ns => ∀ n ∈ ns, P n) (motive_4 := fun f => P f.2)
    scalar object any list set union undefined ?_ ?_ ?_ ?_ ?_ n
  · simp
  · intro f rest hf hrest g hg
    rcases List.mem_cons.1 hg with rfl | hg
    · exact hf
    · exact hrest g hg
  · simp
  · intro n rest hn hrest u hu
    rcases List.mem_cons.1 hu with rfl | hu
    · exact hn
    · exact hrest u hu
  · intro _ _ h
    exact h

mutual

def Throughout (Q : Node → Prop) : Node → Prop
  | object m fields isOpen => Q (object m fields isOpen) ∧ fieldsThroughout Q fields
  | list m items => Q (list m items) ∧ Throughout Q items
  | set m items => Q (set m items) ∧ Throughout Q items
  | union m variants => Q (union m variants) ∧ variantsThroughout Q variants
  | scalar m k => Q (scalar m k)
  | any m => Q (any m)
  | undefined m => Q (undefined m)

def fieldsThroughout (Q : Node → Prop) : List (String × Node) → Prop
  | [] => True
  | (_, n) :: rest => Throughout Q n ∧ fieldsThroughout Q rest

def variantsThroughout (Q : Node → Prop) : List Node → Prop
  | [] => True
  | n :: rest => Throughout Q n ∧ variantsThroughout Q rest

end

theorem fieldsThroughout_iff {Q : Node → Prop} {fields : List (String × Node)} :
    fieldsThroughout Q fields ↔ ∀ f ∈ fields, Throughout Q f.2 := by
  induction fields with
  | nil => simp [fieldsThroughout]
  | cons f rest ih => simp [fieldsThroughout, ih]

theorem variantsThroughout_iff {Q : Node → Prop} {variants : List Node} :
    variantsThroughout Q variants ↔ ∀ n ∈ variants, Throughout Q n := by
  induction variants with
  | nil => simp [variantsThroughout]
  | cons n rest ih => simp [variantsThroughout, ih]

section Throughout

variable {Q R : Node → Prop} {n : Node} {m : Modifiers} {fields : List (String × Node)} {items : Node}
  {variants : List Node} {isOpen : Bool}

theorem Throughout.self (h : n.Throughout Q) : Q n := by
  cases n <;> simp only [Throughout] at h
  case scalar => exact h
  case any => exact h
  case undefined => exact h
  all_goals exact h.1

theorem Throughout.field (h : (object m fields isOpen).Throughout Q) {f : String × Node} (hf : f ∈ fields) :
    f.2.Throughout Q := by
  rw [Throughout] at h
  exact fieldsThroughout_iff.1 h.2 f hf

theorem Throughout.item (h : (list m items).Throughout Q) : items.Throughout Q := by
  rw [Throughout] at h
  exact h.2

theorem Throughout.member (h : (set m items).Throughout Q) : items.Throughout Q := by
  rw [Throughout] at h
  exact h.2

theorem Throughout.variant (h : (union m variants).Throughout Q) (hn : n ∈ variants) : n.Throughout Q := by
  rw [Throughout] at h
  exact variantsThroughout_iff.1 h.2 n hn

theorem Throughout.mono (hqr : ∀ n, Q n → R n) (h : n.Throughout Q) : n.Throughout R := by
  induction n with
  | object m fields isOpen ih =>
    rw [Throughout]
    exact ⟨hqr _ h.self, fieldsThroughout_iff.2 fun f hf => ih f hf (h.field hf)⟩
  | list m items ih =>
    rw [Throughout]
    exact ⟨hqr _ h.self, ih h.item⟩
  | set m items ih =>
    rw [Throughout]
    exact ⟨hqr _ h.self, ih h.member⟩
  | union m variants ih =>
    rw [Throughout]
    exact ⟨hqr _ h.self, variantsThroughout_iff.2 fun n hn => ih n hn (h.variant hn)⟩
  | scalar m k =>
    rw [Throughout]
    exact hqr _ h.self
  | any m =>
    rw [Throughout]
    exact hqr _ h.self
  | undefined m =>
    rw [Throughout]
    exact hqr _ h.self

theorem Throughout.and (hq : n.Throughout Q) (hr : n.Throughout R) : n.Throughout fun n => Q n ∧ R n := by
  induction n with
  | object m fields isOpen ih =>
    rw [Throughout]
    exact ⟨⟨hq.self, hr.self⟩, fieldsThroughout_iff.2 fun f hf => ih f hf (hq.field hf) (hr.field hf)⟩
  | list m items ih =>
    rw [Throughout]
    exact ⟨⟨hq.self, hr.self⟩, ih hq.item hr.item⟩
  | set m items ih =>
    rw [Throughout]
    exact ⟨⟨hq.self, hr.self⟩, ih hq.member hr.member⟩
  | union m variants ih =>
    rw [Throughout]
    exact ⟨⟨hq.self, hr.self⟩, variantsThroughout_iff.2 fun n hn => ih n hn (hq.variant hn) (hr.variant hn)⟩
  | _ =>
    rw [Throughout]
    exact ⟨hq.self, hr.self⟩

end Throughout

mutual

def Everywhere (choose : Chooser) (P : Node → Value → Prop) (key path : String) (v : Value) : Node → Prop
  | object m fields isOpen => P (object m fields isOpen) v ∧
    match v with
    | .map entries => fieldsEverywhere choose P path entries fields
    | _ => True
  | list m items => P (list m items) v ∧
    match v with
    | .list elements =>
      ∀ e ∈ elements.zipIdx, Everywhere choose P (elementPath path e.2) (elementPath path e.2) e.1 items
    | _ => True
  | union m variants => P (union m variants) v ∧
    match choose key path variants v with
    | some i => variantEverywhere choose P (nestedKey key) path v i variants
    | none => True
  | scalar m k => P (scalar m k) v
  | any m => P (any m) v
  | set m items => P (set m items) v
  | undefined m => P (undefined m) v

def fieldsEverywhere (choose : Chooser) (P : Node → Value → Prop) (path : String) (entries : List (String × Value)) :
    List (String × Node) → Prop
  | [] => True
  | (name, n) :: rest =>
    Everywhere choose P (memberPath path name) (memberPath path name) ((Entries.get? name entries).getD .undefined) n ∧
      fieldsEverywhere choose P path entries rest

def variantEverywhere (choose : Chooser) (P : Node → Value → Prop) (key path : String) (v : Value) :
    Nat → List Node → Prop
  | _, [] => True
  | 0, n :: _ => Everywhere choose P key path v n
  | i + 1, _ :: rest => variantEverywhere choose P key path v i rest

end

section Everywhere

variable {choose : Chooser} {P R : Node → Value → Prop} {key path : String} {v : Value} {n : Node} {m : Modifiers}
  {fields : List (String × Node)} {items : Node} {variants : List Node} {isOpen : Bool}

theorem fieldsEverywhere_iff {entries : List (String × Value)} :
    fieldsEverywhere choose P path entries fields ↔ ∀ f ∈ fields,
      f.2.Everywhere choose P (memberPath path f.1) (memberPath path f.1)
        ((Entries.get? f.1 entries).getD .undefined) := by
  induction fields with
  | nil => simp [fieldsEverywhere]
  | cons f rest ih => simp [fieldsEverywhere, ih]

theorem variantEverywhere_iff {i : Nat} :
    variantEverywhere choose P key path v i variants ↔
      ∀ n, variants[i]? = some n → n.Everywhere choose P key path v := by
  induction variants generalizing i with
  | nil => simp [variantEverywhere]
  | cons n rest ih =>
    cases i with
    | zero => simp [variantEverywhere]
    | succ i => simpa [variantEverywhere] using ih

theorem everywhere_object : (object m fields isOpen).Everywhere choose P key path v ↔
    P (object m fields isOpen) v ∧ ∀ entries, v = .map entries → ∀ f ∈ fields,
      f.2.Everywhere choose P (memberPath path f.1) (memberPath path f.1)
        ((Entries.get? f.1 entries).getD .undefined) := by
  cases v <;> simp [Everywhere, fieldsEverywhere_iff]

theorem everywhere_list : (list m items).Everywhere choose P key path v ↔
    P (list m items) v ∧ ∀ elements, v = .list elements → ∀ e ∈ elements.zipIdx,
      items.Everywhere choose P (elementPath path e.2) (elementPath path e.2) e.1 := by
  cases v <;> simp [Everywhere]

theorem everywhere_union : (union m variants).Everywhere choose P key path v ↔
    P (union m variants) v ∧ ∀ i n, choose key path variants v = some i → variants[i]? = some n →
      n.Everywhere choose P (nestedKey key) path v := by
  rw [Everywhere]
  refine and_congr_right fun _ => ?_
  cases choose key path variants v with
  | none => simp
  | some j =>
    simp only [variantEverywhere_iff, Option.some.injEq]
    constructor
    · rintro h _ n rfl hn
      exact h n hn
    · intro h n hn
      exact h j n rfl hn

theorem everywhere_union_of_some {i : Nat} (hi : choose key path variants v = some i) (hn : variants[i]? = some n) :
    (union m variants).Everywhere choose P key path v ↔
      P (union m variants) v ∧ n.Everywhere choose P (nestedKey key) path v := by
  rw [everywhere_union]
  refine and_congr_right fun _ => ⟨fun h => h i n hi hn, fun h j u hj hu => ?_⟩
  obtain rfl := Option.some.inj (hi.symm.trans hj)
  obtain rfl := Option.some.inj (hn.symm.trans hu)
  exact h

theorem everywhere_union_of_none (h : ∀ i n, choose key path variants v = some i → variants[i]? ≠ some n) :
    (union m variants).Everywhere choose P key path v ↔ P (union m variants) v := by
  rw [everywhere_union]
  exact ⟨fun hp => hp.1, fun hp => ⟨hp, fun i n hi hn => absurd hn (h i n hi)⟩⟩

theorem Everywhere.self (h : n.Everywhere choose P key path v) : P n v := by
  cases n <;> simp only [Everywhere] at h
  case object => exact h.1
  case list => exact h.1
  case union => exact h.1
  all_goals exact h

theorem Everywhere.and (hp : n.Everywhere choose P key path v) (hr : n.Everywhere choose R key path v) :
    n.Everywhere choose (fun n v => P n v ∧ R n v) key path v := by
  induction n generalizing key path v with
  | object m fields isOpen ih =>
    refine everywhere_object.2 ⟨⟨hp.self, hr.self⟩, fun entries hv f hf => ?_⟩
    exact ih f hf ((everywhere_object.1 hp).2 entries hv f hf) ((everywhere_object.1 hr).2 entries hv f hf)
  | list m items ih =>
    refine everywhere_list.2 ⟨⟨hp.self, hr.self⟩, fun elements hv e he => ?_⟩
    exact ih ((everywhere_list.1 hp).2 elements hv e he) ((everywhere_list.1 hr).2 elements hv e he)
  | union m variants ih =>
    refine everywhere_union.2 ⟨⟨hp.self, hr.self⟩, fun i n hi hn => ?_⟩
    exact ih n (List.mem_of_getElem? hn) ((everywhere_union.1 hp).2 i n hi hn) ((everywhere_union.1 hr).2 i n hi hn)
  | _ => exact ⟨hp.self, hr.self⟩

theorem Everywhere.imp {Q : Node → Prop} (h : n.Everywhere choose P key path v) (hn : n.Throughout Q)
    (hpr : ∀ n v, Q n → P n v → R n v) : n.Everywhere choose R key path v := by
  induction n generalizing key path v with
  | object m fields isOpen ih =>
    refine everywhere_object.2 ⟨hpr _ _ hn.self h.self, fun entries hv f hf => ?_⟩
    exact ih f hf ((everywhere_object.1 h).2 entries hv f hf) (hn.field hf)
  | list m items ih =>
    refine everywhere_list.2 ⟨hpr _ _ hn.self h.self, fun elements hv e he => ?_⟩
    exact ih ((everywhere_list.1 h).2 elements hv e he) hn.item
  | union m variants ih =>
    refine everywhere_union.2 ⟨hpr _ _ hn.self h.self, fun i n hi hmem => ?_⟩
    have hin := List.mem_of_getElem? hmem
    exact ih n hin ((everywhere_union.1 h).2 i n hi hmem) (hn.variant hin)
  | _ => exact hpr _ _ hn.self h.self

theorem Everywhere.at (h : n.Everywhere .never P key path v) (key' path' : String) :
    n.Everywhere .never P key' path' v := by
  induction n generalizing key path key' path' v with
  | object m fields isOpen ih =>
    refine everywhere_object.2 ⟨h.self, fun entries hv f hf => ?_⟩
    exact ih f hf ((everywhere_object.1 h).2 entries hv f hf) _ _
  | list m items ih =>
    refine everywhere_list.2 ⟨h.self, fun elements hv e he => ?_⟩
    exact ih ((everywhere_list.1 h).2 elements hv e he) _ _
  | union m variants => exact everywhere_union.2 ⟨h.self, by simp [Chooser.never]⟩
  | _ => exact h.self

theorem everywhere_list_never : (list m items).Everywhere .never P key path v ↔
    P (list m items) v ∧ ∀ elements, v = .list elements → ∀ e ∈ elements, items.Everywhere .never P "" "" e := by
  rw [everywhere_list]
  refine and_congr_right fun _ => forall₂_congr fun elements _ => ⟨fun h e he => ?_, fun h e he => ?_⟩
  · obtain ⟨i, hi⟩ := List.mem_iff_getElem?.1 he
    exact (h (e, i) (List.mem_zipIdx_iff_getElem?.2 hi)).at _ _
  · exact (h e.1 (List.fst_mem_of_mem_zipIdx he)).at _ _

theorem everywhere_object_never : (object m fields isOpen).Everywhere .never P key path v ↔
    P (object m fields isOpen) v ∧ ∀ entries, v = .map entries → ∀ f ∈ fields,
      f.2.Everywhere .never P "" "" ((Entries.get? f.1 entries).getD .undefined) := by
  rw [everywhere_object]
  refine and_congr_right fun _ => forall₂_congr fun entries _ => forall₂_congr fun f _ => ?_
  exact ⟨fun h => h.at _ _, fun h => h.at _ _⟩

theorem everywhere_undefined (h : ∀ n, P n .undefined) : n.Everywhere .never P key path .undefined := by
  cases n with
  | object m fields isOpen => exact everywhere_object.2 ⟨h _, by simp⟩
  | list m items => exact everywhere_list.2 ⟨h _, by simp⟩
  | union m variants => exact everywhere_union.2 ⟨h _, by simp [Chooser.never]⟩
  | _ => exact h _

end Everywhere

end Node

end ItemMapper
