import ItemMapper.Proofs.WellKeyed

/-!
# Rewriting

A pass that goes through a schema with a value is told by what it does with the value at a node before it goes
inside, and by the variants through which it enters unions. Here such a pass is a function; two of them in a row are
one, and two agree on a value when they agree at all of its positions.
-/

namespace ItemMapper

/-- What is done with a value at its node. -/
abbrev Treatment := Node → Value → Value

def Picks.chooser (t : Picks) : Chooser := fun key _ _ v => if v.isUndefined then none else (Entries.get? key t).join

namespace Node

mutual

/-- A value treated from the outside in. The members of sets are left to the treatment of the set. -/
def rewrite (choose : Chooser) (own : Treatment) (key path : String) (v : Value) : Node → Value
  | object m fields isOpen =>
    match own (object m fields isOpen) v with
    | .map entries => .map (entries.map fun e => (e.1, rewriteField choose own path e.1 e.2 fields))
    | w => w
  | list m items =>
    match own (list m items) v with
    | .list elements =>
      .list (elements.zipIdx.map fun e => rewrite choose own (elementPath path e.2) (elementPath path e.2) e.1 items)
    | w => w
  | union m variants =>
    match choose key path variants (own (union m variants) v) with
    | some i => rewriteVariant choose own (nestedKey key) path (own (union m variants) v) i variants
    | none => own (union m variants) v
  | scalar m k => own (scalar m k) v
  | any m => own (any m) v
  | set m items => own (set m items) v
  | undefined m => own (undefined m) v

def rewriteField (choose : Chooser) (own : Treatment) (path name : String) (v : Value) : List (String × Node) → Value
  | [] => v
  | (field, n) :: rest =>
    if field = name then rewrite choose own (memberPath path name) (memberPath path name) v n
    else rewriteField choose own path name v rest

def rewriteVariant (choose : Chooser) (own : Treatment) (key path : String) (v : Value) : Nat → List Node → Value
  | _, [] => v
  | 0, n :: _ => rewrite choose own key path v n
  | i + 1, _ :: rest => rewriteVariant choose own key path v i rest

end

variable {choose : Chooser} {own other : Treatment} {key path name : String} {v w : Value} {n : Node} {m : Modifiers}
  {fields : List (String × Node)} {items : Node} {variants : List Node} {isOpen : Bool} {t : Picks}
  {entries es : List (String × Value)}

theorem rewriteField_eq : rewriteField choose own path name v fields =
    match Entries.get? name fields with
    | some n => n.rewrite choose own (memberPath path name) (memberPath path name) v
    | none => v := by
  induction fields with
  | nil => rfl
  | cons f rest ih =>
    rw [rewriteField, Entries.get?]
    split
    · rfl
    · exact ih

theorem rewriteVariant_eq {i : Nat} : rewriteVariant choose own key path v i variants =
    match variants[i]? with
    | some n => n.rewrite choose own key path v
    | none => v := by
  induction variants generalizing i with
  | nil => rfl
  | cons n rest ih =>
    cases i with
    | zero => rfl
    | succ i => exact ih

theorem rewrite_congr (h : own n v = own n w) : n.rewrite choose own key path v = n.rewrite choose own key path w := by
  cases n <;> simp only [rewrite, h]

theorem rewrite_object_eq : (object m fields isOpen).rewrite choose own key path v =
    match own (object m fields isOpen) v with
    | .map entries => .map (entries.map fun e => (e.1, rewriteField choose own path e.1 e.2 fields))
    | w => w := rfl

theorem rewrite_object (h : own (object m fields isOpen) v = .map entries) :
    (object m fields isOpen).rewrite choose own key path v =
      .map (entries.map fun e => (e.1, rewriteField choose own path e.1 e.2 fields)) := by
  rw [rewrite_object_eq, h]

theorem rewrite_object_of_no_map (h : (own (object m fields isOpen) v).isMap = false) :
    (object m fields isOpen).rewrite choose own key path v = own (object m fields isOpen) v := by
  rw [rewrite_object_eq]
  split
  · rename_i he
    rw [he] at h
    cases h
  · rfl

theorem rewrite_list_eq : (list m items).rewrite choose own key path v =
    match own (list m items) v with
    | .list elements => .list (elements.zipIdx.map fun e =>
      items.rewrite choose own (elementPath path e.2) (elementPath path e.2) e.1)
    | w => w := rfl

theorem rewrite_list {elements : List Value} (h : own (list m items) v = .list elements) :
    (list m items).rewrite choose own key path v = .list (elements.zipIdx.map fun e =>
      items.rewrite choose own (elementPath path e.2) (elementPath path e.2) e.1) := by
  rw [rewrite_list_eq, h]

theorem rewrite_list_of_no_list (h : ∀ elements, own (list m items) v ≠ .list elements) :
    (list m items).rewrite choose own key path v = own (list m items) v := by
  rw [rewrite_list_eq]
  split
  · rename_i he
    exact absurd he (h _)
  · rfl

theorem rewrite_union_eq : (union m variants).rewrite choose own key path v =
    match choose key path variants (own (union m variants) v) with
    | some i => rewriteVariant choose own (nestedKey key) path (own (union m variants) v) i variants
    | none => own (union m variants) v := rfl

theorem rewrite_union_of_some {i : Nat} (hi : choose key path variants (own (union m variants) v) = some i)
    (hn : variants[i]? = some n) : (union m variants).rewrite choose own key path v =
      n.rewrite choose own (nestedKey key) path (own (union m variants) v) := by
  rw [rewrite_union_eq, hi]
  simp only [rewriteVariant_eq, hn]

theorem rewrite_union_of_none (h : ∀ i n, choose key path variants (own (union m variants) v) = some i →
    variants[i]? ≠ some n) : (union m variants).rewrite choose own key path v = own (union m variants) v := by
  rw [rewrite_union_eq]
  split
  · rename_i i hi
    rw [rewriteVariant_eq]
    split
    · rename_i n hn
      exact absurd hn (h i n hi)
    · rfl
  · rfl

end Node

theorem Value.eq_undefined_iff {v : Value} : v = .undefined ↔ v.isUndefined = true := by
  cases v <;> simp [Value.isUndefined]

namespace Treatment

def andThen (own other : Treatment) : Treatment := fun n v => other n (own n v)

def KeepsDefined (own : Treatment) : Prop := ∀ n v, v.isUndefined = false → (own n v).isUndefined = false

/-- Drops undeclared entries of objects, by their keys, and changes nothing else but scalars and sets. -/
structure Trims (own : Treatment) : Prop where
  isUndefined : ∀ n v, (own n v).isUndefined = v.isUndefined
  object : ∀ m fields isOpen, ∃ p : String → Bool, (∀ name ∈ Entries.keys fields, p name = true) ∧
    (∀ es, own (.object m fields isOpen) (.map es) = .map (es.filter fun e => p e.1)) ∧
    ∀ v : Value, v.isMap = false → own (.object m fields isOpen) v = v
  list : ∀ m items v, own (.list m items) v = v
  union : ∀ m variants v, own (.union m variants) v = v

/-- Does with defined values what the other treatment does, but may add to the entries of objects, and says so in
their keys. -/
structure AddsTo (own other : Treatment) : Prop where
  keepsDefined : own.KeepsDefined
  trims : other.Trims
  list : ∀ m items v, v.isUndefined = false → own (.list m items) v = v
  union : ∀ m variants v, v.isUndefined = false → own (.union m variants) v = v
  noMap : ∀ m fields isOpen v, v.isUndefined = false → v.isMap = false → own (.object m fields isOpen) v = v
  map : ∀ m fields isOpen es, ∃ added, own (.object m fields isOpen) (.map es) = .map added ∧
    ∀ trimmed, other (.object m fields isOpen) (.map es) = .map trimmed →
      Entries.keys added = Entries.keys trimmed → added = trimmed
  absent : ∀ m fields isOpen es, own (.object m fields isOpen) (.map es) = other (.object m fields isOpen) (.map es) →
    ∀ f ∈ fields, Entries.get? f.1 es = none → own f.2 .undefined = .undefined

variable {own other : Treatment}

theorem KeepsDefined.andThen (h : own.KeepsDefined) (ho : other.KeepsDefined) : (own.andThen other).KeepsDefined :=
  fun n v hv => ho n _ (h n v hv)

theorem Trims.untreated : Trims fun _ v => v where
  isUndefined _ _ := rfl
  object _ _ _ := ⟨fun _ => true, by simp, fun es => by simp, fun _ _ => rfl⟩
  list _ _ _ := rfl
  union _ _ _ := rfl

theorem Trims.keepsDefined (h : own.Trims) : own.KeepsDefined := fun n v hv => (h.isUndefined n v).trans hv

theorem Trims.undefined (h : own.Trims) (n : Node) : own n .undefined = .undefined := by
  have hu := h.isUndefined n .undefined
  cases hw : own n .undefined <;> simp_all [Value.isUndefined]

theorem Trims.andThen (h : own.Trims) (ho : other.Trims) : (own.andThen other).Trims where
  isUndefined n v := (ho.isUndefined n _).trans (h.isUndefined n v)
  object m fields isOpen := by
    obtain ⟨p, hp, hmap, hno⟩ := h.object m fields isOpen
    obtain ⟨q, hq, hmap', hno'⟩ := ho.object m fields isOpen
    refine ⟨fun name => p name && q name, fun name hname => ?_, fun es => ?_, fun v hv => ?_⟩
    · simp [hp name hname, hq name hname]
    · rw [Treatment.andThen, hmap, hmap', List.filter_filter]
      simp only [Bool.and_comm]
    · rw [Treatment.andThen, hno v hv, hno' v hv]
  list m items v := by rw [Treatment.andThen, h.list, ho.list]
  union m variants v := by rw [Treatment.andThen, h.union, ho.union]

theorem Trims.addsTo (h : own.Trims) (ho : other.Trims)
    (hmap : ∀ m fields isOpen es, own (.object m fields isOpen) (.map es) = other (.object m fields isOpen) (.map es)) :
    own.AddsTo other where
  keepsDefined := h.keepsDefined
  trims := ho
  list m items v _ := h.list m items v
  union m variants v _ := h.union m variants v
  noMap m fields isOpen v _ hv := by
    obtain ⟨p, -, -, hno⟩ := h.object m fields isOpen
    exact hno v hv
  map m fields isOpen es := by
    obtain ⟨p, -, hes, -⟩ := ho.object m fields isOpen
    refine ⟨_, (hmap m fields isOpen es).trans (hes es), fun trimmed htrimmed _ => ?_⟩
    rw [hes, Value.map.injEq] at htrimmed
    exact htrimmed
  absent _ _ _ _ _ f _ _ := h.undefined f.2

end Treatment

namespace Node

variable {choose : Chooser} {own other : Treatment} {key path : String} {v : Value} {n : Node} {t : Picks}
  {P : Node → Value → Prop}

theorem chooser_undefined {variants : List Node} : t.chooser key path variants .undefined = none := rfl

theorem chooser_congr {variants : List Node} {v w : Value} (h : v.isUndefined = w.isUndefined) :
    t.chooser key path variants v = t.chooser key path variants w := by
  simp [Picks.chooser, h]

theorem everywhere_undefined_iff : n.Everywhere t.chooser P key path .undefined ↔ P n .undefined := by
  refine ⟨fun h => h.self, fun h => ?_⟩
  cases n with
  | object m fields isOpen => exact everywhere_object.2 ⟨h, by simp⟩
  | list m items => exact everywhere_list.2 ⟨h, by simp⟩
  | union m variants => exact everywhere_union.2 ⟨h, by simp [chooser_undefined]⟩
  | _ => exact h

theorem rewrite_isUndefined (h : own.KeepsDefined) :
    (n.rewrite t.chooser own key path v).isUndefined = (own n v).isUndefined := by
  induction n generalizing key path v with
  | object m fields isOpen =>
    rw [rewrite]
    split
    · rename_i he
      rw [he]
      rfl
    · rfl
  | list m items =>
    rw [rewrite]
    split
    · rename_i he
      rw [he]
      rfl
    · rfl
  | union m variants ih =>
    cases hu : (own (union m variants) v).isUndefined with
    | true =>
      rw [← Value.eq_undefined_iff] at hu
      rw [rewrite_union_of_none (by simp [hu, chooser_undefined]), hu]
      rfl
    | false =>
      by_cases hn : ∃ i n, t.chooser key path variants (own (union m variants) v) = some i ∧ variants[i]? = some n
      · obtain ⟨i, n, hi, hn⟩ := hn
        rw [rewrite_union_of_some hi hn, ih n (List.mem_of_getElem? hn)]
        exact h n _ hu
      · rw [rewrite_union_of_none fun i n hi hn' => hn ⟨i, n, hi, hn'⟩, hu]
  | _ => rfl

theorem zipIdx_map_zipIdx {α β : Type} (g : α × Nat → β) (xs : List α) :
    (xs.zipIdx.map g).zipIdx = xs.zipIdx.map fun e => (g e, e.2) := by
  refine List.ext_getElem? fun i => ?_
  simp only [List.getElem?_zipIdx, List.getElem?_map, Option.map_map]
  cases xs[i]? <;> simp

theorem rewrite_untreated : n.rewrite choose (fun _ v => v) key path v = v := by
  induction n generalizing key path v with
  | object m fields isOpen ih =>
    by_cases hm : ∃ es, v = .map es
    · obtain ⟨es, rfl⟩ := hm
      rw [rewrite_object rfl]
      have hsame : ∀ e ∈ es, (e.1, rewriteField choose (fun _ v => v) path e.1 e.2 fields) = id e := by
        refine fun e _ => Prod.ext rfl ?_
        rw [rewriteField_eq]
        cases hf : Entries.get? e.1 fields with
        | none => rfl
        | some u => exact ih (e.1, u) (Entries.mem_of_get? hf)
      rw [List.map_congr_left hsame, List.map_id]
    · exact rewrite_object_of_no_map (by cases v <;> first | rfl | exact absurd ⟨_, rfl⟩ hm)
  | list m items ih =>
    by_cases hl : ∃ elements, v = .list elements
    · obtain ⟨elements, rfl⟩ := hl
      rw [rewrite_list rfl]
      refine congrArg Value.list ((List.map_congr_left fun e _ => ih).trans ?_)
      exact List.zipIdx_map_fst 0 elements
    · exact rewrite_list_of_no_list fun elements he => hl ⟨elements, he⟩
  | union m variants ih =>
    by_cases hn : ∃ i n, choose key path variants v = some i ∧ variants[i]? = some n
    · obtain ⟨i, n, hi, hn⟩ := hn
      rw [rewrite_union_of_some hi hn]
      exact ih n (List.mem_of_getElem? hn)
    · exact rewrite_union_of_none fun i n hi hn' => hn ⟨i, n, hi, hn'⟩
  | _ => rfl

theorem rewrite_eq_of_throughout {Q : Node → Prop} (h : ∀ u, u.Throughout Q → ∀ v, own u v = other u v)
    (hn : n.Throughout Q) : n.rewrite choose own key path v = n.rewrite choose other key path v := by
  induction n generalizing key path v with
  | object m fields isOpen ih =>
    by_cases hm : ∃ es, other (object m fields isOpen) v = .map es
    · obtain ⟨es, hes⟩ := hm
      rw [rewrite_object ((h _ hn v).trans hes), rewrite_object hes]
      refine congrArg Value.map (List.map_congr_left fun e _ => Prod.ext rfl ?_)
      simp only [rewriteField_eq]
      cases hf : Entries.get? e.1 fields with
      | none => rfl
      | some u =>
        have hmem := Entries.mem_of_get? hf
        exact ih (e.1, u) hmem (hn.field hmem)
    · have hno : (other (object m fields isOpen) v).isMap = false := by
        cases hw : other (object m fields isOpen) v <;> first | rfl | exact absurd ⟨_, hw⟩ hm
      rw [rewrite_object_of_no_map (by rwa [h _ hn]), rewrite_object_of_no_map hno, h _ hn]
  | list m items ih =>
    by_cases hl : ∃ elements, other (list m items) v = .list elements
    · obtain ⟨elements, he⟩ := hl
      rw [rewrite_list ((h _ hn v).trans he), rewrite_list he]
      exact congrArg Value.list (List.map_congr_left fun e _ => ih hn.item)
    · have hno : ∀ elements, other (list m items) v ≠ .list elements := fun elements he => hl ⟨elements, he⟩
      rw [rewrite_list_of_no_list (by rwa [h _ hn]), rewrite_list_of_no_list hno, h _ hn]
  | union m variants ih =>
    by_cases hi : ∃ i n, choose key path variants (other (union m variants) v) = some i ∧ variants[i]? = some n
    · obtain ⟨i, n, hi, hget⟩ := hi
      have hmem := List.mem_of_getElem? hget
      rw [rewrite_union_of_some (by rwa [h _ hn]) hget, rewrite_union_of_some hi hget, h _ hn]
      exact ih n hmem (hn.variant hmem)
    · have hnone : ∀ i n, choose key path variants (other (union m variants) v) = some i → variants[i]? ≠ some n :=
        fun i n hi' hn' => hi ⟨i, n, hi', hn'⟩
      rw [rewrite_union_of_none (by rwa [h _ hn]), rewrite_union_of_none hnone, h _ hn]
  | _ => exact h _ hn v

/-- Two rewritings in a row are one by both treatments, if the second one only trims. -/
theorem rewrite_rewrite (ho : own.KeepsDefined) (hp : other.Trims) :
    n.rewrite t.chooser other key path (n.rewrite t.chooser own key path v) =
      n.rewrite t.chooser (own.andThen other) key path v := by
  induction n generalizing key path v with
  | object m fields isOpen ih =>
    obtain ⟨p, -, hmap, hother⟩ := hp.object m fields isOpen
    by_cases hm : ∃ es, own (object m fields isOpen) v = .map es
    · obtain ⟨es, hes⟩ := hm
      have hboth : own.andThen other (object m fields isOpen) v = .map (es.filter fun e => p e.1) := by
        rw [Treatment.andThen, hes, hmap]
      rw [rewrite_object hes, rewrite_object (hmap _), rewrite_object hboth, List.filter_map, List.map_map]
      refine congrArg Value.map (List.map_congr_left fun e _ => Prod.ext rfl ?_)
      simp only [Function.comp_apply, rewriteField_eq]
      cases hf : Entries.get? e.1 fields with
      | none => rfl
      | some u => exact ih (e.1, u) (Entries.mem_of_get? hf)
    · have hno : (own (object m fields isOpen) v).isMap = false := by
        cases hw : own (object m fields isOpen) v <;> first | rfl | exact absurd ⟨_, hw⟩ hm
      have hboth : own.andThen other (object m fields isOpen) v = own (object m fields isOpen) v := hother _ hno
      rw [rewrite_object_of_no_map hno, rewrite_object_of_no_map (by rwa [hother _ hno])]
      rw [rewrite_object_of_no_map (by rwa [hboth]), hboth, hother _ hno]
  | list m items ih =>
    have hid := hp.list m items
    have hboth : own.andThen other (list m items) v = own (list m items) v := hid _
    by_cases hl : ∃ elements, own (list m items) v = .list elements
    · obtain ⟨elements, he⟩ := hl
      rw [rewrite_list he, rewrite_list (hid _), rewrite_list (hboth.trans he)]
      rw [zipIdx_map_zipIdx, List.map_map]
      exact congrArg Value.list (List.map_congr_left fun e _ => ih)
    · have hno : ∀ elements, own (list m items) v ≠ .list elements := fun elements he => hl ⟨elements, he⟩
      rw [rewrite_list_of_no_list hno, rewrite_list_of_no_list (by rwa [hid]), hid]
      rw [rewrite_list_of_no_list (by rwa [hboth]), hboth]
  | union m variants ih =>
    have hid := hp.union m variants
    have hboth : own.andThen other (union m variants) v = own (union m variants) v := hid _
    by_cases hn : ∃ i n, t.chooser key path variants (own (union m variants) v) = some i ∧ variants[i]? = some n
    · obtain ⟨i, n, hi, hn⟩ := hn
      have hdef : (own (union m variants) v).isUndefined = false := by
        cases hu : (own (union m variants) v).isUndefined with
        | false => rfl
        | true => simp [Picks.chooser, hu] at hi
      have hsame : (n.rewrite t.chooser own (nestedKey key) path (own (union m variants) v)).isUndefined =
          (own (union m variants) v).isUndefined := by
        rw [rewrite_isUndefined ho, ho n _ hdef, hdef]
      rw [rewrite_union_of_some hi hn]
      rw [rewrite_union_of_some (by rw [hid, chooser_congr hsame, hi]) hn, hid]
      rw [rewrite_union_of_some (by rw [hboth, hi]) hn, hboth]
      exact ih n (List.mem_of_getElem? hn)
    · have hnone : ∀ i n, t.chooser key path variants (own (union m variants) v) = some i → variants[i]? ≠ some n :=
        fun i n hi hn' => hn ⟨i, n, hi, hn'⟩
      rw [rewrite_union_of_none hnone, rewrite_union_of_none (by rwa [hid]), hid]
      rw [rewrite_union_of_none (by rwa [hboth]), hboth]
  | _ => rfl

theorem rewriteFields_eq_iff {fields : List (String × Node)} {entries : List (String × Value)} {path : String}
    {p : String → Bool} (hp : ∀ name ∈ Entries.keys fields, p name = true) (hf : (Entries.keys fields).Nodup)
    (he : (Entries.keys entries).Nodup) :
    ((entries.filter fun e => p e.1).map fun e => (e.1, rewriteField choose own path e.1 e.2 fields)) =
        ((entries.filter fun e => p e.1).map fun e => (e.1, rewriteField choose other path e.1 e.2 fields)) ↔
      ∀ f ∈ fields, ∀ v, Entries.get? f.1 entries = some v →
        f.2.rewrite choose own (memberPath path f.1) (memberPath path f.1) v =
          f.2.rewrite choose other (memberPath path f.1) (memberPath path f.1) v := by
  rw [List.map_inj_left]
  constructor
  · rintro h ⟨name, n⟩ hmem v hv
    have hkept : (name, v) ∈ entries.filter fun e => p e.1 :=
      List.mem_filter.2 ⟨Entries.mem_of_get? hv, hp name (List.mem_map_of_mem (f := Prod.fst) hmem)⟩
    have hsame := congrArg Prod.snd (h _ hkept)
    simpa only [rewriteField_eq, Entries.get?_of_mem hf hmem] using hsame
  · rintro h ⟨name, v⟩ hmem
    have hv : Entries.get? name entries = some v := Entries.get?_of_mem he (List.mem_filter.1 hmem).1
    refine Prod.ext rfl ?_
    simp only [rewriteField_eq]
    cases hn : Entries.get? name fields with
    | none => rfl
    | some n => exact h (name, n) (Entries.mem_of_get? hn) v hv

/-- Two rewritings of a value at a node agree if and only if the treatments agree at all positions. -/
def TellsApart (own other : Treatment) (t : Picks) (n : Node) (v : Value) : Prop := ∀ key path,
  n.rewrite t.chooser own key path v = n.rewrite t.chooser other key path v ↔
    n.Everywhere t.chooser (fun n v => own n v = other n v) key path v

theorem tellsApart_undefined (h : own.AddsTo other) : TellsApart own other t n .undefined := by
  intro key path
  have hother : n.rewrite t.chooser other key path .undefined = .undefined := by
    rw [Value.eq_undefined_iff, rewrite_isUndefined h.trims.keepsDefined, h.trims.undefined]
    rfl
  rw [everywhere_undefined_iff, hother, h.trims.undefined, Value.eq_undefined_iff, Value.eq_undefined_iff,
    rewrite_isUndefined h.keepsDefined]

theorem tellsApart_of_defined (h : own.AddsTo other) (hv : v.isUndefined = false → TellsApart own other t n v) :
    TellsApart own other t n v := by
  cases hd : v.isUndefined with
  | false => exact hv hd
  | true =>
    obtain rfl := Value.eq_undefined_iff.2 hd
    exact tellsApart_undefined h

section Cases

variable {fields : List (String × Node)} {isOpen : Bool} {es : List (String × Value)} {items : Node}
  {variants : List Node}

theorem tellsApart_map (h : own.AddsTo other) (hf : (Entries.keys fields).Nodup) (he : (Entries.keys es).Nodup)
    (ih : ∀ f ∈ fields, ∀ x, Entries.get? f.1 es = some x → TellsApart own other t f.2 x) :
    TellsApart own other t (object m fields isOpen) (.map es) := by
  intro key path
  obtain ⟨p, hp, hmap, -⟩ := h.trims.object m fields isOpen
  obtain ⟨added, hadded, hkeys⟩ := h.map m fields isOpen es
  rw [rewrite_object hadded, rewrite_object (hmap es), everywhere_object, Value.map.injEq]
  constructor
  · intro heq
    have hk := congrArg Entries.keys heq
    rw [Entries.keys_map, Entries.keys_map] at hk
    obtain rfl := hkeys _ (hmap es) hk
    have hself : own (object m fields isOpen) (.map es) = other (object m fields isOpen) (.map es) :=
      hadded.trans (hmap es).symm
    refine ⟨hself, ?_⟩
    rintro _ ⟨⟩ f hmem
    cases hget : Entries.get? f.1 es with
    | none =>
      refine everywhere_undefined_iff.2 ?_
      rw [h.trims.undefined]
      exact h.absent m fields isOpen es hself f hmem hget
    | some x => exact (ih f hmem x hget _ _).1 ((rewriteFields_eq_iff hp hf he).1 heq f hmem x hget)
  · rintro ⟨hself, hinner⟩
    rw [hadded, hmap, Value.map.injEq] at hself
    rw [hself, rewriteFields_eq_iff hp hf he]
    intro f hmem x hx
    have hpos := hinner es rfl f hmem
    rw [hx] at hpos
    exact (ih f hmem x hx _ _).2 hpos

theorem tellsApart_no_map (h : own.AddsTo other) (hdef : v.isUndefined = false) (hno : v.isMap = false) :
    TellsApart own other t (object m fields isOpen) v := by
  intro key path
  obtain ⟨-, -, -, hother⟩ := h.trims.object m fields isOpen
  rw [rewrite_object_of_no_map (by rwa [h.noMap _ _ _ _ hdef hno]), rewrite_object_of_no_map (by rwa [hother _ hno]),
    everywhere_object]
  cases v with
  | map es => cases hno
  | _ => simp

theorem tellsApart_list (h : own.AddsTo other) (hdef : v.isUndefined = false)
    (ih : ∀ elements, v = .list elements → ∀ e ∈ elements, TellsApart own other t items e) :
    TellsApart own other t (list m items) v := by
  intro key path
  have hown := h.list m items _ hdef
  have hother := h.trims.list m items v
  by_cases hl : ∃ elements, v = .list elements
  · obtain ⟨elements, rfl⟩ := hl
    rw [rewrite_list hown, rewrite_list hother, everywhere_list, Value.list.injEq, List.map_inj_left, hown, hother]
    simp only [Value.list.injEq, forall_eq', true_and]
    exact forall₂_congr fun e he => ih elements rfl e.1 (List.fst_mem_of_mem_zipIdx he) _ _
  · have hno : ∀ elements, v ≠ .list elements := fun elements he => hl ⟨elements, he⟩
    rw [rewrite_list_of_no_list (by rwa [hown]), rewrite_list_of_no_list (by rwa [hother]), everywhere_list]
    simp [hno]

theorem tellsApart_union (h : own.AddsTo other) (hdef : v.isUndefined = false)
    (ih : ∀ n ∈ variants, TellsApart own other t n v) : TellsApart own other t (union m variants) v := by
  intro key path
  have hown := h.union m variants _ hdef
  have hother := h.trims.union m variants v
  by_cases hi : ∃ i n, t.chooser key path variants v = some i ∧ variants[i]? = some n
  · obtain ⟨i, n, hi, hget⟩ := hi
    rw [rewrite_union_of_some (by rwa [hown]) hget, rewrite_union_of_some (by rwa [hother]) hget]
    rw [everywhere_union_of_some hi hget, hown, hother, ih n (List.mem_of_getElem? hget)]
    exact (and_iff_right rfl).symm
  · have hnone : ∀ i n, t.chooser key path variants v = some i → variants[i]? ≠ some n :=
      fun i n hi' hn' => hi ⟨i, n, hi', hn'⟩
    rw [rewrite_union_of_none (by rwa [hown]), rewrite_union_of_none (by rwa [hother]),
      everywhere_union_of_none hnone]

end Cases

theorem tellsApart (h : own.AddsTo other) (hn : n.Throughout WellKeyed) (hv : v.wellKeyed = true) :
    TellsApart own other t n v := by
  induction n generalizing v with
  | object m fields isOpen ih =>
    refine tellsApart_of_defined h fun hdef => ?_
    cases v with
    | map es =>
      exact tellsApart_map h hn.nodup_fields (Value.wellKeyed_map.1 hv).1 fun f hf x hx =>
        ih f hf (hn.field hf) (Value.wellKeyed_get? hv hx)
    | _ => exact tellsApart_no_map h hdef rfl
  | list m items ih =>
    refine tellsApart_of_defined h fun hdef => tellsApart_list h hdef ?_
    rintro elements rfl e he
    exact ih hn.item (Value.wellKeyed_list.1 hv e he)
  | union m variants ih =>
    exact tellsApart_of_defined h fun hdef => tellsApart_union h hdef fun n hmem => ih n hmem (hn.variant hmem) hv
  | _ => exact fun _ _ => Iff.rfl

theorem rewrite_eq_iff (h : own.AddsTo other) (hn : n.Throughout WellKeyed) (hv : v.wellKeyed = true) :
    n.rewrite t.chooser own key path v = n.rewrite t.chooser other key path v ↔
      n.Everywhere t.chooser (fun n v => own n v = other n v) key path v := tellsApart h hn hv key path

end Node

end ItemMapper
