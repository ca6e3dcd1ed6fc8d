import ItemMapper.Proofs.BestEntries
import ItemMapper.Proofs.CalledValidators
import ItemMapper.Proofs.FreshReading

/-!
# Two readings

An item that is read for a caller and an item that a write returns get back their dates and big integers in two ways.
Both enter unions by the predicted variants. They part only at lists for which no variant is predicted: the reading for
a caller then takes the variant with the fewest errors, and the other one leaves the list alone.
-/

namespace ItemMapper

def Chooser.predicted : Chooser := fun _ _ variants v => Node.bestVariant? variants v

theorem bestOf_map_ne_none {α β γ : Type} [LinearOrder α] {f : β × γ → α × Bool} {candidates : List (β × γ)}
    (h : candidates ≠ []) : ((bestOf (candidates.map f)).bind fun r => (candidates[r.1]?).map Prod.fst) ≠ none := by
  have hscores : candidates.map f ≠ [] := fun he => h (List.map_eq_nil_iff.1 he)
  obtain ⟨winner, hbest, hwins⟩ := bestOf_wins hscores
  have hplace : winner.place < candidates.length := by simpa using hwins.place_lt
  simp [hbest, hplace]

namespace Node

variable {n : Node} {variants : List Node} {v : Value} {kind : Option Kind} {key path : String}

theorem denotesDate_or_hasKind (h : n.accepts v = true) : n.denotesDate v = true ∨ n.hasKind v.kind? = true := by
  rw [accepts] at h
  split at h
  · rename_i hdate
    exact .inl (by rw [denotesDate, hdate, h]; rfl)
  · right
    cases hn : n.kind? <;> cases hv : v.kind? <;> simp_all [hasKind]

theorem ofKind_ne_nil (hn : n ∈ variants) (h : n.hasKind kind = true) : ofKind variants kind ≠ [] := by
  obtain ⟨i, hi⟩ := List.mem_iff_getElem?.1 hn
  have hmem : (i, n) ∈ ofKind variants kind :=
    List.mem_filterMap.2 ⟨(n, i), List.mem_zipIdx_iff_getElem?.2 hi, if_pos h⟩
  exact List.ne_nil_of_mem hmem

theorem bestVariant?_undefined : bestVariant? variants .undefined = none := by
  cases h : bestVariant? variants .undefined with
  | none => rfl
  | some i =>
    obtain ⟨n, -, ha⟩ := bestVariant?_eq_some h
    rw [accepts] at ha
    split at ha
    · cases ha
    · cases hn : n.kind? <;> simp [hn, Value.kind?] at ha

theorem bestVariant?_ne_none (hn : n ∈ variants) (ha : n.accepts v = true) (hv : ∀ elements, v ≠ .list elements) :
    bestVariant? variants v ≠ none := by
  cases hdate : dateVariant? variants v with
  | some i => cases v <;> simp [bestVariant?, hdate]
  | none =>
    have hkind : ofKind variants v.kind? ≠ [] := by
      refine ofKind_ne_nil hn ((denotesDate_or_hasKind ha).resolve_left ?_)
      exact Bool.eq_false_iff.1 (List.findIdx?_eq_none_iff.1 hdate n hn)
    cases v with
    | map entries =>
      change ofKind variants (some .m) ≠ [] at hkind
      rw [bestVariant?, hdate]
      split
      · simp
      · exact absurd ‹_› hkind
      · simp
      · exact bestOf_map_ne_none hkind
    | list elements => exact absurd rfl (hv elements)
    | _ =>
      rw [bestVariant?, hdate]
      · simpa using hkind
      all_goals simp

theorem fresh_of_not_predicted (h : bestVariant? variants v = none) (hv : ∀ elements, v ≠ .list elements) :
    Chooser.fresh key path variants v = none := by
  rw [Chooser.fresh]
  split
  · rfl
  · cases hi : Survey.variantOf path v variants with
    | none => rfl
    | some i =>
      obtain ⟨n, hn, ha⟩ := Survey.variantOf_eq_some hi
      exact absurd h (bestVariant?_ne_none (List.mem_of_getElem? hn) ha hv)

theorem fresh_of_predicted {i : Nat} (h : bestVariant? variants v = some i) :
    Chooser.fresh key path variants v = some i := by
  have hv : v.isUndefined = false := by
    cases v with
    | undefined => simp [bestVariant?_undefined] at h
    | _ => rfl
  simp [Chooser.fresh, hv, Survey.variantOf, Survey.predictedOr, h]

theorem restoreVariant_eq {i : Nat} : restoreVariant v i variants = atVariant (restore true v) v variants i := by
  induction variants generalizing i with
  | nil => rfl
  | cons n rest ih =>
    cases i with
    | zero => rfl
    | succ i => exact ih

end Node

namespace Position

variable {x y : Position} {n : Node} {key path : String} {v : Value}

def read (x : Position) : Value := x.node.rewrite Chooser.fresh Node.restoring x.key x.path x.value

def restored (x : Position) : Value := x.node.restore x.inUnion x.value

/-- A list at a union of which no variant is predicted for it. -/
def Unpredicted (x : Position) : Prop := ∃ m variants elements, x.node = .union m variants ∧ x.value = .list elements ∧
  Node.bestVariant? variants x.value = none

structure Regular (x : Position) : Prop where
  node : x.node.Throughout Node.Readable
  value : x.value.wellKeyed = true
  kinds : x.value.kinded = true
  place : x.node.isUnion = true → x.key = x.path ∧ x.inUnion = false

theorem forall_reaches_iff {choose : Chooser} {members : Bool} {P : Position → Prop} :
    (∀ y, x.Reaches choose members y → P y) ↔ P x ∧ ∀ z ∈ x.next choose members, ∀ y, z.Reaches choose members y → P y := by
  constructor
  · exact fun h => ⟨h x .refl, fun z hz y hy => h y (reaches_iff.2 (.inr ⟨z, hz, hy⟩))⟩
  · rintro ⟨hx, hnext⟩ y hy
    rcases reaches_iff.1 hy with rfl | ⟨z, hz, hzy⟩
    · exact hx
    · exact hnext z hz y hzy

theorem Regular.getValue (h : x.Regular) {item context : Value} {s : Pass} (hs : s.picks = []) :
    (x.node.getValue item context x.key x.path x.value s).1 = x.read :=
  (Node.getValue_anew h.node h.value h.kinds fun hu => (h.place hu).1).gives s (by simp [hs, Entries.keys])

theorem Regular.next (h : x.Regular) (hy : y ∈ x.next .predicted false) : y.Regular := by
  have hnode : y.node.Throughout Node.Readable := h.node.child (next_children hy)
  obtain ⟨key, path, v, n, inUnion⟩ := x
  cases n with
  | object m fields isOpen =>
    cases v with
    | map es =>
      obtain ⟨f, -, rfl⟩ := List.mem_map.1 hy
      exact ⟨hnode, Value.wellKeyed_getD h.value, Value.kinded_getD h.kinds, fun _ => ⟨rfl, rfl⟩⟩
    | _ => cases hy
  | list m items =>
    cases v with
    | list elements =>
      obtain ⟨e, he, rfl⟩ := List.mem_map.1 hy
      have hmem := List.fst_mem_of_mem_zipIdx he
      exact ⟨hnode, Value.wellKeyed_list.1 h.value e.1 hmem, Value.itemsKinded_iff.1 h.kinds e.1 hmem,
        fun _ => ⟨rfl, rfl⟩⟩
    | _ => cases hy
  | set m items => cases v <;> cases hy
  | union m variants =>
    obtain ⟨n, hn, rfl⟩ := Option.map_eq_some_iff.1 (Option.mem_toList.1 hy)
    obtain ⟨i, hi, hn⟩ := Option.bind_eq_some_iff.1 hn
    obtain ⟨u, hu, ha⟩ := Node.bestVariant?_eq_some hi
    obtain rfl : n = u := Option.some.inj (hn.symm.trans hu)
    have hnot : n.isUnion = false := Node.isUnion_of_accepts ha
    exact ⟨hnode, h.value, h.kinds, by simp [hnot]⟩
  | _ => cases hy

theorem Regular.reaches (h : x.Regular) (hy : x.Reaches .predicted false y) : y.Regular := by
  induction hy with
  | refl => exact h
  | tail _ hstep ih => exact ih.next hstep

theorem read_undefined : (place path .undefined n).read = .undefined := by
  cases n with
  | object m fields isOpen => exact Node.rewrite_object_of_no_map rfl
  | list m items => exact Node.rewrite_list_of_no_list fun elements he => Value.noConfusion he
  | union m variants => exact Node.rewrite_union_of_none fun i n hi _ => by cases hi
  | scalar m k => cases k <;> rfl
  | _ => rfl

theorem restored_undefined : (place path .undefined n).restored = .undefined := by
  cases n with
  | union m variants => simp [restored, place, Node.restore, Node.bestVariant?_undefined]
  | scalar m k => cases k <;> rfl
  | _ => rfl

theorem agree_object {m : Modifiers} {fields : List (String × Node)} {isOpen inUnion : Bool} {es : List (String × Value)}
    (h : Regular ⟨key, path, .map es, .object m fields isOpen, inUnion⟩) :
    read ⟨key, path, .map es, .object m fields isOpen, inUnion⟩ =
      restored ⟨key, path, .map es, .object m fields isOpen, inUnion⟩ ↔
        ∀ f ∈ fields, (place (memberPath path f.1) ((Entries.get? f.1 es).getD .undefined) f.2).read =
          (place (memberPath path f.1) ((Entries.get? f.1 es).getD .undefined) f.2).restored := by
  have hfields : (Entries.keys fields).Nodup := h.node.self.nodup fields rfl
  have hes : (Entries.keys es).Nodup := (Value.wellKeyed_map.1 h.value).1
  have hread : read ⟨key, path, .map es, .object m fields isOpen, inUnion⟩ = .map (es.map fun e =>
      (e.1, Node.rewriteField Chooser.fresh Node.restoring path e.1 e.2 fields)) := Node.rewrite_object rfl
  have hrestored : restored ⟨key, path, .map es, .object m fields isOpen, inUnion⟩ = .map (es.map fun e =>
      (e.1, ((Entries.get? e.1 fields).map fun n => n.restore false e.2).getD e.2)) :=
    congrArg Value.map (Node.restoreFields_eq hfields hes)
  rw [hread, hrestored, Value.map.injEq, List.map_inj_left]
  simp only [Prod.mk.injEq, true_and, Node.rewriteField_eq]
  constructor
  · intro hall f hf
    cases hv : Entries.get? f.1 es with
    | none => rw [Option.getD_none, read_undefined, restored_undefined]
    | some v =>
      have hsame := hall (f.1, v) (Entries.mem_of_get? hv)
      rwa [Entries.get?_of_mem hfields hf] at hsame
  · intro hall e he
    cases hn : Entries.get? e.1 fields with
    | none => rfl
    | some n =>
      have hsame := hall (e.1, n) (Entries.mem_of_get? hn)
      rwa [Entries.get?_of_mem hes he] at hsame

theorem agree_list {m : Modifiers} {items : Node} {inUnion : Bool} {elements : List Value} :
    read ⟨key, path, .list elements, .list m items, inUnion⟩ =
      restored ⟨key, path, .list elements, .list m items, inUnion⟩ ↔
        ∀ e ∈ elements.zipIdx, (place (elementPath path e.2) e.1 items).read =
          (place (elementPath path e.2) e.1 items).restored := by
  have hread : read ⟨key, path, .list elements, .list m items, inUnion⟩ = .list (elements.zipIdx.map fun e =>
      items.rewrite Chooser.fresh Node.restoring (elementPath path e.2) (elementPath path e.2) e.1) :=
    Node.rewrite_list rfl
  have hrestored : restored ⟨key, path, .list elements, .list m items, inUnion⟩ = .list (elements.zipIdx.map fun e =>
      items.restore false e.1) := by
    have hfst := List.zipIdx_map_fst 0 elements
    conv_lhs => rw [restored, Node.restore, ← hfst]
    rw [List.map_map]
    rfl
  rw [hread, hrestored, Value.list.injEq, List.map_inj_left]
  rfl

theorem agree_set {m : Modifiers} {items : Node} {inUnion : Bool} (h : items.isMemberNode = true) :
    read ⟨key, path, v, .set m items, inUnion⟩ = restored ⟨key, path, v, .set m items, inUnion⟩ := by
  cases items with
  | scalar md k => cases v <;> rfl
  | _ => cases h

theorem agree_union {m : Modifiers} {variants : List Node} {inUnion : Bool}
    (h : Regular ⟨key, path, v, .union m variants, inUnion⟩) {i : Nat} (hi : Node.bestVariant? variants v = some i)
    (hn : variants[i]? = some n) :
    read ⟨key, path, v, .union m variants, inUnion⟩ = restored ⟨key, path, v, .union m variants, inUnion⟩ ↔
      read ⟨nestedKey key, path, v, n, true⟩ = restored ⟨nestedKey key, path, v, n, true⟩ := by
  obtain rfl : inUnion = false := (h.place rfl).2
  have hread : read ⟨key, path, v, .union m variants, false⟩ = read ⟨nestedKey key, path, v, n, true⟩ :=
    Node.rewrite_union_of_some (Node.fresh_of_predicted hi) hn
  have hrestored : restored ⟨key, path, v, .union m variants, false⟩ = restored ⟨nestedKey key, path, v, n, true⟩ := by
    simp [restored, Node.restore, hi, Node.restoreVariant_eq, Node.atVariant, hn]
  rw [hread, hrestored]

theorem not_unpredicted_of_isUnion (h : x.node.isUnion = false) : ¬ x.Unpredicted := by
  rintro ⟨m, variants, elements, hu, -⟩
  rw [hu] at h
  cases h

theorem not_unpredicted_of_asList? (h : x.value.asList? = none) : ¬ x.Unpredicted := by
  rintro ⟨m, variants, elements, -, hv, -⟩
  rw [hv] at h
  cases h

theorem Unpredicted.restored_eq (hx : x.Unpredicted) : x.restored = x.value := by
  obtain ⟨key, path, v, n, inUnion⟩ := x
  obtain ⟨m, variants, elements, rfl, rfl, h⟩ := hx
  simp [restored, Node.restore, h]

theorem Unpredicted.next_eq (hx : x.Unpredicted) : x.next .predicted false = [] := by
  obtain ⟨key, path, v, n, inUnion⟩ := x
  obtain ⟨m, variants, elements, rfl, rfl, h⟩ := hx
  simp [next, Chooser.predicted, h]

theorem read_eq_restored_iff_next (h : x.Regular) (hx : ¬ x.Unpredicted) :
    x.read = x.restored ↔ ∀ y ∈ x.next .predicted false, y.read = y.restored := by
  obtain ⟨key, path, v, n, inUnion⟩ := x
  cases n with
  | object m fields isOpen =>
    cases v with
    | map es =>
      simp only [next, List.forall_mem_map]
      exact agree_object h
    | _ => exact iff_of_true (Node.rewrite_object_of_no_map rfl) (by simp [next])
  | list m items =>
    cases v with
    | list elements =>
      simp only [next, List.forall_mem_map]
      exact agree_list
    | _ =>
      refine iff_of_true (Node.rewrite_list_of_no_list fun elements he => ?_) (by simp [next])
      cases he
  | set m items =>
    refine iff_of_true (agree_set (h.node.self.members m items rfl)) ?_
    cases v <;> simp [next]
  | union m variants =>
    cases hi : Node.bestVariant? variants v with
    | some i =>
      obtain ⟨n, hn, -⟩ := Node.bestVariant?_eq_some hi
      rw [agree_union h hi hn]
      simp [next, Chooser.predicted, hi, hn]
    | none =>
      have hv : ∀ elements, v ≠ .list elements := by
        rintro elements rfl
        exact hx ⟨m, variants, elements, rfl, rfl, hi⟩
      refine iff_of_true ?_ (by simp [next, Chooser.predicted, hi])
      have hread : read ⟨key, path, v, .union m variants, inUnion⟩ = v := by
        refine Node.rewrite_union_of_none fun i n hfresh => ?_
        cases hfresh.symm.trans (Node.fresh_of_not_predicted hi hv)
      rw [hread, restored, Node.restore]
      split
      · rfl
      · simp only [hi]
  | _ => exact iff_of_true rfl (by simp [next])

/-- The two readings agree just where the one for a caller leaves unpredicted lists alone. -/
theorem read_eq_restored_iff (h : x.Regular) : x.read = x.restored ↔
    ∀ y, x.Reaches .predicted false y → y.Unpredicted → y.read = y.value := by
  obtain ⟨n, hn⟩ : ∃ n, x.node = n := ⟨_, rfl⟩
  induction n using Node.induct_children generalizing x with
  | step n ih =>
    have hbelow : (∀ y ∈ x.next .predicted false, y.read = y.restored) ↔
        ∀ y ∈ x.next .predicted false, ∀ z, y.Reaches .predicted false z → z.Unpredicted → z.read = z.value :=
      forall₂_congr fun y hy => ih y.node (hn ▸ next_children hy) (h.next hy) rfl
    by_cases hx : x.Unpredicted
    · have hself : ∀ y, x.Reaches .predicted false y ↔ y = x := fun y => reaches_of_next_eq_nil hx.next_eq
      simp [hself, hx, hx.restored_eq]
    · rw [read_eq_restored_iff_next h hx, hbelow, forall_reaches_iff, and_iff_right fun hu => absurd hu hx]

end Position

namespace Schema

variable {s : Schema} {decl : SchemaDeclaration} {item : Item}

theorem root_regular (hdecl : ofDeclaration decl = .ok s) (hs : s.WellKeyed)
    (hg : s.root.Throughout fun n => n.modifiers.getter = none) (hnames : s.root.Throughout Node.SingleNames)
    (hitem : item.toValue.wellKeyed = true) (hfinite : (Wire.m item).finite = true) :
    (Position.place "" item.toValue s.root).Regular where
  node := by
    have hall := ((hg.and hnames).and (root_holdsMembers hdecl)).and hs
    exact hall.mono fun n hn => ⟨hn.1.1.1, hn.2.names, hn.1.1.2, hn.1.2⟩
  value := hitem
  kinds := Wire.kinded_toValue hfinite
  place _ := ⟨rfl, rfl⟩

/-- An item is read for a caller as it is restored just where the reading leaves unpredicted lists alone. -/
theorem forCaller_eq_restore_iff (hdecl : ofDeclaration decl = .ok s) (hs : s.WellKeyed)
    (hg : s.root.Throughout fun n => n.modifiers.getter = none) (hnames : s.root.Throughout Node.SingleNames)
    (hitem : item.toValue.wellKeyed = true) (hfinite : (Wire.m item).finite = true) (context : Value) (p : Pass) :
    (s.root.forCaller item.toValue context p).1 = s.root.restore false item.toValue ↔
      ∀ y, (Position.place "" item.toValue s.root).Reaches .predicted false y → y.Unpredicted →
        (y.node.getValue item.toValue context y.key y.path y.value {}).1 = y.value := by
  have hroot := root_regular hdecl hs hg hnames hitem hfinite
  have hread : (s.root.forCaller item.toValue context p).1 = (Position.place "" item.toValue s.root).read :=
    hroot.getValue rfl
  rw [hread]
  refine (Position.read_eq_restored_iff hroot).trans (forall₂_congr fun y hy => ?_)
  rw [(hroot.reaches hy).getValue rfl]

def timelineFields : SchemaDeclaration := [
  ("id", .typed .string none none false { memberships := { primary := true } }),
  ("marks", .union [.typed .array none (some (.union [.tag .date, .tag .string])) false {},
    .typed .array none (some (.tag .boolean)) false {}])]

def timelines : Schema where
  root := .object { required := true } [
    ("id", .scalar { required := true, memberships := { primary := true } } .string),
    ("marks", .union {} [.list {} (.union {} [.scalar {} .date, .scalar {} .string]),
      .list {} (.scalar {} .boolean)])] false
  primaryKey := "id"
  sortKey := none
  attributeDefinitions := [⟨"id", .s⟩]
  localIndexes := []
  globalIndexes := []

theorem timelines_wellKeyed : timelines.WellKeyed :=
  ⟨.of_object (by decide) (.of_none rfl rfl), .of_none rfl rfl rfl, ⟨.of_none rfl rfl rfl,
    ⟨.of_none rfl rfl rfl, .of_none rfl rfl rfl, .of_none rfl rfl rfl, .of_none rfl rfl rfl, trivial⟩,
    ⟨.of_none rfl rfl rfl, .of_none rfl rfl rfl⟩, trivial⟩, trivial⟩

theorem timelines_singleNames : timelines.root.Throughout Node.SingleNames :=
  ⟨.of_object (List.forall_mem_cons.2 ⟨rfl, List.forall_mem_singleton.2 rfl⟩), .of_leaf rfl, ⟨.of_leaf rfl,
    ⟨.of_leaf rfl, .of_leaf rfl, .of_leaf rfl, .of_leaf rfl, trivial⟩, ⟨.of_leaf rfl, .of_leaf rfl⟩, trivial⟩, trivial⟩

theorem timelines_read_alike : (timelines.root.forCaller
    (Item.toValue [("id", .s "a"), ("marks", .l [.n "1000", .s "x"])]) .undefined {}).1 =
      timelines.root.restore false (Item.toValue [("id", .s "a"), ("marks", .l [.n "1000", .s "x"])]) := by
  have hg : timelines.root.Throughout fun n => n.modifiers.getter = none := by
    simp [timelines, Node.Throughout, Node.fieldsThroughout, Node.variantsThroughout, Node.modifiers]
  have hdecl : ofDeclaration timelineFields = .ok timelines := rfl
  refine (forCaller_eq_restore_iff hdecl timelines_wellKeyed hg timelines_singleNames rfl rfl .undefined {}).2 ?_
  suffices h : ∀ y, (Position.place "" (Item.toValue [("id", .s "a"), ("marks", .l [.n "1000", .s "x"])])
      timelines.root).Reaches .predicted false y → ¬ y.Unpredicted from fun y hy hu => absurd hu (h y hy)
  have hplain {x : Position} (h : x.node.isUnion = false) : ¬ x.Unpredicted := Position.not_unpredicted_of_isUnion h
  have hleaf {x : Position} (h : x.node.isUnion = false) (hnext : x.next .predicted false = []) :
      ∀ y, x.Reaches .predicted false y → ¬ y.Unpredicted :=
    Position.forall_reaches_iff.2 ⟨hplain h, by simp [hnext]⟩
  have hmark {x : Position} (h : x.value.asList? = none) : ¬ x.Unpredicted := Position.not_unpredicted_of_asList? h
  have hmarks : ¬ Position.Unpredicted (.place "marks" (.list [.number (.ofInt 1000), .string "x"])
      (.union {} [.list {} (.union {} [.scalar {} .date, .scalar {} .string]), .list {} (.scalar {} .boolean)])) := by
    rintro ⟨m, variants, elements, hu, he, hnone⟩
    cases hu
    cases he
    cases hnone
  refine Position.forall_reaches_iff.2 ⟨hplain rfl, List.forall_mem_cons.2 ⟨hleaf rfl rfl, List.forall_mem_singleton.2 ?_⟩⟩
  refine Position.forall_reaches_iff.2 ⟨hmarks, List.forall_mem_singleton.2 ?_⟩
  refine Position.forall_reaches_iff.2 ⟨hplain rfl, List.forall_mem_cons.2 ⟨?_, List.forall_mem_singleton.2 ?_⟩⟩
  · exact Position.forall_reaches_iff.2 ⟨hmark rfl, List.forall_mem_singleton.2 (hleaf rfl rfl)⟩
  · exact Position.forall_reaches_iff.2 ⟨hmark rfl, List.forall_mem_singleton.2 (hleaf rfl rfl)⟩

/-- A date alone does not tell its list, so that only the reading for a caller restores it. -/
theorem timelines_read_differently : ¬ ∀ (s : Schema) (decl : SchemaDeclaration) (item : Item) (context : Value) (p : Pass),
    ofDeclaration decl = .ok s → s.WellKeyed → s.root.Throughout (fun n => n.modifiers.getter = none) →
    s.root.Throughout Node.SingleNames → item.toValue.wellKeyed = true → (Wire.m item).finite = true →
      (s.root.forCaller item.toValue context p).1 = s.root.restore false item.toValue := by
  intro hall
  have hg : timelines.root.Throughout fun n => n.modifiers.getter = none := by
    simp [timelines, Node.Throughout, Node.fieldsThroughout, Node.variantsThroughout, Node.modifiers]
  have hread : (timelines.root.forCaller (Item.toValue [("id", .s "a"), ("marks", .l [.n "1000"])]) .undefined {}).1 =
      .map [("id", .string "a"), ("marks", .list [.date ⟨1000000000⟩])] := rfl
  have hrestored : timelines.root.restore false (Item.toValue [("id", .s "a"), ("marks", .l [.n "1000"])]) =
      .map [("id", .string "a"), ("marks", .list [.number (.ofInt 1000)])] := rfl
  have hsame := hall timelines timelineFields [("id", .s "a"), ("marks", .l [.n "1000"])] .undefined {} rfl
    timelines_wellKeyed hg timelines_singleNames rfl rfl
  rw [hread, hrestored] at hsame
  cases hsame

end Schema

end ItemMapper
