import ItemMapper.Proofs.Conformance
import ItemMapper.Proofs.ReportedKinds
import ItemMapper.Proofs.StoredScalars

/-!
# Stored sets

The passes before a store leave no member twice in a set. They compare values, but what is stored are texts, and two
values may have one text: a number and the big integer that it is, and two dates of one millisecond. But for such twins
the sets of a stored item have no member twice.
-/

namespace ItemMapper

/-- Different values which are stored as one number. -/
def Value.Twins : Value → Value → Prop
  | number x, bigInt i => x.storedText = intText i
  | bigInt i, number x => x.storedText = intText i
  | date t, date u => t.millis = u.millis
  | _, _ => False

def Wire.HasDistinctMembers : Wire → Prop
  | .ss texts => texts.Nodup
  | .ns numbers => numbers.Nodup
  | .bs blobs => blobs.Nodup
  | _ => True

theorem pairwise_iff_of_forall₂ {α β : Type} {R : α → β → Prop} {S P : α → α → Prop} {Q : β → β → Prop} {as : List α}
    {bs : List β} (h : List.Forall₂ R as bs) (hs : as.Pairwise S)
    (hpq : ∀ a ∈ as, ∀ a' ∈ as, ∀ b b', R a b → R a' b' → S a a' → (P a a' ↔ Q b b')) :
    as.Pairwise P ↔ bs.Pairwise Q := by
  induction h with
  | nil => simp
  | @cons a b as bs hab hrest ih =>
    obtain ⟨hfirst, hs⟩ := List.pairwise_cons.1 hs
    rw [List.pairwise_cons, List.pairwise_cons,
      ih hs fun a ha a' ha' => hpq a (List.mem_cons_of_mem _ ha) a' (List.mem_cons_of_mem _ ha')]
    refine and_congr_left' ⟨fun h b' hb' => ?_, fun h a' ha' => ?_⟩
    · obtain ⟨a', ha', hab'⟩ := exists_of_forall₂ hrest.flip hb'
      exact (hpq a List.mem_cons_self a' (List.mem_cons_of_mem _ ha') b b' hab hab' (hfirst a' ha')).1 (h a' ha')
    · obtain ⟨b', hb', hab'⟩ := exists_of_forall₂ hrest ha'
      exact (hpq a List.mem_cons_self a' (List.mem_cons_of_mem _ ha') b b' hab hab' (hfirst a' ha')).2 (h b' hb')

theorem intText_inj {i j : Int} : intText i = intText j ↔ i = j := by
  refine ⟨fun h => ?_, fun h => h ▸ rfl⟩
  have hsplit := congrArg NumberReader.splitSign (String.ofList_injective h)
  rw [NumberReader.splitSign_intChars, NumberReader.splitSign_intChars, Prod.mk.injEq, decide_eq_decide] at hsplit
  have habs := NumberReader.natDigits_injective hsplit.2
  omega

namespace Wire

variable {options : MarshalOptions} {v w : Value} {t u : String} {members : List Value} {kind : Kind} {stored : Wire}

theorem storedText_of_numberMember {x : Binary64} (h : numberMember? (.number x) = some (.ok t)) :
    x.isFinite = true ∧ t = x.storedText := by
  have hwritten : ofValue {} (.number x) = .ok (some (.n t)) := ofValue_of_numberMember h
  have hx := finite_of_ofValue hwritten
  rw [ofValue_number hx] at hwritten
  exact ⟨hx, (Wire.n.inj (Option.some.inj (Except.ok.inj hwritten))).symm⟩

/-- Of two different members of one sort, the twins are those with one text. -/
theorem twins_iff (hv : numberMember? v = some (.ok t)) (hw : numberMember? w = some (.ok u))
    (hsort : v.isDate = w.isDate) (hdiffer : v.same w = false) : v.Twins w ↔ t = u := by
  cases v with
  | number x =>
    obtain ⟨hx, rfl⟩ := storedText_of_numberMember hv
    cases w with
    | number y =>
      obtain ⟨hy, rfl⟩ := storedText_of_numberMember hw
      refine iff_of_false id fun heq => ?_
      obtain rfl := Binary64.storedText_inj hx hy heq
      have hnan : x.isNaN = false := by cases x <;> first | rfl | cases hx
      rw [Value.same, Binary64.same_self hnan] at hdiffer
      cases hdiffer
    | bigInt j =>
      obtain rfl := Except.ok.inj (Option.some.inj hw)
      exact Iff.rfl
    | date b => cases hsort
    | _ => cases hw
  | bigInt i =>
    obtain rfl := Except.ok.inj (Option.some.inj hv)
    cases w with
    | number y =>
      obtain ⟨hy, rfl⟩ := storedText_of_numberMember hw
      exact eq_comm
    | bigInt j =>
      obtain rfl := Except.ok.inj (Option.some.inj hw)
      refine iff_of_false id fun heq => ?_
      obtain rfl := intText_inj.1 heq
      rw [Value.same, beq_self_eq_true] at hdiffer
      cases hdiffer
    | date b => cases hsort
    | _ => cases hw
  | date a =>
    obtain rfl := Except.ok.inj (Option.some.inj hv)
    cases w with
    | date b =>
      obtain rfl := Except.ok.inj (Option.some.inj hw)
      exact intText_inj.symm
    | number y => cases hsort
    | bigInt j => cases hsort
    | _ => cases hw
  | _ => cases hv

theorem nodup_of_map {α : Type} {g : α → Value} {xs : List α} (hg : ∀ x, (g x).same (g x) = true)
    (h : (xs.map g).Pairwise fun v w => v.same w = false) : xs.Nodup := by
  refine (List.pairwise_map.1 h).imp fun {x y} hxy => ?_
  rintro rfl
  rw [hg x] at hxy
  cases hxy

theorem hasDistinctMembers_iff (hk : Value.memberKind? members = some kind) (hd : Value.AllDistinct members)
    (h : ofSet members options = .ok stored) :
    stored.HasDistinctMembers ↔ members.Pairwise fun v w => ¬ v.Twins w := by
  have hsort : (Value.set members).Uniform := (memberKind?_isSome_iff_uniform h).1 (by rw [hk]; rfl)
  obtain ⟨-, hstores⟩ := storesMembers_of_defined hd.1 h
  cases hstores with
  | numbers hnumbers =>
    refine (pairwise_iff_of_forall₂ hnumbers hd.2 fun v hv w hw t u hvt hwu hdiffer => ?_).symm
    have hsame : v.isDate = w.isDate := by
      rcases hsort.2 with hdates | hdates <;> rw [hdates v hv, hdates w hw]
    exact not_congr (twins_iff hvt hwu hsame hdiffer)
  | texts ts =>
    have hnodup : ts.Nodup := nodup_of_map (g := .string) (fun t => beq_self_eq_true t) hd.2
    exact iff_of_true hnodup (List.pairwise_map.2 (hnodup.imp fun _ => id))
  | blobs bs =>
    have hnodup : bs.Nodup := nodup_of_map (g := .binary) (fun bytes => beq_self_eq_true bytes) hd.2
    exact iff_of_true hnodup (List.pairwise_map.2 (hnodup.imp fun _ => id))

theorem ofValue_of_mem {items : List Value} {ws : List Wire} (h : ofItems options items = .ok ws) (hv : v ∈ items) :
    ∃ o, ofValue options v = .ok o ∧ ∀ x, o = some x → x ∈ ws := by
  induction items generalizing ws with
  | nil => cases hv
  | cons u rest ih =>
    obtain ⟨o, ws', ho, hrest, rfl⟩ := ofItems_cons h
    rcases List.mem_cons.1 hv with rfl | hv
    · exact ⟨o, ho, fun x hx => List.mem_append_left _ (by simp [hx])⟩
    · obtain ⟨o', ho', hmem⟩ := ih hrest hv
      exact ⟨o', ho', fun x hx => List.mem_append_right _ (hmem x hx)⟩

end Wire

namespace Node

variable {n : Node} {v : Value} {w : Wire} {options : MarshalOptions} {key path : String}

mutual

def StoresDistinct (w : Wire) : Node → Prop
  | set _ _ => w.HasDistinctMembers
  | object _ fields _ =>
    match w with
    | .m entries => fieldsStoreDistinct entries fields
    | _ => True
  | list _ items =>
    match w with
    | .l elements => ∀ e ∈ elements, StoresDistinct e items
    | _ => True
  | _ => True

def fieldsStoreDistinct (entries : Item) : List (String × Node) → Prop
  | [] => True
  | (name, n) :: rest =>
    (match Entries.get? name entries with
      | some w => StoresDistinct w n
      | none => True) ∧ fieldsStoreDistinct entries rest

end

theorem fieldsStoreDistinct_iff {entries : Item} {fields : List (String × Node)} :
    fieldsStoreDistinct entries fields ↔
      ∀ f ∈ fields, ∀ w, Entries.get? f.1 entries = some w → f.2.StoresDistinct w := by
  induction fields with
  | nil => simp [fieldsStoreDistinct]
  | cons f rest ih =>
    rw [fieldsStoreDistinct, List.forall_mem_cons, ih]
    cases Entries.get? f.1 entries <;> simp

def HoldsDistinct : Node → Value → Prop
  | set _ _, .set members => Value.AllDistinct members
  | _, _ => True

def HoldsNoTwins : Node → Value → Prop
  | set _ _, .set members => members.Pairwise fun v w => ¬ v.Twins w
  | _, _ => True

theorem holdsDistinct_of_not_set (h : n.items? = none) : n.HoldsDistinct v := by
  cases n with
  | set m items => cases h
  | _ => trivial

theorem holdsDistinct_established : Established HoldsDistinct where
  undefined n := by cases n <;> trivial
  object _ _ _ _ := trivial
  list _ _ _ := trivial
  union _ _ _ := trivial
  set _ _ v h := by
    cases v with
    | set members => exact h members rfl
    | _ => trivial
  own _ _ _ _ hitems _ := fun _ => holdsDistinct_of_not_set hitems

theorem holdsNoTwins_undefined (n : Node) : n.HoldsNoTwins .undefined := by cases n <;> trivial

theorem accepts_of_lets (h : Phase.type.Lets n v) (hw : Wire.ofValue options v = .ok (some w)) (ha : ∀ m, n ≠ .any m)
    (hu : n.isUnion = false) : n.accepts v = true := by
  have hdefined := Wire.ne_undefined_of_ofValue hw
  exact accepts_of_checkType (h (by cases v <;> first | rfl | contradiction) "") ha hu

theorem set_hasDistinctMembers_iff {m : Modifiers} {items : Node} (haccepts : (set m items).accepts v = true)
    (hd : (set m items).HoldsDistinct v) (hw : Wire.ofValue options v = .ok (some w)) :
    w.HasDistinctMembers ↔ (set m items).HoldsNoTwins v := by
  obtain ⟨members, rfl⟩ := set_of_accepts haccepts
  obtain ⟨w', hw', ⟨⟩⟩ := Outcome.of_map hw
  exact Wire.hasDistinctMembers_iff (kind?_of_accepts haccepts rfl rfl) hd hw'

theorem storesDistinct_iff (hv : v.wellKeyed = true)
    (h : n.Everywhere .never (fun n v => Phase.type.Lets n v ∧ n.HoldsDistinct v) key path v)
    (hw : Wire.ofValue options v = .ok (some w)) :
    n.StoresDistinct w ↔ n.Everywhere .never HoldsNoTwins "" "" v := by
  induction n generalizing key path v w with
  | set m items =>
    have haccepts := accepts_of_lets h.self.1 hw (by simp) rfl
    rw [StoresDistinct, Everywhere]
    exact set_hasDistinctMembers_iff haccepts h.self.2 hw
  | object m fields isOpen ih =>
    have haccepts := accepts_of_lets h.self.1 hw (by simp) rfl
    obtain ⟨entries, rfl⟩ := Wire.map_of_kind? (kind?_of_accepts haccepts rfl rfl)
    obtain ⟨es, hes, ⟨⟩⟩ := Outcome.of_map hw
    have hnone : (object m fields isOpen).HoldsNoTwins (.map entries) := trivial
    rw [StoresDistinct, fieldsStoreDistinct_iff, everywhere_object_never, and_iff_right hnone]
    simp only [Value.map.injEq, forall_eq']
    refine forall₂_congr fun f hf => ?_
    have hfield := (everywhere_object.1 h).2 entries rfl f hf
    cases hget : Entries.get? f.1 entries with
    | none =>
      rw [Wire.get?_ofEntries_eq_none hes hget]
      exact iff_of_true (by simp) (everywhere_undefined holdsNoTwins_undefined)
    | some u =>
      have hu := Wire.get?_ofEntries (Value.wellKeyed_map.1 hv).1 hes hget
      rw [hget] at hfield
      cases hx : Entries.get? f.1 es with
      | none =>
        rw [hx] at hu
        obtain rfl := Wire.ofValue_eq_none hu
        exact iff_of_true (by simp) (everywhere_undefined holdsNoTwins_undefined)
      | some x =>
        rw [hx] at hu
        simp only [Option.some.injEq, forall_eq']
        exact ih f hf (Value.wellKeyed_get? hv hget) hfield hu
  | list m items ih =>
    have haccepts := accepts_of_lets h.self.1 hw (by simp) rfl
    obtain ⟨elements, rfl⟩ := Wire.list_of_kind? (kind?_of_accepts haccepts rfl rfl)
    obtain ⟨ws, hws, ⟨⟩⟩ := Outcome.of_map hw
    have hnone : (list m items).HoldsNoTwins (.list elements) := trivial
    have hitems := (everywhere_list_never.1 (h.at "" "")).2 elements rfl
    have hinner {u : Value} {x : Wire} (hu : u ∈ elements) (hux : Wire.ofValue options u = .ok (some x)) :
        items.StoresDistinct x ↔ items.Everywhere .never HoldsNoTwins "" "" u :=
      ih (Value.wellKeyed_list.1 hv u hu) (hitems u hu) hux
    rw [StoresDistinct, everywhere_list_never, and_iff_right hnone]
    simp only [Value.list.injEq, forall_eq']
    constructor
    · intro hstores u hu
      obtain ⟨o, ho, hmem⟩ := Wire.ofValue_of_mem hws hu
      cases o with
      | none =>
        obtain rfl := Wire.ofValue_eq_none ho
        exact everywhere_undefined holdsNoTwins_undefined
      | some x => exact (hinner hu ho).1 (hstores x (hmem x rfl))
    · intro hfree x hx
      obtain ⟨u, hu, hux⟩ := Wire.mem_ofItems hws hx
      exact (hinner hu hux).2 (hfree u hu)
  | union m variants =>
    exact iff_of_true (by simp [StoresDistinct]) (everywhere_union.2 ⟨trivial, by simp [Chooser.never]⟩)
  | _ => exact iff_of_true (by simp [StoresDistinct]) trivial

end Node

namespace Mapper

variable {m : Mapper} {item prepared : Value} {condition : Option Value} {options : WriteOptions}
  {request : Request.PutItem} {s s' : Session}

/-- A put sends every set at a declared position without repetitions just if no such set of the prepared item has
twins: a number and the big integer that it is, or two dates of one millisecond. -/
theorem putRequest_storesDistinct (hs : m.schema.WellKeyed) (hi : item.wellKeyed = true)
    (hc : options.context.wellKeyed = true)
    (h : (m.putRequest item condition options).run s = (.ok (request, prepared), s')) :
    m.schema.root.StoresDistinct (.m request.item) ↔
      m.schema.root.Everywhere .never Node.HoldsNoTwins "" "" prepared := by
  obtain ⟨hkeyed, hmarshal, hall⟩ := established_of_putRequest Node.holdsDistinct_established hs hi hc h
  exact Node.storesDistinct_iff hkeyed (hall.imp hs fun n v _ hv => ⟨hv.1.2, hv.2.1⟩) (Item.wire_of_ofValue hmarshal)

def tallyFields : SchemaDeclaration := [
  ("name", .typed .string none none false { memberships := { primary := true } }),
  ("counts", .typed .set none (some (.tag .number)) false {})]

def tallies : Mapper where
  table := "tallies"
  schema := .compiled tallyFields

def tally (counts : List Value) : Value := .map [("name", .string "a"), ("counts", .set counts)]

theorem tallies_wellKeyed : tallies.schema.WellKeyed :=
  ⟨.of_object (by decide) (.of_none rfl rfl), .of_none rfl rfl rfl, ⟨.of_none rfl rfl rfl, .of_none rfl rfl rfl⟩, trivial⟩

theorem tally_without_twins {i j : Int} (hi : i.natAbs ≤ Binary64.greatestExact) (hij : i ≠ j) :
    tallies.schema.root.Everywhere .never Node.HoldsNoTwins "" "" (tally [.number (.ofInt i), .bigInt j]) := by
  have htexts : ¬ (Value.number (.ofInt i)).Twins (.bigInt j) := by
    rw [Value.Twins, Wire.storedText_ofInt hi, intText_inj]
    exact hij
  exact ⟨trivial, trivial, List.pairwise_pair.2 htexts, trivial⟩

theorem tally_storesDistinct : ∃ request prepared s,
    (tallies.putRequest (tally [.number (.ofInt 5), .bigInt 6]) none {}).run {} = (.ok (request, prepared), s) ∧
      request.item = [("name", .s "a"), ("counts", .ns ["5", "6"])] ∧
      tallies.schema.root.StoresDistinct (.m request.item) := by
  have hstores {request : Request.PutItem} {s : Session}
      (h : (tallies.putRequest (tally [.number (.ofInt 5), .bigInt 6]) none {}).run {} =
        (.ok (request, tally [.number (.ofInt 5), .bigInt 6]), s)) :
      tallies.schema.root.StoresDistinct (.m request.item) :=
    (putRequest_storesDistinct tallies_wellKeyed rfl rfl h).2 (tally_without_twins (by decide) (by decide))
  exact ⟨_, _, _, rfl, rfl, hstores rfl⟩

/-- A number and the big integer that it is. -/
theorem tally_repeats : ∃ request prepared s,
    (tallies.putRequest (tally [.number (.ofInt 5), .bigInt 5]) none {}).run {} = (.ok (request, prepared), s) ∧
      request.item = [("name", .s "a"), ("counts", .ns ["5", "5"])] ∧
      ¬ tallies.schema.root.StoresDistinct (.m request.item) := by
  refine ⟨_, _, _, rfl, rfl, fun hstores => ?_⟩
  have hcounts : ["5", "5"].Nodup := hstores.2.1
  exact absurd hcounts (by decide)

end Mapper

end ItemMapper
