import ItemMapper.Proofs.FilledPositions

/-!
# Filled defaults

Filling only adds. What was there stays at its place, maps get new keys after their own and lists keep their lengths; a
declared field that was not there has its default, filled in turn, wherever the map that it belongs to came from.
-/

namespace ItemMapper

namespace Value

def within (v : Value) (p : List PathStep) : Value := p.foldl step v

/-- Maps keep their keys in order and have others after them, lists keep their lengths, other values are the same. -/
def GrownTo (v w : Value) : Prop :=
  match v with
  | map es => ∃ others, w = map others ∧ Entries.keys es <+: Entries.keys others
  | list elements => ∃ others, w = list others ∧ others.length = elements.length
  | v => w = v

variable {v w : Value} {s : PathStep} {p q : List PathStep}

theorem within_cons : v.within (s :: p) = (v.step s).within p := rfl

theorem within_append : v.within (p ++ q) = (v.within p).within q := List.foldl_append

theorem within_undefined : undefined.within p = undefined := by
  induction p with
  | nil => rfl
  | cons s rest ih => exact ih

theorem GrownTo.refl : v.GrownTo v := by
  cases v with
  | map es => exact ⟨es, rfl, List.prefix_rfl⟩
  | list elements => exact ⟨elements, rfl, rfl⟩
  | _ => rfl

end Value

namespace Position

variable {choose : Chooser} {item : Value} {x y : Position} {p : List PathStep}

def filled (choose : Chooser) (item : Value) (x : Position) : Value :=
  x.node.rewrite choose (Node.filled item) x.key x.path x.value

/-- What stands in the value is there afterwards, but for what its maps and lists have gained; it is the very same where
no declaration leads to. -/
def Keeps (choose : Chooser) (item : Value) (x : Position) (w : Value) : Prop :=
  ∀ p, (x.value.within p).isUndefined = false →
    (x.value.within p).GrownTo (w.within p) ∧
      ((∀ y, ¬ x.FillsTo choose item p y) → w.within p = x.value.within p)

theorem given_of_defined (hx : x.value.isUndefined = false) : x.given item = x := by
  rw [given, Node.orDefault_of_defined hx]

theorem given_given : (x.given item).given item = x.given item := by
  rw [given, given, Node.orDefault_orDefault]

theorem treated (h : ∀ m fields isOpen, x.node ≠ .object m fields isOpen) :
    Node.filled item x.node x.value = (x.given item).value := by
  cases hx : x.node with
  | object m fields isOpen => exact absurd hx (h m fields isOpen)
  | _ =>
    rw [given, hx]
    rfl

theorem filled_isUndefined {t : Picks} : (x.filled t.chooser item).isUndefined = (x.given item).value.isUndefined := by
  rw [filled, Node.rewrite_isUndefined Node.filled_keepsDefined, Node.filled_isUndefined]
  rfl

section Object

variable {m : Modifiers} {fields : List (String × Node)} {isOpen : Bool} {es : List (String × Value)} {t : Picks}

theorem get?_missing {f : String × Node} (hd : (Entries.keys fields).Nodup) (hf : f ∈ fields) :
    Entries.get? f.1 (Node.missing item es fields) =
      if Entries.has f.1 es || (f.2.modifiers.orDefault item .undefined).isUndefined then none
      else some (f.2.modifiers.orDefault item .undefined) := by
  induction fields with
  | nil => cases hf
  | cons g rest ih =>
    obtain ⟨hg, hrest⟩ := List.nodup_cons.1 hd
    have habsent : Entries.get? g.1 (Node.missing item es rest) = none :=
      Entries.get?_eq_none_iff.2 fun hmem => hg (Node.keys_missing_sublist.subset hmem)
    rw [Node.missing_cons, Entries.get?_append]
    rcases List.mem_cons.1 hf with rfl | hf
    · rw [habsent, Option.or_none]
      split <;> simp [Entries.get?]
    · have hne : g.1 ≠ f.1 := fun he => hg (he ▸ List.mem_map_of_mem (f := Prod.fst) hf)
      rw [ih hrest hf]
      split <;> simp [Entries.get?, hne]

theorem filled_object (hx : x.node = .object m fields isOpen) (hes : (x.given item).value = .map es) :
    x.filled choose item = .map ((es ++ Node.missing item es fields).map fun e =>
      (e.1, Node.rewriteField choose (Node.filled item) x.path e.1 e.2 fields)) := by
  rw [filled, hx]
  refine Node.rewrite_object ?_
  have hgiven : m.orDefault item x.value = .map es := by rw [← hes, given, hx]; rfl
  rw [Node.filled, hgiven]

theorem step_filled_field {f : String × Node} (hx : x.node = .object m fields isOpen)
    (hes : (x.given item).value = .map es) (hd : (Entries.keys fields).Nodup) (hf : f ∈ fields) :
    (x.filled t.chooser item).step (.name f.1) = ((x.given item).field f).filled t.chooser item := by
  have hn : Entries.get? f.1 fields = some f.2 := Entries.get?_of_mem hd hf
  have hfield : ((x.given item).field f).filled t.chooser item =
      Node.rewriteIn t.chooser (Node.filled item) x.path f.1 f.2 ((Entries.get? f.1 es).getD .undefined) := by
    rw [filled, field, hes]
    rfl
  rw [hfield, filled_object hx hes, Value.step, Entries.get?_map, Entries.get?_append, get?_missing hd hf]
  cases hv : Entries.get? f.1 es with
  | some v => simp [Node.rewriteField_eq, hn, Node.rewriteIn]
  | none =>
    have hhas : Entries.has f.1 es = false := by simp [Entries.has, hv]
    rw [hhas, Bool.false_or, Option.none_or, Option.getD_none]
    split
    · have hundefined : (Node.rewriteIn t.chooser (Node.filled item) x.path f.1 f.2 .undefined).isUndefined = true :=
        Node.rewriteIn_filled_isUndefined.trans ‹_›
      exact (Value.eq_undefined_iff.2 hundefined).symm
    · rw [Option.map_some, Option.getD_some, Node.rewriteField_eq, hn]
      exact Node.rewrite_filled_orDefault (n := f.2) (v := .undefined)

theorem step_filled_undeclared {name : String} (hx : x.node = .object m fields isOpen)
    (hes : (x.given item).value = .map es) (hname : name ∉ Entries.keys fields) :
    (x.filled choose item).step (.name name) = (x.given item).value.step (.name name) := by
  have hmissing : Entries.get? name (Node.missing item es fields) = none :=
    Entries.get?_eq_none_iff.2 fun hmem => hname (Node.keys_missing_sublist.subset hmem)
  rw [filled_object hx hes, hes, Value.step, Value.step, Entries.get?_map, Entries.get?_append, hmissing,
    Option.or_none]
  simp [Node.rewriteField_eq, Entries.get?_eq_none_iff.2 hname]

theorem filled_of_no_map (hx : x.node = .object m fields isOpen) (hmap : (x.given item).value.isMap = false) :
    x.filled choose item = (x.given item).value := by
  have hown : Node.filled item (.object m fields isOpen) x.value = (x.given item).value := by
    rw [given, hx] at hmap ⊢
    simp only [Node.modifiers] at hmap ⊢
    rw [Node.filled]
    cases hv : m.orDefault item x.value with
    | map es => rw [hv] at hmap; cases hmap
    | _ => rfl
  rw [filled, hx, Node.rewrite_object_of_no_map (by rwa [hown]), hown]

theorem isMap_filled_iff (hx : x.node = .object m fields isOpen) :
    (x.filled choose item).isMap = true ↔ ∃ es, (x.given item).value = .map es := by
  cases hv : (x.given item).value with
  | map es => simp [filled_object hx hv, Value.isMap]
  | _ =>
    rw [filled_of_no_map hx (by rw [hv]; rfl), hv]
    simp [Value.isMap]

end Object

section List

variable {m : Modifiers} {items : Node} {elements : List Value}

theorem filled_list (hx : x.node = .list m items) (hlist : (x.given item).value = .list elements) :
    x.filled choose item = .list (elements.zipIdx.map fun e =>
      items.rewrite choose (Node.filled item) (elementPath x.path e.2) (elementPath x.path e.2) e.1) := by
  have hown : Node.filled item (.list m items) x.value = .list elements := hlist ▸ hx ▸ treated (by simp [hx])
  rw [filled, hx, Node.rewrite_list hown]

theorem filled_of_no_list (hx : x.node = .list m items) (hlist : ∀ elements, (x.given item).value ≠ .list elements) :
    x.filled choose item = (x.given item).value := by
  have hown : Node.filled item (.list m items) x.value = (x.given item).value := hx ▸ treated (by simp [hx])
  rw [filled, hx, Node.rewrite_list_of_no_list (by rwa [hown]), hown]

theorem step_filled_element {i : Nat} (hx : x.node = .list m items) (hlist : (x.given item).value = .list elements)
    (hi : i < elements.length) :
    (x.filled choose item).step (.index i) = ((x.given item).element items i).filled choose item := by
  rw [filled_list hx hlist, Value.step, List.getElem?_map, List.getElem?_zipIdx, List.getElem?_eq_getElem hi, element,
    hlist, Value.step, List.getElem?_eq_getElem hi, filled]
  simp [place, given]

end List

section Union

variable {m : Modifiers} {variants : List Node} {i : Nat} {n : Node}

theorem filled_variant (hx : x.node = .union m variants)
    (hi : choose x.key x.path variants (x.given item).value = some i) (hn : variants[i]? = some n) :
    x.filled choose item = (x.entered item n).filled choose item := by
  have hown : Node.filled item (.union m variants) x.value = (x.given item).value := hx ▸ treated (by simp [hx])
  rw [filled, hx, Node.rewrite_union_of_some (by rwa [hown]) hn, hown]
  rfl

theorem filled_of_no_variant (hx : x.node = .union m variants) (hnone : ∀ i n,
    choose x.key x.path variants (x.given item).value = some i → variants[i]? ≠ some n) :
    x.filled choose item = (x.given item).value := by
  have hown : Node.filled item (.union m variants) x.value = (x.given item).value := hx ▸ treated (by simp [hx])
  rw [filled, hx, Node.rewrite_union_of_none (by rwa [hown]), hown]

end Union

section Whole

variable {t : Picks} {n : Node} {Q : Node → Prop}

/-- Filling goes on into the maps of objects, into lists and into variants, and else it leaves what is given. -/
theorem filled_cases (choose : Chooser) (item : Value) (x : Position) :
    (∃ m fields isOpen es, x.node = .object m fields isOpen ∧ (x.given item).value = .map es) ∨
      (∃ m items elements, x.node = .list m items ∧ (x.given item).value = .list elements) ∨
      (∃ m variants i n, x.node = .union m variants ∧ choose x.key x.path variants (x.given item).value = some i ∧
        variants[i]? = some n) ∨ x.filled choose item = (x.given item).value := by
  cases hx : x.node with
  | object m fields isOpen =>
    cases hv : (x.given item).value with
    | map es => exact .inl ⟨m, fields, isOpen, es, rfl, rfl⟩
    | _ => exact .inr (.inr (.inr ((filled_of_no_map hx (by rw [hv]; rfl)).trans hv)))
  | list m items =>
    cases hv : (x.given item).value with
    | list elements => exact .inr (.inl ⟨m, items, elements, rfl, rfl⟩)
    | _ => exact .inr (.inr (.inr ((filled_of_no_list hx (by simp [hv])).trans hv)))
  | union m variants =>
    by_cases hn : ∃ i n, choose x.key x.path variants (x.given item).value = some i ∧ variants[i]? = some n
    · obtain ⟨i, n, hi, hn⟩ := hn
      exact .inr (.inr (.inl ⟨m, variants, i, n, rfl, hi, hn⟩))
    · exact .inr (.inr (.inr (filled_of_no_variant hx fun i n hi hn' => hn ⟨i, n, hi, hn'⟩)))
  | _ =>
    refine .inr (.inr (.inr ?_))
    rw [filled, given, hx]
    rfl

theorem entered_given : (x.given item).entered item n = x.entered item n := by
  rw [entered, given_given]
  rfl

theorem given_entered {variants : List Node} {i : Nat}
    (hi : t.chooser x.key x.path variants (x.given item).value = some i) :
    (x.entered item n).given item = x.entered item n := by
  refine given_of_defined ?_
  rw [Picks.chooser] at hi
  split at hi
  · cases hi
  · exact Bool.eq_false_iff.2 ‹_›

theorem filled_grownTo (hx : x.node = n) : (x.given item).value.GrownTo (x.filled t.chooser item) := by
  induction n using Node.induct_children generalizing x with
  | step n ih =>
    rcases filled_cases t.chooser item x with
      ⟨m, fields, isOpen, es, hobject, hes⟩ | ⟨m, items, elements, hlist, hes⟩ |
        ⟨m, variants, i, u, hunion, hi, hu⟩ | hsame
    · rw [filled_object hobject hes, hes]
      refine ⟨_, rfl, ?_⟩
      rw [Entries.keys_map, Entries.keys, Entries.keys, List.map_append]
      exact List.prefix_append _ _
    · rw [filled_list hlist hes, hes]
      exact ⟨_, rfl, by rw [List.length_map, List.length_zipIdx]⟩
    · rw [filled_variant hunion hi hu]
      have hmem : u ∈ n.children := by
        rw [← hx, hunion]
        exact List.mem_of_getElem? hu
      have hgrown := ih u hmem (x := x.entered item u) rfl
      rwa [given_entered hi] at hgrown
    · rw [hsame]
      exact Value.GrownTo.refl

theorem step_filled (t : Picks) (item : Value) (hx : x.node = n) (hn : n.Throughout Node.WellKeyed) (s : PathStep) :
    (x.filled t.chooser item).step s = (x.given item).value.step s ∨
      ∃ z : Position, z.node.Throughout Node.WellKeyed ∧ z.value = (x.given item).value.step s ∧
        (x.filled t.chooser item).step s = z.filled t.chooser item ∧
        ∀ p y, z.FillsTo t.chooser item p y → x.FillsTo t.chooser item (s :: p) y := by
  induction n using Node.induct_children generalizing x with
  | step n ih =>
    rcases filled_cases t.chooser item x with
      ⟨m, fields, isOpen, es, hobject, hes⟩ | ⟨m, items, elements, hlist, hes⟩ |
        ⟨m, variants, i, u, hunion, hi, hu⟩ | hsame
    · obtain rfl := hx.symm.trans hobject
      cases s with
      | index i =>
        rw [filled_object hobject hes, hes]
        exact .inl rfl
      | name k =>
        by_cases hk : k ∈ Entries.keys fields
        · obtain ⟨f, hf, rfl⟩ := List.mem_map.1 hk
          exact .inr ⟨(x.given item).field f, hn.field hf, rfl, step_filled_field hobject hes hn.nodup_fields hf,
            fun p y h => .field hobject hes hf h⟩
        · exact .inl (step_filled_undeclared hobject hes hk)
    · obtain rfl := hx.symm.trans hlist
      cases s with
      | name k =>
        rw [filled_list hlist hes, hes]
        exact .inl rfl
      | index i =>
        by_cases hi : i < elements.length
        · exact .inr ⟨(x.given item).element items i, hn.item, rfl, step_filled_element hlist hes hi,
            fun p y h => .element hlist hes hi h⟩
        · rw [filled_list hlist hes, hes, Value.step, Value.step, List.getElem?_eq_none (by simpa using hi),
            List.getElem?_eq_none (Nat.le_of_not_lt hi)]
          exact .inl rfl
    · -- A union is at the same place as its variant, and so is what is a step below.
      obtain rfl := hx.symm.trans hunion
      have hmem := List.mem_of_getElem? hu
      have hstep := ih u hmem (x := x.entered item u) rfl (hn.variant hmem)
      rw [given_entered hi, ← filled_variant hunion hi hu] at hstep
      refine hstep.imp_right ?_
      rintro ⟨z, hz, hvalue, hfilled, hto⟩
      exact ⟨z, hz, hvalue, hfilled, fun p y h => .variant hunion hi hu (hto p y h)⟩
    · exact .inl (by rw [hsame])

theorem FillsTo.given {s : PathStep} (h : x.FillsTo choose item (s :: p) y) :
    (x.given item).FillsTo choose item (s :: p) y := by
  cases h with
  | variant hx hi hn h => exact .variant hx (by rwa [given_given]) hn (by rwa [entered_given])
  | field hx hmap hf h => exact .field hx (by rwa [given_given]) hf (by rwa [given_given])
  | element hx hlist hi h => exact .element hx (by rwa [given_given]) hi (by rwa [given_given])

theorem given_keeps (hn : x.node.Throughout Node.WellKeyed) :
    (x.given item).Keeps t.chooser item (x.filled t.chooser item) := by
  intro p hp
  induction p generalizing x with
  | nil => exact ⟨filled_grownTo rfl, fun hno => absurd (.here _) (hno (x.given item))⟩
  | cons s rest ih =>
    rw [Value.within_cons] at hp ⊢
    rw [Value.within_cons]
    rcases step_filled t item rfl hn s with hsame | ⟨z, hz, hvalue, hfilled, hto⟩
    · rw [hsame]
      exact ⟨Value.GrownTo.refl, fun _ => rfl⟩
    · -- Something stands at the place, so the position a step below has a value and needs no default.
      have hdefined : z.value.isUndefined = false := by
        cases hd : z.value.isUndefined with
        | false => rfl
        | true =>
          rw [← hvalue, Value.eq_undefined_iff.2 hd, Value.within_undefined] at hp
          cases hp
      have hkeeps := ih hz (by rwa [given_of_defined hdefined, hvalue])
      rw [given_of_defined hdefined, hvalue] at hkeeps
      rw [hfilled]
      exact ⟨hkeeps.1, fun hno => hkeeps.2 fun y hy => hno y (hto rest y hy).given⟩

theorem FillsTo.throughout (h : x.FillsTo choose item p y) (hn : x.node.Throughout Q) : y.node.Throughout Q := by
  induction h with
  | here x => exact hn
  | variant hx hi hu h ih => exact ih ((hx ▸ hn).variant (List.mem_of_getElem? hu))
  | field hx hmap hf h ih => exact ih ((hx ▸ hn).field hf)
  | element hx hlist hi h ih => exact ih (hx ▸ hn).item

theorem FillsTo.within_filled (h : x.FillsTo t.chooser item p y) (hn : x.node.Throughout Node.WellKeyed) :
    (x.filled t.chooser item).within p = y.filled t.chooser item := by
  induction h with
  | here x => rfl
  | variant hx hi hu h ih =>
    rw [filled_variant hx hi hu]
    exact ih ((hx ▸ hn).variant (List.mem_of_getElem? hu))
  | field hx hmap hf h ih =>
    rw [hx] at hn
    rw [Value.within_cons, step_filled_field hx hmap hn.nodup_fields hf]
    exact ih (hn.field hf)
  | element hx hlist hi h ih =>
    rw [Value.within_cons, step_filled_element hx hlist hi]
    exact ih (hx ▸ hn).item

end Whole

/-- Filling that only adds. It goes through the item in order, and of the unions with one key the first one that it comes
to tells the variant. What there was is kept; a declared field that was absent from a map has its default after that, of
which everything is kept in turn, and there still is nothing if the default is undefined. It makes no difference whether
the item had the map or a default did. -/
structure Supplied (item : Value) (root : Position) (s : Pass) (w : Value) (s' : Pass) : Prop where
  mem_filling : ∀ y, y ∈ root.filling s'.picks.chooser item ↔ ∃ p, root.FillsTo s'.picks.chooser item p y
  variants : s'.picks = ((root.filling s'.picks.chooser item).map (given item)).foldl Picks.note s.picks
  calls : s'.calls = s.calls ++ (root.filling s'.picks.chooser item).filterMap (defaultCall? item)
  keeps : root.Keeps s'.picks.chooser item w
  defaults : ∀ p y m fields isOpen f, root.FillsTo s'.picks.chooser item p y → y.node = .object m fields isOpen →
    (w.within p).isMap = true → f ∈ fields → ((y.given item).field f).value.isUndefined = true →
      ((((y.given item).field f).given item).value.isUndefined = true → w.within (p ++ [.name f.1]) = .undefined) ∧
        (((y.given item).field f).given item).Keeps s'.picks.chooser item (w.within (p ++ [.name f.1]))

theorem filled_keeps {t : Picks} (hn : x.node.Throughout Node.WellKeyed) :
    x.Keeps t.chooser item (x.filled t.chooser item) := by
  cases hx : x.value.isUndefined with
  | false =>
    have hkeeps : (x.given item).Keeps t.chooser item (x.filled t.chooser item) := given_keeps hn
    rwa [given_of_defined hx] at hkeeps
  | true =>
    intro p hp
    rw [Value.eq_undefined_iff.2 hx, Value.within_undefined] at hp
    cases hp

theorem FillsTo.within_field {t : Picks} {m : Modifiers} {fields : List (String × Node)} {isOpen : Bool}
    {f : String × Node} (hy : x.FillsTo t.chooser item p y) (hn : x.node.Throughout Node.WellKeyed)
    (hobject : y.node = .object m fields isOpen) (hmap : ((x.filled t.chooser item).within p).isMap = true)
    (hf : f ∈ fields) : (x.filled t.chooser item).within (p ++ [.name f.1]) =
      ((y.given item).field f).filled t.chooser item := by
  have hfields : (Node.object m fields isOpen).Throughout Node.WellKeyed := hobject ▸ hy.throughout hn
  rw [hy.within_filled hn] at hmap
  obtain ⟨es, hes⟩ := (isMap_filled_iff hobject).1 hmap
  rw [Value.within_append, hy.within_filled hn]
  exact step_filled_field hobject hes hfields.nodup_fields hf

end Position

namespace Schema

open Position (place)

variable {sch : Schema} {item : Value}

/-- Filling an item with the defaults of a schema only adds to it. -/
theorem fill_supplies (hkeys : sch.WellKeyed) (hitem : item.wellKeyed = true) (s : Pass) :
    (place "" item sch.root).Supplied item s (sch.root.fill item "" "" item s).1
      (sch.root.fill item "" "" item s).2 := by
  have hfilled : (sch.root.fill item "" "" item s).1 =
      (place "" item sch.root).filled (sch.root.fill item "" "" item s).2.picks.chooser item :=
    Node.fill_gives hitem hkeys hitem s List.prefix_rfl
  have hfill : Passing.Notes (sch.root.fill item "" "" item s).2.picks (sch.root.fill item "" "" item)
      ((place "" item sch.root).defaultCalls (sch.root.fill item "" "" item s).2.picks.chooser item)
      ((place "" item sch.root).filledWith (sch.root.fill item "" "" item s).2.picks.chooser item) :=
    Node.fill_notes (hkeys.mono fun _ hn => hn.names)
  have hnotes := hfill.run s List.prefix_rfl
  rw [hfilled]
  refine ⟨fun y => Position.mem_filling_iff, congrArg Pass.picks hnotes, congrArg Pass.calls hnotes,
    Position.filled_keeps hkeys, fun p y m fields isOpen f hy hobject hmap hf _ => ?_⟩
  have hfields : (Node.object m fields isOpen).Throughout Node.WellKeyed := hobject ▸ hy.throughout hkeys
  rw [hy.within_field hkeys hobject hmap hf]
  exact ⟨fun hundefined => Value.eq_undefined_iff.2 (Position.filled_isUndefined.trans hundefined),
    Position.given_keeps (hfields.field hf)⟩

def supplying (d : Value) : Modifiers := { default := some (.fixed d) }

def invoiceFields : SchemaDeclaration :=
  [("id", .typed .string none none false { memberships := { primary := true } }),
    ("note", .typed .string none none false (supplying (.string "none"))),
    ("sender", .typed .string none none false { default := some (.computed ⟨none, fun v => v.step (.name "id")⟩) }),
    ("sent", .typed .object (some [("by", .typed .string none none false (supplying (.string "post")))])
      none false (supplying (.map []))),
    ("lines", .typed .array none (some (.typed .object
      (some [("count", .typed .number none none false (supplying (.number (.ofInt 1))))]) none false {}))
      false {}),
    ("terms", .union [.tag .string, .typed .object
      (some [("days", .typed .number none none false (supplying (.number (.ofInt 30))))]) none false {}])]

def invoices : Schema where
  root := .object { required := true } [
    ("id", .scalar { required := true, memberships := { primary := true } } .string),
    ("note", .scalar (supplying (.string "none")) .string),
    ("sender", .scalar { default := some (.computed ⟨none, fun v => v.step (.name "id")⟩) } .string),
    ("sent", .object (supplying (.map []))
      [("by", .scalar (supplying (.string "post")) .string)] false),
    ("lines", .list {} (.object {} [("count", .scalar (supplying (.number (.ofInt 1))) .number)] false)),
    ("terms", .union {} [.scalar {} .string,
      .object {} [("days", .scalar (supplying (.number (.ofInt 30))) .number)] false])]
    false
  primaryKey := "id"
  sortKey := none
  attributeDefinitions := [⟨"id", .s⟩]
  localIndexes := []
  globalIndexes := []

def invoice : Value := .map [("note", .null), ("id", .string "a"),
  ("lines", .list [.map [], .map [("count", .number (.ofInt 3))]]), ("terms", .map [])]

theorem invoices_wellKeyed : invoices.WellKeyed := by
  have fixed {d : Value} (hd : d.wellKeyed = true) : (supplying d).WellKeyed :=
    ⟨by rintro _ ⟨⟩; exact hd, by rintro _ ⟨⟩, by rintro _ ⟨⟩⟩
  have sender : Modifiers.WellKeyed { default := some (.computed ⟨none, fun v => v.step (.name "id")⟩) } := by
    refine ⟨by rintro _ ⟨⟩, ?_, by rintro _ ⟨⟩⟩
    rintro _ ⟨⟩ v hv
    cases v with
    | map es => exact Value.wellKeyed_getD hv
    | _ => rfl
  exact ⟨.of_object (by decide) (.of_none rfl rfl), .of_none rfl rfl rfl, .of_leaf rfl (fixed rfl), .of_leaf rfl sender,
    ⟨.of_object (by decide) (fixed rfl), .of_leaf rfl (fixed rfl), trivial⟩,
    ⟨.of_none rfl rfl rfl, .of_object (by decide) (.of_none rfl rfl), .of_leaf rfl (fixed rfl), trivial⟩,
    ⟨.of_none rfl rfl rfl, .of_none rfl rfl rfl, ⟨.of_object (by decide) (.of_none rfl rfl), .of_leaf rfl (fixed rfl),
      trivial⟩, trivial⟩, trivial⟩

theorem invoice_supplied : ofDeclaration invoiceFields = .ok invoices ∧ invoice.wellKeyed = true ∧
    (invoices.root.fill invoice "" "" invoice {}).1 = .map [("note", .null), ("id", .string "a"),
      ("lines", .list [.map [("count", .number (.ofInt 1))], .map [("count", .number (.ofInt 3))]]),
      ("terms", .map [("days", .number (.ofInt 30))]), ("sender", .string "a"), ("sent", .map [("by", .string "post")])] ∧
    (invoices.root.fill invoice "" "" invoice {}).2.picks = [("terms", some 1)] ∧
    (invoices.root.fill invoice "" "" invoice {}).2.calls = [⟨none, [invoice]⟩] ∧
    (place "" invoice invoices.root).Supplied invoice {} (invoices.root.fill invoice "" "" invoice {}).1
      (invoices.root.fill invoice "" "" invoice {}).2 := by
  have hitem : invoice.wellKeyed = true := by decide
  exact ⟨rfl, hitem, rfl, rfl, rfl, fill_supplies invoices_wellKeyed hitem {}⟩

def unmarked : ComputedDefault := ⟨none, fun _ => .list [.undefined]⟩

def markFields : SchemaDeclaration :=
  [("id", .typed .string none none false { memberships := { primary := true } }),
    ("marks", .typed .array none
      (some (.typed .number none none false (supplying (.number (.ofInt 1))))) false
      { default := some (.computed unmarked) })]

def marking : Schema where
  root := .object { required := true } [
    ("id", .scalar { required := true, memberships := { primary := true } } .string),
    ("marks", .list { default := some (.computed unmarked) }
      (.scalar (supplying (.number (.ofInt 1))) .number))] false
  primaryKey := "id"
  sortKey := none
  attributeDefinitions := [⟨"id", .s⟩]
  localIndexes := []
  globalIndexes := []

def pupil : Value := .map [("id", .string "a")]

/-- A computed default is filled as well, so that the field does not always hold what was computed. -/
theorem unmarked_filled : ofDeclaration markFields = .ok marking ∧
    (marking.root.fill pupil "" "" pupil {}).1.within [.name "marks"] = .list [.number (.ofInt 1)] ∧
    ¬ ∀ f ∈ marking.root.fields?.getD [], ∀ g, f.2.modifiers.default = some (.computed g) →
      (pupil.step (.name f.1)).isUndefined = true → (g.run pupil).isUndefined = false →
      (marking.root.fill pupil "" "" pupil {}).1.within [.name f.1] = g.run pupil := by
  have hmarks : (marking.root.fill pupil "" "" pupil {}).1.within [.name "marks"] = .list [.number (.ofInt 1)] := rfl
  refine ⟨rfl, hmarks, fun h => ?_⟩
  have hsame := h _ (.tail _ (.head _)) unmarked rfl rfl rfl
  cases (List.cons.inj (Value.list.inj (hmarks.symm.trans hsame))).1

end Schema

end ItemMapper
