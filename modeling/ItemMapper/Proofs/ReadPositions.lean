import ItemMapper.Item.Reading
import ItemMapper.Proofs.ReachedPositions

/-!
# Read positions

A reading goes from a value to what is below it, as long as the values have the kinds of their nodes, and from a union
to its variant. What a getter is given is the value with the results of what is below it.
-/

namespace ItemMapper

theorem Node.sizeOf_child {n u : Node} (h : u ∈ n.children) : sizeOf u < sizeOf n := by
  cases n with
  | object m fields isOpen =>
    obtain ⟨f, hf, rfl⟩ := List.mem_map.1 h
    have hfield : sizeOf f.2 < sizeOf f := by
      rw [Prod.mk.sizeOf_spec]
      omega
    have hmem := List.sizeOf_lt_of_mem hf
    rw [Node.object.sizeOf_spec]
    omega
  | list m items =>
    rw [List.mem_singleton.1 h, Node.list.sizeOf_spec]
    omega
  | set m items =>
    rw [List.mem_singleton.1 h, Node.set.sizeOf_spec]
    omega
  | union m variants =>
    have hmem : sizeOf u < sizeOf variants := List.sizeOf_lt_of_mem h
    rw [Node.union.sizeOf_spec]
    omega
  | _ => cases h

namespace Position

variable {choose : Chooser} {item context : Value} {x y : Position}

/-- The value, as a big integer or a date if the node is for these and a number is stored for it. -/
def restoredOwn (x : Position) : Value := x.node.restoreOwn x.value

def fits (x : Position) : Bool := x.node.accepts x.restoredOwn

/-- What a reading goes on to: the variant of a union, and the positions right below a value that fits. -/
def ahead (choose : Chooser) (x : Position) : List Position :=
  if x.node.isUnion || x.fits then x.next choose true else []

theorem sizeOf_ahead (h : y ∈ x.ahead choose) : sizeOf y.node < sizeOf x.node := by
  rw [ahead] at h
  split at h
  · exact Node.sizeOf_child (next_children h)
  · cases h

def walk (choose : Chooser) (x : Position) : List Position :=
  (x.ahead choose).attach.flatMap (fun y => y.1.walk choose) ++ if x.fits then [x] else []
termination_by sizeOf x.node
decreasing_by exact sizeOf_ahead y.2

def visited (choose : Chooser) (x : Position) : List Position :=
  x :: (x.ahead choose).attach.flatMap fun y => y.1.visited choose
termination_by sizeOf x.node
decreasing_by exact sizeOf_ahead y.2

/-- The value with its fields, its elements or its members replaced, a union having just the one of its variant. -/
def replaced (x : Position) (below : List Value) : Value :=
  match x.node, x.restoredOwn with
  | .object _ fields _, .map entries =>
    .map (entries.map fun e => (e.1, (Entries.get? e.1 ((Entries.keys fields).zip below)).getD e.2))
  | .list _ _, .list _ => .list below
  | .set _ _, .set _ => .set below
  | .union _ _, v => below.head?.getD v
  | _, v => v

def getter? (x : Position) : Option Transform := if x.node.isUnion then none else x.node.modifiers.getter

def result (choose : Chooser) (item context : Value) (x : Position) : Value :=
  if x.node.isUnion || x.fits then
    let inside := x.replaced ((x.ahead choose).attach.map fun y => y.1.result choose item context)
    match x.getter? with
    | some f => f.run inside item context
    | none => inside
  else x.restoredOwn
termination_by sizeOf x.node
decreasing_by exact sizeOf_ahead y.2

/-- The value that the getter is given: the restored one, with the results of what is below. -/
def inside (choose : Chooser) (item context : Value) (x : Position) : Value :=
  x.replaced ((x.ahead choose).map (result choose item context))

def getterCall (choose : Chooser) (item context : Value) (x : Position) : Option Call :=
  x.getter?.map fun f => ⟨f.tag, [x.inside choose item context, item, context]⟩

def getterCalls (choose : Chooser) (item context : Value) (x : Position) : List Call :=
  (x.walk choose).filterMap (getterCall choose item context)

theorem walk_eq : x.walk choose = (x.ahead choose).flatMap (walk choose) ++ if x.fits then [x] else [] := by
  rw [walk, List.flatMap_subtype (g := walk choose) fun _ _ => rfl, List.unattach_attach]

theorem visited_eq : x.visited choose = x :: (x.ahead choose).flatMap (visited choose) := by
  rw [visited, List.flatMap_subtype (g := visited choose) fun _ _ => rfl, List.unattach_attach]

theorem result_eq : x.result choose item context = if x.node.isUnion || x.fits then
    match x.getter? with
    | some f => f.run (x.inside choose item context) item context
    | none => x.inside choose item context
    else x.restoredOwn := by
  rw [result, List.map_subtype (g := result choose item context) fun _ _ => rfl, List.unattach_attach]
  rfl

theorem induct_ahead (choose : Chooser) {P : Position → Prop}
    (step : ∀ x : Position, (∀ y ∈ x.ahead choose, P y) → P x) (x : Position) : P x :=
  WellFounded.induction (measure fun x : Position => sizeOf x.node).wf x fun x ih => step x fun y hy =>
    ih y (sizeOf_ahead hy)

def ReadsTo (choose : Chooser) : Position → Position → Prop := Relation.ReflTransGen fun x y => y ∈ x.ahead choose

theorem mem_walk_iff : y ∈ x.walk choose ↔ y.fits = true ∧ x.ReadsTo choose y := by
  induction x using induct_ahead choose with
  | step x ih =>
    rw [walk_eq, List.mem_append, List.mem_flatMap, ReadsTo, Relation.ReflTransGen.cases_head_iff]
    constructor
    · rintro (⟨z, hz, hy⟩ | hy)
      · obtain ⟨hfits, hreads⟩ := (ih z hz).1 hy
        exact ⟨hfits, .inr ⟨z, hz, hreads⟩⟩
      · split at hy
        · cases List.mem_singleton.1 hy
          exact ⟨‹_›, .inl rfl⟩
        · cases hy
    · rintro ⟨hfits, rfl | ⟨z, hz, hreads⟩⟩
      · rw [if_pos hfits]
        exact .inr (List.mem_singleton_self _)
      · exact .inl ⟨z, hz, (ih z hz).2 ⟨hfits, hreads⟩⟩

theorem result_of_unfit (hfits : x.fits = false) (hahead : x.ahead choose = []) :
    x.result choose item context = x.restoredOwn := by
  rw [result_eq]
  split
  · have hunion : x.node.isUnion = true := by simpa [hfits] using ‹(x.node.isUnion || x.fits) = true›
    rw [getter?, if_pos hunion, inside, hahead, replaced]
    cases hn : x.node <;> first | rfl | simp [hn, Node.isUnion] at hunion
  · rfl

theorem walk_of_unfit (hfits : x.fits = false) (hahead : x.ahead choose = []) : x.walk choose = [] := by
  simp [walk_eq, hfits, hahead]

end Position

end ItemMapper
