import ItemMapper.Expression.Path
import ItemMapper.Proofs.GetterCalls

/-!
# Filled positions

Filling comes to a value, and then to what its maps, its lists and the variants of its unions lead to, be they given or
defaults. In this order it calls the computed defaults, and picks the variants that have not been picked before.
-/

namespace ItemMapper

namespace Value

def step : Value → PathStep → Value
  | map es, .name k => (Entries.get? k es).getD undefined
  | list elements, .index i => elements[i]?.getD undefined
  | _, _ => undefined

end Value

namespace Position

variable {choose : Chooser} {item : Value} {x y z : Position} {p : List PathStep} {t : Picks}

def given (item : Value) (x : Position) : Position := { x with value := x.node.modifiers.orDefault item x.value }

def field (x : Position) (f : String × Node) : Position := place (memberPath x.path f.1) (x.value.step (.name f.1)) f.2

def element (x : Position) (items : Node) (i : Nat) : Position :=
  place (elementPath x.path i) (x.value.step (.index i)) items

def entered (item : Value) (x : Position) (n : Node) : Position :=
  ⟨nestedKey x.key, x.path, (x.given item).value, n, true⟩

/-- Filling comes from one position to another, which is at a place inside. It goes into what is there and into
defaults alike. -/
inductive FillsTo (choose : Chooser) (item : Value) : Position → List PathStep → Position → Prop where
  | here (x : Position) : FillsTo choose item x [] x
  | variant {x y : Position} {p : List PathStep} {m : Modifiers} {variants : List Node} {i : Nat} {n : Node}
      (hx : x.node = .union m variants) (hi : choose x.key x.path variants (x.given item).value = some i)
      (hn : variants[i]? = some n) (h : FillsTo choose item (x.entered item n) p y) :
      FillsTo choose item x p y
  | field {x y : Position} {p : List PathStep} {m : Modifiers} {fields : List (String × Node)} {isOpen : Bool}
      {es : List (String × Value)} {f : String × Node} (hx : x.node = .object m fields isOpen)
      (hmap : (x.given item).value = .map es) (hf : f ∈ fields)
      (h : FillsTo choose item ((x.given item).field f) p y) : FillsTo choose item x (.name f.1 :: p) y
  | element {x y : Position} {p : List PathStep} {m : Modifiers} {items : Node} {elements : List Value} {i : Nat}
      (hx : x.node = .list m items) (hlist : (x.given item).value = .list elements) (hi : i < elements.length)
      (h : FillsTo choose item ((x.given item).element items i) p y) : FillsTo choose item x (.index i :: p) y

/-- What filling goes on to from a position, in its order. The members of sets are not filled. -/
def below (choose : Chooser) (item : Value) (x : Position) : List Position := (x.given item).next choose false

theorem sizeOf_below (h : y ∈ x.below choose item) : sizeOf y.node < sizeOf x.node :=
  Node.sizeOf_child (n := x.node) (next_children (x := x.given item) h)

def filling (choose : Chooser) (item : Value) (x : Position) : List Position :=
  x :: (x.below choose item).attach.flatMap fun y => y.1.filling choose item
termination_by sizeOf x.node
decreasing_by exact sizeOf_below y.2

theorem filling_eq : x.filling choose item = x :: (x.below choose item).flatMap (filling choose item) := by
  rw [filling, List.flatMap_subtype (g := filling choose item) fun _ _ => rfl, List.unattach_attach]

theorem induct_below (choose : Chooser) (item : Value) {P : Position → Prop}
    (step : ∀ x : Position, (∀ y ∈ x.below choose item, P y) → P x) (x : Position) : P x :=
  WellFounded.induction (measure fun x : Position => sizeOf x.node).wf x fun x ih => step x fun y hy =>
    ih y (sizeOf_below hy)

theorem element_mem_iff {elements : List Value} {items : Node} {path : String} :
    y ∈ elements.zipIdx.map (fun e => place (elementPath path e.2) e.1 items) ↔
      ∃ i, i < elements.length ∧ y = place (elementPath path i) (elements[i]?.getD .undefined) items := by
  rw [List.mem_map]
  constructor
  · rintro ⟨⟨e, i⟩, he, rfl⟩
    have hi : elements[i]? = some e := List.mem_zipIdx_iff_getElem?.1 he
    exact ⟨i, (List.getElem?_eq_some_iff.1 hi).1, by rw [hi, Option.getD_some]⟩
  · rintro ⟨i, hi, rfl⟩
    have he : elements[i]? = some elements[i] := List.getElem?_eq_getElem hi
    exact ⟨(elements[i], i), List.mem_zipIdx_iff_getElem?.2 he, by rw [he, Option.getD_some]⟩

theorem mem_below_iff : y ∈ x.below choose item ↔
    (∃ m variants i n, x.node = .union m variants ∧ choose x.key x.path variants (x.given item).value = some i ∧
      variants[i]? = some n ∧ y = x.entered item n) ∨
    (∃ m fields isOpen es f, x.node = .object m fields isOpen ∧ (x.given item).value = .map es ∧ f ∈ fields ∧
      y = (x.given item).field f) ∨
    ∃ m items elements i, x.node = .list m items ∧ (x.given item).value = .list elements ∧ i < elements.length ∧
      y = (x.given item).element items i := by
  obtain ⟨key, path, v, n, inUnion⟩ := x
  cases n with
  | object m fields isOpen =>
    cases hv : m.orDefault item v with
    | map es => simp [below, given, next, Node.modifiers, hv, field, Value.step, eq_comm]
    | _ => simp [below, given, next, Node.modifiers, hv]
  | list m items =>
    cases hv : m.orDefault item v with
    | list elements => simp [below, given, next, Node.modifiers, hv, element, Value.step, element_mem_iff]
    | _ => simp [below, given, next, Node.modifiers, hv]
  | union m variants =>
    have hnext : y ∈ below choose item ⟨key, path, v, .union m variants, inUnion⟩ ↔
        ∃ n, (∃ i, choose key path variants (m.orDefault item v) = some i ∧ variants[i]? = some n) ∧
          entered item ⟨key, path, v, .union m variants, inUnion⟩ n = y := by
      simp only [below, given, next, Node.modifiers, Option.mem_toList, Option.map_eq_some_iff,
        Option.bind_eq_some_iff, entered]
    rw [hnext]
    constructor
    · rintro ⟨n, ⟨i, hi, hn⟩, rfl⟩
      exact .inl ⟨m, variants, i, n, rfl, hi, hn, rfl⟩
    · rintro (⟨_, _, i, n, ⟨⟩, hi, hn, rfl⟩ | ⟨_, _, _, _, _, ⟨⟩, _⟩ | ⟨_, _, _, _, ⟨⟩, _⟩)
      exact ⟨n, ⟨i, hi, hn⟩, rfl⟩
  | set m items =>
    cases hv : m.orDefault item v <;> simp [below, given, next, Node.modifiers, hv]
  | _ => simp [below, given, next]

theorem mem_filling_iff : y ∈ x.filling choose item ↔ ∃ p, x.FillsTo choose item p y := by
  constructor
  · intro hy
    induction x using induct_below choose item with
    | step x ih =>
      rw [filling_eq, List.mem_cons, List.mem_flatMap] at hy
      rcases hy with rfl | ⟨z, hz, hy⟩
      · exact ⟨[], .here _⟩
      · obtain ⟨p, hp⟩ := ih z hz hy
        rcases mem_below_iff.1 hz with ⟨m, variants, i, n, hx, hi, hn, rfl⟩ | ⟨m, fields, isOpen, es, f, hx, hmap, hf, rfl⟩ |
          ⟨m, items, elements, i, hx, hlist, hi, rfl⟩
        · exact ⟨_, .variant hx hi hn hp⟩
        · exact ⟨_, .field hx hmap hf hp⟩
        · exact ⟨_, .element hx hlist hi hp⟩
  · rintro ⟨p, hp⟩
    have hstep {x z : Position} (hz : z ∈ x.below choose item) (hy : y ∈ z.filling choose item) :
        y ∈ x.filling choose item := by
      rw [filling_eq]
      exact List.mem_cons_of_mem _ (List.mem_flatMap.2 ⟨z, hz, hy⟩)
    induction hp with
    | here x =>
      rw [filling_eq]
      exact List.mem_cons_self
    | variant hx hi hn _ ih => exact hstep (mem_below_iff.2 (.inl ⟨_, _, _, _, hx, hi, hn, rfl⟩)) (ih hstep)
    | field hx hmap hf _ ih =>
      exact hstep (mem_below_iff.2 (.inr (.inl ⟨_, _, _, _, _, hx, hmap, hf, rfl⟩))) (ih hstep)
    | element hx hlist hi _ ih =>
      exact hstep (mem_below_iff.2 (.inr (.inr ⟨_, _, _, _, hx, hlist, hi, rfl⟩))) (ih hstep)

def defaultCall? (item : Value) (x : Position) : Option Call :=
  match x.node.modifiers.default with
  | some (.computed f) => if x.value.isUndefined then some (f.onItem item).2 else none
  | _ => none

def defaultCalls (choose : Chooser) (item : Value) (x : Position) : List Call :=
  (x.filling choose item).filterMap (defaultCall? item)

/-- The positions with their defaults, as variants are picked for them. -/
def filledWith (choose : Chooser) (item : Value) (x : Position) : List Position :=
  (x.filling choose item).map (given item)

theorem defaultCalls_eq : x.defaultCalls choose item =
    (x.defaultCall? item).toList ++ (x.below choose item).flatMap (defaultCalls choose item) := by
  rw [defaultCalls, filling_eq, List.filterMap_cons, List.filterMap_flatMap]
  cases x.defaultCall? item <;> rfl

theorem filledWith_eq : x.filledWith choose item =
    x.given item :: (x.below choose item).flatMap (filledWith choose item) := by
  rw [filledWith, filling_eq, List.map_cons, List.map_flatMap]
  rfl

end Position

namespace Passing

variable {α β : Type} {t : Picks} {p : Passing α} {q : α → Passing β} {a : α} {cs ds : List Call} {xs ys : List Position}
  {x : Position}

/-- Which calls a pass adds and which unions it comes to, as far as the table holds its picks. -/
structure Notes (t : Picks) (p : Passing α) (calls : List Call) (comes : List Position) : Prop where
  grows : p.Grows
  run : ∀ s, (p s).2.picks <+: t → (p s).2 = ⟨comes.foldl Picks.note s.picks, s.calls ++ calls⟩

theorem Reads.notes (h : Reads t p a cs xs) : Notes t p cs xs where
  grows := h.grows
  run s hs := congrArg Prod.snd (h.run s hs)

theorem Notes.pure : Notes t (Pure.pure a) [] [] := Reads.pure.notes

theorem Notes.bind (hp : Notes t p cs xs) (hq : ∀ a, Notes t (q a) ds ys) : Notes t (p >>= q) (cs ++ ds) (xs ++ ys) where
  grows := hp.grows.bind fun a => (hq a).grows
  run s hs := by
    rw [bind_apply] at hs ⊢
    have hfirst := hp.run s (((hq _).grows _).trans hs)
    rw [hfirst] at hs ⊢
    rw [(hq _).run _ hs, List.foldl_append, List.append_assoc]

theorem Notes.bind_pure {g : α → β} (hp : Notes t p cs xs) : Notes t (p >>= fun a => Pure.pure (g a)) cs xs := by
  simpa using hp.bind fun a => Notes.pure (a := g a)

theorem Notes.bind_gives (hp : Notes t p cs xs) (ha : Gives t p a) (hg : ∀ a, (q a).Grows) (hq : Notes t (q a) ds ys) :
    Notes t (p >>= q) (cs ++ ds) (xs ++ ys) where
  grows := hp.grows.bind hg
  run s hs := by
    rw [bind_apply] at hs ⊢
    have hmid := (hg _ _).trans hs
    rw [hp.run s hmid, ha s hmid] at hs ⊢
    rw [hq.run _ hs, List.foldl_append, List.append_assoc]

theorem Notes.mapM {f : α → Passing β} {calls : α → List Call} {comes : α → List Position} {as : List α}
    (h : ∀ a ∈ as, Notes t (f a) (calls a) (comes a)) : Notes t (as.mapM f) (as.flatMap calls) (as.flatMap comes) := by
  induction as with
  | nil => exact Notes.pure
  | cons a rest ih =>
    rw [List.mapM_cons]
    exact (h a List.mem_cons_self).bind fun _ => (ih fun b hb => h b (List.mem_cons_of_mem _ hb)).bind_pure

theorem Notes.skip (hx : x.node.isUnion = false) (h : Notes t p cs ys) : Notes t p cs (x :: ys) where
  grows := h.grows
  run s hs := by rw [h.run s hs, List.foldl_cons, Position.note_of_not_union hx]

end Passing

namespace Node

open Position (place)
open Passing (Notes Grows)

variable {n : Node} {item v : Value} {key path : String} {t : Picks} {m : Modifiers} {x : Position} {w : Value}
  {cs : List Call} {ys : List Position} {q : Value → Passing Value} {entries : List (String × Value)}
  {fields : List (String × Node)}

theorem withDefault_apply (s : Pass) : withDefault x.node.modifiers item x.value s =
    ((x.given item).value, { s with calls := s.calls ++ (x.defaultCall? item).toList }) := by
  rw [withDefault, Position.given, Position.defaultCall?, Modifiers.orDefault]
  cases x.value.isUndefined with
  | false => cases x.node.modifiers.default with
    | none => exact Prod.ext rfl (by simp [Passing.pure_apply])
    | some d => cases d <;> exact Prod.ext rfl (by simp [Passing.pure_apply])
  | true => cases x.node.modifiers.default with
    | none => exact Prod.ext rfl (by simp [Passing.pure_apply])
    | some d => cases d <;> exact Prod.ext rfl (by simp [Passing.pure_apply, Passing.record])

theorem notes_withDefault (hw : (x.given item).value = w) (h : Notes t (q w) cs ys) :
    Notes t (withDefault x.node.modifiers item x.value >>= q) ((x.defaultCall? item).toList ++ cs) ys where
  grows s := by
    rw [Passing.bind_apply, withDefault_apply, hw]
    exact h.grows { s with calls := s.calls ++ (x.defaultCall? item).toList }
  run s hs := by
    rw [Passing.bind_apply, withDefault_apply, hw] at hs ⊢
    rw [h.run _ hs, List.append_assoc]

theorem fillFields_notes {calls : String × Node → List Call} {comes : String × Node → List Position}
    (hd : (Entries.keys fields).Nodup) (h : ∀ f ∈ fields, Notes t
      (fill item (memberPath path f.1) (memberPath path f.1) ((Entries.get? f.1 entries).getD .undefined) f.2)
      (calls f) (comes f)) :
    Notes t (fillFields item path entries fields) (fields.flatMap calls) (fields.flatMap comes) := by
  induction fields generalizing entries with
  | nil => exact Notes.pure
  | cons f rest ih =>
    obtain ⟨hf, hrest⟩ := List.nodup_cons.1 hd
    rw [fillFields]
    refine (h f List.mem_cons_self).bind fun w => ih hrest fun g hg => ?_
    have hne : f.1 ≠ g.1 := fun he => hf (he ▸ List.mem_map_of_mem (f := Prod.fst) hg)
    have hsame : Entries.get? g.1 (if w.isUndefined then entries else Entries.insert f.1 w entries) =
        Entries.get? g.1 entries := by
      split
      · rfl
      · exact Entries.get?_insert_of_ne hne
    rw [hsame]
    exact h g (List.mem_cons_of_mem _ hg)

/-- The notes of filling, for what follows on the default. -/
theorem fill_notes_of (x : Position) (hw : (x.given item).value = w)
    (h : Notes t (q w) ((x.below t.chooser item).flatMap (Position.defaultCalls t.chooser item))
      (x.given item :: (x.below t.chooser item).flatMap (Position.filledWith t.chooser item))) :
    Notes t (withDefault x.node.modifiers item x.value >>= q) (x.defaultCalls t.chooser item)
      (x.filledWith t.chooser item) := by
  rw [Position.defaultCalls_eq, Position.filledWith_eq]
  exact notes_withDefault hw h

theorem fill_leaf_notes (hfill : fill item x.key x.path x.value x.node = withDefault x.node.modifiers item x.value)
    (hbelow : x.below t.chooser item = []) (hx : x.node.isUnion = false) :
    Notes t (fill item x.key x.path x.value x.node) (x.defaultCalls t.chooser item) (x.filledWith t.chooser item) := by
  have hnotes := fill_notes_of (t := t) (q := pure) x rfl
    (.skip (by exact hx) (by rw [hbelow]; exact Notes.pure))
  rwa [bind_pure, ← hfill] at hnotes

theorem fill_notes {inUnion : Bool} (hd : n.Throughout DistinctNames) :
    Notes t (fill item key path v n) (Position.defaultCalls t.chooser item ⟨key, path, v, n, inUnion⟩)
      (Position.filledWith t.chooser item ⟨key, path, v, n, inUnion⟩) := by
  induction n generalizing key path v inUnion with
  | object m fields isOpen ih =>
    rw [fill]
    cases hw : m.orDefault item v with
    | map es =>
      refine fill_notes_of ⟨key, path, v, object m fields isOpen, inUnion⟩ hw (.skip rfl (.bind_pure ?_))
      simp only [Position.below, Position.given, modifiers, hw, Position.next, List.flatMap_map]
      exact fillFields_notes (hd.self fields rfl) fun f hf => ih f hf (hd.field hf)
    | _ =>
      refine fill_notes_of ⟨key, path, v, object m fields isOpen, inUnion⟩ hw (.skip rfl ?_)
      simp only [Position.below, Position.given, modifiers, hw, Position.next, List.flatMap_nil]
      exact Notes.pure
  | list m items ih =>
    rw [fill]
    cases hw : m.orDefault item v with
    | list elements =>
      refine fill_notes_of ⟨key, path, v, list m items, inUnion⟩ hw (.skip rfl (.bind_pure ?_))
      simp only [Position.below, Position.given, modifiers, hw, Position.next, List.flatMap_map]
      exact Notes.mapM fun e _ => ih hd.item
    | _ =>
      refine fill_notes_of ⟨key, path, v, list m items, inUnion⟩ hw (.skip rfl ?_)
      simp only [Position.below, Position.given, modifiers, hw, Position.next, List.flatMap_nil]
      exact Notes.pure
  | union m variants ih =>
    rw [fill]
    have hpick := (Passing.Reads.pick (t := t)
      (Position.given item ⟨key, path, v, union m variants, inUnion⟩) rfl).notes
    refine fill_notes_of ⟨key, path, v, union m variants, inUnion⟩ rfl
      (hpick.bind_gives (Passing.Gives.pick _ _ _ _) fillPicked_grows ?_)
    simp only [Position.below, Position.given, modifiers, Position.next]
    cases t.chooser key path variants (m.orDefault item v) with
    | none => exact Notes.pure
    | some i =>
      simp only [fillVariant_eq, atVariant, Option.bind_some]
      cases hu : variants[i]? with
      | none => exact Notes.pure
      | some u =>
        have hmem := List.mem_of_getElem? hu
        simpa using ih u hmem (hd.variant hmem)
  | set m items =>
    have hbelow : Position.below t.chooser item ⟨key, path, v, set m items, inUnion⟩ = [] := by
      simp only [Position.below, Position.given, modifiers, Position.next]
      cases m.orDefault item v <;> rfl
    exact fill_leaf_notes (x := ⟨key, path, v, set m items, inUnion⟩) rfl hbelow rfl
  | _ => exact fill_leaf_notes (x := ⟨key, path, v, _, inUnion⟩) rfl rfl rfl

end Node

end ItemMapper
