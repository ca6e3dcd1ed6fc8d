import ItemMapper.Item.Reading
import ItemMapper.Item.Validation
import ItemMapper.Item.Writing
import ItemMapper.Proofs.Positions

/-!
# Outcomes of passes

What a pass ensures of its result, from whatever picks and calls it starts. Every pass that rewrites an item goes
through the declared fields of an object in one way and enters a union in one way; both are named here once.
-/

namespace ItemMapper

namespace Passing

variable {α β : Type}

theorem pure_apply (a : α) (s : Pass) : (pure a : Passing α) s = (a, s) := rfl

theorem bind_apply (p : Passing α) (q : α → Passing β) (s : Pass) : (p >>= q) s = q (p s).1 (p s).2 := rfl

def Ensures (p : Passing α) (P : α → Prop) : Prop := ∀ s, P (p s).1

theorem Ensures.pure {P : α → Prop} {a : α} (h : P a) : Ensures (Pure.pure a) P := fun _ => h

theorem Ensures.bind {P : α → Prop} {Q : β → Prop} {p : Passing α} {q : α → Passing β} (hp : p.Ensures P)
    (hq : ∀ a, P a → (q a).Ensures Q) : Ensures (p >>= q) Q := fun s => hq _ (hp s) _

theorem Ensures.mono {P Q : α → Prop} {p : Passing α} (hp : p.Ensures P) (h : ∀ a, P a → Q a) : p.Ensures Q :=
  fun s => h _ (hp s)

theorem Ensures.any {p : Passing α} : p.Ensures fun _ => True := fun _ => trivial

theorem Ensures.ite {P : α → Prop} {p q : Passing α} {c : Prop} [Decidable c] (hp : p.Ensures P) (hq : q.Ensures P) :
    Ensures (if c then p else q) P := by
  split
  · exact hp
  · exact hq

theorem Ensures.mapM {f : α → Passing β} {Q : β → Prop} {xs : List α} (h : ∀ x ∈ xs, (f x).Ensures Q) :
    Ensures (xs.mapM f) fun ys => ∀ y ∈ ys, Q y := by
  induction xs with
  | nil => exact Ensures.pure (by simp)
  | cons x rest ih =>
    rw [List.mapM_cons]
    refine Ensures.bind (h x List.mem_cons_self) fun y hy => ?_
    refine Ensures.bind (ih fun z hz => h z (List.mem_cons_of_mem _ hz)) fun ys hys => ?_
    exact Ensures.pure (List.forall_mem_cons.2 ⟨hy, hys⟩)

end Passing

namespace Node

def overFields (rewrite : String → Node → Value → Passing Value) :
    List (String × Value) → List (String × Node) → Passing (List (String × Value))
  | entries, [] => return entries
  | entries, (name, n) :: rest => do
    match Entries.get? name entries with
    | some v => overFields rewrite (Entries.insert name (← rewrite name n v) entries) rest
    | none => overFields rewrite entries rest

variable {path key : String} {entries : List (String × Value)} {fields : List (String × Node)} {v item context : Value}
  {i : Nat} {variants : List Node} {around : Surroundings}

theorem shapeFields_eq : shapeFields path entries fields =
    overFields (fun name n v => shape (memberPath path name) (memberPath path name) v n) entries fields := by
  induction fields generalizing entries with
  | nil => rfl
  | cons f rest ih =>
    rw [shapeFields, overFields]
    cases Entries.get? f.1 entries <;> simp only [ih]

theorem setFields_eq : setFields around path entries fields =
    overFields (fun name n v => setValue around (memberPath path name) (memberPath path name) v n) entries fields := by
  induction fields generalizing entries with
  | nil => rfl
  | cons f rest ih =>
    rw [setFields, overFields]
    cases Entries.get? f.1 entries <;> simp only [ih]

theorem getFields_eq : getFields item context path entries fields =
    overFields (fun name n v => getValue item context (memberPath path name) (memberPath path name) v n)
      entries fields := by
  induction fields generalizing entries with
  | nil => rfl
  | cons f rest ih =>
    rw [getFields, overFields]
    cases Entries.get? f.1 entries <;> simp only [ih]

def atVariant {α : Type} (enter : Node → α) (otherwise : α) (variants : List Node) (i : Nat) : α :=
  match variants[i]? with
  | some n => enter n
  | none => otherwise

theorem fillVariant_eq :
    fillVariant item key path v i variants = atVariant (fill item key path v) (pure v) variants i := by
  induction variants generalizing i with
  | nil => rfl
  | cons n rest ih =>
    cases i with
    | zero => rfl
    | succ i => exact ih

theorem shapeVariant_eq :
    shapeVariant key path v i variants = atVariant (shape key path v) (pure v) variants i := by
  induction variants generalizing i with
  | nil => rfl
  | cons n rest ih =>
    cases i with
    | zero => rfl
    | succ i => exact ih

theorem setVariant_eq :
    setVariant around key path v i variants = atVariant (setValue around key path v) (pure v) variants i := by
  induction variants generalizing i with
  | nil => rfl
  | cons n rest ih =>
    cases i with
    | zero => rfl
    | succ i => exact ih

theorem pruneVariant_eq :
    pruneVariant key path v i variants = atVariant (prune key path v) (pure v) variants i := by
  induction variants generalizing i with
  | nil => rfl
  | cons n rest ih =>
    cases i with
    | zero => rfl
    | succ i => exact ih

theorem getVariant_eq :
    getVariant item context key path v i variants = atVariant (getValue item context key path v) (pure v) variants i := by
  induction variants generalizing i with
  | nil => rfl
  | cons n rest ih =>
    cases i with
    | zero => rfl
    | succ i => exact ih

theorem pruneField_eq {name : String} : pruneField path name v fields =
    match Entries.get? name fields with
    | some n => prune (memberPath path name) (memberPath path name) v n
    | none => pure v := by
  induction fields with
  | nil => rfl
  | cons f rest ih =>
    by_cases h : f.1 = name
    · simp [pruneField, Entries.get?, h]
    · simp [pruneField, Entries.get?, h, ih]

end Node

namespace Passing

variable {entries : List (String × Value)} {fields : List (String × Node)}

theorem Ensures.overFields {rewrite : String → Node → Value → Passing Value} {Q : String × Node → Value → Prop}
    (hd : (Entries.keys fields).Nodup)
    (h : ∀ f ∈ fields, ∀ v, Entries.get? f.1 entries = some v → (rewrite f.1 f.2 v).Ensures (Q f)) :
    Ensures (Node.overFields rewrite entries fields) fun es => Entries.keys es = Entries.keys entries ∧
      (∀ f ∈ fields, ∀ w, Entries.get? f.1 es = some w → Q f w) ∧
      ∀ k ∉ Entries.keys fields, Entries.get? k es = Entries.get? k entries := by
  induction fields generalizing entries with
  | nil => exact Ensures.pure ⟨rfl, by simp, fun _ _ => rfl⟩
  | cons f rest ih =>
    have hf : f.1 ∉ Entries.keys rest := (List.nodup_cons.1 hd).1
    have hrest : (Entries.keys rest).Nodup := (List.nodup_cons.1 hd).2
    have hne : ∀ g ∈ rest, f.1 ≠ g.1 := fun g hg he => hf (he ▸ List.mem_map_of_mem (f := Prod.fst) hg)
    rw [Node.overFields]
    cases hv : Entries.get? f.1 entries with
    | none =>
      refine Ensures.mono (ih hrest fun g hg => h g (List.mem_cons_of_mem _ hg)) fun es hes => ⟨hes.1, ?_, ?_⟩
      · intro g hg w hw
        rcases List.mem_cons.1 hg with rfl | hg
        · rw [hes.2.2 _ hf, hv] at hw
          cases hw
        · exact hes.2.1 g hg w hw
      · intro k hk
        exact hes.2.2 k fun hk' => hk (List.mem_cons_of_mem _ hk')
    | some v =>
      refine Ensures.bind (h f List.mem_cons_self v hv) fun w hw => ?_
      have hother : ∀ g ∈ rest, ∀ x, Entries.get? g.1 (Entries.insert f.1 w entries) = some x →
          (rewrite g.1 g.2 x).Ensures (Q g) := by
        intro g hg x hx
        rw [Entries.get?_insert_of_ne (hne g hg)] at hx
        exact h g (List.mem_cons_of_mem _ hg) x hx
      refine Ensures.mono (ih hrest hother) fun es hes => ⟨?_, ?_, ?_⟩
      · rw [hes.1]
        exact Entries.keys_insert_of_has _ _ _ (by simp [Entries.has, hv])
      · intro g hg x hx
        rcases List.mem_cons.1 hg with rfl | hg
        · rw [hes.2.2 _ hf, Entries.get?_insert_self] at hx
          exact Option.some.inj hx ▸ hw
        · exact hes.2.1 g hg x hx
      · intro k hk
        rw [hes.2.2 k fun hk' => hk (List.mem_cons_of_mem _ hk')]
        exact Entries.get?_insert_of_ne fun he => hk (he ▸ List.mem_cons_self)

theorem Ensures.mapEntries {g : String → Value → Passing Value} {Q : String → Value → Prop}
    (h : ∀ e ∈ entries, (g e.1 e.2).Ensures (Q e.1)) :
    Ensures (entries.mapM fun e => do return (e.1, ← g e.1 e.2)) fun es =>
      Entries.keys es = Entries.keys entries ∧ ∀ e ∈ es, Q e.1 e.2 := by
  induction entries with
  | nil => exact Ensures.pure ⟨rfl, by simp⟩
  | cons e rest ih =>
    rw [List.mapM_cons]
    refine Ensures.bind (P := fun d => d.1 = e.1 ∧ Q d.1 d.2) ?_ fun d hd => ?_
    · exact Ensures.bind (h e List.mem_cons_self) fun w hw => Ensures.pure ⟨rfl, hw⟩
    · refine Ensures.bind (ih fun f hf => h f (List.mem_cons_of_mem _ hf)) fun es hes => Ensures.pure ⟨?_, ?_⟩
      · simpa [Entries.keys, hd.1] using hes.1
      · exact List.forall_mem_cons.2 ⟨hd.2, hes.2⟩

theorem Ensures.enter {α : Type} {p : Passing (Option Nat)} {q : Option Nat → Passing α} {enter : Node → Passing α}
    {otherwise : Passing α} {variants : List Node} {P : α → Prop} (h : ∀ n ∈ variants, (enter n).Ensures P)
    (ho : otherwise.Ensures P) (hnone : q none = otherwise)
    (hsome : ∀ i, q (some i) = Node.atVariant enter otherwise variants i) : Ensures (p >>= q) P := by
  refine Ensures.bind Ensures.any fun place _ => ?_
  cases place with
  | none => exact hnone ▸ ho
  | some i =>
    rw [hsome, Node.atVariant]
    cases hn : variants[i]? with
    | none => exact ho
    | some n => exact h n (List.mem_of_getElem? hn)

end Passing

end ItemMapper
