import ItemMapper.Proofs.Passing
import ItemMapper.Proofs.Rewriting

/-!
# Picks

A pass only adds to the picks that it starts with. So one table, the picks that a run ends with, tells all variants
that its passes enter, and the result of a pass is known from any table that holds its picks.
-/

namespace ItemMapper

namespace Passing

variable {α β : Type} {t : Picks} {p : Passing α} {q : α → Passing β} {a : α} {b : β}

def Grows (p : Passing α) : Prop := ∀ s, s.picks <+: (p s).2.picks

theorem Grows.pure : Grows (Pure.pure a) := fun _ => List.prefix_rfl

theorem Grows.bind (hp : p.Grows) (hq : ∀ a, (q a).Grows) : (p >>= q).Grows := fun s =>
  (hp s).trans (hq _ _)

theorem Grows.record (call : α × Call) : (record call).Grows := fun _ => List.prefix_rfl

theorem Grows.pick (key path : String) (variants : List Node) (v : Value) : (pick key path variants v).Grows := by
  intro s
  rw [Passing.pick]
  split
  · exact List.prefix_rfl
  · cases h : Entries.get? key s.picks with
    | some picked => exact List.prefix_rfl
    | none =>
      simp only [Entries.insert_of_get?_eq_none h]
      exact List.prefix_append _ _

theorem Grows.mapM {f : α → Passing β} {xs : List α} (h : ∀ x, (f x).Grows) : (xs.mapM f).Grows := by
  induction xs with
  | nil => exact Grows.pure
  | cons x rest ih =>
    rw [List.mapM_cons]
    exact (h x).bind fun y => ih.bind fun ys => Grows.pure

theorem Grows.atVariant {enter : Node → Passing α} {variants : List Node} {i : Nat}
    (h : ∀ n ∈ variants, (enter n).Grows)
    (ho : p.Grows) : (Node.atVariant enter p variants i).Grows := by
  rw [Node.atVariant]
  split
  · exact h _ (List.mem_of_getElem? ‹_›)
  · exact ho

theorem Grows.overFields {rewrite : String → Node → Value → Passing Value} {entries : List (String × Value)}
    {fields : List (String × Node)} (h : ∀ f ∈ fields, ∀ v, (rewrite f.1 f.2 v).Grows) :
    (Node.overFields rewrite entries fields).Grows := by
  induction fields generalizing entries with
  | nil => exact Grows.pure
  | cons f rest ih =>
    rw [Node.overFields]
    have hrest := fun g hg => h g (List.mem_cons_of_mem f hg)
    cases Entries.get? f.1 entries with
    | none => exact ih hrest
    | some v => exact (h f List.mem_cons_self v).bind fun w => ih hrest

/-- A pass that goes through a value at its node. It picks at unions, and goes on with the variant that is picked. -/
inductive Through : {α : Type} → Node → String → String → Passing α → Prop
  | pure {α : Type} {n key path} (a : α) : Through n key path (Pure.pure a)
  | record {α : Type} {n key path} (call : α × Call) : Through n key path (record call)
  | bind {α β : Type} {n key path} {p : Passing α} {q : α → Passing β} (hp : Through n key path p)
    (hq : ∀ a, Through n key path (q a)) : Through n key path (p >>= q)
  | field {α : Type} {m fields isOpen key path f} {p : Passing α} (hf : f ∈ fields)
    (h : Through f.2 (memberPath path f.1) (memberPath path f.1) p) : Through (.object m fields isOpen) key path p
  | element {α : Type} {m items key path} {p : Passing α} (i : Nat)
    (h : Through items (elementPath path i) (elementPath path i) p) : Through (.list m items) key path p
  | member {α : Type} {m items key path} {p : Passing α} (h : Through items path path p) :
    Through (.set m items) key path p
  | union {α : Type} {m variants key path v} {q : Option Nat → Passing α}
    (hsome : ∀ i u, variants[i]? = some u → Through u (nestedKey key) path (q (some i)))
    (hother : ∀ i, variants[i]? = none → Through (.union m variants) key path (q (some i)))
    (hnone : Through (.union m variants) key path (q none)) :
    Through (.union m variants) key path (pick key path variants v >>= q)

namespace Through

variable {n : Node} {key path : String} {m : Modifiers} {variants : List Node}

theorem grows (h : Through n key path p) : p.Grows := by
  induction h with
  | pure a => exact Grows.pure
  | record call => exact Grows.record call
  | bind _ _ hp hq => exact hp.bind hq
  | field _ _ ih => exact ih
  | element _ _ ih => exact ih
  | member _ ih => exact ih
  | @union _ _ variants _ _ _ _ _ _ _ hsome hother hnone =>
    refine (Grows.pick _ _ _ _).bind fun place => ?_
    cases place with
    | none => exact hnone
    | some i =>
      cases hu : variants[i]? with
      | none => exact hother i hu
      | some u => exact hsome i u hu

theorem mapM {f : α → Passing β} {xs : List α} (h : ∀ x ∈ xs, Through n key path (f x)) :
    Through n key path (xs.mapM f) := by
  induction xs with
  | nil => exact .pure _
  | cons x rest ih =>
    rw [List.mapM_cons]
    refine (h x List.mem_cons_self).bind fun y => ?_
    exact (ih fun z hz => h z (List.mem_cons_of_mem _ hz)).bind fun ys => .pure _

theorem overFields {rewrite : String → Node → Value → Passing Value} {entries : List (String × Value)}
    {fields : List (String × Node)} (h : ∀ f ∈ fields, ∀ v, Through n key path (rewrite f.1 f.2 v)) :
    Through n key path (Node.overFields rewrite entries fields) := by
  induction fields generalizing entries with
  | nil => exact .pure _
  | cons f rest ih =>
    rw [Node.overFields]
    have hrest := fun g hg => h g (List.mem_cons_of_mem f hg)
    cases Entries.get? f.1 entries with
    | none => exact ih hrest
    | some v => exact (h f List.mem_cons_self v).bind fun w => ih hrest

theorem enter {v : Value} {enter : Node → Passing α} {otherwise : Passing α} {q : Option Nat → Passing α}
    (h : ∀ u ∈ variants, Through u (nestedKey key) path (enter u)) (ho : Through (.union m variants) key path otherwise)
    (hnone : q none = otherwise) (hsome : ∀ i, q (some i) = Node.atVariant enter otherwise variants i) :
    Through (.union m variants) key path (pick key path variants v >>= q) := by
  refine .union (fun i u hu => ?_) (fun i hi => ?_) (hnone ▸ ho)
  · rw [hsome, Node.atVariant, hu]
    exact h u (List.mem_of_getElem? hu)
  · rwa [hsome, Node.atVariant, hi]

end Through

def Gives (t : Picks) (p : Passing α) (a : α) : Prop := ∀ s, (p s).2.picks <+: t → (p s).1 = a

theorem Gives.pure : Gives t (Pure.pure a) a := fun _ _ => rfl

theorem Gives.bind (hq : ∀ a, (q a).Grows) (hp : Gives t p a) (hb : Gives t (q a) b) : Gives t (p >>= q) b := by
  intro s hs
  have ha : (p s).1 = a := hp s ((hq _ _).trans hs)
  rw [bind_apply, ha] at hs ⊢
  exact hb _ hs

theorem Gives.bind_ensures {P : α → Prop} (hq : ∀ a, (q a).Grows) (hp : Gives t p a) (he : p.Ensures P)
    (hb : P a → Gives t (q a) b) : Gives t (p >>= q) b := by
  intro s hs
  have ha : (p s).1 = a := hp s ((hq _ _).trans hs)
  have hpa : P a := ha ▸ he s
  exact Gives.bind hq hp (hb hpa) s hs

theorem Gives.pick (key path : String) (variants : List Node) (v : Value) :
    Gives t (pick key path variants v) (t.chooser key path variants v) := by
  intro s hs
  simp only [Passing.pick, Picks.chooser] at hs ⊢
  split
  · rfl
  · rename_i hv
    rw [if_neg hv] at hs
    cases h : Entries.get? key s.picks with
    | some picked =>
      simp only [h] at hs
      simp [Entries.get?_of_prefix hs h]
    | none =>
      simp only [h, Entries.insert_of_get?_eq_none h] at hs
      simp [Entries.get?_of_prefix hs (Entries.get?_append_self h)]

theorem Gives.mapM {f : α → Passing β} {g : α → β} {xs : List α} (hf : ∀ x, (f x).Grows)
    (h : ∀ x ∈ xs, Gives t (f x) (g x)) : Gives t (xs.mapM f) (xs.map g) := by
  induction xs with
  | nil => exact Gives.pure
  | cons x rest ih =>
    rw [List.mapM_cons]
    refine Gives.bind (fun y => (Grows.mapM hf).bind fun _ => Grows.pure) (h x List.mem_cons_self) ?_
    exact Gives.bind (fun ys => Grows.pure) (ih fun y hy => h y (List.mem_cons_of_mem _ hy)) Gives.pure

def fieldValue (g : String → Node → Value → Value) (fields : List (String × Node)) (e : String × Value) : Value :=
  match Entries.get? e.1 fields with
  | some n => g e.1 n e.2
  | none => e.2

theorem fieldValue_cons {g : String → Node → Value → Value} {f : String × Node} {fields : List (String × Node)}
    {e : String × Value} (h : f.1 ≠ e.1) : fieldValue g (f :: fields) e = fieldValue g fields e := by
  rw [fieldValue, fieldValue, Entries.get?, if_neg h]

theorem fieldValue_of_not_mem {g : String → Node → Value → Value} {fields : List (String × Node)} {e : String × Value}
    (h : e.1 ∉ Entries.keys fields) : fieldValue g fields e = e.2 := by
  rw [fieldValue, Entries.get?_eq_none_iff.2 h]

section Fields

variable {g : String → Node → Value → Value} {f : String × Node} {rest fields : List (String × Node)}
  {entries : List (String × Value)} {v : Value}

theorem map_fieldValue_cons (h : f.1 ∉ Entries.keys entries) :
    (entries.map fun e => (e.1, fieldValue g (f :: rest) e)) = entries.map fun e => (e.1, fieldValue g rest e) := by
  refine List.map_congr_left fun e hmem => Prod.ext rfl (fieldValue_cons fun hfe => h ?_)
  exact hfe ▸ List.mem_map_of_mem (f := Prod.fst) hmem

theorem map_fieldValue_insert (hf : f.1 ∉ Entries.keys rest) (he : (Entries.keys entries).Nodup)
    (hv : Entries.get? f.1 entries = some v) : (entries.map fun e => (e.1, fieldValue g (f :: rest) e)) =
      (Entries.insert f.1 (g f.1 f.2 v) entries).map fun e => (e.1, fieldValue g rest e) := by
  have hkeys := Entries.keys_insert_of_has f.1 (g f.1 f.2 v) entries (by simp [Entries.has, hv])
  refine Entries.ext (by rw [Entries.keys_map, Entries.keys_map, hkeys]) (by rwa [Entries.keys_map]) fun k => ?_
  rw [Entries.get?_map, Entries.get?_map, Entries.get?_insert]
  by_cases hk : f.1 = k
  · subst hk
    simp [hv, fieldValue, Entries.get?, Entries.get?_eq_none_iff.2 hf]
  · rw [if_neg hk]
    exact congrFun (congrArg Option.map (funext fun x => fieldValue_cons hk)) _

theorem Gives.overFields {rewrite : String → Node → Value → Passing Value} (hd : (Entries.keys fields).Nodup)
    (he : (Entries.keys entries).Nodup) (hg : ∀ f ∈ fields, ∀ v, (rewrite f.1 f.2 v).Grows)
    (h : ∀ f ∈ fields, ∀ v, Entries.get? f.1 entries = some v → Gives t (rewrite f.1 f.2 v) (g f.1 f.2 v)) :
    Gives t (Node.overFields rewrite entries fields) (entries.map fun e => (e.1, fieldValue g fields e)) := by
  induction fields generalizing entries with
  | nil =>
    have hmap : (entries.map fun e => (e.1, fieldValue g [] e)) = entries := List.map_id' entries
    rw [hmap]
    exact Gives.pure
  | cons f rest ih =>
    obtain ⟨hf, hrest⟩ := List.nodup_cons.1 hd
    have hne : ∀ k ∈ rest, f.1 ≠ k.1 := fun k hk hfk => hf (hfk ▸ List.mem_map_of_mem (f := Prod.fst) hk)
    have hgrows := fun k hk => hg k (List.mem_cons_of_mem f hk)
    rw [Node.overFields]
    cases hv : Entries.get? f.1 entries with
    | none =>
      rw [map_fieldValue_cons (Entries.get?_eq_none_iff.1 hv)]
      exact ih hrest he hgrows fun k hk => h k (List.mem_cons_of_mem _ hk)
    | some v =>
      refine Gives.bind (fun w => Grows.overFields hgrows) (h f List.mem_cons_self v hv) ?_
      rw [map_fieldValue_insert hf he hv]
      refine ih hrest (Entries.nodup_keys_insert he) hgrows fun k hk x hx => ?_
      rw [Entries.get?_insert_of_ne (hne k hk)] at hx
      exact h k (List.mem_cons_of_mem _ hk) x hx

end Fields

end Passing

namespace Node

variable {n : Node} {item v : Value} {key path : String} {around : Surroundings} {m : Modifiers}

theorem withDefault_through : Passing.Through n key path (withDefault m item v) := by
  rw [withDefault]
  split
  · exact .pure _
  · split
    · exact .pure _
    · exact .record _
    · exact .pure _

theorem fillFields_through {fields : List (String × Node)} {entries : List (String × Value)}
    (h : ∀ f ∈ fields, ∀ v, Passing.Through n key path (fill item (memberPath path f.1) (memberPath path f.1) v f.2)) :
    Passing.Through n key path (fillFields item path entries fields) := by
  induction fields generalizing entries with
  | nil => exact .pure _
  | cons f rest ih =>
    rw [fillFields]
    exact (h f List.mem_cons_self _).bind fun w => ih fun g hg => h g (List.mem_cons_of_mem _ hg)

theorem fill_through : Passing.Through n key path (fill item key path v n) := by
  induction n generalizing key path v with
  | object m fields isOpen ih =>
    rw [fill]
    refine withDefault_through.bind fun w => ?_
    cases w with
    | map entries => exact (fillFields_through fun f hf v => (ih f hf).field hf).bind fun es => .pure _
    | _ => exact .pure _
  | list m items ih =>
    rw [fill]
    refine withDefault_through.bind fun w => ?_
    cases w with
    | list elements => exact (Passing.Through.mapM fun e _ => ih.element e.2).bind fun es => .pure _
    | _ => exact .pure _
  | union m variants ih =>
    rw [fill]
    exact withDefault_through.bind fun w => .enter (fun u hu => ih u hu) (.pure _) rfl fun i => fillVariant_eq
  | _ => exact withDefault_through

theorem shape_through : Passing.Through n key path (shape key path v n) := by
  induction n generalizing key path v with
  | scalar m k => cases k <;> cases v <;> exact .pure _
  | object m fields isOpen ih =>
    cases v with
    | map entries =>
      rw [shape, shapeFields_eq]
      exact (Passing.Through.overFields fun f hf v => (ih f hf).field hf).bind fun es => .pure _
    | _ => exact .pure _
  | list m items ih =>
    cases v with
    | list elements => exact (Passing.Through.mapM fun e _ => ih.element e.2).bind fun es => .pure _
    | _ => exact .pure _
  | set m items ih =>
    cases v with
    | set members => exact (Passing.Through.mapM fun e _ => ih.member).bind fun es => .pure _
    | _ => exact .pure _
  | union m variants ih => exact .enter (fun u hu => ih u hu) (.pure _) rfl fun i => shapeVariant_eq
  | any m => exact .pure _
  | undefined m => exact .pure _

theorem setOwn_through {u : Node} : Passing.Through n key path (setOwn around u v) := by
  rw [setOwn]
  cases u.modifiers.setter with
  | none => exact .pure _
  | some f => exact (Passing.Through.record _).bind fun w => .pure _

theorem setValue_through : Passing.Through n key path (setValue around key path v n) := by
  induction n generalizing key path v with
  | object m fields isOpen ih =>
    rw [setValue]
    split
    · exact .pure _
    · refine setOwn_through.bind fun w => ?_
      cases w with
      | map entries =>
        simp only [setFields_eq]
        exact (Passing.Through.overFields fun f hf v => (ih f hf).field hf).bind fun es => .pure _
      | _ => exact .pure _
  | list m items ih =>
    rw [setValue]
    split
    · exact .pure _
    · refine setOwn_through.bind fun w => ?_
      cases w with
      | list elements => exact (Passing.Through.mapM fun e _ => ih.element e.2).bind fun es => .pure _
      | _ => exact .pure _
  | set m items ih =>
    rw [setValue]
    split
    · exact .pure _
    · refine setOwn_through.bind fun w => ?_
      cases w with
      | set members => exact (Passing.Through.mapM fun e _ => ih.member).bind fun es => .pure _
      | _ => exact .pure _
  | union m variants ih => exact .enter (fun u hu => ih u hu) (.pure _) rfl fun i => setVariant_eq
  | _ =>
    rw [setValue]
    split
    · exact .pure _
    · exact setOwn_through

theorem pruneField_through {fields : List (String × Node)} {name : String}
    (h : ∀ f ∈ fields, Passing.Through n key path (prune (memberPath path f.1) (memberPath path f.1) v f.2)) :
    Passing.Through n key path (pruneField path name v fields) := by
  rw [pruneField_eq]
  cases hf : Entries.get? name fields with
  | none => exact .pure _
  | some u => exact h (name, u) (Entries.mem_of_get? hf)

theorem prune_through : Passing.Through n key path (prune key path v n) := by
  induction n generalizing key path v with
  | object m fields isOpen ih =>
    cases v with
    | map entries =>
      refine Passing.Through.bind (.mapM fun e _ => ?_) fun es => .pure _
      exact (pruneField_through fun f hf => (ih f hf).field hf).bind fun w => .pure _
    | _ => exact .pure _
  | list m items ih =>
    cases v with
    | list elements => exact (Passing.Through.mapM fun e _ => ih.element e.2).bind fun es => .pure _
    | _ => exact .pure _
  | union m variants ih => exact .enter (fun u hu => ih u hu) (.pure _) rfl fun i => pruneVariant_eq
  | _ => exact .pure _

theorem fill_grows : (fill item key path v n).Grows := fill_through.grows

theorem shape_grows : (shape key path v n).Grows := shape_through.grows

theorem setValue_grows : (setValue around key path v n).Grows := setValue_through.grows

theorem prune_grows : (prune key path v n).Grows := prune_through.grows

end Node

end ItemMapper
