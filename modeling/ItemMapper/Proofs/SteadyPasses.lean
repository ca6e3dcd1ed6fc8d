import ItemMapper.Proofs.CalledValidators
import ItemMapper.Proofs.SurveyedPositions

/-!
# Steady passes

What a pass does with more picks in the table than it needs. If they are nothing against those that it makes, it makes
the same ones and gives the same; all of them are under keys of unions below its node.
-/

namespace ItemMapper

def Picks.Within (t u : Picks) : Prop := ∀ key place, Entries.get? key t = some place → Entries.get? key u = some place

namespace Picks.Within

variable {t u w : Picks} {key : String} {place : Option Nat}

theorem refl : t.Within t := fun _ _ h => h

theorem nil : Within [] t := by
  intro key place h
  cases h

theorem trans (h : t.Within u) (h' : u.Within w) : t.Within w := fun key place hp => h' key place (h key place hp)

theorem of_prefix (h : t <+: u) : t.Within u := fun _ _ hp => Entries.get?_of_prefix h hp

theorem insert (h : t.Within u) (hp : Entries.get? key u = some place) : Within (Entries.insert key place t) u := by
  intro k q hq
  rw [Entries.get?_insert] at hq
  split at hq
  · rename_i hk
    rw [← hk, hp, hq]
  · exact h k q hq

theorem insert_insert (h : t.Within u) : Within (Entries.insert key place t) (Entries.insert key place u) := by
  intro k q hq
  rw [Entries.get?_insert] at hq ⊢
  split
  · rwa [if_pos ‹_›] at hq
  · rw [if_neg ‹_›] at hq
    exact h k q hq

end Picks.Within

inductive Node.Asks : Node → String → String → String → Prop
  | here {m variants key path} : Asks (union m variants) key path key
  | variant {m variants key path k n} (hn : n ∈ variants) (h : Asks n (nestedKey key) path k) :
    Asks (union m variants) key path k
  | field {m fields isOpen key path k f} (hf : f ∈ fields) (h : Asks f.2 (memberPath path f.1) (memberPath path f.1) k) :
    Asks (object m fields isOpen) key path k
  | element {m items key path k} (i : Nat) (h : Asks items (elementPath path i) (elementPath path i) k) :
    Asks (list m items) key path k
  | member {m items key path k} (h : Asks items path path k) : Asks (set m items) key path k
  | memberAt {m items key path k} (i : Nat) (h : Asks items (elementPath path i) (elementPath path i) k) :
    Asks (set m items) key path k

namespace Passing

variable {α β : Type} {F G : String → Prop} {p : Passing α} {q : α → Passing β} {a : α}

/-- Picks are only added, under some keys. What else is in the table does not matter, if one table has it all. -/
structure Steady (F : String → Prop) (p : Passing α) : Prop where
  grows : p.Grows
  keys : ∀ s k, k ∈ Entries.keys (p s).2.picks → k ∈ Entries.keys s.picks ∨ F k
  follows : ∀ {t : Picks} {s u : Pass}, s.picks.Within u.picks → u.picks.Within t → (p s).2.picks.Within t →
    (p u).1 = (p s).1 ∧ (p s).2.picks.Within (p u).2.picks ∧ (p u).2.picks.Within t

theorem Steady.mono (h : Steady F p) (hf : ∀ k, F k → G k) : Steady G p where
  grows := h.grows
  keys s k hk := (h.keys s k hk).imp_right (hf k)
  follows := h.follows

theorem Steady.pure : Steady F (Pure.pure a) where
  grows := Grows.pure
  keys _ _ hk := .inl hk
  follows hs ht _ := ⟨rfl, hs, ht⟩

theorem Steady.record (call : α × Call) : Steady F (record call) where
  grows := Grows.record call
  keys _ _ hk := .inl hk
  follows hs ht _ := ⟨rfl, hs, ht⟩

theorem Steady.bind (hp : Steady F p) (hq : ∀ a, Steady F (q a)) : Steady F (p >>= q) where
  grows := hp.grows.bind fun a => (hq a).grows
  keys s k hk := by
    rw [bind_apply] at hk
    exact ((hq _).keys _ k hk).elim (hp.keys s k) .inr
  follows {t s s'} hs ht hpt := by
    rw [bind_apply] at hpt
    have hmid : (p s).2.picks.Within t := (Picks.Within.of_prefix ((hq _).grows _)).trans hpt
    obtain ⟨ha, hs₁, ht₁⟩ := hp.follows hs ht hmid
    rw [bind_apply, bind_apply, ha]
    exact (hq _).follows hs₁ ht₁ hpt

theorem Steady.pick {key path : String} {variants : List Node} {v : Value} (hk : F key) :
    Steady F (pick key path variants v) where
  grows := Grows.pick key path variants v
  keys s k hmem := by
    rw [Passing.pick] at hmem
    split at hmem
    · exact .inl hmem
    · split at hmem
      · exact .inl hmem
      · refine (Entries.mem_keys_insert.1 hmem).symm.imp_right fun he => ?_
        rwa [he]
  follows {t s s'} hs ht hpt := by
    simp only [Passing.pick] at hpt ⊢
    split
    · exact ⟨rfl, hs, ht⟩
    rename_i hv
    rw [if_neg hv] at hpt
    cases hpicked : Entries.get? key s.picks with
    | some place =>
      rw [hs key place hpicked]
      exact ⟨rfl, hs, ht⟩
    | none =>
      simp only [hpicked] at hpt ⊢
      have hplace := hpt key _ Entries.get?_insert_self
      cases hpicked' : Entries.get? key s'.picks with
      | none => exact ⟨rfl, hs.insert_insert, ht.insert hplace⟩
      | some place =>
        have hsame := Option.some.inj ((ht key place hpicked').symm.trans hplace)
        exact ⟨hsame, hs.insert (hsame ▸ hpicked'), ht⟩

theorem Steady.mapM {f : α → Passing β} {xs : List α} (h : ∀ x ∈ xs, Steady F (f x)) : Steady F (xs.mapM f) := by
  induction xs with
  | nil => exact Steady.pure
  | cons x rest ih =>
    rw [List.mapM_cons]
    refine (h x List.mem_cons_self).bind fun y => ?_
    exact (ih fun z hz => h z (List.mem_cons_of_mem _ hz)).bind fun ys => Steady.pure

/-- What is done for each of some values is what is done for it alone. -/
theorem Steady.mapM_apart {f : α → Passing β} {xs : List α} {t : Picks} {s : Pass} (alone : α → Pass)
    (h : ∀ x ∈ xs, Steady F (f x)) (ht : s.picks.Within t)
    (ha : ∀ x ∈ xs, (alone x).picks.Within s.picks ∧ (f x (alone x)).2.picks.Within t) :
    (xs.mapM f s).1 = xs.map (fun x => (f x (alone x)).1) ∧ (xs.mapM f s).2.picks.Within t ∧
      ∀ x ∈ xs, (f x (alone x)).2.picks.Within (xs.mapM f s).2.picks := by
  induction xs generalizing s with
  | nil => exact ⟨rfl, ht, by simp⟩
  | cons x rest ih =>
    obtain ⟨⟨hs, hxt⟩, hothers⟩ := List.forall_mem_cons.1 ha
    obtain ⟨hx, hs₁, ht₁⟩ := (h x List.mem_cons_self).follows hs ht hxt
    have hrest := fun y hy => h y (List.mem_cons_of_mem _ hy)
    have hgrows := Picks.Within.of_prefix ((h x List.mem_cons_self).grows s)
    obtain ⟨hys, ht₂, hend⟩ := ih hrest ht₁ fun y hy => ⟨(hothers y hy).1.trans hgrows, (hothers y hy).2⟩
    have hlast := Picks.Within.of_prefix ((Steady.mapM hrest).grows (f x s).2)
    rw [List.mapM_cons, bind_apply, bind_apply]
    exact ⟨congrArg₂ List.cons hx hys, ht₂, List.forall_mem_cons.2 ⟨hs₁.trans hlast, hend⟩⟩

/-- What goes through a value at a node is steady, with the keys of the unions below the node. -/
theorem Through.steady {n : Node} {key path : String} (h : Through n key path p) : p.Steady (n.Asks key path) := by
  induction h with
  | pure a => exact Steady.pure
  | record call => exact Steady.record call
  | bind _ _ hp hq => exact hp.bind hq
  | field hf _ ih => exact ih.mono fun _ => .field hf
  | element i _ ih => exact ih.mono fun _ => .element i
  | member _ ih => exact ih.mono fun _ => .member
  | @union _ _ variants _ _ _ _ _ _ _ hsome hother hnone =>
    refine (Steady.pick .here).bind fun place => ?_
    cases place with
    | none => exact hnone
    | some i =>
      cases hu : variants[i]? with
      | none => exact hother i hu
      | some u => exact (hsome i u hu).mono fun _ => .variant (List.mem_of_getElem? hu)

end Passing

namespace Node

variable {n : Node} {item v : Value} {key path : String} {m : Modifiers} {fields : List (String × Node)}
  {entries : List (String × Value)}

theorem objection_through {shown : String} : Passing.Through n key path (objection m shown v) := by
  rw [objection]
  cases m.validator with
  | none => exact .pure _
  | some f =>
    refine (Passing.Through.record _).bind fun message => ?_
    cases message <;> exact .pure _

theorem fieldObjections_through (h : ∀ f ∈ fields, ∀ v,
      Passing.Through n key path (objections (memberPath path f.1) (memberPath path f.1) v f.2)) :
    Passing.Through n key path (fieldObjections path entries fields) := by
  induction fields with
  | nil => exact .pure _
  | cons f rest ih =>
    rw [fieldObjections_cons]
    refine (h f List.mem_cons_self _).bind fun own => ?_
    exact (ih fun g hg => h g (List.mem_cons_of_mem _ hg)).bind fun inner => .pure _

theorem objections_through : Passing.Through n key path (objections key path v n) := by
  induction n generalizing key path v with
  | object m fields isOpen ih =>
    rw [objections]
    split
    · exact .pure _
    · refine objection_through.bind fun own => ?_
      cases v with
      | map entries => exact (fieldObjections_through fun f hf v => (ih f hf).field hf).bind fun _ => .pure _
      | _ => exact .pure _
  | list m items ih =>
    rw [objections]
    split
    · exact .pure _
    · refine objection_through.bind fun own => ?_
      cases v with
      | list elements => exact (Passing.Through.mapM fun e _ => ih.element e.2).bind fun _ => .pure _
      | _ => exact .pure _
  | set m items ih =>
    rw [objections]
    split
    · exact .pure _
    · refine objection_through.bind fun own => ?_
      cases v with
      | set members => exact (Passing.Through.mapM fun e _ => objection_through).bind fun _ => .pure _
      | _ => exact .pure _
  | union m variants ih => exact .enter (fun u hu => ih u hu) (.pure _) rfl fun i => variantObjections_eq
  | _ =>
    rw [objections]
    split
    · exact .pure _
    · exact objection_through

theorem forStore_through {context : Value} : Passing.Through n "" "" (n.forStore item context) := by
  rw [forStore]
  exact fill_through.bind fun _ => shape_through.bind fun _ => setValue_through.bind fun _ => prune_through

end Node

namespace Survey

variable {F : String → Prop} {phase : Phase} {inUnion : Bool} {key path : String} {v : Value} {n : Node} {s : Survey}
  {g h : Survey → Survey}

structure Steady (F : String → Prop) (g : Survey → Survey) : Prop where
  grows : ∀ s, s.picks <+: (g s).picks
  keys : ∀ s k, k ∈ Entries.keys (g s).picks → k ∈ Entries.keys s.picks ∨ F k
  follows : ∀ {t : Picks} {s u : Survey}, s.picks.Within u.picks → u.picks.Within t → (g s).picks.Within t →
    ((g s).picks.Within (g u).picks ∧ (g u).picks.Within t) ∧ ∃ found : List (String × Violation),
      (g s).violations = found.foldl (fun out f => out.add f.1 f.2) s.violations ∧
      (g u).violations = found.foldl (fun out f => out.add f.1 f.2) u.violations

theorem Steady.mono {G : String → Prop} (hg : Steady F g) (hf : ∀ k, F k → G k) : Steady G g where
  grows := hg.grows
  keys s k hk := (hg.keys s k hk).imp_right (hf k)
  follows := hg.follows

theorem Steady.rest : Steady F fun s => s where
  grows _ := List.prefix_rfl
  keys _ _ hk := .inl hk
  follows hs ht _ := ⟨⟨hs, ht⟩, [], rfl, rfl⟩

theorem Steady.addAll (vs : List Violation) : Steady F (addAll path vs) where
  grows _ := List.prefix_rfl
  keys _ _ hk := .inl hk
  follows hs ht _ := ⟨⟨hs, ht⟩, vs.map fun x => (path, x), by simp [Survey.addAll, List.foldl_map],
    by simp [Survey.addAll, List.foldl_map]⟩

theorem Steady.comp (hg : Steady F g) (hh : Steady F h) : Steady F fun s => h (g s) where
  grows s := (hg.grows s).trans (hh.grows _)
  keys s k hk := (hh.keys _ k hk).elim (hg.keys s k) .inr
  follows {t s s'} hs ht hgt := by
    have hmid : (g s).picks.Within t := (Picks.Within.of_prefix (hh.grows _)).trans hgt
    obtain ⟨⟨hs₁, ht₁⟩, found, hf, hf'⟩ := hg.follows hs ht hmid
    obtain ⟨hpicks, more, hm, hm'⟩ := hh.follows hs₁ ht₁ hgt
    exact ⟨hpicks, found ++ more, by rw [hm, hf, List.foldl_append], by rw [hm', hf', List.foldl_append]⟩

theorem Steady.after {α : Type} {p : Passing α} {q : α → Survey → Survey} (hp : p.Steady F)
    (hq : ∀ a, Steady F (q a)) :
    Steady F fun s => q (p { picks := s.picks }).1 { s with picks := (p { picks := s.picks }).2.picks } where
  grows s := (hp.grows { picks := s.picks }).trans
    ((hq _).grows { s with picks := (p { picks := s.picks }).2.picks })
  keys s k hk := ((hq _).keys _ k hk).elim (hp.keys { picks := s.picks } k) .inr
  follows {t s s'} hs ht hqt := by
    have hmid : (p { picks := s.picks }).2.picks.Within t := (Picks.Within.of_prefix ((hq _).grows _)).trans hqt
    obtain ⟨ha, hs₁, ht₁⟩ := hp.follows (s := { picks := s.picks }) (u := { picks := s'.picks }) hs ht hmid
    rw [ha]
    exact (hq _).follows hs₁ ht₁ hqt

theorem Steady.foldl {α : Type} {step : α → Survey → Survey} {xs : List α} (hx : ∀ x ∈ xs, Steady F (step x)) :
    Steady F fun s => xs.foldl (fun s x => step x s) s := by
  induction xs with
  | nil => exact Steady.rest
  | cons x rest ih =>
    exact (hx x List.mem_cons_self).comp (ih fun y hy => hx y (List.mem_cons_of_mem _ hy))

theorem enter_steady : Steady F fun s => (enter phase inUnion path v s n).2 := by
  simp only [enter]
  split
  · exact Steady.rest
  · split
    · exact Steady.rest
    · exact Steady.addAll _

theorem enter_fst (s' : Survey) : (enter phase inUnion path v s n).1 = (enter phase inUnion path v s' n).1 := by
  simp only [enter]
  split
  · rfl
  · split <;> rfl

def visitPicked (phase : Phase) (key path : String) (v : Value) (variants : List Node) (place : Option Nat)
    (s : Survey) : Survey :=
  match place with
  | some i => visitVariant phase (nestedKey key) path v s i variants
  | none => s

/-- What a survey does below a node. A union is entered by the variant that the passes pick, too. -/
def inside (phase : Phase) (key path : String) (v : Value) (n : Node) (s : Survey) : Survey :=
  match n, v with
  | .object _ fields _, .map entries => visitFields phase path entries s fields
  | .list _ items, .list elements => elements.zipIdx.foldl
      (fun s (e, i) => visit phase false (elementPath path i) (elementPath path i) e s items) s
  | .set _ items, .set members =>
    if phase.visitsMembers then members.zipIdx.foldl
      (fun s (e, i) => visit phase false (elementPath path i) (elementPath path i) e s items) s
    else s
  | .union _ variants, v =>
    visitPicked phase key path v variants (Passing.pick key path variants v { picks := s.picks }).1
      { s with picks := (Passing.pick key path variants v { picks := s.picks }).2.picks }
  | _, _ => s

theorem inside_union {m : Modifiers} {variants : List Node} : inside phase key path v (.union m variants) s =
    if v.isUndefined then s else
      let pick := (Entries.get? key s.picks).getD (variantOf path v variants)
      visitPicked phase key path v variants pick { s with picks := Entries.insert key pick s.picks } := by
  simp only [inside, Passing.pick]
  split
  · rfl
  · cases hpicked : Entries.get? key s.picks with
    | none => rfl
    | some place => simp [Entries.insert_get? hpicked]

theorem visit_eq : visit phase inUnion key path v s n =
    if (enter phase inUnion path v s n).1 then inside phase key path v n (enter phase inUnion path v s n).2
    else (enter phase inUnion path v s n).2 := by
  cases he : enter phase inUnion path v s n with
  | mk go s' =>
    cases n with
    | object m fields isOpen => cases go <;> cases v <;> simp [visit, he, inside]
    | list m items => cases go <;> cases v <;> simp [visit, he, inside]
    | set m items => cases go <;> cases v <;> simp [visit, he, inside]
    | union m variants =>
      rw [inside_union]
      cases go with
      | false => simp [visit, he]
      | true =>
        rw [visit, he, if_pos rfl]
        rfl
    | _ => cases go <;> simp [visit, he, inside]

theorem visitFields_steady {entries : List (String × Value)} {fields : List (String × Node)}
    (hf : ∀ f ∈ fields, ∀ v, Steady F fun s => visit phase false (memberPath path f.1) (memberPath path f.1) v s f.2) :
    Steady F fun s => visitFields phase path entries s fields := by
  induction fields with
  | nil => exact Steady.rest
  | cons f rest ih =>
    simp only [visitFields]
    exact (hf f List.mem_cons_self _).comp (ih fun g hg => hf g (List.mem_cons_of_mem _ hg))

theorem visitPicked_steady {variants : List Node} {place : Option Nat}
    (hn : ∀ n ∈ variants, Steady F fun s => visit phase true (nestedKey key) path v s n) :
    Steady F fun s => visitPicked phase key path v variants place s := by
  cases place with
  | none => exact Steady.rest
  | some i =>
    simp only [visitPicked, visitVariant_eq]
    refine Steady.foldl fun y hy => ?_
    obtain ⟨n, hget, rfl⟩ := Option.map_eq_some_iff.1 (Option.mem_toList.1 hy)
    exact hn n (List.mem_of_getElem? hget)

theorem inside_steady (hn : ∀ u ∈ n.children, ∀ inUnion key path v,
      Steady (u.Asks key path) fun s => visit phase inUnion key path v s u) :
    Steady (n.Asks key path) fun s => inside phase key path v n s := by
  cases n with
  | object m fields isOpen =>
    cases v with
    | map entries =>
      refine visitFields_steady fun f hf v => ?_
      exact (hn f.2 (List.mem_map_of_mem hf) _ _ _ v).mono fun _ => .field hf
    | _ => exact Steady.rest
  | list m items =>
    cases v with
    | list elements =>
      exact Steady.foldl fun e _ => (hn items (List.mem_singleton_self _) _ _ _ e.1).mono fun _ => .element e.2
    | _ => exact Steady.rest
  | set m items =>
    cases v with
    | set members =>
      simp only [inside]
      split
      · exact Steady.foldl fun e _ => (hn items (List.mem_singleton_self _) _ _ _ e.1).mono fun _ => .memberAt e.2
      · exact Steady.rest
    | _ => exact Steady.rest
  | union m variants =>
    have hpick : (Passing.pick key path variants v).Steady ((Node.union m variants).Asks key path) := .pick .here
    have hpicked (place : Option Nat) : Steady ((Node.union m variants).Asks key path) fun s =>
        visitPicked phase key path v variants place s :=
      visitPicked_steady fun u hu => (hn u hu _ _ _ v).mono fun _ => .variant hu
    exact Steady.after hpick hpicked
  | _ => exact Steady.rest

theorem visit_steady : Steady (n.Asks key path) fun s => visit phase inUnion key path v s n := by
  induction n using Node.induct_children generalizing inUnion key path v with
  | step n ih =>
    simp only [visit_eq]
    cases hgo : (enter phase inUnion path v {} n).1 with
    | true =>
      simp only [enter_fst {}, hgo, if_true]
      exact enter_steady.comp (inside_steady fun u hu _ _ _ _ => ih u hu)
    | false =>
      simp only [enter_fst {}, hgo, Bool.false_eq_true, if_false]
      exact enter_steady

end Survey

namespace Node

variable {n : Node} {path table : String} {v item context : Value} {phase : Phase} {phases : List Phase}

theorem surveyed_steady : (n.surveyed phase path v).Steady (n.Asks path path) where
  grows s := Survey.visit_steady.grows { picks := s.picks }
  keys s := Survey.visit_steady.keys { picks := s.picks }
  follows {t s s'} hs ht hst := by
    obtain ⟨hpicks, found, hf, hf'⟩ :=
      Survey.visit_steady.follows (s := { picks := s.picks }) (u := { picks := s'.picks }) hs ht hst
    exact ⟨hf'.trans hf.symm, hpicks⟩

theorem violationsOf_steady : (n.violationsOf path v phase).Steady (n.Asks path path) := by
  cases phase with
  | custom => exact objections_through.steady.bind fun _ => .pure
  | _ => exact surveyed_steady

theorem failure?_steady : (n.failure? path table v phases).Steady (n.Asks path path) := by
  induction phases with
  | nil => exact Passing.Steady.pure
  | cons phase rest ih =>
    rw [failure?]
    refine violationsOf_steady.bind fun found => ?_
    split
    · exact ih
    · exact Passing.Steady.pure

end Node

end ItemMapper
