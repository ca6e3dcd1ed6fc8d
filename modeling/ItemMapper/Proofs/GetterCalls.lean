import ItemMapper.Proofs.CalledValidators
import ItemMapper.Proofs.FreshReading
import ItemMapper.Proofs.ReadPositions

/-!
# Getter calls

A reading calls getters from the inside out, once for each position that fits and is led to by positions that do, in the
order of the fields and elements. Where a value has not the kind of its node, it is left as it is restored, and nothing
is called from there on.
-/

namespace ItemMapper

def Picks.note (t : Picks) (x : Position) : Picks :=
  match x.node with
  | .union _ variants =>
    if x.value.isUndefined then t
    else match Entries.get? x.key t with
      | some _ => t
      | none => Entries.insert x.key (Survey.variantOf x.path x.value variants) t
  | _ => t

namespace Passing

variable {α β : Type} {t : Picks} {p : Passing α} {q : α → Passing β} {a : α} {b : β} {cs ds : List Call}
  {xs ys : List Position}

/-- What a pass gives, which calls it adds and which unions it comes to, as far as the table holds its picks. -/
structure Reads (t : Picks) (p : Passing α) (a : α) (calls : List Call) (visited : List Position) : Prop where
  grows : p.Grows
  run : ∀ s, (p s).2.picks <+: t → p s = (a, ⟨visited.foldl Picks.note s.picks, s.calls ++ calls⟩)

theorem Reads.pure : Reads t (Pure.pure a) a [] [] where
  grows := Grows.pure
  run s _ := by rw [pure_apply, List.append_nil]; rfl

theorem Reads.bind (hp : Reads t p a cs xs) (hq : ∀ a, (q a).Grows) (hb : Reads t (q a) b ds ys) :
    Reads t (p >>= q) b (cs ++ ds) (xs ++ ys) where
  grows := hp.grows.bind hq
  run s hs := by
    rw [bind_apply] at hs ⊢
    have hfirst := hp.run s ((hq _ _).trans hs)
    rw [hfirst] at hs ⊢
    rw [hb.run _ hs, List.foldl_append, List.append_assoc]

theorem Reads.map {g : α → β} (hp : Reads t p a cs xs) : Reads t (p >>= fun a => Pure.pure (g a)) (g a) cs xs := by
  simpa using hp.bind (fun _ => Grows.pure) (Reads.pure (a := g a))

theorem Reads.mapM {f : α → Passing β} {r : α → β} {calls : α → List Call} {visited : α → List Position} {as : List α}
    (hf : ∀ a, (f a).Grows) (h : ∀ a ∈ as, Reads t (f a) (r a) (calls a) (visited a)) :
    Reads t (as.mapM f) (as.map r) (as.flatMap calls) (as.flatMap visited) := by
  induction as with
  | nil => exact Reads.pure
  | cons a rest ih =>
    rw [List.mapM_cons]
    have hrest := ih fun b hb => h b (List.mem_cons_of_mem _ hb)
    exact (h a List.mem_cons_self).bind (fun _ => (Grows.mapM hf).bind fun _ => Grows.pure) hrest.map

theorem Reads.pick (x : Position) {m : Modifiers} {variants : List Node} (hx : x.node = .union m variants) :
    Reads t (pick x.key x.path variants x.value) (t.resolver x.key x.path variants x.value) [] [x] where
  grows := Grows.pick _ _ _ _
  run s hs := by
    rw [← Gives.resolver _ _ _ _ s hs, Passing.pick, List.append_nil, List.foldl_cons, List.foldl_nil, Picks.note, hx]
    split
    · rfl
    · cases h : Entries.get? x.key s.picks <;> rfl

end Passing

namespace Position

variable {t : Picks} {x : Position}

theorem fits_of_undefined (hx : x.value.isUndefined = true) : x.fits = false := by
  obtain ⟨key, path, v, n, inUnion⟩ := x
  cases v with
  | undefined =>
    have hrestored : n.restoreOwn .undefined = .undefined := by
      cases n with
      | scalar m k => cases k <;> rfl
      | _ => rfl
    rw [fits, restoredOwn, hrestored, Node.accepts]
    split
    · rfl
    · cases n.kind? <;> rfl
  | _ => cases hx

theorem ahead_of_undefined (hx : x.value.isUndefined = true) : x.ahead t.resolver = [] := by
  rw [ahead, next_of_undefined hx, ite_self]

theorem note_of_not_union (hx : x.node.isUnion = false) : t.note x = t := by
  rw [Picks.note]
  cases hn : x.node with
  | union m variants => rw [hn] at hx; cases hx
  | _ => rfl

theorem getterCalls_eq {choose : Chooser} {item context : Value} : x.getterCalls choose item context =
    (x.ahead choose).flatMap (getterCalls choose item context) ++
      if x.fits then (x.getterCall choose item context).toList else [] := by
  rw [getterCalls, walk_eq, List.filterMap_append, List.filterMap_flatMap]
  split
  · rw [List.filterMap_cons, List.filterMap_nil]
    cases x.getterCall choose item context <;> rfl
  · rfl

theorem getterCalls_of_undefined {item context : Value} (hx : x.value.isUndefined = true) :
    x.getterCalls t.resolver item context = [] := by
  rw [getterCalls, walk_of_unfit (fits_of_undefined hx) (ahead_of_undefined hx), List.filterMap_nil]

theorem foldl_visited_of_undefined {u : Picks} (hx : x.value.isUndefined = true) :
    (x.visited t.resolver).foldl Picks.note u = u := by
  rw [visited_eq, ahead_of_undefined hx, List.flatMap_nil, List.foldl_cons, List.foldl_nil, Picks.note]
  split
  · rw [if_pos hx]
  · rfl

end Position

namespace Passing

variable {β : Type} {t : Picks} {p : Passing β} {b : β} {cs : List Call} {ys : List Position} {x : Position}

theorem Reads.record (call : β × Call) : Reads t (record call) call.1 [call.2] [] where
  grows := Grows.record _
  run _ _ := rfl

theorem Reads.skip (hx : x.node.isUnion = false) (h : Reads t p b cs ys) : Reads t p b cs (x :: ys) where
  grows := h.grows
  run s hs := by rw [h.run s hs, List.foldl_cons, Position.note_of_not_union hx]

theorem Reads.absent {item context : Value} (hx : x.value.isUndefined = true) (h : Reads t p b cs ys) :
    Reads t p b (x.getterCalls t.resolver item context ++ cs) (x.visited t.resolver ++ ys) where
  grows := h.grows
  run s hs := by
    rw [h.run s hs, Position.getterCalls_of_undefined hx, List.nil_append, List.foldl_append,
      Position.foldl_visited_of_undefined hx]

end Passing

namespace Node

open Position (place)
open Passing (Reads Grows)

variable {n items : Node} {item context v : Value} {key path : String} {t : Picks} {m : Modifiers} {isOpen : Bool}
  {fields : List (String × Node)} {entries : List (String × Value)} {elements : List Value} {x : Position}

theorem getOwn_grows : (getOwn item context m v).Grows := by
  rw [getOwn]
  split
  · exact Grows.record _
  · exact Grows.pure

theorem getValue_map : getValue item context key path (.map entries) (object m fields isOpen) =
    getFields item context path entries fields >>= fun es => getOwn item context m (.map es) := by
  rw [getValue]
  rfl

theorem getValue_elements : getValue item context key path (.list elements) (list m items) =
    (elements.zipIdx.mapM fun e => getValue item context (elementPath path e.2) (elementPath path e.2) e.1 items) >>=
      fun es => getOwn item context m (.list es) := by
  rw [getValue]
  rfl

theorem getValue_members (ha : (set m items).accepts (.set elements) = true) :
    getValue item context key path (.set elements) (set m items) =
      (elements.zipIdx.mapM fun e => getValue item context path path e.1 items) >>= fun es =>
        getOwn item context m (.set es) := by
  have hmembers : (elements.mapM fun e => getValue item context path path e items) =
      elements.zipIdx.mapM fun e => getValue item context path path e.1 items := by
    conv_lhs => rw [← List.zipIdx_map_fst 0 elements]
    exact List.mapM_map
  rw [getValue, ha, ← hmembers]
  rfl

theorem getValue_grows : (getValue item context key path v n).Grows := by
  induction n generalizing key path v with
  | object m fields isOpen ih =>
    cases ha : (object m fields isOpen).accepts v with
    | false => exact getValue_of_not_accepts ha rfl (by simp) ▸ Grows.pure
    | true =>
      obtain ⟨es, rfl⟩ := Wire.map_of_kind? (kind?_of_accepts ha rfl rfl)
      rw [getValue_map, getFields_eq]
      exact (Grows.overFields fun f hf v => ih f hf).bind fun es => getOwn_grows
  | list m items ih =>
    cases ha : (list m items).accepts v with
    | false => exact getValue_of_not_accepts ha rfl (by simp) ▸ Grows.pure
    | true =>
      obtain ⟨elements, rfl⟩ := Wire.list_of_kind? (kind?_of_accepts ha rfl rfl)
      rw [getValue_elements]
      exact (Grows.mapM fun e => ih).bind fun es => getOwn_grows
  | set m items ih =>
    cases ha : (set m items).accepts v with
    | false => exact getValue_of_not_accepts ha rfl (by simp) ▸ Grows.pure
    | true =>
      obtain ⟨elements, rfl⟩ := set_of_accepts ha
      rw [getValue_members ha]
      exact (Grows.mapM fun e => ih).bind fun es => getOwn_grows
  | union m variants ih =>
    rw [getValue]
    refine (Grows.pick _ _ _ _).bind fun place => ?_
    cases place with
    | none => exact Grows.pure
    | some i =>
      simp only [getVariant_eq]
      exact Grows.atVariant (fun u hu => ih u hu) Grows.pure
  | _ =>
    rw [getValue]
    split
    · exact getOwn_grows
    · exact Grows.pure

def ReadsAt (t : Picks) (item context : Value) (p : Passing Value) (x : Position) : Prop :=
  Reads t p (x.result t.resolver item context) (x.getterCalls t.resolver item context) (x.visited t.resolver)

def fieldPositions (path : String) (entries : List (String × Value)) (fields : List (String × Node)) : List Position :=
  fields.map fun f => place (memberPath path f.1) ((Entries.get? f.1 entries).getD .undefined) f.2

theorem fieldPositions_insert {name : String} (h : name ∉ Entries.keys fields) :
    fieldPositions path (Entries.insert name v entries) fields = fieldPositions path entries fields := by
  refine List.map_congr_left fun f hf => ?_
  have hne : name ≠ f.1 := fun he => h (he ▸ List.mem_map_of_mem (f := Prod.fst) hf)
  rw [Entries.get?_insert_of_ne hne]

theorem overFields_reads {rewrite : String → Node → Value → Passing Value} (path : String)
    (hd : (Entries.keys fields).Nodup) (he : (Entries.keys entries).Nodup)
    (hg : ∀ f ∈ fields, ∀ v, (rewrite f.1 f.2 v).Grows)
    (h : ∀ f ∈ fields, ∀ v, Entries.get? f.1 entries = some v →
      ReadsAt t item context (rewrite f.1 f.2 v) (place (memberPath path f.1) v f.2)) :
    Reads t (overFields rewrite entries fields)
      (entries.map fun e => (e.1, Passing.fieldValue (fun name n v =>
        (place (memberPath path name) v n).result t.resolver item context) fields e))
      ((fieldPositions path entries fields).flatMap (Position.getterCalls t.resolver item context))
      ((fieldPositions path entries fields).flatMap (Position.visited t.resolver)) := by
  induction fields generalizing entries with
  | nil =>
    have hmap : (entries.map fun e => (e.1, Passing.fieldValue (fun name n v =>
        (place (memberPath path name) v n).result t.resolver item context) [] e)) = entries := List.map_id' entries
    rw [hmap]
    exact Reads.pure
  | cons f rest ih =>
    obtain ⟨hf, hrest⟩ := List.nodup_cons.1 hd
    have hne : ∀ k ∈ rest, f.1 ≠ k.1 := fun k hk hfk => hf (hfk ▸ List.mem_map_of_mem (f := Prod.fst) hk)
    have hgrows := fun k hk => hg k (List.mem_cons_of_mem f hk)
    rw [overFields, fieldPositions, List.map_cons, List.flatMap_cons, List.flatMap_cons, ← fieldPositions]
    cases hv : Entries.get? f.1 entries with
    | none =>
      rw [Passing.map_fieldValue_cons (Entries.get?_eq_none_iff.1 hv), Option.getD_none]
      exact (ih hrest he hgrows fun k hk => h k (List.mem_cons_of_mem _ hk)).absent rfl
    | some v =>
      rw [Passing.map_fieldValue_insert hf he hv, Option.getD_some]
      have hafter (w : Value) := @ih (Entries.insert f.1 w entries) hrest (Entries.nodup_keys_insert he) hgrows
        fun k hk x hx => h k (List.mem_cons_of_mem _ hk) x (Entries.get?_insert_of_ne (hne k hk) ▸ hx)
      simp only [fieldPositions_insert hf] at hafter
      exact (h f List.mem_cons_self v hv).bind (fun w => Grows.overFields hgrows) (hafter _)

theorem readsAt_of_fits {β : Type} {p : Passing β} {b : β} (x : Position) (assemble : β → Value) (hx : x.fits = true)
    (hp : Reads t p b ((x.ahead t.resolver).flatMap (Position.getterCalls t.resolver item context))
      ((x.ahead t.resolver).flatMap (Position.visited t.resolver)))
    (hb : assemble b = x.inside t.resolver item context) :
    ReadsAt t item context (p >>= fun b => getOwn item context x.node.modifiers (assemble b)) x := by
  have hunion : x.node.isUnion = false := isUnion_of_accepts hx
  have hown : Reads t (getOwn item context x.node.modifiers (x.inside t.resolver item context))
      (x.result t.resolver item context) (x.getterCall t.resolver item context).toList [] := by
    rw [Position.result_eq, if_pos (by rw [hx, Bool.or_true]), Position.getterCall, Position.getter?,
      if_neg (by simp [hunion]), getOwn]
    cases x.node.modifiers.getter with
    | none => exact Reads.pure
    | some f => exact Reads.record _
  rw [ReadsAt, Position.getterCalls_eq, if_pos hx, Position.visited_eq]
  have hall := hp.bind (q := fun b => getOwn item context x.node.modifiers (assemble b)) (fun _ => getOwn_grows)
    (hb ▸ hown)
  rw [List.append_nil] at hall
  exact hall.skip hunion

theorem readsAt_of_unfit (hunion : x.node.isUnion = false) (hx : x.fits = false) :
    ReadsAt t item context (pure x.restoredOwn) x := by
  have hahead : x.ahead t.resolver = [] := by rw [Position.ahead, hunion, hx]; rfl
  rw [ReadsAt, Position.getterCalls_eq, hahead, hx, Position.visited_eq, hahead, Position.result_of_unfit hx hahead]
  exact Reads.skip hunion Reads.pure

theorem get?_zip_fields {g : String × Node → Value} {name : String} :
    Entries.get? name ((Entries.keys fields).zip (fields.map g)) =
      (Entries.get? name fields).map fun n => g (name, n) := by
  induction fields with
  | nil => rfl
  | cons f rest ih =>
    rw [Entries.keys, List.map_cons, List.map_cons, List.zip_cons_cons, Entries.get?, Entries.get?]
    split
    · subst name
      rfl
    · exact ih

theorem replaced_fields {g : Position → Value} (he : (Entries.keys entries).Nodup) :
    (entries.map fun e =>
      (e.1, (Entries.get? e.1 ((Entries.keys fields).zip ((fieldPositions path entries fields).map g))).getD e.2)) =
      entries.map fun e =>
        (e.1, Passing.fieldValue (fun name n v => g (place (memberPath path name) v n)) fields e) := by
  refine List.map_congr_left fun e hmem => Prod.ext rfl ?_
  rw [fieldPositions, List.map_map, get?_zip_fields, Passing.fieldValue]
  cases Entries.get? e.1 fields with
  | none => rfl
  | some n =>
    have hvalue : Entries.get? e.1 entries = some e.2 := Entries.get?_of_mem he hmem
    simp [hvalue]

theorem scalar_readsAt {k : Scalar} (hx : x.node = scalar m k) :
    ReadsAt t item context (getValue item context key path x.value (scalar m k)) x := by
  obtain ⟨key', path', v, n, inUnion⟩ := x
  obtain rfl : n = scalar m k := hx
  have hahead : Position.ahead t.resolver ⟨key', path', v, scalar m k, inUnion⟩ = [] := by
    rw [Position.ahead, ite_eq_right_iff]
    exact fun _ => rfl
  rw [getValue]
  cases ha : accepts (scalar m k) (restoreOwn (scalar m k) v) with
  | true =>
    refine readsAt_of_fits (b := ()) (p := pure ()) ⟨key', path', v, scalar m k, inUnion⟩ (fun _ => _) ha ?_ ?_
    · rw [hahead]
      exact Reads.pure
    · rw [Position.inside, hahead]
      rfl
  | false => exact readsAt_of_unfit (x := ⟨key', path', v, scalar m k, inUnion⟩) rfl ha

theorem readsAt_of_not_accepts {inUnion : Bool} (ha : n.accepts v = false) (hunion : n.isUnion = false)
    (hs : ∀ m k, n ≠ scalar m k) :
    ReadsAt t item context (getValue item context key path v n) ⟨key, path, v, n, inUnion⟩ := by
  have hrestored : Position.restoredOwn ⟨key, path, v, n, inUnion⟩ = v := restoreOwn_of_not_scalar hs
  have hfits : Position.fits ⟨key, path, v, n, inUnion⟩ = false := by rw [Position.fits, hrestored, ha]
  have hread : ReadsAt t item context (pure (Position.restoredOwn ⟨key, path, v, n, inUnion⟩)) _ :=
    readsAt_of_unfit hunion hfits
  rwa [hrestored, ← getValue_of_not_accepts ha hunion hs] at hread

def elementPositions (path : String) (elements : List Value) (items : Node) : List Position :=
  elements.zipIdx.map fun e => place (elementPath path e.2) e.1 items

theorem elements_reads {f : Value × Nat → Passing Value} (path : String) (hf : ∀ e, (f e).Grows)
    (h : ∀ e ∈ elements.zipIdx, ReadsAt t item context (f e) (place (elementPath path e.2) e.1 items)) :
    Reads t (elements.zipIdx.mapM f)
      ((elementPositions path elements items).map (Position.result t.resolver item context))
      ((elementPositions path elements items).flatMap (Position.getterCalls t.resolver item context))
      ((elementPositions path elements items).flatMap (Position.visited t.resolver)) := by
  rw [elementPositions, List.map_map, List.flatMap_map, List.flatMap_map]
  exact Reads.mapM hf h

/-- All members are read at the path of the set, which makes no difference to scalars. -/
theorem set_readsAt {items : Node} {inUnion : Bool} (hm : (set m items).HoldsMembers) :
    ReadsAt t item context (getValue item context key path v (set m items)) ⟨key, path, v, set m items, inUnion⟩ := by
  cases ha : (set m items).accepts v with
  | false => exact readsAt_of_not_accepts ha rfl (by simp)
  | true =>
    obtain ⟨elements, rfl⟩ := set_of_accepts ha
    have hmember := hm m items rfl
    cases items with
    | scalar md k =>
      have hahead : Position.ahead t.resolver ⟨key, path, .set elements, set m (scalar md k), inUnion⟩ =
          elementPositions path elements (scalar md k) := by
        have hfits : Position.fits ⟨key, path, .set elements, set m (scalar md k), inUnion⟩ = true := ha
        rw [Position.ahead, hfits, Bool.or_true, if_pos rfl]
        rfl
      have hbelow : Reads t (elements.zipIdx.mapM fun e => getValue item context path path e.1 (scalar md k)) _ _ _ :=
        elements_reads path (fun e => getValue_grows) fun e _ =>
          scalar_readsAt (x := place (elementPath path e.2) e.1 (scalar md k)) rfl
      rw [← hahead] at hbelow
      rw [getValue_members ha]
      exact readsAt_of_fits ⟨key, path, .set elements, set m (scalar md k), inUnion⟩ .set ha hbelow rfl
    | _ => cases hmember

theorem union_readsAt {variants : List Node} {q : Option Nat → Passing Value} (hx : x.node = union m variants)
    (hq : ∀ chosen, (q chosen).Grows)
    (hvariant : ∀ i u, variants[i]? = some u →
      ReadsAt t item context (q (some i)) ⟨nestedKey x.key, x.path, x.value, u, true⟩)
    (hnone : ∀ chosen, (chosen.bind fun i => variants[i]?) = none → q chosen = pure x.value) :
    ReadsAt t item context (Passing.pick x.key x.path variants x.value >>= q) x := by
  have hpick := Reads.pick (t := t) x hx
  obtain ⟨key, path, v, n, inUnion⟩ := x
  obtain rfl : n = union m variants := hx
  have hfits : Position.fits ⟨key, path, v, union m variants, inUnion⟩ = false := rfl
  cases hchosen : (t.resolver key path variants v).bind fun i => variants[i]? with
  | none =>
    have hahead : Position.ahead t.resolver ⟨key, path, v, union m variants, inUnion⟩ = [] := by
      simp [Position.ahead, Position.next, isUnion, hchosen]
    have hread : Reads t (q (t.resolver key path variants v)) v [] [] := hnone _ hchosen ▸ Reads.pure
    rw [ReadsAt, Position.getterCalls_eq, Position.visited_eq, hahead, hfits, Position.result_of_unfit hfits hahead]
    exact hpick.bind hq hread
  | some u =>
    obtain ⟨i, hi, hu⟩ := Option.bind_eq_some_iff.1 hchosen
    have hahead : Position.ahead t.resolver ⟨key, path, v, union m variants, inUnion⟩ =
        [⟨nestedKey key, path, v, u, true⟩] := by
      simp [Position.ahead, Position.next, isUnion, hchosen]
    have hresult : Position.result t.resolver item context ⟨key, path, v, union m variants, inUnion⟩ =
        Position.result t.resolver item context ⟨nestedKey key, path, v, u, true⟩ := by
      rw [Position.result_eq, Position.inside, hahead]
      rfl
    rw [ReadsAt, Position.getterCalls_eq, Position.visited_eq, hahead, hfits, hresult, List.flatMap_singleton,
      List.flatMap_singleton]
    have hread := hpick.bind hq (hi ▸ hvariant i u hu)
    rw [if_neg Bool.false_ne_true, List.append_nil]
    exact hread

def DistinctNames (n : Node) : Prop := ∀ fields, n.fields? = some fields → (Entries.keys fields).Nodup

theorem DistinctNames.of_leaf {n : Node} (hf : n.fields? = none) : n.DistinctNames := by simp [DistinctNames, hf]

theorem DistinctNames.of_object {m : Modifiers} {fields : List (String × Node)} {isOpen : Bool}
    (hk : (Entries.keys fields).Nodup) : (object m fields isOpen).DistinctNames := by simpa [DistinctNames, fields?]

/-- A reading from any position on. -/
theorem getValue_readsAt {inUnion : Bool} (hd : n.Throughout DistinctNames) (hm : n.Throughout HoldsMembers)
    (hv : v.wellKeyed = true) :
    ReadsAt t item context (getValue item context key path v n) ⟨key, path, v, n, inUnion⟩ := by
  induction n generalizing key path v inUnion with
  | scalar m k => exact scalar_readsAt (x := ⟨key, path, v, scalar m k, inUnion⟩) rfl
  | object m fields isOpen ih =>
    cases ha : (object m fields isOpen).accepts v with
    | false => exact readsAt_of_not_accepts ha rfl (by simp)
    | true =>
      obtain ⟨entries, rfl⟩ := Wire.map_of_kind? (kind?_of_accepts ha rfl rfl)
      have he := (Value.wellKeyed_map.1 hv).1
      rw [getValue_map, getFields_eq]
      refine readsAt_of_fits ⟨key, path, .map entries, object m fields isOpen, inUnion⟩ .map ha
        (overFields_reads path (hd.self fields rfl) he (fun f _ v => getValue_grows) fun f hf v hfv => ?_) ?_
      · exact ih f hf (hd.field hf) (hm.field hf) (Value.wellKeyed_get? hv hfv)
      · exact congrArg Value.map (replaced_fields he).symm
  | list m items ih =>
    cases ha : (list m items).accepts v with
    | false => exact readsAt_of_not_accepts ha rfl (by simp)
    | true =>
      obtain ⟨elements, rfl⟩ := Wire.list_of_kind? (kind?_of_accepts ha rfl rfl)
      rw [getValue_elements]
      refine readsAt_of_fits ⟨key, path, .list elements, list m items, inUnion⟩ .list ha
        (elements_reads path (fun e => getValue_grows) fun e he => ?_) rfl
      exact ih hd.item hm.item (Value.wellKeyed_list.1 hv e.1 (List.fst_mem_of_mem_zipIdx he))
  | set m items => exact set_readsAt hm.self
  | union m variants ih =>
    rw [getValue]
    simp only [getVariant_eq]
    refine union_readsAt (x := ⟨key, path, v, union m variants, inUnion⟩) rfl (fun place => ?_) (fun i u hu => ?_)
      fun place hplace => ?_
    · cases place with
      | none => exact Grows.pure
      | some i => exact Grows.atVariant (fun u _ => getValue_grows) Grows.pure
    · have hmem := List.mem_of_getElem? hu
      simp only [atVariant, hu]
      exact ih u hmem (hd.variant hmem) (hm.variant hmem) hv
    · cases place with
      | none => rfl
      | some i =>
        have hi : variants[i]? = none := hplace
        simp only [atVariant, hi]
  | _ => exact readsAt_of_not_accepts rfl rfl (by simp)

end Node

/-- A reading from the root. Of the unions with one key, the first one that it comes to tells the variant. Getters are
called for the positions that fit and are come to through such, each once, with the results of what is below and with
the item as it was stored. What does not fit, or is taken for no variant of its union, is restored and no more. -/
structure Position.Walked (root : Position) (item context : Value) (t : Picks) (s : Pass) (read : Value) (s' : Pass) :
    Prop where
  variants : t = (root.visited t.resolver).foldl Picks.note []
  read : read = root.result t.resolver item context
  calls : s'.calls = s.calls ++ (root.walk t.resolver).filterMap (getterCall t.resolver item context)
  picks : s'.picks = s.picks
  mem_walk : ∀ x, x ∈ root.walk t.resolver ↔ x.fits = true ∧ root.ReadsTo t.resolver x
  unfit : ∀ x, root.ReadsTo t.resolver x → x.fits = false → (x.node.isUnion = true → x.next t.resolver true = []) →
    x.result t.resolver item context = x.restoredOwn ∧ x.walk t.resolver = []

namespace Schema

open Position (place)

variable {decl : SchemaDeclaration} {sch : Schema} {item : Value}

/-- An item is read as a walk from the root gives it. -/
theorem forCaller_walks (hdecl : ofDeclaration decl = .ok sch) (hkeys : sch.WellKeyed) (hitem : item.wellKeyed = true)
    (context : Value) (s : Pass) : ∃ t : Picks, (place "" item sch.root).Walked item context t s
      (sch.root.forCaller item context s).1 (sch.root.forCaller item context s).2 := by
  let start : Pass := { calls := s.calls }
  let t : Picks := (sch.root.getValue item context "" "" item start).2.picks
  have hread : Node.ReadsAt t item context (sch.root.getValue item context "" "" item) (place "" item sch.root) :=
    Node.getValue_readsAt (hkeys.mono fun _ hn => hn.names) (root_holdsMembers hdecl) hitem
  have hrun := hread.run start List.prefix_rfl
  refine ⟨t, congrArg (fun r => r.2.picks) hrun, congrArg Prod.fst hrun, congrArg (fun r => r.2.calls) hrun, rfl,
    fun x => Position.mem_walk_iff, ?_⟩
  intro x _ hfits hnone
  have hahead : x.ahead t.resolver = [] := by
    rw [Position.ahead, hfits, Bool.or_false, ite_eq_right_iff]
    exact hnone
  exact ⟨Position.result_of_unfit hfits hahead, Position.walk_of_unfit hfits hahead⟩

def wrapping (tag : String) : Modifiers := { getter := some ⟨some tag, fun v _ _ => .list [v]⟩ }

def profileFields : SchemaDeclaration :=
  [("id", .typed .string none none false { memberships := { primary := true } }),
    ("profile", .typed .object (some [("name", .typed .string none none false (wrapping "name")),
      ("age", .typed .number none none false (wrapping "age"))]) none false (wrapping "profile")),
    ("marks", .typed .array none (some (.union [.typed .string none none false (wrapping "word"), .tag .number]))
      false {})]

def profiles : Schema where
  root := .object { required := true } [
    ("id", .scalar { required := true, memberships := { primary := true } } .string),
    ("profile", .object (wrapping "profile") [
      ("name", .scalar (wrapping "name") .string), ("age", .scalar (wrapping "age") .number)] false),
    ("marks", .list {} (.union {} [.scalar (wrapping "word") .string, .scalar {} .number]))] false
  primaryKey := "id"
  sortKey := none
  attributeDefinitions := [⟨"id", .s⟩]
  localIndexes := []
  globalIndexes := []

def storedProfile : Value := .map [("id", .string "a"),
  ("profile", .map [("name", .string "ann"), ("age", .string "old")]), ("marks", .list [.string "x", .bool true])]

theorem profiles_wellKeyed : profiles.WellKeyed :=
  ⟨.of_object (by decide) (.of_none rfl rfl), .of_none rfl rfl rfl,
    ⟨.of_object (by decide) (.of_none rfl rfl), .of_none rfl rfl rfl, .of_none rfl rfl rfl, trivial⟩,
    ⟨.of_none rfl rfl rfl, .of_none rfl rfl rfl, .of_none rfl rfl rfl, .of_none rfl rfl rfl, trivial⟩, trivial⟩

theorem storedProfile_walk : ofDeclaration profileFields = .ok profiles ∧ storedProfile.wellKeyed = true ∧
    profiles.root.forCaller storedProfile .null {} =
      (.map [("id", .string "a"),
        ("profile", .list [.map [("name", .list [.string "ann"]), ("age", .string "old")]]),
        ("marks", .list [.list [.string "x"], .bool true])],
      { calls := [⟨some "name", [.string "ann", storedProfile, .null]⟩,
        ⟨some "profile", [.map [("name", .list [.string "ann"]), ("age", .string "old")], storedProfile, .null]⟩,
        ⟨some "word", [.string "x", storedProfile, .null]⟩] }) ∧
    ∃ t : Picks, (place "" storedProfile profiles.root).Walked storedProfile .null t {}
      (profiles.root.forCaller storedProfile .null {}).1 (profiles.root.forCaller storedProfile .null {}).2 := by
  have hdecl : ofDeclaration profileFields = .ok profiles := rfl
  have hitem : storedProfile.wellKeyed = true := by decide
  exact ⟨hdecl, hitem, rfl, forCaller_walks hdecl profiles_wellKeyed hitem .null {}⟩

end Schema

end ItemMapper
