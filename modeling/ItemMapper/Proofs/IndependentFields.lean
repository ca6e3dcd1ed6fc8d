import ItemMapper.Proofs.CompleteReports
import ItemMapper.Proofs.Footprints
import ItemMapper.Proofs.SteadyPasses
import ItemMapper.Proofs.StoredAgain

/-!
# Independent fields

The top-level fields of an item share one table of picks. An item is prepared and validated as each of its fields is
when it is there alone, as long as one table can hold what is picked for each of them. Where no declared name has a
separator in it, no two fields pick under one key; but a name with a point is the path of a member of another field.
-/

namespace ItemMapper

namespace Entries

variable {α : Type} {key other : String} {value : α} {entries others : List (String × α)}

def only (key : String) (entries : List (String × α)) : List (String × α) :=
  ((get? key entries).map fun v => (key, v)).toList

theorem only_eq_of_get? (h : get? key entries = get? key others) : only key entries = only key others := by
  rw [only, only, h]

theorem only_of_some (h : get? key entries = some value) : only key entries = [(key, value)] := by
  rw [only, h]
  rfl

@[simp] theorem get?_only_self : get? key (only key entries) = get? key entries := by
  rw [only]
  cases get? key entries <;> simp [get?]

theorem insert_only : insert key value (only key entries) = [(key, value)] := by
  rw [only]
  cases get? key entries <;> simp [insert]

theorem only_of_mem {f : String × α} (hd : (keys entries).Nodup) (hf : f ∈ entries) : only f.1 entries = [f] :=
  only_of_some (get?_of_mem hd hf)

end Entries

open Entries (only)

namespace Node

variable {n : Node} {item other v : Value} {key path : String} {around around' : Surroundings} {m : Modifiers}
  {fields : List (String × Node)} {entries : List (String × Value)} {isOpen : Bool}

theorem withDefault_congr (h : ∀ f, m.default ≠ some (.computed f)) : withDefault m item v = withDefault m other v := by
  rw [withDefault, withDefault]
  cases hd : m.default with
  | none => rfl
  | some d =>
    cases d with
    | fixed d => rfl
    | computed f => exact absurd hd (h f)

theorem fillFields_congr (h : ∀ f ∈ fields, ∀ path v, fill item path path v f.2 = fill other path path v f.2) :
    fillFields item path entries fields = fillFields other path entries fields := by
  induction fields generalizing entries with
  | nil => rfl
  | cons f rest ih =>
    rw [fillFields, fillFields, h f List.mem_cons_self]
    simp only [ih fun g hg => h g (List.mem_cons_of_mem _ hg)]

theorem atVariant_congr {α : Type} {enter enter' : Node → α} {otherwise : α} {variants : List Node} {i : Nat}
    (h : ∀ n ∈ variants, enter n = enter' n) :
    atVariant enter otherwise variants i = atVariant enter' otherwise variants i := by
  rw [atVariant, atVariant]
  cases hn : variants[i]? with
  | none => rfl
  | some n => exact h n (List.mem_of_getElem? hn)

theorem fill_congr (hn : n.Throughout CallbackFree) : fill item key path v n = fill other key path v n := by
  induction n generalizing key path v with
  | object m fields isOpen ih =>
    have hdefault : ∀ f, m.default ≠ some (.computed f) := hn.self.default
    rw [fill, fill, withDefault_congr hdefault]
    refine bind_congr fun w => ?_
    cases w with
    | map entries => simp only [fillFields_congr fun f hf path v => ih f hf (hn.field hf)]
    | _ => rfl
  | list m items ih =>
    have hdefault : ∀ f, m.default ≠ some (.computed f) := hn.self.default
    rw [fill, fill, withDefault_congr hdefault]
    refine bind_congr fun w => ?_
    cases w with
    | list elements => simp only [ih hn.item]
    | _ => rfl
  | union m variants ih =>
    have hdefault : ∀ f, m.default ≠ some (.computed f) := hn.self.default
    rw [fill, fill, withDefault_congr hdefault]
    refine bind_congr fun w => bind_congr fun place => ?_
    cases place with
    | none => rfl
    | some i =>
      simp only [fillVariant_eq]
      exact atVariant_congr fun u hu => ih u hu (hn.variant hu)
  | _ => exact withDefault_congr hn.self.default

theorem setOwn_congr (h : n.modifiers.setter = none) : setOwn around n v = setOwn around' n v := by
  rw [setOwn_eq h, setOwn_eq h]

theorem overFields_congr {rewrite rewrite' : String → Node → Value → Passing Value}
    (h : ∀ f ∈ fields, ∀ v, rewrite f.1 f.2 v = rewrite' f.1 f.2 v) :
    overFields rewrite entries fields = overFields rewrite' entries fields := by
  induction fields generalizing entries with
  | nil => rfl
  | cons f rest ih =>
    rw [overFields, overFields]
    have hrest (es : List (String × Value)) : overFields rewrite es rest = overFields rewrite' es rest :=
      ih fun g hg => h g (List.mem_cons_of_mem _ hg)
    cases Entries.get? f.1 entries with
    | none => exact hrest _
    | some v => simp only [h f List.mem_cons_self, hrest]

theorem setValue_congr (hn : n.Throughout CallbackFree) : setValue around key path v n = setValue around' key path v n := by
  induction n generalizing key path v with
  | object m fields isOpen ih =>
    rw [setValue, setValue, setOwn_congr hn.self.setter]
    refine congrArg _ (bind_congr fun w => ?_)
    cases w with
    | map entries =>
      simp only [setFields_eq]
      refine congrArg (· >>= _) (overFields_congr fun f hf v => ?_)
      exact ih f hf (hn.field hf)
    | _ => rfl
  | list m items ih =>
    rw [setValue, setValue, setOwn_congr hn.self.setter]
    refine congrArg _ (bind_congr fun w => ?_)
    cases w with
    | list elements => simp only [ih hn.item]
    | _ => rfl
  | set m items ih =>
    rw [setValue, setValue, setOwn_congr hn.self.setter]
    refine congrArg _ (bind_congr fun w => ?_)
    cases w with
    | set members => simp only [ih hn.member]
    | _ => rfl
  | union m variants ih =>
    rw [setValue, setValue]
    refine bind_congr fun place => ?_
    cases place with
    | none => rfl
    | some i =>
      simp only [setVariant_eq]
      exact atVariant_congr fun u hu => ih u hu (hn.variant hu)
  | _ => rw [setValue, setValue, setOwn_congr hn.self.setter]

/-- Goes through the declared fields. What a step gives is put in the place of the field's value. -/
def eachField (step : String × Node → Option Value → Passing (Option Value)) :
    List (String × Value) → List (String × Node) → Passing (List (String × Value))
  | entries, [] => return entries
  | entries, f :: rest => do
    match ← step f (Entries.get? f.1 entries) with
    | some w => eachField step (Entries.insert f.1 w entries) rest
    | none => eachField step entries rest

def fillStep (f : String × Node) (x : Option Value) : Passing (Option Value) := do
  let w ← fill .undefined (memberPath "" f.1) (memberPath "" f.1) (x.getD .undefined) f.2
  return if w.isUndefined then none else some w

def rewriteStep (rewrite : String → Node → Value → Passing Value) (f : String × Node) (x : Option Value) :
    Passing (Option Value) :=
  match x with
  | some v => do return some (← rewrite f.1 f.2 v)
  | none => return none

theorem fillFields_eq : fillFields .undefined "" entries fields = eachField fillStep entries fields := by
  induction fields generalizing entries with
  | nil => rfl
  | cons f rest ih =>
    rw [fillFields, eachField, fillStep, bind_assoc]
    refine bind_congr fun w => ?_
    cases hw : w.isUndefined <;> simp [ih]

theorem overFields_eq {rewrite : String → Node → Value → Passing Value} :
    overFields rewrite entries fields = eachField (rewriteStep rewrite) entries fields := by
  induction fields generalizing entries with
  | nil => rfl
  | cons f rest ih =>
    rw [overFields, eachField]
    cases Entries.get? f.1 entries with
    | none => exact ih
    | some v => simp only [rewriteStep, ih, bind_assoc, pure_bind]

section EachField

variable {step : String × Node → Option Value → Passing (Option Value)} {s : Pass} {t : Picks} {F : String → Prop}

theorem eachField_cons {f : String × Node} {rest : List (String × Node)} :
    eachField step entries (f :: rest) s =
      eachField step (((step f (Entries.get? f.1 entries) s).1.map fun w => Entries.insert f.1 w entries).getD entries)
        rest (step f (Entries.get? f.1 entries) s).2 := by
  rw [eachField, Passing.bind_apply]
  cases (step f (Entries.get? f.1 entries) s).1 <;> rfl

theorem eachField_other {k : String} (hk : k ∉ Entries.keys fields) :
    (eachField step entries fields).Ensures fun es => Entries.get? k es = Entries.get? k entries := by
  induction fields generalizing entries with
  | nil => exact Passing.Ensures.pure rfl
  | cons f rest ih =>
    obtain ⟨hf, hrest⟩ := List.ne_and_not_mem_of_not_mem_cons hk
    rw [eachField]
    refine Passing.Ensures.any.bind fun w _ => ?_
    cases w with
    | none => exact ih hrest
    | some w => exact (ih hrest).mono fun es hes => hes.trans (Entries.get?_insert_of_ne (Ne.symm hf))

theorem eachField_nodup (he : (Entries.keys entries).Nodup) :
    (eachField step entries fields).Ensures fun es => (Entries.keys es).Nodup := by
  induction fields generalizing entries with
  | nil => exact Passing.Ensures.pure he
  | cons f rest ih =>
    rw [eachField]
    refine Passing.Ensures.any.bind fun w _ => ?_
    cases w with
    | none => exact ih he
    | some w => exact ih (Entries.nodup_keys_insert he)

theorem eachField_steady (h : ∀ f ∈ fields, ∀ x, (step f x).Steady F) : (eachField step entries fields).Steady F := by
  induction fields generalizing entries with
  | nil => exact Passing.Steady.pure
  | cons f rest ih =>
    have hrest (es : List (String × Value)) : (eachField step es rest).Steady F :=
      ih fun g hg => h g (List.mem_cons_of_mem _ hg)
    rw [eachField]
    refine (h f List.mem_cons_self _).bind fun w => ?_
    cases w <;> exact hrest _

theorem eachField_only {f : String × Node} : eachField step (only f.1 entries) [f] s =
    (((step f (Entries.get? f.1 entries) s).1.map fun w => [(f.1, w)]).getD (only f.1 entries),
      (step f (Entries.get? f.1 entries) s).2) := by
  rw [eachField_cons, Entries.get?_only_self]
  cases (step f (Entries.get? f.1 entries) s).1 with
  | none => rfl
  | some w => exact congrArg (·, _) Entries.insert_only

end EachField

abbrev FieldPass := List (String × Node) → List (String × Value) → Passing (List (String × Value))

/-- What becomes of a field is what becomes of it alone, if one table holds the picks for all fields. -/
structure Separates (fields : List (String × Node)) (pass : FieldPass) : Prop where
  grows : ∀ fields es, (pass fields es).Grows
  nodup : ∀ es, (Entries.keys es).Nodup → (pass fields es).Ensures fun es => (Entries.keys es).Nodup
  apart : ∀ {t : Picks} {es : List (String × Value)} {s : Pass} (alone : String × Node → Pass),
    (Entries.keys es).Nodup → s.picks.Within t →
    (∀ f ∈ fields, (alone f).picks.Within s.picks ∧ (pass [f] (only f.1 es) (alone f)).2.picks.Within t) →
    (pass fields es s).2.picks.Within t ∧ ∀ f ∈ fields,
      only f.1 (pass fields es s).1 = (pass [f] (only f.1 es) (alone f)).1 ∧
      (pass [f] (only f.1 es) (alone f)).2.picks.Within (pass fields es s).2.picks

theorem Separates.andThen {pass pass' : FieldPass} (h : Separates fields pass) (h' : Separates fields pass') :
    Separates fields fun fields es => pass fields es >>= pass' fields where
  grows fields es := (h.grows fields es).bind fun es => h'.grows fields es
  nodup es he := (h.nodup es he).bind h'.nodup
  apart {t es s} alone he ht halone := by
    have hfirst : ∀ f ∈ fields, (alone f).picks.Within s.picks ∧
        (pass [f] (only f.1 es) (alone f)).2.picks.Within t := fun f hf =>
      ⟨(halone f hf).1, (Picks.Within.of_prefix (h'.grows _ _ _)).trans (halone f hf).2⟩
    obtain ⟨ht₁, hmid⟩ := h.apart alone he ht hfirst
    have hlater : ∀ f ∈ fields, (pass [f] (only f.1 es) (alone f)).2.picks.Within (pass fields es s).2.picks ∧
        (pass' [f] (only f.1 (pass fields es s).1) (pass [f] (only f.1 es) (alone f)).2).2.picks.Within t := by
      intro f hf
      rw [(hmid f hf).1]
      exact ⟨(hmid f hf).2, (halone f hf).2⟩
    obtain ⟨ht₂, hend⟩ := h'.apart (fun f => (pass [f] (only f.1 es) (alone f)).2) (h.nodup es he s) ht₁ hlater
    refine ⟨ht₂, fun f hf => ?_⟩
    have hf' := hend f hf
    rwa [(hmid f hf).1] at hf'

theorem eachField_separates {step : String × Node → Option Value → Passing (Option Value)} {F : String → Prop}
    (hd : (Entries.keys fields).Nodup) (h : ∀ f x, (step f x).Steady F) :
    Separates fields fun fields es => eachField step es fields where
  grows fields es := (eachField_steady fun f _ => h f).grows
  nodup es he := eachField_nodup he
  apart {t es s} alone he ht halone := by
    clear he
    simp only [eachField_only] at halone ⊢
    induction fields generalizing es s with
    | nil => exact ⟨ht, by simp⟩
    | cons f rest ih =>
      obtain ⟨hf, hrest⟩ := List.nodup_cons.1 hd
      obtain ⟨⟨hs, hft⟩, hothers⟩ := List.forall_mem_cons.1 halone
      obtain ⟨hw, hs₁, ht₁⟩ := (h f (Entries.get? f.1 es)).follows hs ht hft
      have hgrows := Picks.Within.of_prefix ((h f (Entries.get? f.1 es)).grows s)
      rw [eachField_cons]
      generalize hes : ((step f (Entries.get? f.1 es) s).1.map fun w => Entries.insert f.1 w es).getD es = es'
      have hkeep : ∀ g ∈ rest, Entries.get? g.1 es' = Entries.get? g.1 es := by
        intro g hg
        have hne : f.1 ≠ g.1 := fun hfg => hf (hfg ▸ List.mem_map_of_mem (f := Prod.fst) hg)
        rw [← hes]
        cases (step f (Entries.get? f.1 es) s).1 with
        | none => rfl
        | some w => exact Entries.get?_insert_of_ne hne
      have hfound : only f.1 es' =
          ((step f (Entries.get? f.1 es) (alone f)).1.map fun w => [(f.1, w)]).getD (only f.1 es) := by
        rw [← hes, hw]
        cases (step f (Entries.get? f.1 es) (alone f)).1 with
        | none => rfl
        | some w => exact Entries.only_of_some Entries.get?_insert_self
      obtain ⟨ht₂, hend⟩ := @ih hrest es' _ ht₁ fun g hg => by
        rw [hkeep g hg]
        exact ⟨(hothers g hg).1.trans hgrows, (hothers g hg).2⟩
      refine ⟨ht₂, List.forall_mem_cons.2 ⟨⟨?_, ?_⟩, fun g hg => ?_⟩⟩
      · rw [← hfound]
        exact Entries.only_eq_of_get? (eachField_other hf _)
      · exact hs₁.trans (Picks.Within.of_prefix ((eachField_steady fun f _ => h f).grows _))
      · have hg' := hend g hg
        rwa [hkeep g hg, Entries.only_eq_of_get? (hkeep g hg)] at hg'

def pruneEntry (fields : List (String × Node)) (e : String × Value) : Passing (String × Value) := do
  return (e.1, ← pruneField "" e.1 e.2 fields)

def pruneFields (isOpen : Bool) : FieldPass := fun fields es => (keptEntries fields isOpen es).mapM (pruneEntry fields)

theorem pruneEntry_steady {e : String × Value} : (pruneEntry fields e).Steady fun _ => True := by
  have hgoes : Passing.Through (object {} fields false) "" "" (pruneField "" e.1 e.2 fields) :=
    pruneField_through fun _ hf => prune_through.field hf
  exact (hgoes.steady.mono fun _ _ => trivial).bind fun _ => Passing.Steady.pure

theorem pruneEntry_single {f : String × Node} {v : Value} (hd : (Entries.keys fields).Nodup) (hf : f ∈ fields) :
    pruneEntry [f] (f.1, v) = pruneEntry fields (f.1, v) := by
  rw [pruneEntry, pruneEntry, pruneField_eq, pruneField_eq, Entries.get?_of_mem hd hf, Entries.get?, if_pos rfl]

theorem pruneFields_steady : (pruneFields isOpen fields entries).Steady fun _ => True :=
  Passing.Steady.mapM fun _ _ => pruneEntry_steady

theorem pruneFields_absent {f : String × Node} (h : Entries.get? f.1 entries = none) :
    pruneFields isOpen [f] (only f.1 entries) = pure [] := by
  rw [only, h]
  cases isOpen <;> rfl

theorem pruneFields_only {f : String × Node} {v : Value} {s : Pass} (h : Entries.get? f.1 entries = some v) :
    pruneFields isOpen [f] (only f.1 entries) s =
      ([(pruneEntry [f] (f.1, v) s).1], (pruneEntry [f] (f.1, v) s).2) := by
  have hkept : keptEntries [f] isOpen [(f.1, v)] = [(f.1, v)] := by
    cases isOpen <;> simp [keptEntries, Entries.has, Entries.get?]
  rw [Entries.only_of_some h, pruneFields, hkept, List.mapM_cons]
  rfl

theorem pruneFields_separates (hd : (Entries.keys fields).Nodup) : Separates fields (pruneFields isOpen) where
  grows _ _ := pruneFields_steady.grows
  nodup es he := by
    refine (Passing.Ensures.mapEntries (g := fun name v => pruneField "" name v fields) (Q := fun _ _ => True)
      fun _ _ => Passing.Ensures.any).mono fun es' hes => ?_
    rw [hes.1]
    exact nodup_keys_keptEntries he
  apart {t es s} alone he ht halone := by
    have hget : ∀ e ∈ keptEntries fields isOpen es, Entries.get? e.1 es = some e.2 := fun e hmem =>
      Entries.get?_of_mem he (keptEntries_subset hmem)
    have hentry : ∀ f ∈ fields, ∀ v, Entries.get? f.1 es = some v → pruneFields isOpen [f] (only f.1 es) (alone f) =
        ([(pruneEntry fields (f.1, v) (alone f)).1], (pruneEntry fields (f.1, v) (alone f)).2) := by
      intro f hf v hv
      rw [pruneFields_only hv, pruneEntry_single hd hf]
    -- an entry that is not declared picks nothing, from any state
    obtain ⟨hes, ht', hend⟩ := Passing.Steady.mapM_apart (f := pruneEntry fields) (s := s)
      (fun e => ((Entries.get? e.1 fields).map fun n => alone (e.1, n)).getD s)
      (fun _ _ => pruneEntry_steady) ht fun e hmem => by
        cases hn : Entries.get? e.1 fields with
        | none =>
          refine ⟨Picks.Within.refl, ?_⟩
          rw [pruneEntry, pruneField_eq, hn]
          exact ht
        | some n =>
          obtain ⟨hs, hpt⟩ := halone (e.1, n) (Entries.mem_of_get? hn)
          rw [hentry (e.1, n) (Entries.mem_of_get? hn) e.2 (hget e hmem)] at hpt
          exact ⟨hs, hpt⟩
    refine ⟨ht', fun f hf => ?_⟩
    have hkept : Entries.get? f.1 (keptEntries fields isOpen es) = Entries.get? f.1 es :=
      get?_keptEntries (List.mem_map_of_mem (f := Prod.fst) hf)
    have hresult := (congrArg (Entries.get? f.1) hes).trans (Entries.get?_map fun e : String × Value =>
      (pruneField "" e.1 e.2 fields (((Entries.get? e.1 fields).map fun n => alone (e.1, n)).getD s)).1)
    rw [hkept] at hresult
    cases hv : Entries.get? f.1 es with
    | none =>
      rw [hv] at hresult
      rw [pruneFields_absent hv, only, pruneFields, hresult]
      exact ⟨rfl, (halone f hf).1.trans (Picks.Within.of_prefix (pruneFields_steady.grows s))⟩
    | some v =>
      have hmem := hend (f.1, v) (Entries.mem_of_get? (hkept.trans hv))
      rw [Entries.get?_of_mem hd hf] at hmem
      rw [hv, Option.map_some, Entries.get?_of_mem hd hf] at hresult
      rw [hentry f hf v hv]
      exact ⟨Entries.only_of_some hresult, hmem⟩

def storeFields (isOpen : Bool) : FieldPass := fun fields es =>
  fillFields .undefined "" es fields >>= fun es => shapeFields "" es fields >>= fun es =>
    setFields ⟨.undefined, .undefined⟩ "" es fields >>= pruneFields isOpen fields

theorem storeFields_separates (hd : (Entries.keys fields).Nodup) : Separates fields (storeFields isOpen) := by
  have hfill : Separates fields fun fields es => fillFields .undefined "" es fields := by
    simp only [fillFields_eq]
    refine eachField_separates (F := fun _ => True) hd fun f x => ?_
    exact (fill_through.steady.mono fun _ _ => trivial).bind fun w => Passing.Steady.pure
  have hover {rewrite : String → Node → Value → Passing Value}
      (h : ∀ f : String × Node, ∀ v, (rewrite f.1 f.2 v).Steady fun _ => True) :
      Separates fields fun fields es => overFields rewrite es fields := by
    simp only [overFields_eq]
    refine eachField_separates (F := fun _ => True) hd fun f x => ?_
    cases x with
    | none => exact Passing.Steady.pure
    | some v => exact (h f v).bind fun w => Passing.Steady.pure
  have hshape : Separates fields fun fields es => shapeFields "" es fields := by
    simp only [shapeFields_eq]
    exact hover fun f v => shape_through.steady.mono fun _ _ => trivial
  have hset : Separates fields fun fields es => setFields ⟨.undefined, .undefined⟩ "" es fields := by
    simp only [setFields_eq]
    exact hover fun f v => setValue_through.steady.mono fun _ _ => trivial
  exact hfill.andThen (hshape.andThen (hset.andThen (pruneFields_separates hd)))

theorem forStore_object {context : Value} (hn : (object m fields isOpen).Throughout CallbackFree) :
    (object m fields isOpen).forStore (.map entries) context =
      storeFields isOpen fields entries >>= fun es => pure (.map es) := by
  have hown (around : Surroundings) (es : List (String × Value)) :
      setOwn around (object m fields isOpen) (.map es) = pure (.map es) := setOwn_of_not_date hn.self.setter rfl
  have hset (es : List (String × Value)) : setValue ⟨.map entries, context⟩ "" "" (.map es) (object m fields isOpen) =
      setFields ⟨.undefined, .undefined⟩ "" es fields >>= fun es => pure (.map es) := by
    rw [setValue_congr hn, setValue, hown]
    rfl
  have hfill : fill (.map entries) "" "" (.map entries) (object m fields isOpen) =
      fillFields .undefined "" entries fields >>= fun es => pure (.map es) := by
    rw [fill_congr hn]
    rfl
  simp only [forStore, hfill, hset, shape, prune, storeFields, bind_assoc, pure_bind]
  rfl

end Node

namespace Survey

variable {phase : Phase} {path : String} {es : List (String × Value)} {fields : List (String × Node)} {t : Picks}
  {s : Survey}

theorem visitFields_only {f : String × Node} : visitFields phase path (only f.1 es) s [f] =
    visit phase false (memberPath path f.1) (memberPath path f.1) ((Entries.get? f.1 es).getD .undefined) s f.2 := by
  simp only [visitFields, Entries.get?_only_self]

theorem visitFields_apart (alone : String × Node → Survey) (hs : s.picks.Within t) (ha : ∀ f ∈ fields, (alone f).violations = [] ∧
      (alone f).picks.Within s.picks ∧ (visitFields phase path (only f.1 es) (alone f) [f]).picks.Within t) :
    (visitFields phase path es s fields).picks.Within t ∧
      (∀ f ∈ fields, (visitFields phase path (only f.1 es) (alone f) [f]).picks.Within
        (visitFields phase path es s fields).picks) ∧
      ((visitFields phase path es s fields).violations = [] ↔ s.violations = [] ∧
        ∀ f ∈ fields, (visitFields phase path (only f.1 es) (alone f) [f]).violations = []) := by
  simp only [visitFields_only] at ha ⊢
  induction fields generalizing s with
  | nil => exact ⟨hs, by simp, by simp [visitFields]⟩
  | cons f rest ih =>
    obtain ⟨⟨hf, hfs, hft⟩, hothers⟩ := List.forall_mem_cons.1 ha
    rw [visitFields]
    have hvisit : Steady (f.2.Asks (memberPath path f.1) (memberPath path f.1)) fun s => visit phase false
        (memberPath path f.1) (memberPath path f.1) ((Entries.get? f.1 es).getD .undefined) s f.2 := visit_steady
    obtain ⟨⟨hpicks, ht⟩, found, hfound, hfound'⟩ := hvisit.follows hfs hs hft
    have hgrows := Picks.Within.of_prefix (hvisit.grows s)
    have hrest : Steady (fun _ => True) fun s => visitFields phase path es s rest :=
      visitFields_steady fun g _ v => visit_steady.mono fun _ _ => trivial
    obtain ⟨ht', hend, hclean⟩ := ih ht fun g hg =>
      ⟨(hothers g hg).1, (hothers g hg).2.1.trans hgrows, (hothers g hg).2.2⟩
    refine ⟨ht', List.forall_mem_cons.2 ⟨hpicks.trans (Picks.Within.of_prefix (hrest.grows _)), hend⟩, ?_⟩
    rw [hclean, hfound', List.forall_mem_cons, hfound, Violations.foldl_add_eq_nil_iff,
      Violations.foldl_add_eq_nil_iff, hf, and_assoc]
    simp

end Survey

namespace Node

variable {m : Modifiers} {fields : List (String × Node)} {isOpen : Bool} {es : List (String × Value)} {table : String}
  {t : Picks} {s : Pass} {phase : Phase} {phases : List Phase} {context : Value}

theorem enter_map (hm : m.enumValues = []) {s : Survey} :
    Survey.enter phase false "" (.map es) s (object m fields isOpen) = (true, s) := by
  cases phase <;> simp [Survey.enter, Phase.visits, Value.isUndefined, isUnion, Phase.descends, Phase.check,
    Phase.checkRequired, Phase.checkType, accepts, isDate, kind?, plainKind?, Value.kind?, Phase.checkEnum, isEnumerated,
    modifiers, hm, Phase.checkRange, Survey.addAll]

theorem surveyed_map (hm : m.enumValues = []) : (object m fields isOpen).surveyed phase "" (.map es) s =
    ((Survey.visitFields phase "" es { picks := s.picks } fields).violations,
      { s with picks := (Survey.visitFields phase "" es { picks := s.picks } fields).picks }) := by
  simp only [surveyed, Survey.visit_eq, enter_map hm, if_true]
  rfl

theorem failure?_apart (alone : String × Node → Pass) (hm : m.enumValues = []) (hp : Phase.custom ∉ phases)
    (hv : (object m fields isOpen).Throughout fun n => n.modifiers.validator = none) (hs : s.picks.Within t)
    (ha : ∀ f ∈ fields, (alone f).picks.Within s.picks ∧ ((object m [f] isOpen).failure? "" table (.map (only f.1 es))
      (phases ++ [.custom]) (alone f)).2.picks.Within t) :
    ((object m fields isOpen).failure? "" table (.map es) (phases ++ [.custom]) s).1 = none ↔
      ∀ f ∈ fields, ((object m [f] isOpen).failure? "" table (.map (only f.1 es)) (phases ++ [.custom])
        (alone f)).1 = none := by
  induction phases generalizing s alone with
  | nil =>
    have hnone (fields : List (String × Node)) (es : List (String × Value)) (s : Pass)
        (hv : (object m fields isOpen).Throughout fun n => n.modifiers.validator = none) :
        ((object m fields isOpen).failure? "" table (.map es) [.custom] s).1 = none := by
      rw [failure?_cons, violationsOf, Passing.bind_apply, objections_of_no_validator hv]
      rfl
    refine ⟨fun _ f hf => hnone _ _ _ ?_, fun _ => hnone _ _ _ hv⟩
    exact throughout_iff.2 ⟨hv.self, List.forall_mem_singleton.2 (hv.field hf)⟩
  | cons phase rest ih =>
    obtain ⟨hphase, hrest⟩ := List.ne_and_not_mem_of_not_mem_cons hp
    simp only [List.cons_append, failure?_cons, violationsOf_eq_surveyed hphase.symm] at ha ⊢
    have halone : ∀ f ∈ fields, (alone f).picks.Within s.picks ∧
        ((object m [f] isOpen).surveyed phase "" (.map (only f.1 es)) (alone f)).2.picks.Within t := by
      intro f hf
      obtain ⟨hfs, hft⟩ := ha f hf
      refine ⟨hfs, ?_⟩
      split at hft
      · exact (Picks.Within.of_prefix (failure?_steady.grows _)).trans hft
      · exact hft
    simp only [surveyed_map hm] at halone ⊢
    obtain ⟨ht, hend, hclean⟩ := Survey.visitFields_apart (s := { picks := s.picks })
      (fun f => { picks := (alone f).picks }) hs fun f hf => ⟨rfl, halone f hf⟩
    simp only [surveyed_map hm, List.isEmpty_iff] at ha ⊢
    by_cases hall : ∀ f ∈ fields, (Survey.visitFields phase "" (only f.1 es) { picks := (alone f).picks } [f]).violations
        = []
    · rw [if_pos (hclean.2 ⟨rfl, hall⟩)]
      refine (@ih _ (fun f => { alone f with
        picks := (Survey.visitFields phase "" (only f.1 es) { picks := (alone f).picks } [f]).picks })
        hrest ht fun f hf => ⟨hend f hf, ?_⟩).trans (forall₂_congr fun f hf => ?_)
      · have hft := (ha f hf).2
        rwa [if_pos (hall f hf)] at hft
      · rw [if_pos (hall f hf)]
    · rw [if_neg fun hnil => hall (hclean.1 hnil).2]
      refine ⟨fun h => absurd h (Option.some_ne_none _), fun h => absurd (fun f hf => ?_) hall⟩
      by_contra hfound
      have hf' := h f hf
      rw [if_neg hfound] at hf'
      cases hf'

/-- What a put does with an item before it is marshalled: the item as it is to be stored, and why it is refused. -/
def intake (n : Node) (table : String) (item context : Value) : Passing (Value × Option Rejection) := do
  let prepared ← n.forStore item context
  let rejection ← n.validate "" table prepared
  return (prepared, rejection)

theorem intake_object (hn : (object m fields isOpen).Throughout CallbackFree) :
    (object m fields isOpen).intake table (.map es) context s =
      ((.map (storeFields isOpen fields es s).1,
        ((object m fields isOpen).validate "" table (.map (storeFields isOpen fields es s).1)
          (storeFields isOpen fields es s).2).1),
        ((object m fields isOpen).validate "" table (.map (storeFields isOpen fields es s).1)
          (storeFields isOpen fields es s).2).2) := by
  rw [intake, forStore_object hn]
  rfl

/-- An item is prepared as its fields are, each alone, and is accepted if they all are, if one table holds what is
picked for all of them. -/
theorem intake_apart (hm : m.enumValues = []) (hn : (object m fields isOpen).Throughout CallbackFree)
    (hv : (object m fields isOpen).Throughout fun n => n.modifiers.validator = none)
    (hd : (Entries.keys fields).Nodup) (he : (Entries.keys es).Nodup)
    (ht : ∀ f ∈ fields, ((object m [f] isOpen).intake table (.map (only f.1 es)) context {}).2.picks.Within t) :
    (∀ f ∈ fields, ((object m [f] isOpen).intake table (.map (only f.1 es)) context {}).1.1 =
      .map (only f.1 (storeFields isOpen fields es {}).1)) ∧
    (((object m fields isOpen).intake table (.map es) context {}).1.2 = none ↔
      ∀ f ∈ fields, ((object m [f] isOpen).intake table (.map (only f.1 es)) context {}).1.2 = none) := by
  have hsingle : ∀ f ∈ fields, (object m [f] isOpen).Throughout CallbackFree := fun f hf =>
    throughout_iff.2 ⟨⟨hn.self.setter, hn.self.default⟩, List.forall_mem_singleton.2 (hn.field hf)⟩
  have hstored : ∀ f ∈ fields, Picks.Within [] [] ∧
      (storeFields isOpen [f] (only f.1 es) {}).2.picks.Within t := by
    intro f hf
    have hintake := ht f hf
    rw [intake_object (hsingle f hf)] at hintake
    exact ⟨Picks.Within.refl, (Picks.Within.of_prefix (failure?_steady.grows _)).trans hintake⟩
  have hseparates : Separates fields (storeFields isOpen) := storeFields_separates hd
  obtain ⟨hs, halone⟩ := hseparates.apart (s := {}) (fun _ => {}) he Picks.Within.nil hstored
  have hprepared : ∀ f ∈ fields, ((object m [f] isOpen).intake table (.map (only f.1 es)) context {}).1.1 =
      .map (only f.1 (storeFields isOpen fields es {}).1) := by
    intro f hf
    rw [intake_object (hsingle f hf), (halone f hf).1]
  refine ⟨hprepared, ?_⟩
  rw [intake_object hn]
  have hsurveys : Phase.custom ∉ Phase.surveys := by decide
  refine (failure?_apart (fun f => (storeFields isOpen [f] (only f.1 es) {}).2) hm hsurveys hv hs
    fun f hf => ⟨(halone f hf).2, ?_⟩).trans (forall₂_congr fun f hf => ?_)
  · have hintake := ht f hf
    rw [intake_object (hsingle f hf), ← (halone f hf).1] at hintake
    exact hintake
  · rw [intake_object (hsingle f hf), ← (halone f hf).1]
    rfl

def cutTo (name : String) : Node → Node
  | object m fields isOpen => object m (only name fields) isOpen
  | n => n

end Node

def Value.cutTo (name : String) : Value → Value
  | map es => map (only name es)
  | v => v

theorem Picks.exists_within {α : Type} {xs : List α} {table : α → Picks}
    (h : ∀ x ∈ xs, ∀ y ∈ xs, ∀ k, k ∈ Entries.keys (table x) → k ∈ Entries.keys (table y) → x = y) :
    ∃ t : Picks, ∀ x ∈ xs, (table x).Within t := by
  induction xs with
  | nil => exact ⟨[], by simp⟩
  | cons x rest ih =>
    obtain ⟨t, ht⟩ := ih fun y hy z hz => h y (List.mem_cons_of_mem _ hy) z (List.mem_cons_of_mem _ hz)
    refine ⟨table x ++ t, fun y hy k place hplace => ?_⟩
    have hmem : k ∈ Entries.keys (table y) := Entries.has_iff.1 (by simp [Entries.has, hplace])
    rw [Entries.get?_append]
    cases hx : Entries.get? k (table x) with
    | none =>
      have hrest : y ∈ rest := (List.mem_cons.1 hy).resolve_left fun he => by simp [← he, hplace] at hx
      simpa using ht y hrest k place hplace
    | some other =>
      have hxk : k ∈ Entries.keys (table x) := Entries.has_iff.1 (by simp [Entries.has, hx])
      obtain rfl := h y hy x List.mem_cons_self k hmem hxk
      simpa using hx.symm.trans hplace

theorem Node.intake_keys {n : Node} {table k : String} {item context : Value}
    (h : k ∈ Entries.keys (n.intake table item context {}).2.picks) : n.Asks "" "" k := by
  have hsteady : (n.intake table item context).Steady (n.Asks "" "") :=
    forStore_through.steady.bind fun _ => failure?_steady.bind fun _ => .pure
  exact (hsteady.keys {} k h).resolve_left (by simp [Entries.keys])

namespace Schema

variable {decl : SchemaDeclaration} {s : Schema} {table : String} {es : List (String × Value)} {item context : Value}

/-- Every field of an item is prepared as it is alone, and the item is accepted exactly if every field is. -/
structure FieldsApart (s : Schema) (table : String) (item context : Value) : Prop where
  prepared : ∀ f ∈ s.fields, ((s.root.cutTo f.1).intake table (item.cutTo f.1) context {}).1.1 =
    (s.root.intake table item context {}).1.1.cutTo f.1
  accepted : (s.root.intake table item context {}).1.2 = none ↔
    ∀ f ∈ s.fields, ((s.root.cutTo f.1).intake table (item.cutTo f.1) context {}).1.2 = none

theorem root_eq (hdecl : ofDeclaration decl = .ok s) : s.root = .object { required := true } s.fields false ∧
    Entries.keys s.fields = Entries.keys decl := by
  obtain ⟨fields, draft, hf, -, -, -, -, hroot⟩ := of_ofDeclaration hdecl
  have hfields : s.fields = Entries.mapValues requireKey fields := by rw [Schema.fields, hroot]; rfl
  refine ⟨hfields ▸ hroot, ?_⟩
  rw [hfields, ← keys_fieldsOf hf]
  simp [Entries.mapValues, Entries.keys, Function.comp_def]

theorem fieldsApart_of_within (hdecl : ofDeclaration decl = .ok s) (hd : (Entries.keys decl).Nodup)
    (hn : s.root.Throughout Node.CallbackFree) (hv : s.root.Throughout fun n => n.modifiers.validator = none)
    (he : (Entries.keys es).Nodup) (ht : ∃ t, ∀ f ∈ s.fields,
      ((s.root.cutTo f.1).intake table ((Value.map es).cutTo f.1) context {}).2.picks.Within t) :
    s.FieldsApart table (.map es) context := by
  obtain ⟨t, ht⟩ := ht
  obtain ⟨hroot, hkeys⟩ := root_eq hdecl
  have hnodup : (Entries.keys s.fields).Nodup := hkeys ▸ hd
  have hcut : ∀ f ∈ s.fields, s.root.cutTo f.1 = .object { required := true } [f] false := by
    intro f hf
    rw [hroot, Node.cutTo, Entries.only_of_mem hnodup hf]
  rw [hroot] at hn hv
  have hwithin : ∀ f ∈ s.fields, ((Node.object { required := true } [f] false).intake table (.map (only f.1 es))
      context {}).2.picks.Within t := fun f hf => hcut f hf ▸ ht f hf
  have happly := Node.intake_apart rfl hn hv hnodup he hwithin
  refine ⟨fun f hf => ?_, ?_⟩
  · rw [hcut f hf, hroot, Node.intake_object hn]
    exact happly.1 f hf
  · rw [hroot, happly.2]
    refine forall₂_congr fun f hf => ?_
    rw [← hroot, hcut f hf]
    rfl

/-- Names without separators keep the picks of different fields apart, whatever the item. -/
theorem exists_within_of_clear (hdecl : ofDeclaration decl = .ok s) (hd : (Entries.keys decl).Nodup)
    (hc : ∀ name ∈ Entries.keys decl, ClearName name) : ∃ t, ∀ f ∈ s.fields,
      ((s.root.cutTo f.1).intake table (item.cutTo f.1) context {}).2.picks.Within t := by
  obtain ⟨hroot, hkeys⟩ := root_eq hdecl
  have hnodup : (Entries.keys s.fields).Nodup := hkeys ▸ hd
  have hname {f : String × Node} (hf : f ∈ s.fields) : ClearName f.1 :=
    hc f.1 (hkeys ▸ List.mem_map_of_mem (f := Prod.fst) hf)
  have hunder {f : String × Node} {k : String} (hf : f ∈ s.fields) (hk : k ∈ Entries.keys
      ((s.root.cutTo f.1).intake table (item.cutTo f.1) context {}).2.picks) :
      Under (memberPath "" f.1) (memberPath "" f.1) k := by
    have hasks := Node.intake_keys hk
    rw [hroot, Node.cutTo, Entries.only_of_mem hnodup hf] at hasks
    obtain _ | _ | ⟨hg, hasks⟩ := hasks
    obtain rfl := List.mem_singleton.1 hg
    exact hasks.under barred_self (memberPath_ne_empty (hname hf))
  refine Picks.exists_within fun f hf g hg k hfk hgk => ?_
  have hsame := members_disjoint (hname hf) (hname hg) (hunder hf hfk) (hunder hg hgk)
  exact List.inj_on_of_nodup_map hnodup hf hg hsame

def parcelFields (name : String) : SchemaDeclaration := [
  ("id", .typed .string none none false { memberships := { primary := true } }),
  ("size", .typed .object (some [("unit", .union [.tag .string, .tag .number])]) none false {}),
  (name, .union [.tag .string, .tag .number])]

def unit : Node := .union {} [.scalar {} .string, .scalar {} .number]

def parcels (name : String) : Schema where
  root := .object { required := true } [
    ("id", .scalar { required := true, memberships := { primary := true } } .string),
    ("size", .object {} [("unit", unit)] false),
    (name, unit)] false
  primaryKey := "id"
  sortKey := none
  attributeDefinitions := [⟨"id", .s⟩]
  localIndexes := []
  globalIndexes := []

def parcel (name : String) (unit : Value) : List (String × Value) :=
  [("id", .string "p"), ("size", .map [("unit", .string "cm")]), (name, unit)]

theorem parcels_callbackFree {name : String} : (parcels name).root.Throughout Node.CallbackFree := by
  have hunit : unit.Throughout Node.CallbackFree :=
    ⟨.of_none rfl rfl, .of_none rfl rfl, .of_none rfl rfl, trivial⟩
  exact ⟨.of_none rfl rfl, .of_none rfl rfl, ⟨.of_none rfl rfl, hunit, trivial⟩, hunit, trivial⟩

theorem parcels_validatorFree {name : String} :
    (parcels name).root.Throughout fun n => n.modifiers.validator = none := by
  simp [parcels, unit, Node.Throughout, Node.fieldsThroughout, Node.variantsThroughout, Node.modifiers]

/-- Where both unions pick the same variant, they do not get into each other's way, and under a name without a separator
they never do. -/
theorem parcel_fieldsApart : ofDeclaration (parcelFields "size.unit") = .ok (parcels "size.unit") ∧
    (parcels "size.unit").FieldsApart "parcels" (.map (parcel "size.unit" (.string "in"))) .undefined ∧
    ofDeclaration (parcelFields "unit") = .ok (parcels "unit") ∧
    ∀ u, (parcels "unit").FieldsApart "parcels" (.map (parcel "unit" u)) .undefined := by
  have hpath : ofDeclaration (parcelFields "size.unit") = .ok (parcels "size.unit") := rfl
  have hclear : ofDeclaration (parcelFields "unit") = .ok (parcels "unit") := rfl
  refine ⟨hpath, ?_, hclear, fun u => ?_⟩
  · refine fieldsApart_of_within hpath (by decide) parcels_callbackFree parcels_validatorFree (by decide)
      ⟨[("size.unit", some 0)], List.forall_mem_cons.2 ⟨?_, List.forall_mem_cons.2 ⟨?_, List.forall_mem_singleton.2 ?_⟩⟩⟩
    · exact Picks.Within.nil
    · exact Picks.Within.refl
    · exact Picks.Within.refl
  · have hd : (Entries.keys (parcelFields "unit")).Nodup := by decide
    have hnames : ∀ name ∈ Entries.keys (parcelFields "unit"), ClearName name := by
      have hkeys : Entries.keys (parcelFields "unit") = ["id", "size", "unit"] := rfl
      simp only [hkeys, List.forall_mem_cons]
      exact ⟨⟨by decide, by simp [isSeparator]⟩, ⟨by decide, by simp [isSeparator]⟩, ⟨by decide, by simp [isSeparator]⟩,
        nofun⟩
    have hkeys : (Entries.keys (parcel "unit" u)).Nodup := by
      change ["id", "size", "unit"].Nodup
      decide
    exact fieldsApart_of_within hclear hd parcels_callbackFree parcels_validatorFree hkeys
      (exists_within_of_clear hclear hd hnames)

/-- Where they do not, the field that is named by the path is refused with a value that it takes when it is alone. -/
theorem parcel_not_fieldsApart : ofDeclaration (parcelFields "size.unit") = .ok (parcels "size.unit") ∧
    ¬ (parcels "size.unit").FieldsApart "parcels" (.map (parcel "size.unit" (.number (.ofInt 5)))) .undefined ∧
    ((parcels "size.unit").root.intake "parcels" (.map (parcel "size.unit" (.number (.ofInt 5)))) .undefined {}).1.2 =
      some ⟨.type, "parcels", [("size.unit", .wrongKind "S" "N")]⟩ := by
  refine ⟨rfl, fun h => ?_, rfl⟩
  have haccepted := h.accepted.2 (List.forall_mem_cons.2 ⟨rfl, List.forall_mem_cons.2 ⟨rfl,
    List.forall_mem_singleton.2 rfl⟩⟩)
  cases haccepted

end Schema

end ItemMapper
