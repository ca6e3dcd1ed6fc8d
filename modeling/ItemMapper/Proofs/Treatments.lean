import ItemMapper.Proofs.Picks

/-!
# Treatments of the passes before a store

What filling, shaping, assigning and pruning do with a value at its node when no setter is declared, and that each
of these passes is the rewriting by its treatment under any table that holds its picks.
-/

namespace ItemMapper

def Modifiers.orDefault (m : Modifiers) (item v : Value) : Value :=
  if !v.isUndefined then v
  else match m.default with
    | some (.fixed d) => d
    | some (.computed f) => f.run item
    | none => v

namespace Node

def missing (item : Value) (entries : List (String × Value)) (fields : List (String × Node)) : List (String × Value) :=
  (fields.filter fun f => !Entries.has f.1 entries && !(f.2.modifiers.orDefault item .undefined).isUndefined).map
    fun f => (f.1, f.2.modifiers.orDefault item .undefined)

/-- Filling: an absent value gives way to its default, and an object gets the defaults of its fields. -/
def filled (item : Value) : Treatment
  | object m fields _, v =>
    match m.orDefault item v with
    | .map entries => .map (entries ++ missing item entries fields)
    | w => w
  | n, v => n.modifiers.orDefault item v

def shapedText : Node → Value → Value
  | scalar m .string, .string s => .string (m.shapeText s)
  | _, v => v

def shaped : Treatment
  | set _ items, .set members => .set (Value.distinct (members.map items.shapedText))
  | n, v => n.shapedText v

/-- Assigning without setters: what counts as true and denotes a date is stored as a number. -/
def assigned : Treatment
  | set _ _, .set members => .set (Value.distinct members)
  | n, v => if n.isDate && v.truthy then n.storedForm v else v

def pruned : Treatment
  | object _ fields isOpen, .map entries => .map (keptEntries fields isOpen entries)
  | _, v => v

structure Plain (n : Node) : Prop where
  setter : n.modifiers.setter = none
  members : ∀ m items, n = set m items → items.isMemberNode = true

variable {n : Node} {item v : Value} {key path : String} {t : Picks} {around : Surroundings} {m : Modifiers}

theorem orDefault_of_defined (h : v.isUndefined = false) : m.orDefault item v = v := by
  simp [Modifiers.orDefault, h]

theorem withDefault_gives : Passing.Gives t (withDefault m item v) (m.orDefault item v) := by
  rw [withDefault, Modifiers.orDefault]
  split
  · exact Passing.Gives.pure
  · cases hd : m.default with
    | none => exact Passing.Gives.pure
    | some d => cases d <;> exact fun s hs => rfl

theorem filled_keepsDefined : (filled item).KeepsDefined := by
  intro n v hv
  cases n with
  | object m fields isOpen =>
    simp only [filled, orDefault_of_defined hv]
    cases v <;> first | rfl | cases hv
  | _ => simpa only [filled, orDefault_of_defined hv] using hv

theorem orDefault_orDefault : m.orDefault item (m.orDefault item v) = m.orDefault item v := by
  cases hv : v.isUndefined with
  | false => rw [orDefault_of_defined hv, orDefault_of_defined hv]
  | true =>
    obtain rfl := Value.eq_undefined_iff.2 hv
    cases hd : (m.orDefault item .undefined).isUndefined with
    | false => exact orDefault_of_defined hd
    | true => rw [Value.eq_undefined_iff.2 hd, Value.eq_undefined_iff.2 hd]

theorem rewrite_filled_orDefault {choose : Chooser} :
    n.rewrite choose (filled item) key path (n.modifiers.orDefault item v) =
      n.rewrite choose (filled item) key path v := by
  refine rewrite_congr ?_
  cases n with
  | object m fields isOpen => simp only [filled, modifiers, orDefault_orDefault]
  | _ => exact orDefault_orDefault

theorem missing_cons {f : String × Node} {rest : List (String × Node)} {entries : List (String × Value)} :
    missing item entries (f :: rest) =
      (if Entries.has f.1 entries || (f.2.modifiers.orDefault item .undefined).isUndefined then []
        else [(f.1, f.2.modifiers.orDefault item .undefined)]) ++ missing item entries rest := by
  rw [missing, List.filter_cons]
  cases Entries.has f.1 entries <;> cases (f.2.modifiers.orDefault item .undefined).isUndefined <;> rfl

theorem keys_missing_sublist {entries : List (String × Value)} {fields : List (String × Node)} :
    (Entries.keys (missing item entries fields)).Sublist (Entries.keys fields) := by
  simp only [missing, Entries.keys, List.map_map]
  exact List.filter_sublist.map Prod.fst

theorem missing_congr {entries others : List (String × Value)} {fields : List (String × Node)}
    (h : ∀ f ∈ fields, Entries.has f.1 entries = Entries.has f.1 others) :
    missing item entries fields = missing item others fields := by
  rw [missing, missing]
  refine congrArg (List.map _) (List.filter_congr fun f hf => ?_)
  rw [h f hf]

def rewriteIn (choose : Chooser) (own : Treatment) (path name : String) (n : Node) (v : Value) : Value :=
  n.rewrite choose own (memberPath path name) (memberPath path name) v

theorem fieldValue_rewriteIn {choose : Chooser} {own : Treatment} {fields : List (String × Node)} {e : String × Value} :
    Passing.fieldValue (rewriteIn choose own path) fields e = rewriteField choose own path e.1 e.2 fields := by
  rw [rewriteField_eq, Passing.fieldValue]
  cases Entries.get? e.1 fields <;> rfl

theorem gives_enter {variants : List Node} {own : Treatment} {w : Value} {enter : Node → Passing Value}
    {q : Option Nat → Passing Value} (hown : own (union m variants) w = v) (hgrows : ∀ u ∈ variants, (enter u).Grows)
    (h : ∀ u ∈ variants, Passing.Gives t (enter u) (u.rewrite t.chooser own (nestedKey key) path v))
    (hnone : q none = pure v) (hsome : ∀ i, q (some i) = atVariant enter (pure v) variants i) :
    Passing.Gives t (Passing.pick key path variants v >>= q) ((union m variants).rewrite t.chooser own key path w) := by
  refine Passing.Gives.bind (fun place => ?_) (Passing.Gives.pick _ _ _ _) ?_
  · cases place with
    | none => exact hnone ▸ Passing.Grows.pure
    | some i => exact hsome i ▸ Passing.Grows.atVariant hgrows Passing.Grows.pure
  · rw [rewrite_union_eq, hown]
    cases t.chooser key path variants v with
    | none => exact hnone ▸ Passing.Gives.pure
    | some i =>
      simp only [hsome, rewriteVariant_eq, atVariant]
      cases hu : variants[i]? with
      | none => exact Passing.Gives.pure
      | some u => exact h u (List.mem_of_getElem? hu)

theorem fillFields_grows {entries : List (String × Value)} {fields : List (String × Node)} :
    (fillFields item path entries fields).Grows := by
  induction fields generalizing entries with
  | nil => exact Passing.Grows.pure
  | cons f rest ih =>
    rw [fillFields]
    exact fill_grows.bind fun w => ih

theorem filled_isUndefined : (filled item n v).isUndefined = (n.modifiers.orDefault item v).isUndefined := by
  cases n with
  | object m fields isOpen =>
    simp only [filled, modifiers]
    cases m.orDefault item v <;> rfl
  | _ => rfl

theorem rewriteIn_filled_isUndefined {name : String} :
    (rewriteIn t.chooser (filled item) path name n v).isUndefined = (n.modifiers.orDefault item v).isUndefined := by
  rw [rewriteIn, rewrite_isUndefined filled_keepsDefined, filled_isUndefined]

section Fields

variable {f : String × Node} {rest fields : List (String × Node)} {entries : List (String × Value)}

/-- The entries once a field is filled. A field that has no value and no default stays out. -/
def fillField (t : Picks) (item : Value) (path : String) (f : String × Node) (entries : List (String × Value)) :
    List (String × Value) :=
  let w := rewriteIn t.chooser (filled item) path f.1 f.2 ((Entries.get? f.1 entries).getD .undefined)
  if w.isUndefined then entries else Entries.insert f.1 w entries

theorem get?_fillField_of_ne {name : String} (h : f.1 ≠ name) :
    Entries.get? name (fillField t item path f entries) = Entries.get? name entries := by
  rw [fillField]
  split
  · rfl
  · exact Entries.get?_insert_of_ne h

theorem nodup_fillField (he : (Entries.keys entries).Nodup) : (Entries.keys (fillField t item path f entries)).Nodup := by
  rw [fillField]
  split
  · exact he
  · exact Entries.nodup_keys_insert he

/-- What is there keeps its place, so that writing it again is all the same if it stays undefined. -/
theorem fillField_of_some (hv : Entries.get? f.1 entries = some v) : fillField t item path f entries =
    Entries.insert f.1 (rewriteIn t.chooser (filled item) path f.1 f.2 v) entries := by
  simp only [fillField, hv, Option.getD_some]
  split
  · rename_i hw
    have hdef : v.isUndefined = true := by
      cases hd : v.isUndefined with
      | true => rfl
      | false => rw [rewriteIn_filled_isUndefined, orDefault_of_defined hd, hd] at hw; cases hw
    rw [Value.eq_undefined_iff.2 hw, ← Value.eq_undefined_iff.2 hdef, Entries.insert_get? hv]
  · rfl

theorem fillField_of_none (hv : Entries.get? f.1 entries = none) : fillField t item path f entries =
    entries ++ if (f.2.modifiers.orDefault item .undefined).isUndefined then []
      else [(f.1, rewriteIn t.chooser (filled item) path f.1 f.2 .undefined)] := by
  simp only [fillField, hv, Option.getD_none, rewriteIn_filled_isUndefined]
  split
  · exact (List.append_nil entries).symm
  · exact Entries.insert_of_get?_eq_none hv

theorem map_missing_cons (hf : f.1 ∉ Entries.keys rest) (he : (Entries.keys entries).Nodup) :
    ((entries ++ missing item entries (f :: rest)).map
      fun e => (e.1, Passing.fieldValue (rewriteIn t.chooser (filled item) path) (f :: rest) e)) =
    (fillField t item path f entries ++ missing item (fillField t item path f entries) rest).map
      fun e => (e.1, Passing.fieldValue (rewriteIn t.chooser (filled item) path) rest e) := by
  have hmissing : f.1 ∉ Entries.keys (missing item entries rest) := fun hmem => hf (keys_missing_sublist.subset hmem)
  have hsame : missing item (fillField t item path f entries) rest = missing item entries rest :=
    missing_congr fun k hk => by
      rw [Entries.has, Entries.has, get?_fillField_of_ne fun hfk => hf (hfk ▸ List.mem_map_of_mem (f := Prod.fst) hk)]
  rw [hsame, missing_cons]
  cases hv : Entries.get? f.1 entries with
  | some v =>
    have hhas : Entries.has f.1 entries = true := by simp [Entries.has, hv]
    rw [fillField_of_some hv, hhas, Bool.true_or, if_pos rfl, List.nil_append, List.map_append, List.map_append,
      Passing.map_fieldValue_insert hf he hv, Passing.map_fieldValue_cons hmissing]
  | none =>
    have hnot := Entries.get?_eq_none_iff.1 hv
    have hhas : Entries.has f.1 entries = false := Entries.has_eq_false_iff.2 hnot
    rw [fillField_of_none hv, hhas, Bool.false_or, List.map_append, List.map_append, List.map_append, List.map_append,
      Passing.map_fieldValue_cons hnot, Passing.map_fieldValue_cons hmissing, List.append_assoc]
    split
    · rfl
    · have hadded : Passing.fieldValue (rewriteIn t.chooser (filled item) path) (f :: rest)
          (f.1, f.2.modifiers.orDefault item .undefined) =
            rewriteIn t.chooser (filled item) path f.1 f.2 .undefined := by
        simp only [Passing.fieldValue, Entries.get?, if_pos]
        exact rewrite_filled_orDefault
      rw [List.map_singleton, List.map_singleton, hadded, Passing.fieldValue_of_not_mem hf]

theorem fillFields_gives (hd : (Entries.keys fields).Nodup) (he : (Entries.keys entries).Nodup)
    (h : ∀ f ∈ fields, Passing.Gives t
      (fill item (memberPath path f.1) (memberPath path f.1) ((Entries.get? f.1 entries).getD .undefined) f.2)
      (rewriteIn t.chooser (filled item) path f.1 f.2 ((Entries.get? f.1 entries).getD .undefined))) :
    Passing.Gives t (fillFields item path entries fields) ((entries ++ missing item entries fields).map
      fun e => (e.1, Passing.fieldValue (rewriteIn t.chooser (filled item) path) fields e)) := by
  induction fields generalizing entries with
  | nil =>
    have hmap : ((entries ++ missing item entries []).map
        fun e => (e.1, Passing.fieldValue (rewriteIn t.chooser (filled item) path) [] e)) = entries := by
      rw [missing, List.filter_nil, List.map_nil, List.append_nil]
      exact List.map_id' entries
    rw [hmap]
    exact Passing.Gives.pure
  | cons f rest ih =>
    obtain ⟨hf, hrest⟩ := List.nodup_cons.1 hd
    have hothers : ∀ k ∈ rest, Entries.get? k.1 (fillField t item path f entries) = Entries.get? k.1 entries :=
      fun k hk => get?_fillField_of_ne fun hfk => hf (hfk ▸ List.mem_map_of_mem (f := Prod.fst) hk)
    have hnodup : (Entries.keys (fillField t item path f entries)).Nodup := nodup_fillField he
    have hrec := ih hrest hnodup fun k hk => by
      rw [hothers k hk]
      exact h k (List.mem_cons_of_mem _ hk)
    rw [fillFields, map_missing_cons hf he]
    exact Passing.Gives.bind (fun w => fillFields_grows) (h f List.mem_cons_self) hrec

end Fields

theorem wellKeyed_orDefault (hm : m.WellKeyed) (hi : item.wellKeyed = true) (hv : v.wellKeyed = true) :
    (m.orDefault item v).wellKeyed = true := by
  rw [Modifiers.orDefault]
  split
  · exact hv
  · cases hd : m.default with
    | none => exact hv
    | some d =>
      cases d with
      | fixed d => exact hm.fixed d hd
      | computed f => exact hm.computed f hd item hi

theorem fillPicked_grows {variants : List Node} (place : Option Nat) : (match place with
    | some i => fillVariant item (nestedKey key) path v i variants
    | none => pure v : Passing Value).Grows := by
  cases place with
  | none => exact Passing.Grows.pure
  | some i =>
    simp only [fillVariant_eq]
    exact Passing.Grows.atVariant (fun u _ => fill_grows) Passing.Grows.pure

theorem fill_gives (hi : item.wellKeyed = true) (hn : n.Throughout WellKeyed) (hv : v.wellKeyed = true) :
    Passing.Gives t (fill item key path v n) (n.rewrite t.chooser (filled item) key path v) := by
  induction n generalizing key path v with
  | object m fields isOpen ih =>
    have hw := wellKeyed_orDefault hn.self.sources hi hv
    rw [fill]
    refine Passing.Gives.bind ?_ withDefault_gives ?_
    · intro w
      cases w with
      | map entries => exact fillFields_grows.bind fun es => Passing.Grows.pure
      | _ => exact Passing.Grows.pure
    · simp only [modifiers] at hw
      rw [rewrite, filled]
      cases hd : m.orDefault item v with
      | map entries =>
        rw [hd] at hw
        simp only [← fieldValue_rewriteIn]
        refine Passing.Gives.bind (fun es => Passing.Grows.pure) (fillFields_gives hn.nodup_fields
          (Value.wellKeyed_map.1 hw).1 fun f hf => ?_) Passing.Gives.pure
        exact ih f hf (hn.field hf) (Value.wellKeyed_getD hw)
      | _ => exact Passing.Gives.pure
  | list m items ih =>
    have hw := wellKeyed_orDefault hn.self.sources hi hv
    rw [fill]
    refine Passing.Gives.bind ?_ withDefault_gives ?_
    · intro w
      cases w with
      | list elements => exact (Passing.Grows.mapM fun e => fill_grows).bind fun es => Passing.Grows.pure
      | _ => exact Passing.Grows.pure
    · simp only [modifiers] at hw
      simp only [rewrite, filled, modifiers]
      cases hd : m.orDefault item v with
      | list elements =>
        rw [hd] at hw
        refine Passing.Gives.bind (fun es => Passing.Grows.pure) (Passing.Gives.mapM (fun e => fill_grows)
          fun e he => ?_) Passing.Gives.pure
        exact ih hn.item (Value.wellKeyed_list.1 hw e.1 (List.fst_mem_of_mem_zipIdx he))
      | _ => exact Passing.Gives.pure
  | union m variants ih =>
    have hw := wellKeyed_orDefault hn.self.sources hi hv
    rw [fill]
    refine Passing.Gives.bind (fun w => (Passing.Grows.pick _ _ _ _).bind fillPicked_grows) withDefault_gives ?_
    exact gives_enter rfl (fun u _ => fill_grows) (fun u hu => ih u hu (hn.variant hu) hw) rfl fun i => fillVariant_eq
  | _ => exact withDefault_gives

theorem shape_scalar {k : Scalar} : shape key path v (scalar m k) = pure ((scalar m k).shapedText v) := by
  cases k <;> cases v <;> rfl

theorem Throughout.member_scalar {items : Node} (hn : (set m items).Throughout Plain) :
    ∃ md k, items = scalar md k ∧ k ≠ .date := by
  have hmember := hn.self.members m items rfl
  cases items with
  | scalar md k => exact ⟨md, k, rfl, by rintro rfl; cases hmember⟩
  | _ => cases hmember

theorem shape_gives (hk : n.Throughout WellKeyed) (hn : n.Throughout Plain) (hv : v.wellKeyed = true) :
    Passing.Gives t (shape key path v n) (n.rewrite t.chooser shaped key path v) := by
  induction n generalizing key path v with
  | scalar m k =>
    rw [shape_scalar]
    exact Passing.Gives.pure
  | object m fields isOpen ih =>
    cases v with
    | map entries =>
      rw [shape, shapeFields_eq, rewrite_object (show shaped (object m fields isOpen) (.map entries) = _ from rfl)]
      simp only [← fieldValue_rewriteIn]
      refine Passing.Gives.bind (fun es => Passing.Grows.pure) (Passing.Gives.overFields hk.nodup_fields
        (Value.wellKeyed_map.1 hv).1 (fun f hf v => shape_grows) fun f hf v hget => ?_) Passing.Gives.pure
      exact ih f hf (hk.field hf) (hn.field hf) (Value.wellKeyed_get? hv hget)
    | _ => exact Passing.Gives.pure
  | list m items ih =>
    cases v with
    | list elements =>
      refine Passing.Gives.bind (fun es => Passing.Grows.pure) (Passing.Gives.mapM (fun e => shape_grows)
        fun e he => ?_) Passing.Gives.pure
      exact ih hk.item hn.item (Value.wellKeyed_list.1 hv e.1 (List.fst_mem_of_mem_zipIdx he))
    | _ => exact Passing.Gives.pure
  | set m items =>
    cases v with
    | set members =>
      obtain ⟨md, k, rfl, -⟩ := hn.member_scalar
      refine Passing.Gives.bind (fun es => Passing.Grows.pure) (Passing.Gives.mapM (fun e => shape_grows)
        fun e he => ?_) Passing.Gives.pure
      rw [shape_scalar]
      exact Passing.Gives.pure
    | _ => exact Passing.Gives.pure
  | union m variants ih =>
    exact gives_enter rfl (fun u _ => shape_grows) (fun u hu => ih u hu (hk.variant hu) (hn.variant hu) hv) rfl
      fun i => shapeVariant_eq
  | any m => exact Passing.Gives.pure
  | undefined m => exact Passing.Gives.pure

theorem setOwn_eq (hn : n.modifiers.setter = none) :
    setOwn around n v = pure (if n.isDate && v.truthy then n.storedForm v else v) := by
  rw [setOwn, hn]
  rfl

theorem setOwn_of_not_date (hn : n.modifiers.setter = none) (hd : n.isDate = false) : setOwn around n v = pure v := by
  simp [setOwn_eq hn, hd]

theorem setValue_eq_assigned (hn : n.modifiers.setter = none) (hs : ∀ m items, n ≠ set m items)
    (ho : n.fields? = none) (hi : n.items? = none) (hu : n.isUnion = false) :
    setValue around key path v n = pure (assigned n v) := by
  cases n with
  | object m fields isOpen => cases ho
  | list m items => cases hi
  | set m items => exact absurd rfl (hs m items)
  | union m variants => cases hu
  | _ =>
    rw [setValue, setOwn_eq hn]
    split
    · rename_i hv
      rw [Value.eq_undefined_iff.2 hv]
      simp [assigned, Value.truthy]
    · rfl

theorem assigned_of_not_date (hd : n.isDate = false) (hs : ∀ m items, n ≠ set m items) : assigned n v = v := by
  cases n with
  | set m items => exact absurd rfl (hs m items)
  | _ => simp [assigned, hd]

theorem setMembers_gives {members : List Value} {items : Node} (hn : (set m items).Throughout Plain) :
    Passing.Gives t (members.mapM fun e => setValue around path path e items) members := by
  obtain ⟨md, k, rfl, hk⟩ := hn.member_scalar
  have hdate : (scalar md k).isDate = false := by
    cases k <;> first | rfl | contradiction
  have hitems : Passing.Gives t (members.mapM fun e => setValue around path path e (scalar md k)) (members.map id) := by
    refine Passing.Gives.mapM (fun e => setValue_grows) fun e _ => ?_
    rw [setValue_eq_assigned hn.member.self.setter (by simp) rfl rfl rfl, assigned_of_not_date hdate (by simp)]
    exact Passing.Gives.pure
  rwa [List.map_id] at hitems

theorem setValue_gives (hk : n.Throughout WellKeyed) (hn : n.Throughout Plain) (hv : v.wellKeyed = true) :
    Passing.Gives t (setValue around key path v n) (n.rewrite t.chooser assigned key path v) := by
  induction n generalizing key path v with
  | object m fields isOpen ih =>
    rw [setValue, setOwn_of_not_date hn.self.setter rfl, pure_bind]
    cases v with
    | map entries =>
      rw [rewrite_object (show assigned (object m fields isOpen) (.map entries) = _ from rfl)]
      simp only [Value.isUndefined, Bool.false_eq_true, if_false, ← fieldValue_rewriteIn, setFields_eq]
      refine Passing.Gives.bind (fun es => Passing.Grows.pure) (Passing.Gives.overFields hk.nodup_fields
        (Value.wellKeyed_map.1 hv).1 (fun f hf v => setValue_grows) fun f hf v hget => ?_) Passing.Gives.pure
      exact ih f hf (hk.field hf) (hn.field hf) (Value.wellKeyed_get? hv hget)
    | _ => exact Passing.Gives.pure
  | list m items ih =>
    rw [setValue, setOwn_of_not_date hn.self.setter rfl, pure_bind]
    cases v with
    | list elements =>
      refine Passing.Gives.bind (fun es => Passing.Grows.pure) (Passing.Gives.mapM (fun e => setValue_grows)
        fun e he => ?_) Passing.Gives.pure
      exact ih hk.item hn.item (Value.wellKeyed_list.1 hv e.1 (List.fst_mem_of_mem_zipIdx he))
    | _ => exact Passing.Gives.pure
  | set m items =>
    rw [setValue, setOwn_of_not_date hn.self.setter rfl, pure_bind]
    cases v with
    | set members =>
      exact Passing.Gives.bind (fun es => Passing.Grows.pure) (setMembers_gives hn) Passing.Gives.pure
    | _ => exact Passing.Gives.pure
  | union m variants ih =>
    exact gives_enter (assigned_of_not_date rfl (by simp)) (fun u _ => setValue_grows)
      (fun u hu => ih u hu (hk.variant hu) (hn.variant hu) hv) rfl fun i => setVariant_eq
  | scalar m k =>
    rw [setValue_eq_assigned hn.self.setter (by simp) rfl rfl rfl]
    exact Passing.Gives.pure
  | any m =>
    rw [setValue_eq_assigned hn.self.setter (by simp) rfl rfl rfl]
    exact Passing.Gives.pure
  | undefined m =>
    rw [setValue_eq_assigned hn.self.setter (by simp) rfl rfl rfl]
    exact Passing.Gives.pure

theorem prune_gives : Passing.Gives t (prune key path v n) (n.rewrite t.chooser pruned key path v) := by
  induction n generalizing key path v with
  | object m fields isOpen ih =>
    cases v with
    | map entries =>
      rw [prune, rewrite_object (show pruned (object m fields isOpen) (.map entries) = _ from rfl)]
      refine Passing.Gives.bind (fun es => Passing.Grows.pure) (Passing.Gives.mapM (fun e => ?_) fun e he => ?_)
        Passing.Gives.pure
      · obtain ⟨name, x⟩ := e
        simp only [pruneField_eq]
        cases Entries.get? name fields with
        | none => exact Passing.Grows.pure
        | some u => exact prune_grows.bind fun w => Passing.Grows.pure
      · obtain ⟨name, x⟩ := e
        simp only [pruneField_eq, rewriteField_eq]
        cases hu : Entries.get? name fields with
        | none => exact Passing.Gives.pure
        | some u =>
          exact Passing.Gives.bind (fun w => Passing.Grows.pure) (ih (name, u) (Entries.mem_of_get? hu))
            Passing.Gives.pure
    | _ => exact Passing.Gives.pure
  | list m items ih =>
    cases v with
    | list elements =>
      exact Passing.Gives.bind (fun es => Passing.Grows.pure) (Passing.Gives.mapM (fun e => prune_grows)
        fun e he => ih) Passing.Gives.pure
    | _ => exact Passing.Gives.pure
  | union m variants ih =>
    exact gives_enter rfl (fun u _ => prune_grows) (fun u hu => ih u hu) rfl fun i => pruneVariant_eq
  | _ => exact Passing.Gives.pure

end Node

end ItemMapper
