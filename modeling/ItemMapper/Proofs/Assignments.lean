import ItemMapper.Proofs.KeyFields
import ItemMapper.Proofs.FreshPicks
import ItemMapper.Proofs.Outcomes

/-!
# Assignments

What an update assigns to a field against what a put stores there. Both prune a value in the same way. A put turns
every date inside into its stored number and drops repeated members of sets, while an assignment only converts the
assigned value itself where its own node is a date.
-/

namespace ItemMapper

namespace Passing

variable {α β : Type} {F : String → Prop} {Q : Picks → Prop} {p : Passing α} {q : α → Passing β} {s : Pass} {t : Picks}

theorem Settles.holds_of_bind (hp : Settles F p Q) (hq : ∀ a, (q a).Grows) (hs : s.picks = [])
    (ht : ((p >>= q) s).2.picks <+: t) : Q t := by
  refine hp.holds s t (fun k hk => ?_) (((hq _) _).trans ht)
  rw [hs] at hk
  cases hk

end Passing

namespace Node

variable {n : Node} {item context v w : Value} {key path name : String} {t : Picks} {m : Modifiers}
  {fields : List (String × Node)} {isOpen : Bool} {es stored : List (String × Value)} {p q : Pass}

/-- A put stores the value at its node as an assignment would store it below the assigned node. -/
structure AsAssigned (n : Node) (v : Value) : Prop where
  date : n.isDate = true → v.truthy = true → n.storedForm v = v
  distinct : ∀ m items ms, n = set m items → v = .set ms → Value.AllDistinct ms

theorem converted_eq_pruned_iff : converted n v = pruned n v ↔ n.AsAssigned v := by
  have hdate : ((if n.isDate && v.truthy then n.storedForm v else v) = v) ↔
      (n.isDate = true → v.truthy = true → n.storedForm v = v) := by
    cases n.isDate <;> cases v.truthy <;> simp
  cases n with
  | set m items =>
    cases v with
    | set ms =>
      simp only [converted, Treatment.andThen, assigned, pruned, Value.set.injEq, Value.distinct_eq_self_iff]
      refine ⟨fun h => ⟨by simp [isDate], ?_⟩, fun h => h.distinct m items ms rfl rfl⟩
      rintro _ _ _ ⟨⟩ ⟨⟩
      exact h
    | _ => exact ⟨fun _ => ⟨by simp [isDate], by simp⟩, fun _ => rfl⟩
  | object m fields isOpen =>
    refine ⟨fun _ => ⟨by simp [isDate], by simp⟩, fun _ => ?_⟩
    rw [converted, Treatment.andThen]
    rfl
  | _ => exact hdate.trans ⟨fun h => ⟨h, by simp⟩, fun h => h.date⟩

theorem rewrite_converted_eq_pruned_iff (hk : n.Throughout WellKeyed) (hn : n.Throughout Bare)
    (hv : v.wellKeyed = true) (h : n.Follows t key path v) :
    n.rewrite t.chooser converted key path v = n.rewrite Chooser.fresh pruned key path v ↔
      n.Everywhere Chooser.fresh AsAssigned key path v := by
  have hadds : converted.AddsTo pruned := converted_trims.addsTo pruned_trims fun m fields isOpen es =>
    converted_eq_pruned_iff.2 ⟨by simp [isDate], by simp⟩
  rw [← h.rewrite _ pruned_trims, rewrite_eq_iff hadds hk hv, h.everywhere]
  constructor
  · intro h
    exact h.imp hn fun _ _ _ h => converted_eq_pruned_iff.1 h
  · intro h
    exact h.imp hn fun _ _ _ h => converted_eq_pruned_iff.2 h

theorem get?_rewrite_object {choose : Chooser} {own : Treatment} {f : String × Node} (ho : own.Trims)
    (hk : (Entries.keys fields).Nodup) (hf : f ∈ fields)
    (h : (object m fields isOpen).rewrite choose own key path (.map es) = .map stored) :
    Entries.get? f.1 stored = (Entries.get? f.1 es).map
      (f.2.rewrite choose own (memberPath path f.1) (memberPath path f.1)) := by
  obtain ⟨p, hp, hmap, -⟩ := ho.object m fields isOpen
  rw [rewrite_object (hmap es), Value.map.injEq] at h
  rw [← h, Entries.get?_map, Entries.get?_filter, if_pos (hp _ (List.mem_map_of_mem (f := Prod.fst) hf))]
  refine congrFun (congrArg Option.map (funext fun x => ?_)) _
  rw [rewriteField_eq, Entries.get?_of_mem hk hf]

theorem forStore_follows (hn : (object m fields isOpen).Throughout Bare)
    (hc : (object m fields isOpen).Throughout NamesClear) (hw : (object m fields isOpen).Throughout WellKeyed)
    (hi : (Value.map es).wellKeyed = true)
    (h : (object m fields isOpen).forStore (.map es) context p = (w, q)) (hp : p.picks = []) {f : String × Node}
    (hf : f ∈ fields) : f.2.Follows q.picks f.1 f.1 ((Entries.get? f.1 es).getD .undefined) := by
  have hclear := hc.self fields rfl
  have hdefault : m.default = none := hn.self.default
  have hfields : Passing.Settles (fun k => ∃ f ∈ fields, Under (memberPath "" f.1) (memberPath "" f.1) k)
      (fillFields (.map es) "" es fields) fun t => ∀ f ∈ fields, Follows t (memberPath "" f.1) (memberPath "" f.1)
        ((Entries.get? f.1 es).getD .undefined) f.2 := by
    refine fillFields_settles (Q := fun f x t => Follows t (memberPath "" f.1) (memberPath "" f.1) x f.2)
      hw.nodup_fields (pairwise_fields hw.nodup_fields hclear) fun f hf => ?_
    exact fill_settles (hn.field hf) (hc.field hf) (hw.field hf) (Value.wellKeyed_getD hi)
      (memberPath_ne_empty (hclear f hf)) barred_self
  have hfill : Passing.Settles (fun k => ∃ f ∈ fields, Under (memberPath "" f.1) (memberPath "" f.1) k)
      (fill (.map es) "" "" (.map es) (object m fields isOpen)) fun t => ∀ f ∈ fields,
        Follows t (memberPath "" f.1) (memberPath "" f.1) ((Entries.get? f.1 es).getD .undefined) f.2 := by
    rw [fill, withDefault_of_none hdefault, pure_bind]
    exact hfields.bind_pure
  have hpicks : ((object m fields isOpen).forStore (.map es) context p).2.picks <+: q.picks := h ▸ List.prefix_rfl
  rw [forStore] at hpicks
  refine hfill.holds_of_bind (fun _ => ?_) hp hpicks f hf
  exact shape_grows.bind fun _ => setValue_grows.bind fun _ => prune_grows

theorem get?_forStore (hn : (object m fields isOpen).Throughout Bare)
    (hc : (object m fields isOpen).Throughout NamesClear) (hw : (object m fields isOpen).Throughout WellKeyed)
    (hplain : (object m fields isOpen).Throughout Plain) (hi : (Value.map es).wellKeyed = true)
    (h : (object m fields isOpen).forStore (.map es) context p = (.map stored, q)) (hp : p.picks = [])
    {f : String × Node} (hf : f ∈ fields) (hv : Entries.get? f.1 es = some v) :
    f.2.Follows q.picks f.1 f.1 v ∧
      Entries.get? f.1 stored = some (f.2.rewrite q.picks.chooser converted f.1 f.1 v) := by
  have hfollows := forStore_follows hn hc hw hi h hp hf
  rw [hv, Option.getD_some] at hfollows
  refine ⟨hfollows, ?_⟩
  have hrewrite := rewrite_of_forStore hw hplain hi h
  rw [rewrite_eq_of_throughout (fun u hu x => prepared_of_bare hu) hn] at hrewrite
  rw [get?_rewrite_object converted_trims hw.nodup_fields hf hrewrite, hv]
  rfl

end Node

namespace UpdateDocument

variable {n : Node} {v w : Value} {path table : String} {p : Pass}

theorem of_fitted (hc : n.Throughout Node.NamesClear) (hw : n.Throughout Node.WellKeyed) (hv : v.wellKeyed = true)
    (hpath : path ≠ "") (hp : p.picks = []) (h : (fitted n path table v p).1 = .ok w) :
    w = n.storedForm (n.rewrite Chooser.fresh Node.pruned path path v) := by
  have hsettles := Node.prune_settles hc hw hv hpath barred_self
  have hfollows : n.Follows (n.prune path path v p).2.picks path path v := by
    refine hsettles.holds p _ (fun k hk => ?_) List.prefix_rfl
    rw [hp] at hk
    cases hk
  have hpruned : (n.prune path path v p).1 = n.rewrite Chooser.fresh Node.pruned path path v := by
    rw [← hfollows.rewrite _ Node.pruned_trims]
    exact Node.prune_gives p List.prefix_rfl
  rw [fitted, Passing.bind_apply, Passing.bind_apply, hpruned] at h
  cases ho : (n.validate path table (n.rewrite Chooser.fresh Node.pruned path path v) (n.prune path path v p).2).1 with
  | some e =>
    rw [ho] at h
    cases h
  | none =>
    rw [ho] at h
    exact (Except.ok.inj h).symm

section Reading

variable {place : Place} {target : DocumentPath} {value : Assigned} {d d' : UpdateDraft} {s s' : Session}

theorem of_reserve (h : (reserve place target d).run s = (.ok d', s')) : d'.update = d.update := by
  rw [reserve] at h
  split at h
  · cases h
  · obtain ⟨rfl, -⟩ := Mapping.of_pure h
    rfl

theorem of_assign (h : (assign place path value d).run s = (.ok d', s')) :
    d'.update.sets.map Assignment.value = d.update.sets.map Assignment.value ++ [value] := by
  rw [assign] at h
  obtain ⟨target, t, -, h⟩ := Mapping.of_bind h
  obtain ⟨d₁, t₁, hreserve, h⟩ := Mapping.of_bind h
  obtain ⟨rfl, -⟩ := Mapping.of_pure h
  rw [← of_reserve hreserve]
  exact List.map_append

theorem of_fitAt (h : (fitAt place n path v).run s = (.ok w, s')) :
    (fitted n path place.table v { calls := s.calls }).1 = .ok w := by
  rw [fitAt] at h
  obtain ⟨r, t, hpasses, h⟩ := Mapping.of_bind h
  obtain ⟨q, hp⟩ := Mapping.of_passes hpasses
  rw [hp]
  cases r with
  | error e => cases h
  | ok x =>
    obtain ⟨rfl, -⟩ := Mapping.of_pure h
    rfl

end Reading

theorem of_readUpdate {schema : Schema} {name : String} {s s' : Session} {u : Update}
    (hf : schema.field? name = some n)
    (h : (schema.readUpdate table (.map [("$set", .map [(name, v)])])).run s = (.ok u, s'))
    (hw : u.sets.map Assignment.value = [.operand (.literal w)]) :
    (fitted n name table v { calls := s.calls }).1 = .ok w := by
  have hset : readEntry ⟨schema, table⟩ none "$set" (.map [(name, v)]) {} =
      assignFields ⟨schema, table⟩ false [(name, v)] {} := rfl
  rw [Schema.readUpdate] at h
  obtain ⟨d, t, hentries, h⟩ := Mapping.of_bind h
  obtain ⟨rfl, -⟩ := Mapping.of_pure h
  rw [readEntries] at hentries
  obtain ⟨d₁, t₁, hentry, hread⟩ := Mapping.of_bind hentries
  obtain ⟨rfl, -⟩ := Mapping.of_pure hread
  rw [hset, assignFields] at hentry
  split at hentry
  · obtain ⟨rfl, -⟩ := Mapping.of_pure hentry
    cases hw
  · simp only [hf] at hentry
    obtain ⟨x, t₂, hfit, hentry⟩ := Mapping.of_bind hentry
    obtain ⟨d₂, t₃, hassign, hentry⟩ := Mapping.of_bind hentry
    obtain ⟨rfl, -⟩ := Mapping.of_pure hentry
    have hfits := of_fitAt hfit
    rw [of_assign hassign] at hw
    obtain rfl : x = w := by simpa using hw
    exact hfits

end UpdateDocument

namespace Mapper

variable {m : Mapper} {decl : SchemaDeclaration} {n : Node} {context v w w' : Value} {name : String}
  {es stored : List (String × Value)} {u : Update} {s s' q q' : Session}

/-- An update assigns to a field what a put stores there, exactly if the put converts nothing below the field and no
repeated member is dropped. A date that is assigned itself is converted by both, unless it counts as false. -/
theorem assigned_eq_put_iff (hdecl : Schema.ofDeclaration decl = .ok m.schema) (hk : m.schema.WellKeyed)
    (hn : m.schema.root.Throughout Node.Bare) (hc : m.schema.root.Throughout Node.NamesClear)
    (hi : (Value.map es).wellKeyed = true) (hf : m.schema.field? name = some n)
    (hupdate : (m.schema.readUpdate m.table (.map [("$set", .map [(name, v)])])).run s = (.ok u, s'))
    (hw : u.sets.map Assignment.value = [.operand (.literal w)])
    (hput : (m.storable (.map es) context).run q = (.ok (.map stored), q'))
    (hv : Entries.get? name es = some v) (hw' : Entries.get? name stored = some w') :
    (n.isDate = true → (w = w' ↔ (v.truthy = false → n.storedForm v = v))) ∧
      (n.isDate = false → (w = w' ↔ n.Everywhere Chooser.fresh Node.AsAssigned name name v)) := by
  obtain ⟨fields, draft, -, -, -, -, -, hroot⟩ := Schema.of_ofDeclaration hdecl
  have hplain : m.schema.root.Throughout Node.Plain :=
    (hn.and (Schema.root_holdsMembers hdecl)).mono fun n hn => ⟨hn.1.setter, hn.2⟩
  obtain ⟨t, hstore, -⟩ := of_storable hput
  rw [Schema.field?, Node.field?, hroot] at hf
  have hmem := Entries.mem_of_get? hf
  have hwk : m.schema.root.Throughout Node.WellKeyed := hk
  rw [hroot] at hn hc hwk hplain hstore
  obtain ⟨hfollows, hstored⟩ := Node.get?_forStore hn hc hwk hplain hi hstore rfl hmem hv
  obtain rfl := Option.some.inj (hstored.symm.trans hw')
  have hvk := Value.wellKeyed_get? hi hv
  have hname := (hc.self _ rfl _ hmem).ne_empty
  have hfitted := UpdateDocument.of_readUpdate (by rw [Schema.field?, Node.field?, hroot]; exact hf) hupdate hw
  obtain rfl := UpdateDocument.of_fitted (hc.field hmem) (hwk.field hmem) hvk hname rfl hfitted
  constructor
  · intro hdate
    obtain ⟨md, rfl⟩ : ∃ md, n = .scalar md .date := by
      cases n with
      | scalar md k => cases k <;> first | exact ⟨md, rfl⟩ | cases hdate
      | _ => cases hdate
    have hconverted : Node.converted (.scalar md .date) v =
        if v.truthy = true then (Node.scalar md .date).storedForm v else v := rfl
    simp only [Node.rewrite, Node.pruned, hconverted]
    cases v.truthy <;> simp
  · intro hdate
    rw [Node.storedForm, hdate, if_neg Bool.false_ne_true, eq_comm]
    exact Node.rewrite_converted_eq_pruned_iff (hwk.field hmem) (hn.field hmem) hvk hfollows

def tripFields : SchemaDeclaration := [
  ("id", .typed .string none none false { memberships := { primary := true } }),
  ("stops", .typed .array none (some (.tag .date)) false {})]

def trips : Mapper where
  table := "trips"
  schema := .compiled tripFields

def trip (stops : Value) : List (String × Value) := [("id", .string "a"), ("stops", stops)]

def stopsUpdate (stops : Value) : Update := { sets := [⟨⟨[.name "stops"]⟩, .operand (.literal stops)⟩] }

theorem trips_wellKeyed : trips.schema.WellKeyed :=
  ⟨.of_object (by decide) (.of_none rfl rfl), .of_none rfl rfl rfl, ⟨.of_none rfl rfl rfl, .of_none rfl rfl rfl⟩, trivial⟩

theorem trips_bare : trips.schema.root.Throughout Node.Bare :=
  ⟨.of_none rfl rfl rfl, .of_none rfl rfl rfl, ⟨.of_none rfl rfl rfl, .of_none rfl rfl rfl⟩, trivial⟩

theorem trips_namesClear : trips.schema.root.Throughout Node.NamesClear := by
  refine ⟨?_, .of_leaf rfl, ⟨.of_leaf rfl, .of_leaf rfl⟩, trivial⟩
  rintro _ ⟨⟩
  have hid : ClearName "id" := ⟨by decide, by simp [isSeparator]⟩
  have hstops : ClearName "stops" := ⟨by decide, by simp [isSeparator]⟩
  exact List.forall_mem_cons.2 ⟨hid, List.forall_mem_cons.2 ⟨hstops, by simp⟩⟩

def stopsChange (stops : Value) : Value := .map [("$set", .map [("stops", stops)])]

theorem trip_assigned_eq_put : ∃ s s' w w' stored,
    (trips.schema.readUpdate trips.table (stopsChange (.list [.number (.ofInt 86400000)]))).run {} =
        (.ok (stopsUpdate w), s) ∧
      (trips.storable (.map (trip (.list [.number (.ofInt 86400000)]))) .undefined).run {} = (.ok (.map stored), s') ∧
      Entries.get? "stops" stored = some w' ∧ w = w' := by
  have hdecl : Schema.ofDeclaration tripFields = .ok trips.schema := rfl
  have hupdate : (trips.schema.readUpdate trips.table (stopsChange (.list [.number (.ofInt 86400000)]))).run {} =
      (.ok (stopsUpdate (.list [.number (.ofInt 86400000)])), {}) := rfl
  have hput : (trips.storable (.map (trip (.list [.number (.ofInt 86400000)]))) .undefined).run {} =
      (.ok (.map (trip (.list [.number (.ofInt 86400000)]))), {}) := rfl
  have hstops : Node.Everywhere Chooser.fresh Node.AsAssigned "stops" "stops" (.list [.number (.ofInt 86400000)])
      (.list {} (.scalar {} .date)) := by
    refine Node.everywhere_list.2 ⟨⟨by simp [Node.isDate], by simp⟩, ?_⟩
    rintro _ ⟨⟩ e he
    obtain rfl : e = (.number (.ofInt 86400000), 0) := by simpa using he
    exact ⟨fun _ _ => rfl, by simp⟩
  have hiff := assigned_eq_put_iff hdecl trips_wellKeyed trips_bare trips_namesClear rfl rfl hupdate rfl hput rfl rfl
  exact ⟨_, _, _, _, _, hupdate, hput, rfl, (hiff.2 rfl).2 hstops⟩

/-- Stops that are given as texts stay texts in an update, though nothing but their type is declared. -/
theorem trip_assigned_differs : Schema.ofDeclaration tripFields = .ok trips.schema ∧
    trips.schema.root.Throughout Node.Bare ∧ ∃ s s' w w' stored,
    (trips.schema.readUpdate trips.table (stopsChange (.list [.string "1970-01-02T00:00:00Z"]))).run {} =
        (.ok (stopsUpdate w), s) ∧
      (trips.storable (.map (trip (.list [.string "1970-01-02T00:00:00Z"]))) .undefined).run {} =
        (.ok (.map stored), s') ∧
      Entries.get? "stops" stored = some w' ∧ w ≠ w' := by
  refine ⟨rfl, trips_bare, {}, {}, .list [.string "1970-01-02T00:00:00Z"], .list [.number (.ofInt 86400000)],
    trip (.list [.number (.ofInt 86400000)]), rfl, rfl, rfl, ?_⟩
  simp

end Mapper

end ItemMapper
