import ItemMapper.Proofs.AbsentPuts
import ItemMapper.Proofs.Assignments
import ItemMapper.Proofs.Paging
import ItemMapper.Proofs.SessionCaches
import ItemMapper.Proofs.StoredScalars

/-!
# Finding what was put

A scan whose filter asks for the value that an attribute was just put with. The put takes the value for a date as the
variant of a union does that it goes to, whereas the filter only looks whether the attribute itself is a date. So the
scan finds the item unless the put has turned a value of a union into a count that is not the same number.
-/

namespace ItemMapper

variable {schema : Schema} {n : Node} {v w : Value} {name : String} {s s' : Session} {lookups : List Schema.Lookup}

theorem Node.walk_of_field? {root : Node} (h : root.field? name = some n) : root.walk [.name name] = n := by
  cases root with
  | object m fields isOpen =>
    have hfield : Entries.get? name fields = some n := h
    rw [walk, step?, hfield]
    rfl
  | _ => cases h

theorem Mapping.node_of_field (hf : schema.field? name = some n)
    (hpath : DocumentPath.parse? name = some (.field name)) (hcache : s.cache = schema.filled lookups []) :
    ∃ after, (node schema name).run s = (.ok n, after) := by
  have hnode : (schema.nodeAtText name s.cache).1 = .ok n := by
    rw [hcache, Schema.nodeAtText_field hpath, Node.walk_of_field? hf]
  refine ⟨{ s with cache := (schema.nodeAtText name s.cache).2 }, ?_⟩
  simp only [node, ExceptT.run, hnode]

theorem Mapping.run_rendered {α : Type} {r : Rendering α} {a : α} {t t' : Tokens} (h : r.run t = (.ok a, t')) :
    (rendered r t).run s = (.ok (a, t'), s) := by
  simp only [rendered, ExceptT.run] at h ⊢
  rw [h]

theorem Condition.eval_comparePath {options : MarshalOptions} {op : Comparison} {y : Wire} {item : Item}
    {other : Condition → Bool} (hy : options.wire? v = some y) :
    (comparePath (.field name) op v).eval options (some item) other =
      (Entries.get? name item).any fun x => op.holds (x.order? y) := by
  have hsupported : (comparePath (.field name) op v).supported? options (some item) =
      some ((Entries.get? name item).any fun x => op.holds (x.order? y)) := by
    simp only [comparePath, DocumentPath.field, supported?, hy, Option.map_some, Option.bind_some]
    cases Entries.get? name item <;> rfl
  change ((comparePath (.field name) op v).supported? options (some item)).getD _ = _
  rw [hsupported, Option.getD_some]

namespace ConditionDocument

def equality (name : String) (v : Value) : Value := .map [(name, v)]

theorem run_inStoredForm (hf : schema.field? name = some n) (hpath : DocumentPath.parse? name = some (.field name))
    (hv : v.isScalar = true) (hcache : s.cache = schema.filled lookups []) :
    ∃ after, (inStoredForm schema name v).run s = (.ok (n.scalarForm v), after) := by
  rw [inStoredForm]
  cases htruthy : v.truthy with
  | true =>
    obtain ⟨after, hnode⟩ := Mapping.node_of_field hf hpath hcache
    have hliteral : literalForm n v = n.scalarForm v := by
      rw [literalForm_of_scalar hv, Node.scalarForm, htruthy, Bool.and_true, Node.storedForm]
      cases n.isDate <;> rfl
    refine ⟨after, ?_⟩
    rw [if_pos rfl, Outcome.run_bind, hnode, ← hliteral]
    rfl
  | false =>
    refine ⟨s, ?_⟩
    rw [Node.scalarForm, htruthy, Bool.and_false]
    rfl

theorem read_equality (hf : schema.field? name = some n) (hname : ConditionKey.isOperator name = false)
    (hpath : DocumentPath.parse? name = some (.field name)) (hv : v.isScalar = true)
    (hcache : s.cache = schema.filled lookups []) : ∃ after, (schema.readCondition (equality name v) none).run s =
      (.ok (some (.comparePath (.field name) .eq (n.scalarForm v))), after) := by
  have hnamed := ConditionKey.ofName_eq_named hname
  have hparse := DocumentPath.parse_of_parse? hpath
  obtain ⟨after, hform⟩ := run_inStoredForm hf hpath hv hcache
  have hentry : (readEntry schema none name v).run s =
      (.ok (.comparePath (.field name) .eq (n.scalarForm v)), after) := by
    have hleaf : readEntry schema none name v = leaf schema none name v := by
      cases v <;> first | rfl | cases hv
    rw [hleaf, leaf, hnamed]
    change (inStoredForm schema name v >>= fun w => Mapping.ofMisuse (DocumentPath.parse name) >>= fun p =>
      pure (Condition.comparePath p .eq w)).run s = _
    rw [Outcome.run_bind, hform, hparse]
    rfl
  refine ⟨after, ?_⟩
  change ((readEntry schema none name v >>= fun c => pure [c]) >>= fun cs => pure (conjunction cs)).run s = _
  rw [bind_assoc, Outcome.run_bind, hentry]
  rfl

end ConditionDocument

namespace Mapper

open ConditionDocument Serving

variable {m : Mapper} {es : List (String × Value)} {condition : Option Value} {options : WriteOptions}
  {r : Request.PutItem} {prepared : Value} {x y : Wire}

theorem exists_render {t : Tokens} {op : Comparison} (hy : Wire.ofValue t.options v = .ok (some y)) :
    ∃ text t', ((Condition.comparePath (.field name) op v).render).run t = (.ok text, t') := by
  obtain ⟨left, between, hleft⟩ : ∃ left between, (Rendering.path (.field name)).run t = (.ok left, between) :=
    ⟨_, _, rfl⟩
  have hoptions : between.options = t.options := by
    obtain rfl := (Prod.mk.inj hleft).2
    exact Tokens.addPath_options
  obtain ⟨right, after, hright⟩ : ∃ right after, (Rendering.value v).run between = (.ok right, after) := by
    change ∃ right after, between.addValue v = (.ok right, after)
    rw [Tokens.addValue, hoptions, hy]
    exact ⟨_, _, rfl⟩
  refine ⟨left ++ " " ++ op.text ++ " " ++ right, after, ?_⟩
  change (Rendering.path (.field name) >>= fun l => Rendering.value v >>= fun r =>
    pure (l ++ " " ++ op.text ++ " " ++ r)).run t = _
  rw [Outcome.run_bind, hleft]
  simp only [Outcome.run_bind, hright]
  rfl

theorem conditionText_equality (hf : m.schema.field? name = some n) (hname : ConditionKey.isOperator name = false)
    (hpath : DocumentPath.parse? name = some (.field name)) (hv : v.isScalar = true)
    (hcache : s.cache = m.schema.filled lookups [])
    (hy : Wire.ofValue m.config.marshalOptions (n.scalarForm v) = .ok (some y)) :
    ∃ text t after, (m.conditionText (equality name v) m.tokens).run s = (.ok (text, t), after) ∧
      ∀ item : Item, Bindings.holds ⟨t.names, t.values⟩ (some item) text =
        .ok ((Entries.get? name item).any fun x => x.order? y == some .eq) := by
  obtain ⟨after, hread⟩ := read_equality hf hname hpath hv hcache
  obtain ⟨text, t, hrender⟩ : ∃ text t, (Condition.comparePath (.field name) .eq (n.scalarForm v)).render.run m.tokens =
      (.ok text, t) := exists_render hy
  refine ⟨some text, t, after, ?_, fun item => ?_⟩
  · have hrendered : (Mapping.rendered (Condition.comparePath (.field name) .eq (n.scalarForm v)).render m.tokens).run
        after = (.ok (text, t), after) := Mapping.run_rendered hrender
    rw [conditionText, Outcome.run_bind, hread]
    simp only [Outcome.run_bind, hrendered]
    rfl
  · obtain ⟨hsound, hanswers⟩ := holds_rendered hread .refl hrender .refl (some item) fun _ => false
    obtain ⟨holds, hholds⟩ := hanswers (.single rfl)
    have hwire : m.config.marshalOptions.wire? (n.scalarForm v) = some y := by rw [MarshalOptions.wire?, hy]
    rw [hholds, ← hsound holds hholds, Condition.eval_comparePath hwire]
    rfl

/-- What the caller gets for an item of the store. -/
def Retrieves (m : Mapper) (context : Value) (x : Item) (v : Value) : Prop :=
  ∃ s s', (m.retrieved context x).run s = (.ok v, s')

/-- A scan is carried out to its end: the store finds some items, and the caller gets each of them. -/
def Finds (m : Mapper) (filter : Value) (s : Session) (store : MemoryStore) (found : List Item) : Prop :=
  ∃ exchange between answer store' outcome s', (m.scan none filter {}).run s = (.ok exchange, between) ∧
    (MemoryStore.send exchange.request).run store = (.ok (.scan answer), store') ∧
    (exchange.receive (.scan answer)).run between = (.ok outcome, s') ∧ answer.items = found ∧
    List.Forall₂ (m.Retrieves .undefined) found outcome.items

theorem exists_retrieved {context : Value} (items : List Item) (s : Session) : ∃ values s',
    (items.mapM (m.retrieved context)).run s = (.ok values, s') ∧ List.Forall₂ (m.Retrieves context) items values := by
  induction items generalizing s with
  | nil => exact ⟨[], s, rfl, .nil⟩
  | cons x rest ih =>
    obtain ⟨v, between, hx⟩ : ∃ v between, (m.retrieved context x).run s = (.ok v, between) := ⟨_, _, rfl⟩
    obtain ⟨values, after, hrest, hvalues⟩ := ih between
    refine ⟨v :: values, after, ?_, .cons ⟨s, between, hx⟩ hvalues⟩
    rw [List.mapM_cons, Outcome.run_bind, hx]
    simp only [Outcome.run_bind, hrest]
    rfl

def scanRequest (m : Mapper) (text : Option String) (t : Tokens) : Request.Scan where
  tableName := m.table
  filter := text
  names := t.names
  values := t.values

section Scan

variable {doc : Value} {text : Option String} {tokens : Tokens} {after : Session} {store : MemoryStore}
  {t : MemoryTable} {holds : Item → Bool}

theorem run_scan (htext : (m.conditionText doc m.tokens).run s = (.ok (text, tokens), after)) :
    ∃ exchange, (m.scan none doc {}).run s = (.ok exchange, after) ∧
      exchange.request = .scan (m.scanRequest text tokens) ∧
      ∀ answer, exchange.receive (.scan answer) = (answer.items.mapM (m.retrieved .undefined) >>= fun items =>
        pure ⟨items, answer.count, answer.scannedCount, m.restored answer.lastKey, answer.capacity⟩) := by
  rw [scan, Outcome.run_bind, htext]
  exact ⟨_, rfl, rfl, fun _ => rfl⟩

theorem send_scanRequest
    (hholds : ∀ item, Bindings.holds ⟨tokens.names, tokens.values⟩ (some item) text = .ok (holds item))
    (ht : Entries.get? m.table store.tables = some t) : ∃ answer store',
      (MemoryStore.send (.scan (m.scanRequest text tokens))).run store = (.ok (.scan answer), store') ∧
        answer.items = t.items.filter holds := by
  let search := Search.scan (m.scanRequest text tokens)
  have hanswers : Answers ⟨tokens.names, tokens.values⟩ text t.items := fun x _ => ⟨_, hholds x⟩
  have hmeets : meets ⟨tokens.names, tokens.values⟩ text = holds := by
    funext x
    rw [meets, hholds]
    rfl
  have hshown : shown (search.pageQuery none []) t.items = t.items.filter holds := by
    change (t.items.filter (meets ⟨tokens.names, tokens.values⟩ text)).map (MemoryExpression.project _ none) = _
    rw [hmeets]
    exact List.map_id _
  have hpage : (page t (search.pageQuery none []) t.items).run store.tables =
      (.ok (pageOf (search.pageQuery none []) t.items []), store.tables) := page_unlimited rfl rfl hanswers
  exact ⟨_, _, Search.send_of_page (q := search) ht rfl hpage, hshown⟩

theorem finds_filter (htext : (m.conditionText doc m.tokens).run s = (.ok (text, tokens), after))
    (hholds : ∀ item, Bindings.holds ⟨tokens.names, tokens.values⟩ (some item) text = .ok (holds item))
    (ht : Entries.get? m.table store.tables = some t) : m.Finds doc s store (t.items.filter holds) := by
  obtain ⟨exchange, hscan, hrequest, hreceive⟩ := run_scan htext
  obtain ⟨answer, store', hsend, hitems⟩ := send_scanRequest hholds ht
  obtain ⟨values, last, hvalues, hretrieves⟩ : ∃ values last,
      (answer.items.mapM (m.retrieved .undefined)).run after = (.ok values, last) ∧
        List.Forall₂ (m.Retrieves .undefined) answer.items values := exists_retrieved answer.items after
  rw [hitems] at hretrieves
  refine ⟨exchange, after, answer, store', ⟨values, answer.count, answer.scannedCount, m.restored answer.lastKey,
    answer.capacity⟩, last, hscan, hrequest ▸ hsend, ?_, hitems, hretrieves⟩
  rw [hreceive, Outcome.run_bind, hvalues]
  rfl

end Scan

end Mapper

theorem Exchange.of_perform {σ α : Type} {send : Request → StateM σ (Except StoreFailure Response)}
    {exchange : Mapping (Exchange α)} {a : α} {store store' : σ}
    (h : Exchange.perform send exchange s store = (.ok a, s', store')) : ∃ x between answer,
      exchange.run s = (.ok x, between) ∧ (send x.request).run store = (.ok answer, store') ∧
        (x.receive answer).run between = (.ok a, s') := by
  rw [perform] at h
  split at h
  · cases h
  · rename_i x between hx
    split at h
    · cases h
    · rename_i answer after hsend
      obtain ⟨ha, hrest⟩ := Prod.mk.inj h
      obtain ⟨rfl, rfl⟩ := Prod.mk.inj hrest
      exact ⟨x, between, answer, hx, hsend, Prod.ext ha rfl⟩

theorem Node.keys_rewrite_object {choose : Chooser} {own : Treatment} {m : Modifiers} {fields : List (String × Node)}
    {isOpen : Bool} {key path : String} {es stored : List (String × Value)} (ho : own.Trims)
    (h : (object m fields isOpen).rewrite choose own key path (.map es) = .map stored) :
    (Entries.keys stored).Sublist (Entries.keys es) := by
  obtain ⟨p, -, hmap, -⟩ := ho.object m fields isOpen
  rw [rewrite_object (hmap es), Value.map.injEq] at h
  rw [← h, Entries.keys_map fun e => rewriteField choose own path e.1 e.2 fields]
  exact List.filter_sublist.map Prod.fst

namespace Mapper

open ConditionDocument Serving

variable {m : Mapper} {decl : SchemaDeclaration} {es : List (String × Value)} {condition : Option Value}
  {options : WriteOptions} {r : Request.PutItem} {prepared : Value} {outcome : PutOutcome}
  {store store' : MemoryStore}

theorem of_performed_put {item : Value}
    (h : Exchange.perform MemoryStore.send (m.put item condition options) s store = (.ok outcome, s', store')) :
    ∃ r t, (m.putRequest item condition options).run s = (.ok (r, outcome.item), s') ∧
      Entries.get? m.table store'.tables = some t ∧ r.item ∈ t.items := by
  obtain ⟨exchange, between, answer, hbuild, hsend, hreceive⟩ := Exchange.of_perform h
  obtain ⟨⟨r, prepared⟩, s₁, hrequest, hbuild⟩ := Mapping.of_bind hbuild
  obtain ⟨rfl, rfl⟩ := Mapping.of_pure hbuild
  obtain ⟨served, hserved, rfl⟩ := MemoryStore.of_respond (MemoryStore.of_send_ok hsend)
  obtain ⟨rfl, rfl⟩ := Mapping.of_pure hreceive
  obtain ⟨t, k, -, -, -, htables, -⟩ := of_putItem hserved
  refine ⟨r, t.put k r.item, hrequest, ?_, MemoryTable.mem_store_self⟩
  rw [htables, tableName_of_putRequest hrequest, Entries.get?_insert_self]

theorem stored_of_putRequest (hdecl : Schema.ofDeclaration decl = .ok m.schema) (hk : m.schema.WellKeyed)
    (hn : m.schema.root.Throughout Node.Bare) (hi : (Value.map es).wellKeyed = true)
    (hf : m.schema.field? name = some n) (hv : Entries.get? name es = some v)
    (hput : (m.putRequest (.map es) condition options).run s = (.ok (r, prepared), s')) :
    ∃ (t : Picks) (stored : List (String × Value)), prepared = .map stored ∧
      Entries.get? name stored = some (n.rewrite t.chooser Node.converted name name v) ∧
      Wire.ofValue m.config.marshalOptions (n.rewrite t.chooser Node.converted name name v) =
        .ok (Entries.get? name r.item) := by
  obtain ⟨fields, draft, -, -, -, -, -, hroot⟩ := Schema.of_ofDeclaration hdecl
  have hplain : m.schema.root.Throughout Node.Plain :=
    (hn.and (Schema.root_holdsMembers hdecl)).mono fun n hn => ⟨hn.1.setter, hn.2⟩
  have hwk : m.schema.root.Throughout Node.WellKeyed := hk
  obtain ⟨u, hstorable, hmarshal⟩ := of_putRequest hput
  obtain ⟨p, hstore, -⟩ := of_storable hstorable
  have hrewrite := Node.rewrite_of_forStore hwk hplain hi hstore
  rw [Node.rewrite_eq_of_throughout (fun u hu x => Node.prepared_of_bare hu) hn] at hrewrite
  rw [Schema.field?, Node.field?, hroot] at hf
  rw [hroot] at hrewrite hwk
  obtain ⟨q, -, hmap, -⟩ := Node.converted_trims.object _ _ _
  obtain ⟨stored, rfl⟩ : ∃ stored, prepared = .map stored := ⟨_, hrewrite.symm.trans (Node.rewrite_object (hmap es))⟩
  have hstored := Node.get?_rewrite_object Node.converted_trims hwk.nodup_fields (Entries.mem_of_get? hf) hrewrite
  rw [hv] at hstored
  have hnodup := (Value.wellKeyed_map.1 hi).1.sublist (Node.keys_rewrite_object Node.converted_trims hrewrite)
  exact ⟨p.picks, stored, rfl, hstored, Wire.get?_ofEntries hnodup hmarshal hstored⟩

/-- A scan for the value that an attribute was just put with succeeds. It finds the item unless the attribute is of a
union whose variant has turned the value into a count of another number. -/
theorem scan_finds_put_iff (hdecl : Schema.ofDeclaration decl = .ok m.schema) (hk : m.schema.WellKeyed)
    (hn : m.schema.root.Throughout Node.Bare) (hi : (Value.map es).wellKeyed = true)
    (hf : m.schema.field? name = some n) (hname : ConditionKey.isOperator name = false)
    (hpath : DocumentPath.parse? name = some (.field name)) (hv : Entries.get? name es = some v)
    (hscalar : v.isScalar = true) (hcache : s.cache = m.schema.filled lookups [])
    (hput : Exchange.perform MemoryStore.send (m.put (.map es) condition options) s store =
      (.ok outcome, s', store')) :
    ∃ stored w x found, outcome.item = .map stored ∧ Entries.get? name stored = some w ∧ v.StoresAs w ∧
      Item.ofValue m.config.marshalOptions outcome.item = .ok x ∧ m.Finds (equality name v) s' store' found ∧
      (x ∈ found ↔ (n.isUnion = true → w = v ∨ w.SameNumber v)) := by
  obtain ⟨r, t, hrequest, ht, hmem⟩ := of_performed_put hput
  obtain ⟨picks, stored, hprepared, hstored, hwire⟩ := stored_of_putRequest hdecl hk hn hi hf hv hrequest
  obtain ⟨-, -, hmarshal⟩ := of_putRequest hrequest
  obtain ⟨w, hw⟩ : ∃ w, n.rewrite picks.chooser Node.converted name name v = w := ⟨_, rfl⟩
  rw [hw] at hstored hwire
  have hstores : v.StoresAs w := hw ▸ Node.storesAs_rewrite hscalar
  have hwscalar := hstores.isScalar hscalar
  obtain ⟨x, hx⟩ := Wire.exists_of_isScalar hwscalar hwire
  rw [hx] at hwire
  have hother (hn : n.isUnion = false) : n.scalarForm v = w := by rw [← hw, Node.rewrite_of_scalar hscalar hn]
  obtain ⟨y, hy⟩ : ∃ y, Wire.ofValue m.config.marshalOptions (n.scalarForm v) = .ok (some y) := by
    cases hu : n.isUnion with
    | false => exact ⟨x, by rw [hother hu, hwire]⟩
    | true =>
      rw [Node.scalarForm_of_union hu]
      exact Wire.exists_ofValue_of_storesAs hstores hwire
  obtain ⟨looked, hlooked⟩ := looks_putRequest.of_run hrequest
  rw [hcache, ← Schema.filled_append] at hlooked
  obtain ⟨text, tokens, after, htext, hholds⟩ := conditionText_equality hf hname hpath hscalar hlooked hy
  refine ⟨stored, w, r.item, _, hprepared, hstored, hstores, hmarshal, finds_filter htext hholds ht, ?_⟩
  have hequal := Wire.order?_eq_iff hwscalar (Node.storesAs_scalarForm.isScalar hscalar) hwire hy
  rw [List.mem_filter, and_iff_right hmem, hx, Option.any_some, beq_iff_eq, hequal]
  cases hu : n.isUnion with
  | false => simp [hother hu]
  | true => simp [Node.scalarForm_of_union hu]

def happeningFields : SchemaDeclaration := [
  ("id", .typed .string none none false { memberships := { primary := true } }),
  ("at", .union [.tag .string, .tag .date])]

def happenings : Mapper where
  table := "happenings"
  schema := .compiled happeningFields

def happening (time : String) : List (String × Value) := [("id", .string "a"), ("at", .string time)]

def noHappenings : MemoryStore := ({} : MemoryStore).create "happenings" ["id"]

theorem happenings_wellKeyed : happenings.schema.WellKeyed :=
  ⟨.of_object (by decide) (.of_none rfl rfl), .of_none rfl rfl rfl,
    ⟨.of_none rfl rfl rfl, .of_none rfl rfl rfl, .of_none rfl rfl rfl, trivial⟩, trivial⟩

theorem happenings_bare : happenings.schema.root.Throughout Node.Bare :=
  ⟨.of_none rfl rfl rfl, .of_none rfl rfl rfl, ⟨.of_none rfl rfl rfl, .of_none rfl rfl rfl, .of_none rfl rfl rfl, trivial⟩,
    trivial⟩

def happened (time : Wire) : MemoryStore where
  tables := [("happenings", { key := ["id"], items := [[("id", .s "a"), ("at", time)]] })]
  received := [.putItem]

theorem happening_found : ∃ outcome s' x found,
    Exchange.perform MemoryStore.send (happenings.put (.map (happening "dawn")) none {}) {} noHappenings =
        (.ok outcome, s', happened (.s "dawn")) ∧
      Item.ofValue {} outcome.item = .ok x ∧
      happenings.Finds (equality "at" (.string "dawn")) s' (happened (.s "dawn")) found ∧ x ∈ found := by
  have hput : Exchange.perform MemoryStore.send (happenings.put (.map (happening "dawn")) none {}) {} noHappenings =
      (.ok ⟨.map (happening "dawn"), none, none, none⟩, {}, happened (.s "dawn")) := rfl
  have hdecl : Schema.ofDeclaration happeningFields = .ok happenings.schema := rfl
  have hfield : happenings.schema.field? "at" = some (.union {} [.scalar {} .string, .scalar {} .date]) := rfl
  have hat : Entries.get? "at" (happening "dawn") = some (.string "dawn") := rfl
  have hcache : ({} : Session).cache = happenings.schema.filled [] [] := rfl
  obtain ⟨stored, w, x, found, hprepared, hw, -, hx, hfinds, hiff⟩ := scan_finds_put_iff hdecl happenings_wellKeyed
    happenings_bare rfl hfield rfl rfl hat rfl hcache hput
  refine ⟨_, _, x, found, hput, hx, hfinds, hiff.2 fun _ => .inl ?_⟩
  obtain rfl := Value.map.inj hprepared
  exact (Option.some.inj hw).symm

/-- A date that is given as a text is stored as a count, and not found by its text. -/
theorem happening_not_found : Schema.ofDeclaration happeningFields = .ok happenings.schema ∧
    happenings.schema.root.Throughout Node.Bare ∧ ∃ outcome s',
    Exchange.perform MemoryStore.send (happenings.put (.map (happening "1970-01-02T00:00:00Z")) none {}) {}
        noHappenings = (.ok outcome, s', happened (.n "86400000")) ∧
      happenings.Finds (equality "at" (.string "1970-01-02T00:00:00Z")) s' (happened (.n "86400000")) [] := by
  have hput : Exchange.perform MemoryStore.send (happenings.put (.map (happening "1970-01-02T00:00:00Z")) none {}) {}
      noHappenings = (.ok ⟨.map [("id", .string "a"), ("at", .number (.ofInt 86400000))], none, none, none⟩, {},
        happened (.n "86400000")) := rfl
  have hfield : happenings.schema.field? "at" = some (.union {} [.scalar {} .string, .scalar {} .date]) := rfl
  have hcache : ({} : Session).cache = happenings.schema.filled [] [] := rfl
  have hliteral : Wire.ofValue happenings.config.marshalOptions
      (Node.scalarForm (.union {} [.scalar {} .string, .scalar {} .date]) (.string "1970-01-02T00:00:00Z")) =
        .ok (some (.s "1970-01-02T00:00:00Z")) := rfl
  obtain ⟨text, tokens, after, htext, hholds⟩ := conditionText_equality hfield rfl rfl rfl hcache hliteral
  have ht : Entries.get? happenings.table (happened (.n "86400000")).tables =
      some { key := ["id"], items := [[("id", .s "a"), ("at", .n "86400000")]] } := rfl
  exact ⟨rfl, happenings_bare, _, _, hput, finds_filter htext hholds ht⟩

end Mapper

end ItemMapper
