import ItemMapper.Mapper.Search
import ItemMapper.Proofs.ConcernedAttributes
import ItemMapper.Proofs.Marshalled
import ItemMapper.Proofs.SteadyReading

/-!
# Filters of queries

A query takes the entries of its filter apart, those of the key and the rest. The two conditions that are read of them
say together what the filter says, whatever its leaves are taken to say, and one can be read exactly if the other can and
the whole can. The condition of the key is about the attributes of the key only.
-/

namespace ItemMapper

namespace Condition

section Leaves

variable (leaf : Condition → Bool)

mutual

def holds : Condition → Bool
  | logical .and cs => allHold cs
  | logical .or cs => anyHolds cs
  | not inner => !holds inner
  | c => leaf c

def allHold : List Condition → Bool
  | [] => true
  | c :: rest => holds c && allHold rest

def anyHolds : List Condition → Bool
  | [] => false
  | c :: rest => holds c || anyHolds rest

end

end Leaves

variable {leaf : Condition → Bool} {cs : List Condition}

theorem allHold_iff : allHold leaf cs = true ↔ ∀ c ∈ cs, c.holds leaf = true := by
  induction cs with
  | nil => simp [allHold]
  | cons c rest ih => simp [allHold, ih]

end Condition

namespace ConditionDocument

variable {leaf : Condition → Bool} {cs : List Condition}

def holds (leaf : Condition → Bool) (c : Option Condition) : Bool := (c.map (Condition.holds leaf)).getD true

theorem holds_conjunction : holds leaf (conjunction cs) = true ↔ ∀ c ∈ cs, c.holds leaf = true := by
  rcases cs with _ | ⟨c, _ | ⟨d, rest⟩⟩
  · simp [conjunction, holds]
  · simp [conjunction, holds]
  · exact Condition.allHold_iff

end ConditionDocument

namespace Mapper

open ConditionDocument

variable {m : Mapper} {index : Option IndexKey} {entries : List (String × Value)} {s : Session}

theorem isSome_mapM {α β : Type} {f : α → Option β} {xs : List α} :
    (xs.mapM f).isSome = true ↔ ∀ x ∈ xs, (f x).isSome = true := by
  induction xs with
  | nil => simp
  | cons x rest ih =>
    rw [List.mapM_cons, List.forall_mem_cons, ← ih]
    cases f x <;> cases rest.mapM f <;> simp

theorem isSome_mapM_filter {α β : Type} {f : α → Option β} {p : α → Bool} {xs : List α} :
    (((xs.filter p).mapM f).isSome = true ∧ ((xs.filter fun x => !p x).mapM f).isSome = true) ↔
      (xs.mapM f).isSome = true := by
  rw [isSome_mapM, isSome_mapM, isSome_mapM]
  constructor
  · rintro ⟨hkept, hleft⟩ x hx
    cases hp : p x with
    | true => exact hkept x (List.mem_filter.2 ⟨hx, hp⟩)
    | false => exact hleft x (List.mem_filter.2 ⟨hx, by rw [hp]; rfl⟩)
  · exact fun h => ⟨fun x hx => h x (List.mem_filter.1 hx).1, fun x hx => h x (List.mem_filter.1 hx).1⟩

theorem mem_mapM_filter {α β : Type} {f : α → Option β} {p : α → Bool} {xs : List α} {kept left all : List β}
    (hkept : (xs.filter p).mapM f = some kept) (hleft : (xs.filter fun x => !p x).mapM f = some left)
    (hall : xs.mapM f = some all) {y : β} : y ∈ all ↔ y ∈ kept ∨ y ∈ left := by
  rw [Outcome.mem_of_mapM_some hall, Outcome.mem_of_mapM_some hkept, Outcome.mem_of_mapM_some hleft]
  constructor
  · rintro ⟨x, hx, hy⟩
    cases hp : p x with
    | true => exact .inl ⟨x, List.mem_filter.2 ⟨hx, hp⟩, hy⟩
    | false => exact .inr ⟨x, List.mem_filter.2 ⟨hx, by rw [hp]; rfl⟩, hy⟩
  · rintro (⟨x, hx, hy⟩ | ⟨x, hx, hy⟩) <;> exact ⟨x, (List.mem_filter.1 hx).1, hy⟩

theorem holds_mapM_filter {f : String × Value → Option Condition} {p : String × Value → Bool}
    {kept left all : List Condition} (hkept : (entries.filter p).mapM f = some kept)
    (hleft : (entries.filter fun e => !p e).mapM f = some left) (hall : entries.mapM f = some all)
    (leaf : Condition → Bool) :
    holds leaf (conjunction all) = (holds leaf (conjunction kept) && holds leaf (conjunction left)) := by
  rw [Bool.eq_iff_iff, Bool.and_eq_true, holds_conjunction, holds_conjunction, holds_conjunction, ← List.forall_mem_append]
  simp only [mem_mapM_filter hkept hleft hall, List.mem_append]

theorem mentions_of_keys {cs : List Condition} {c : Condition} {p : DocumentPath}
    (hnames : ∀ name, m.isSearchKey index name = true →
      DocumentPath.parse? name = some (.field name) ∧ ConditionKey.isOperator name = false)
    (hcs : (entries.filter fun e => m.isSearchKey index e.1).mapM (entryIn m.schema s none) = some cs)
    (hc : c ∈ conjunction cs) (hp : .path p ∈ c.mentions) :
    ∃ name, p.firstName? = some name ∧ m.isSearchKey index name = true := by
  obtain ⟨d, hd, hpd⟩ := exists_of_mem_conjunction hc hp
  obtain ⟨e, he, hed⟩ := (Outcome.mem_of_mapM_some hcs).1 hd
  have hkey : m.isSearchKey index e.1 = true := (List.mem_filter.1 he).2
  obtain ⟨hname, hplain⟩ := hnames e.1 hkey
  have hread := Outcome.of_toOption hed
  exact ⟨e.1, yields_named hname hplain s d _ (Prod.ext hread rfl) p hpd, hkey⟩

/-- A key and the rest of a filter are read apart as they are read together. -/
theorem read_partition
    (hnames : ∀ name, m.isSearchKey index name = true →
      DocumentPath.parse? name = some (.field name) ∧ ConditionKey.isOperator name = false)
    (entries : List (String × Value)) (s : Session) :
    let keys := entries.filter fun e => m.isSearchKey index e.1
    let rest := entries.filter fun e => !m.isSearchKey index e.1
    let first := (m.schema.readCondition (.map keys) none).run s
    let second := (m.schema.readCondition (.map rest) none).run first.2
    let whole := (m.schema.readCondition (.map entries) none).run s
    (m.partitionFilter (m.isSearchKey index) (.map entries)).run s = (.ok (.map keys, .map rest), s) ∧
    (∀ e ∈ rest, m.isSearchKey index e.1 = false) ∧
    (((∃ c, first.1 = .ok c) ∧ ∃ c, second.1 = .ok c) ↔ ∃ c, whole.1 = .ok c) ∧
    ∀ key filter all, first.1 = .ok key → second.1 = .ok filter → whole.1 = .ok all →
      (∀ leaf, holds leaf all = (holds leaf key && holds leaf filter)) ∧
      ∀ c ∈ key, ∀ p, .path p ∈ c.mentions → ∃ name, p.firstName? = some name ∧ m.isSearchKey index name = true := by
  intro keys rest first second whole
  have hfirst (o : Option Condition) : first.1 = .ok o ↔
      ∃ cs, keys.mapM (entryIn m.schema s none) = some cs ∧ conjunction cs = o := read_map_eq_ok_iff .refl
  have hsecond (o : Option Condition) : second.1 = .ok o ↔
      ∃ cs, rest.mapM (entryIn m.schema s none) = some cs ∧ conjunction cs = o :=
    read_map_eq_ok_iff (steady_read (.map keys)).agree
  have hwhole (o : Option Condition) : whole.1 = .ok o ↔
      ∃ cs, entries.mapM (entryIn m.schema s none) = some cs ∧ conjunction cs = o := read_map_eq_ok_iff .refl
  refine ⟨rfl, fun e he => ?_, ?_, ?_⟩
  · simpa using (List.mem_filter.1 he).2
  · have hsucceeds {o : Option (List Condition)} :
        (∃ c, ∃ cs, o = some cs ∧ conjunction cs = c) ↔ o.isSome = true := by
      rw [Option.isSome_iff_exists]
      exact ⟨fun ⟨_, cs, hcs, _⟩ => ⟨cs, hcs⟩, fun ⟨cs, hcs⟩ => ⟨_, cs, hcs, rfl⟩⟩
    simp only [hfirst, hsecond, hwhole, hsucceeds]
    exact isSome_mapM_filter
  · intro key filter all hkey hfilter hall
    obtain ⟨ks, hks, rfl⟩ := (hfirst key).1 hkey
    obtain ⟨rs, hrs, rfl⟩ := (hsecond filter).1 hfilter
    obtain ⟨cs, hcs, rfl⟩ := (hwhole all).1 hall
    exact ⟨holds_mapM_filter hks hrs hcs, fun c hc p hp => mentions_of_keys hnames hks hc hp⟩

def orderFields : SchemaDeclaration := [
  ("id", .typed .string none none false { memberships := { primary := true } }),
  ("state", .typed .string none none false { memberships := { globalIndex := some { indexName := "byState" } } }),
  ("count", .typed .number none none false {})]

def orders : Mapper where
  table := "orders"
  schema := .compiled orderFields

def byState : IndexKey := ⟨"byState", false, "state", none⟩

def inState : String × Value := ("state", .map [("$startsWith", .string "o")])

def crowdedOrFirst : String × Value :=
  ("$or", .list [.map [("count", .map [("$gt", .number (.ofInt 1))])], .map [("id", .string "a")]])

theorem crowdedOrFirst_read :
    let first := (orders.schema.readCondition (.map [inState]) none).run {}
    let second := (orders.schema.readCondition (.map [crowdedOrFirst]) none).run first.2
    let whole := (orders.schema.readCondition (.map [crowdedOrFirst, inState]) none).run {}
    orders.schema.indexKey? "byState" = some byState ∧
      ∃ key filter all, first.1 = .ok key ∧ second.1 = .ok filter ∧ whole.1 = .ok all ∧
        ∀ leaf, holds leaf all = (holds leaf key && holds leaf filter) := by
  intro first second whole
  have hnames : ∀ name, orders.isSearchKey (some byState) name = true →
      DocumentPath.parse? name = some (.field name) ∧ ConditionKey.isOperator name = false := by
    intro name h
    obtain rfl : "state" = name := by simpa [isSearchKey, byState, IndexKey.contains] using h
    decide
  have hkeys : [crowdedOrFirst, inState].filter (fun e => orders.isSearchKey (some byState) e.1) = [inState] := by
    simp [crowdedOrFirst, inState, isSearchKey, byState, IndexKey.contains]
  have hrest : [crowdedOrFirst, inState].filter (fun e => !orders.isSearchKey (some byState) e.1) = [crowdedOrFirst] := by
    simp [crowdedOrFirst, inState, isSearchKey, byState, IndexKey.contains]
  have hparts := read_partition hnames [crowdedOrFirst, inState] {}
  rw [hkeys, hrest] at hparts
  obtain ⟨-, -, hsucceeds, hboth⟩ := hparts
  have hwhole : whole.1.isOk = true := by decide +kernel
  have hall : ∃ all, whole.1 = .ok all := by
    cases hresult : whole.1 with
    | error e =>
      rw [hresult] at hwhole
      cases hwhole
    | ok all => exact ⟨all, rfl⟩
  obtain ⟨⟨key, hkey⟩, filter, hfilter⟩ := hsucceeds.2 hall
  obtain ⟨all, hall⟩ := hall
  exact ⟨rfl, key, filter, all, hkey, hfilter, hall, (hboth key filter all hkey hfilter hall).1⟩

end Mapper

end ItemMapper
