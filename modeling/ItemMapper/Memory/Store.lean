import ItemMapper.Memory.Expression
import ItemMapper.Memory.Table
import ItemMapper.Payload.Response

/-!
# A store in memory

Tables by name, and every request carried out on them. What a request has done before it is refused stays done.
-/

namespace ItemMapper

structure MemoryStore where
  tables : List (String × MemoryTable) := []
  received : List Operation := []

abbrev Serving := ExceptT Refusal (StateM (List (String × MemoryTable)))

namespace Serving

def refuse {α : Type} (r : Refusal) : Serving α := throw r

def ofExcept {α : Type} (x : Except Refusal α) : Serving α :=
  match x with
  | .ok a => return a
  | .error r => throw r

def table (name : String) : Serving MemoryTable := do
  match Entries.get? name (← get) with
  | some t => return t
  | none => refuse (.noTable name)

def keep (name : String) (t : MemoryTable) : Serving Unit := modify (Entries.insert name t)

def keyOf (t : MemoryTable) (item : Item) : Serving Item :=
  match t.keyOf item with
  | .ok key => return key
  | .error name => refuse (.noKeyAttribute name)

def givenBack (values : Option ReturnValue) (old new : Option Item) : Item :=
  match values with
  | some .allOld => old.getD []
  | some .allNew => new.getD []
  | _ => []

def require (holds : Bool) : Serving Unit := if holds then return () else refuse .conditionFailed

def putItem (r : Request.PutItem) : Serving Response.PutItem := do
  let t ← table r.tableName
  let key ← keyOf t r.item
  let old := t.find? key
  require (← ofExcept (Bindings.holds ⟨r.names, r.values⟩ old r.condition))
  keep r.tableName (t.put key r.item)
  return { attributes := givenBack r.returnValues old none }

def getItem (r : Request.GetItem) : Serving Response.GetItem := do
  let t ← table r.tableName
  return { item := (t.find? r.key).map (MemoryExpression.project ⟨r.names, []⟩ r.projection) }

def updateItem (r : Request.UpdateItem) : Serving Response.UpdateItem := do
  let t ← table r.tableName
  let b : Bindings := ⟨r.names, r.values⟩
  let old := t.find? r.key
  require (← ofExcept (b.holds old r.condition))
  let item := old.getD r.key
  let item ← match r.update with
    | some text => ofExcept (b.update text item)
    | none => pure item
  let key ← keyOf t item
  keep r.tableName (t.put key item)
  return { attributes := givenBack r.returnValues old (some item) }

def deleteItem (r : Request.DeleteItem) : Serving Response.DeleteItem := do
  let t ← table r.tableName
  let old := t.find? r.key
  require (← ofExcept (Bindings.holds ⟨r.names, r.values⟩ old r.condition))
  keep r.tableName (t.erase r.key)
  return { attributes := givenBack r.returnValues old none }

structure PageQuery where
  bindings : Bindings
  filter : Option String
  projection : Option String
  limit : Option Int
  start : Item
  select : Option Select

structure Page where
  items : List Item
  count : Int
  scannedCount : Int
  lastKey : Item

def remaining (t : MemoryTable) (start : Item) (candidates : List Item) : List Item :=
  if start.isEmpty then candidates
  else match candidates.findIdx? fun item => t.sameKey item start with
    | some i => candidates.drop (i + 1)
    | none => candidates

def limited (limit : Option Int) (items : List Item) : List Item :=
  match limit with
  | some n => if 0 ≤ n then items.take n.toNat else items
  | none => items

def select (b : Bindings) (condition : Option String) : List Item → Serving (List Item)
  | [] => return []
  | item :: rest => do
    let holds ← ofExcept (b.holds (some item) condition)
    let others ← select b condition rest
    return if holds then item :: others else others

def greatestCount : Int := 2147483647

/-- A count has 32 bits: more items than it can tell are counted as the greatest number of this size. -/
def counted (items : List Item) : Int := min items.length greatestCount

/-- The limit counts items before the filter. The last key is there if some candidate was left out. -/
def page (t : MemoryTable) (r : PageQuery) (candidates : List Item) : Serving Page := do
  let rest := remaining t r.start candidates
  let scanned := limited r.limit rest
  let lastKey ← match scanned.getLast? with
    | some last => if scanned.length < rest.length then keyOf t last else pure []
    | none => pure []
  let found ← select r.bindings r.filter scanned
  return {
    items := if r.select = some .count then [] else found.map (MemoryExpression.project r.bindings r.projection)
    count := counted found
    scannedCount := counted scanned
    lastKey }

def query (r : Request.Query) : Serving Response.Query := do
  let t ← table r.tableName
  let b : Bindings := ⟨r.names, r.values⟩
  match r.keyCondition with
  | none => refuse .noKeyCondition
  | some condition =>
    let candidates ← select b (some condition) t.items
    let candidates := if r.forward = some false then candidates.reverse else candidates
    let p ← page t ⟨b, r.filter, r.projection, r.limit, r.startKey, r.select⟩ candidates
    return { items := p.items, count := p.count, scannedCount := p.scannedCount, lastKey := p.lastKey }

def scan (r : Request.Scan) : Serving Response.Scan := do
  let t ← table r.tableName
  let p ← page t ⟨⟨r.names, r.values⟩, r.filter, r.projection, r.limit, r.startKey, r.select⟩ t.items
  return { items := p.items, count := p.count, scannedCount := p.scannedCount, lastKey := p.lastKey }

def batchGetItem (r : Request.BatchGetItem) : Serving Response.BatchGetItem := do
  let responses ← r.requestItems.mapM fun (name, reads) => do
    let t ← table name
    return (name, (reads.keys.filterMap t.find?).map (MemoryExpression.project ⟨reads.names, []⟩ reads.projection))
  return { responses }

def writeEntry (name : String) (e : Request.BatchEntry) : Serving Unit := do
  match e.put with
  | some p =>
    let t ← table name
    keep name (t.put (← keyOf t p.item) p.item)
  | none => pure ()
  match e.delete with
  | some d =>
    let t ← table name
    keep name (t.erase d.key)
  | none => pure ()

def batchWriteItem (r : Request.BatchWriteItem) : Serving Response.BatchWriteItem := do
  r.requestItems.forM fun (name, entries) => do
    let _ ← table name
    entries.forM (writeEntry name)
  return {}

def transactGetItems (r : Request.TransactGetItems) : Serving Response.TransactGetItems := do
  let responses ← r.entries.mapM fun e => do
    let found ← getItem { tableName := e.get.tableName, key := e.get.key, projection := e.get.projection,
                          names := e.get.names }
    return { item := found.item }
  return { responses }

def memberCondition (name : String) (key : Item) (b : Bindings) (condition : Option String) : Serving Bool := do
  let t ← table name
  ofExcept (b.holds (t.find? key) condition)

/-- Whether the condition of a member holds; the first of its parts in the order of the cases counts. -/
def conditionHolds (e : Request.TransactWriteEntry) : Serving Bool :=
  match e.check, e.put, e.delete, e.update with
  | some c, _, _, _ => memberCondition c.tableName c.key ⟨c.names, c.values⟩ c.condition
  | none, some p, _, _ => do
    let t ← table p.tableName
    memberCondition p.tableName (← keyOf t p.item) ⟨p.names, p.values⟩ p.condition
  | none, none, some d, _ => memberCondition d.tableName d.key ⟨d.names, d.values⟩ d.condition
  | none, none, none, some u => memberCondition u.tableName u.key ⟨u.names, u.values⟩ u.condition
  | none, none, none, none => refuse .emptyMember

def writeMember (e : Request.TransactWriteEntry) : Serving Unit := do
  match e.put with
  | some p => let _ ← putItem p
  | none => pure ()
  match e.delete with
  | some d => let _ ← deleteItem d
  | none => pure ()
  match e.update with
  | some u => let _ ← updateItem u
  | none => pure ()

def transactWriteItems (r : Request.TransactWriteItems) : Serving Response.TransactWriteItems := do
  let holding ← r.entries.mapM conditionHolds
  if holding.all id then
    r.entries.forM writeMember
    return {}
  else refuse (.cancelled holding)

def respond : Request → Serving Response
  | .putItem r => .putItem <$> putItem r
  | .getItem r => .getItem <$> getItem r
  | .updateItem r => .updateItem <$> updateItem r
  | .deleteItem r => .deleteItem <$> deleteItem r
  | .query r => .query <$> query r
  | .scan r => .scan <$> scan r
  | .batchGetItem r => .batchGetItem <$> batchGetItem r
  | .batchWriteItem r => .batchWriteItem <$> batchWriteItem r
  | .transactGetItems r => .transactGetItems <$> transactGetItems r
  | .transactWriteItems r => .transactWriteItems <$> transactWriteItems r

end Serving

namespace MemoryStore

def create (s : MemoryStore) (name : String) (key : List String) : MemoryStore :=
  { s with tables := Entries.insert name { key } s.tables }

def items (s : MemoryStore) (name : String) : List Item := ((Entries.get? name s.tables).map (·.items)).getD []

def send (request : Request) : StateM MemoryStore (Except StoreFailure Response) := fun s =>
  let (answer, tables) := (Serving.respond request).run s.tables
  (answer.mapError Refusal.error, { tables, received := s.received ++ [request.operation] })

end MemoryStore

structure ScriptedStore where
  queue : List (Except StoreFailure Response) := []
  sent : List Request := []
  memory : MemoryStore := {}

def ScriptedStore.send (request : Request) : StateM ScriptedStore (Except StoreFailure Response) := fun s =>
  match s.queue with
  | answer :: queue => (answer, { s with queue, sent := s.sent ++ [request] })
  | [] =>
    let (answer, memory) := (MemoryStore.send request).run s.memory
    (answer, { s with sent := s.sent ++ [request], memory })

end ItemMapper
