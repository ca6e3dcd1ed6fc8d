import ItemMapper.Mapper.Exchange

/-!
# Queries and scans

Reading the items of a table or of one of its indexes that meet a filter.
-/

namespace ItemMapper

structure SearchOutcome where
  items : List Value
  count : Int
  scannedCount : Int
  lastKey : Option Value
  capacity : Option ConsumedCapacity

namespace Mapper

def isSearchKey (m : Mapper) : Option IndexKey → String → Bool
  | some keys => keys.contains
  | none => m.schema.isKey

/-- The key attributes of the filter are the key condition. Tokens are taken for the projection, the key condition
and the filter, in this order. -/
def query (m : Mapper) (index : Option IndexKey) (filter : Value) (options : ReadOptions) :
    Mapping (Exchange SearchOutcome) := do
  let (projection, t) ← projectionText (Selection.paths? options.select) m.tokens
  let (key, rest) ← m.partitionFilter (m.isSearchKey index) filter
  let (keyCondition, t) ← m.conditionText key t
  let (rest, t) ← m.conditionText rest t
  let request : Request.Query := {
    tableName := m.table
    indexName := index.map (·.name)
    keyCondition
    filter := rest
    projection
    names := t.names
    values := t.values
    select := Selection.select? options.select
    limit := options.limit
    consistentRead := options.consistentRead
    forward := options.forward
    startKey := ← m.startItem options
    capacityReport := options.capacityReport }
  return ⟨.query request, fun
    | .query r => do
      let items ← r.items.mapM (m.retrieved options.context)
      return ⟨items, r.count, r.scannedCount, m.restored r.lastKey, r.capacity⟩
    | r => Exchange.unexpected .query r⟩

def scan (m : Mapper) (index : Option IndexKey) (filter : Value) (options : ReadOptions) :
    Mapping (Exchange SearchOutcome) := do
  let (filter, t) ← m.conditionText filter m.tokens
  let (projection, t) ← projectionText (Selection.paths? options.select) t
  let request : Request.Scan := {
    tableName := m.table
    indexName := index.map (·.name)
    filter
    projection
    names := t.names
    values := t.values
    select := Selection.select? options.select
    limit := options.limit
    consistentRead := options.consistentRead
    startKey := ← m.startItem options
    segment := options.segment
    totalSegments := options.totalSegments
    capacityReport := options.capacityReport }
  return ⟨.scan request, fun
    | .scan r => do
      let items ← r.items.mapM (m.retrieved options.context)
      return ⟨items, r.count, r.scannedCount, m.restored r.lastKey, r.capacity⟩
    | r => Exchange.unexpected .scan r⟩

end Mapper

end ItemMapper
