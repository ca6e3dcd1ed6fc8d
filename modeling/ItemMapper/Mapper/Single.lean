import ItemMapper.Mapper.Exchange

/-!
# Operations on single items

Putting, getting, updating and deleting an item.
-/

namespace ItemMapper

structure PutOutcome where
  item : Value
  attributes : Option Value
  capacity : Option ConsumedCapacity
  metrics : Option ItemCollectionMetrics

structure GetOutcome where
  item : Option Value
  capacity : Option ConsumedCapacity

structure WriteOutcome where
  attributes : Option Value
  capacity : Option ConsumedCapacity
  metrics : Option ItemCollectionMetrics

namespace Mapper

def putRequest (m : Mapper) (item : Value) (condition : Option Value) (options : WriteOptions) :
    Mapping (Request.PutItem × Value) := do
  let prepared ← m.storable item options.context
  let (text, t) ← match condition with
    | some doc => m.conditionText doc m.tokens
    | none => pure (none, m.tokens)
  let stored ← m.marshalItem prepared
  return ({
    tableName := m.table
    item := stored
    condition := text
    names := t.names
    values := t.values
    returnValues := options.returnValues
    capacityReport := options.capacityReport
    metricsReport := options.metricsReport
    onCheckFailure := options.onCheckFailure }, prepared)

def put (m : Mapper) (item : Value) (condition : Option Value) (options : WriteOptions) :
    Mapping (Exchange PutOutcome) := do
  let (request, prepared) ← m.putRequest item condition options
  return ⟨.putItem request, fun
    | .putItem r => return ⟨prepared, m.restored r.attributes, r.capacity, r.metrics⟩
    | r => Exchange.unexpected .putItem r⟩

def get (m : Mapper) (key : Value) (options : ReadOptions) : Mapping (Exchange GetOutcome) := do
  let (projection, t) ← projectionText (Selection.paths? options.select) m.tokens
  let request : Request.GetItem := {
    tableName := m.table
    key := ← m.keyOf key
    projection
    names := t.names
    consistentRead := options.consistentRead
    capacityReport := options.capacityReport }
  return ⟨.getItem request, fun
    | .getItem r => do
      match r.item with
      | some item => return ⟨some (← m.retrieved options.context item), r.capacity⟩
      | none => return ⟨none, r.capacity⟩
    | r => Exchange.unexpected .getItem r⟩

/-- The key attributes of the filter are the key, its other entries the condition. The tokens of the update come
before those of the condition. -/
def updateRequest (m : Mapper) (filter change : Value) (options : WriteOptions) : Mapping Request.UpdateItem := do
  let update ← m.schema.readUpdate m.table change
  let (updateText, t) ← Mapping.rendered update.render m.tokens
  let (key, condition) ← m.partitionFilter m.schema.isKey filter
  let (condition, t) ← m.conditionText condition t
  return {
    tableName := m.table
    key := ← m.keyOf key
    update := updateText
    condition
    names := t.names
    values := t.values
    returnValues := options.returnValues
    capacityReport := options.capacityReport
    metricsReport := options.metricsReport
    onCheckFailure := options.onCheckFailure }

def update (m : Mapper) (filter change : Value) (options : WriteOptions) : Mapping (Exchange WriteOutcome) := do
  let request ← m.updateRequest filter change options
  return ⟨.updateItem request, fun
    | .updateItem r => return ⟨m.restored r.attributes, r.capacity, r.metrics⟩
    | r => Exchange.unexpected .updateItem r⟩

def deleteRequest (m : Mapper) (filter : Value) (options : WriteOptions) : Mapping Request.DeleteItem := do
  let (key, condition) ← m.partitionFilter m.schema.isKey filter
  let key ← m.keyOf key
  let (condition, t) ← m.conditionText condition m.tokens
  return {
    tableName := m.table
    key
    condition
    names := t.names
    values := t.values
    returnValues := options.returnValues
    capacityReport := options.capacityReport
    metricsReport := options.metricsReport
    onCheckFailure := options.onCheckFailure }

def delete (m : Mapper) (filter : Value) (options : WriteOptions) : Mapping (Exchange WriteOutcome) := do
  let request ← m.deleteRequest filter options
  return ⟨.deleteItem request, fun
    | .deleteItem r => return ⟨m.restored r.attributes, r.capacity, r.metrics⟩
    | r => Exchange.unexpected .deleteItem r⟩

end Mapper

end ItemMapper
