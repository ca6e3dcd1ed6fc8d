import ItemMapper.Mapper.Exchange

/-!
# Batches

Several reads or writes in one request, without a guarantee that all of them are done.
-/

namespace ItemMapper

structure BatchGetOutcome where
  items : List Value
  unprocessedKeys : List Value
  capacity : List ConsumedCapacity

inductive PendingWrite where
  | put (item : Value)
  | delete (key : Value)

structure BatchWriteOutcome where
  items : List Value
  unprocessed : List PendingWrite
  capacity : List ConsumedCapacity
  metrics : List (String × List ItemCollectionMetrics)

def PendingWrite.ofEntry? (e : Request.BatchEntry) : Option PendingWrite :=
  match e.put, e.delete with
  | some p, _ => some (.put p.item.toValue)
  | none, some d => some (.delete d.key.toValue)
  | none, none => none

namespace Mapper

def requireMembers (m : Mapper) {α : Type} (operation : String) (members : List α) : Mapping Unit :=
  if members.isEmpty then Mapping.misuse (.emptyBatch m.table operation) else return ()

def batchGet (m : Mapper) (keys : List Value) (options : ReadOptions) : Mapping (Exchange BatchGetOutcome) := do
  m.requireMembers "batchGet" keys
  let (projection, t) ← projectionText (Selection.paths? options.select) m.tokens
  let keys ← keys.mapM m.keyOf
  let reads : Request.KeysAndAttributes :=
    { keys, projection, names := t.names, consistentRead := options.consistentRead }
  return ⟨.batchGetItem { requestItems := [(m.table, reads)], capacityReport := options.capacityReport }, fun
    | .batchGetItem r => do
      let items ← ((Entries.get? m.table r.responses).getD []).mapM (m.retrieved options.context)
      let pending := ((Entries.get? m.table r.unprocessedKeys).map (·.keys)).getD []
      return ⟨items, pending.map Item.toValue, r.capacity⟩
    | r => Exchange.unexpected .batchGetItem r⟩

def batchPuts (m : Mapper) (context : Value) (items : List Value) : Mapping (List (Value × Request.BatchEntry)) :=
  items.mapM fun item => do
    let prepared ← m.storable item context
    return (prepared, .ofItem (← m.marshalItem prepared))

def batchWrite (m : Mapper) (items keys : List Value) (options : WriteOptions) :
    Mapping (Exchange BatchWriteOutcome) := do
  let puts ← m.batchPuts options.context items
  let deletes ← keys.mapM fun key => do return Request.BatchEntry.ofKey (← m.keyOf key)
  let request : Request.BatchWriteItem := {
    requestItems := [(m.table, puts.map Prod.snd ++ deletes)]
    capacityReport := options.capacityReport
    metricsReport := options.metricsReport }
  return ⟨.batchWriteItem request, fun
    | .batchWriteItem r =>
      let pending := (Entries.get? m.table r.unprocessedItems).getD []
      return ⟨puts.map Prod.fst, pending.filterMap PendingWrite.ofEntry?, r.capacity, r.metrics⟩
    | r => Exchange.unexpected .batchWriteItem r⟩

def batchPut (m : Mapper) (items : List Value) (options : WriteOptions) : Mapping (Exchange BatchWriteOutcome) := do
  m.requireMembers "batchPut" items
  m.batchWrite items [] options

def batchDelete (m : Mapper) (keys : List Value) (options : WriteOptions) : Mapping (Exchange BatchWriteOutcome) := do
  m.requireMembers "batchDelete" keys
  m.batchWrite [] keys options

end Mapper

end ItemMapper
