import ItemMapper.Payload.Request

/-!
# Responses

What the store answers, an operation each.
-/

namespace ItemMapper

open Request (BatchEntry KeysAndAttributes)

namespace Response

structure PutItem where
  attributes : Item := []
  capacity : Option ConsumedCapacity := none
  metrics : Option ItemCollectionMetrics := none

def PutItem.codec : Codec PutItem where
  encode x := .object (Members.attributes.write x.attributes ++ Members.capacity.write x.capacity ++
    Members.metrics.write x.metrics)
  decode := (RecordReader.make PutItem.mk |>.and Members.attributes |>.and Members.capacity
    |>.and Members.metrics).decode

structure GetItem where
  item : Option Item := none
  capacity : Option ConsumedCapacity := none

def GetItem.codec : Codec GetItem where
  encode x := .object (Members.optionalItem.write x.item ++ Members.capacity.write x.capacity)
  decode := (RecordReader.make GetItem.mk |>.and Members.optionalItem |>.and Members.capacity).decode

structure UpdateItem where
  attributes : Item := []
  capacity : Option ConsumedCapacity := none
  metrics : Option ItemCollectionMetrics := none

def UpdateItem.codec : Codec UpdateItem where
  encode x := .object (Members.attributes.write x.attributes ++ Members.capacity.write x.capacity ++
    Members.metrics.write x.metrics)
  decode := (RecordReader.make UpdateItem.mk |>.and Members.attributes |>.and Members.capacity
    |>.and Members.metrics).decode

structure DeleteItem where
  attributes : Item := []
  capacity : Option ConsumedCapacity := none
  metrics : Option ItemCollectionMetrics := none

def DeleteItem.codec : Codec DeleteItem where
  encode x := .object (Members.attributes.write x.attributes ++ Members.capacity.write x.capacity ++
    Members.metrics.write x.metrics)
  decode := (RecordReader.make DeleteItem.mk |>.and Members.attributes |>.and Members.capacity
    |>.and Members.metrics).decode

structure Query where
  items : List Item := []
  count : Int := 0
  scannedCount : Int := 0
  lastKey : Item := []
  capacity : Option ConsumedCapacity := none

def Query.codec : Codec Query where
  encode x := .object (Members.items.write x.items ++ Members.count.write x.count ++
    Members.scannedCount.write x.scannedCount ++ Members.lastKey.write x.lastKey ++
    Members.capacity.write x.capacity)
  decode := (RecordReader.make Query.mk |>.and Members.items |>.and Members.count |>.and Members.scannedCount
    |>.and Members.lastKey |>.and Members.capacity).decode

structure Scan where
  items : List Item := []
  count : Int := 0
  scannedCount : Int := 0
  lastKey : Item := []
  capacity : Option ConsumedCapacity := none

def Scan.codec : Codec Scan where
  encode x := .object (Members.items.write x.items ++ Members.count.write x.count ++
    Members.scannedCount.write x.scannedCount ++ Members.lastKey.write x.lastKey ++
    Members.capacity.write x.capacity)
  decode := (RecordReader.make Scan.mk |>.and Members.items |>.and Members.count |>.and Members.scannedCount
    |>.and Members.lastKey |>.and Members.capacity).decode

structure BatchGetItem where
  responses : List (String × List Item) := []
  unprocessedKeys : List (String × KeysAndAttributes) := []
  capacity : List ConsumedCapacity := []

def BatchGetItem.codec : Codec BatchGetItem where
  encode x := .object ((Member.sequence "Responses" (.map (.list .item))).write x.responses ++
    (Member.sequence "UnprocessedKeys" (.map KeysAndAttributes.codec)).write x.unprocessedKeys ++
    Members.capacities.write x.capacity)
  decode := (RecordReader.make BatchGetItem.mk |>.and (Member.sequence "Responses" (.map (.list .item)))
    |>.and (Member.sequence "UnprocessedKeys" (.map KeysAndAttributes.codec)) |>.and Members.capacities).decode

structure BatchWriteItem where
  unprocessedItems : List (String × List BatchEntry) := []
  metrics : List (String × List ItemCollectionMetrics) := []
  capacity : List ConsumedCapacity := []

def BatchWriteItem.codec : Codec BatchWriteItem where
  encode x := .object (
    (Member.sequence "UnprocessedItems" (.map (.list BatchEntry.codec))).write x.unprocessedItems ++
    Members.metricsByTable.write x.metrics ++ Members.capacities.write x.capacity)
  decode := (RecordReader.make BatchWriteItem.mk
    |>.and (Member.sequence "UnprocessedItems" (.map (.list BatchEntry.codec))) |>.and Members.metricsByTable
    |>.and Members.capacities).decode

structure ItemEntry where
  item : Option Item := none

def ItemEntry.codec : Codec ItemEntry where
  encode x := .object (Members.optionalItem.write x.item)
  decode := (RecordReader.make ItemEntry.mk |>.and Members.optionalItem).decode

structure TransactGetItems where
  responses : List ItemEntry := []
  capacity : List ConsumedCapacity := []

def TransactGetItems.codec : Codec TransactGetItems where
  encode x := .object ((Member.sequence "Responses" (.list ItemEntry.codec)).write x.responses ++
    Members.capacities.write x.capacity)
  decode := (RecordReader.make TransactGetItems.mk |>.and (Member.sequence "Responses" (.list ItemEntry.codec))
    |>.and Members.capacities).decode

structure TransactWriteItems where
  capacity : List ConsumedCapacity := []
  metrics : List (String × List ItemCollectionMetrics) := []

def TransactWriteItems.codec : Codec TransactWriteItems where
  encode x := .object (Members.capacities.write x.capacity ++ Members.metricsByTable.write x.metrics)
  decode := (RecordReader.make TransactWriteItems.mk |>.and Members.capacities |>.and Members.metricsByTable).decode

end Response

inductive Response where
  | putItem (r : Response.PutItem)
  | getItem (r : Response.GetItem)
  | updateItem (r : Response.UpdateItem)
  | deleteItem (r : Response.DeleteItem)
  | query (r : Response.Query)
  | scan (r : Response.Scan)
  | batchGetItem (r : Response.BatchGetItem)
  | batchWriteItem (r : Response.BatchWriteItem)
  | transactGetItems (r : Response.TransactGetItems)
  | transactWriteItems (r : Response.TransactWriteItems)

namespace Response

def operation : Response → Operation
  | putItem _ => .putItem
  | getItem _ => .getItem
  | updateItem _ => .updateItem
  | deleteItem _ => .deleteItem
  | query _ => .query
  | scan _ => .scan
  | batchGetItem _ => .batchGetItem
  | batchWriteItem _ => .batchWriteItem
  | transactGetItems _ => .transactGetItems
  | transactWriteItems _ => .transactWriteItems

def ofJson (operation : Operation) (j : Json) : Decoded Response :=
  match operation with
  | .putItem => (PutItem.codec.decode j).map putItem
  | .getItem => (GetItem.codec.decode j).map getItem
  | .updateItem => (UpdateItem.codec.decode j).map updateItem
  | .deleteItem => (DeleteItem.codec.decode j).map deleteItem
  | .query => (Query.codec.decode j).map query
  | .scan => (Scan.codec.decode j).map scan
  | .batchGetItem => (BatchGetItem.codec.decode j).map batchGetItem
  | .batchWriteItem => (BatchWriteItem.codec.decode j).map batchWriteItem
  | .transactGetItems => (TransactGetItems.codec.decode j).map transactGetItems
  | .transactWriteItems => (TransactWriteItems.codec.decode j).map transactWriteItems

end Response

end ItemMapper
