import ItemMapper.Payload.Members

/-!
# Requests

What is sent to the store, an operation each. Expressions carry tokens whose names and values stand beside them.
-/

namespace ItemMapper

namespace Request

structure PutItem where
  tableName : String := ""
  item : Item := []
  condition : Option String := none
  names : List (String × String) := []
  values : List (String × Wire) := []
  returnValues : Option ReturnValue := none
  capacityReport : Option CapacityReport := none
  metricsReport : Option MetricsReport := none
  onCheckFailure : Option OnCheckFailure := none

def PutItem.codec : Codec PutItem where
  encode x := .object (Members.tableName.write x.tableName ++ Members.item.write x.item ++
    Members.condition.write x.condition ++ Members.names.write x.names ++ Members.values.write x.values ++
    Members.returnValues.write x.returnValues ++ Members.capacityReport.write x.capacityReport ++
    Members.metricsReport.write x.metricsReport ++ Members.onCheckFailure.write x.onCheckFailure)
  decode := (RecordReader.make PutItem.mk |>.and Members.tableName |>.and Members.item |>.and Members.condition
    |>.and Members.names |>.and Members.values |>.and Members.returnValues |>.and Members.capacityReport
    |>.and Members.metricsReport |>.and Members.onCheckFailure).decode

structure GetItem where
  tableName : String := ""
  key : Item := []
  projection : Option String := none
  names : List (String × String) := []
  consistentRead : Option Bool := none
  capacityReport : Option CapacityReport := none

def GetItem.codec : Codec GetItem where
  encode x := .object (Members.tableName.write x.tableName ++ Members.key.write x.key ++
    Members.projection.write x.projection ++ Members.names.write x.names ++
    Members.consistentRead.write x.consistentRead ++ Members.capacityReport.write x.capacityReport)
  decode := (RecordReader.make GetItem.mk |>.and Members.tableName |>.and Members.key |>.and Members.projection
    |>.and Members.names |>.and Members.consistentRead |>.and Members.capacityReport).decode

structure UpdateItem where
  tableName : String := ""
  key : Item := []
  update : Option String := none
  condition : Option String := none
  names : List (String × String) := []
  values : List (String × Wire) := []
  returnValues : Option ReturnValue := none
  capacityReport : Option CapacityReport := none
  metricsReport : Option MetricsReport := none
  onCheckFailure : Option OnCheckFailure := none

def UpdateItem.codec : Codec UpdateItem where
  encode x := .object (Members.tableName.write x.tableName ++ Members.key.write x.key ++
    Members.update.write x.update ++ Members.condition.write x.condition ++ Members.names.write x.names ++
    Members.values.write x.values ++ Members.returnValues.write x.returnValues ++
    Members.capacityReport.write x.capacityReport ++ Members.metricsReport.write x.metricsReport ++
    Members.onCheckFailure.write x.onCheckFailure)
  decode := (RecordReader.make UpdateItem.mk |>.and Members.tableName |>.and Members.key |>.and Members.update
    |>.and Members.condition |>.and Members.names |>.and Members.values |>.and Members.returnValues
    |>.and Members.capacityReport |>.and Members.metricsReport |>.and Members.onCheckFailure).decode

structure DeleteItem where
  tableName : String := ""
  key : Item := []
  condition : Option String := none
  names : List (String × String) := []
  values : List (String × Wire) := []
  returnValues : Option ReturnValue := none
  capacityReport : Option CapacityReport := none
  metricsReport : Option MetricsReport := none
  onCheckFailure : Option OnCheckFailure := none

def DeleteItem.codec : Codec DeleteItem where
  encode x := .object (Members.tableName.write x.tableName ++ Members.key.write x.key ++
    Members.condition.write x.condition ++ Members.names.write x.names ++ Members.values.write x.values ++
    Members.returnValues.write x.returnValues ++ Members.capacityReport.write x.capacityReport ++
    Members.metricsReport.write x.metricsReport ++ Members.onCheckFailure.write x.onCheckFailure)
  decode := (RecordReader.make DeleteItem.mk |>.and Members.tableName |>.and Members.key |>.and Members.condition
    |>.and Members.names |>.and Members.values |>.and Members.returnValues |>.and Members.capacityReport
    |>.and Members.metricsReport |>.and Members.onCheckFailure).decode

structure Query where
  tableName : String := ""
  indexName : Option String := none
  keyCondition : Option String := none
  filter : Option String := none
  projection : Option String := none
  names : List (String × String) := []
  values : List (String × Wire) := []
  select : Option Select := none
  limit : Option Int := none
  consistentRead : Option Bool := none
  forward : Option Bool := none
  startKey : Item := []
  capacityReport : Option CapacityReport := none

def Query.codec : Codec Query where
  encode x := .object (Members.tableName.write x.tableName ++ Members.indexName.write x.indexName ++
    Members.keyCondition.write x.keyCondition ++ Members.filter.write x.filter ++
    Members.projection.write x.projection ++ Members.names.write x.names ++ Members.values.write x.values ++
    Members.select.write x.select ++ Members.limit.write x.limit ++ Members.consistentRead.write x.consistentRead ++
    Members.forward.write x.forward ++ Members.startKey.write x.startKey ++
    Members.capacityReport.write x.capacityReport)
  decode := (RecordReader.make Query.mk |>.and Members.tableName |>.and Members.indexName
    |>.and Members.keyCondition |>.and Members.filter |>.and Members.projection |>.and Members.names
    |>.and Members.values |>.and Members.select |>.and Members.limit |>.and Members.consistentRead
    |>.and Members.forward |>.and Members.startKey |>.and Members.capacityReport).decode

structure Scan where
  tableName : String := ""
  indexName : Option String := none
  filter : Option String := none
  projection : Option String := none
  names : List (String × String) := []
  values : List (String × Wire) := []
  select : Option Select := none
  limit : Option Int := none
  consistentRead : Option Bool := none
  startKey : Item := []
  segment : Option Int := none
  totalSegments : Option Int := none
  capacityReport : Option CapacityReport := none

def Scan.codec : Codec Scan where
  encode x := .object (Members.tableName.write x.tableName ++ Members.indexName.write x.indexName ++
    Members.filter.write x.filter ++ Members.projection.write x.projection ++ Members.names.write x.names ++
    Members.values.write x.values ++ Members.select.write x.select ++ Members.limit.write x.limit ++
    Members.consistentRead.write x.consistentRead ++ Members.startKey.write x.startKey ++
    Members.segment.write x.segment ++ Members.totalSegments.write x.totalSegments ++
    Members.capacityReport.write x.capacityReport)
  decode := (RecordReader.make Scan.mk |>.and Members.tableName |>.and Members.indexName |>.and Members.filter
    |>.and Members.projection |>.and Members.names |>.and Members.values |>.and Members.select |>.and Members.limit
    |>.and Members.consistentRead |>.and Members.startKey |>.and Members.segment |>.and Members.totalSegments
    |>.and Members.capacityReport).decode

structure KeysAndAttributes where
  keys : List Item := []
  projection : Option String := none
  names : List (String × String) := []
  consistentRead : Option Bool := none

def KeysAndAttributes.codec : Codec KeysAndAttributes where
  encode x := .object (Members.keys.write x.keys ++ Members.projection.write x.projection ++
    Members.names.write x.names ++ Members.consistentRead.write x.consistentRead)
  decode := (RecordReader.make KeysAndAttributes.mk |>.and Members.keys |>.and Members.projection
    |>.and Members.names |>.and Members.consistentRead).decode

structure BatchGetItem where
  requestItems : List (String × KeysAndAttributes) := []
  capacityReport : Option CapacityReport := none

def BatchGetItem.codec : Codec BatchGetItem where
  encode x := .object ((Member.required "RequestItems" (.map KeysAndAttributes.codec)).write x.requestItems ++
    Members.capacityReport.write x.capacityReport)
  decode := (RecordReader.make BatchGetItem.mk
    |>.and (Member.required "RequestItems" (.map KeysAndAttributes.codec)) |>.and Members.capacityReport).decode

structure PutEntry where
  item : Item := []

def PutEntry.codec : Codec PutEntry where
  encode x := .object (Members.item.write x.item)
  decode := (RecordReader.make PutEntry.mk |>.and Members.item).decode

structure DeleteEntry where
  key : Item := []

def DeleteEntry.codec : Codec DeleteEntry where
  encode x := .object (Members.key.write x.key)
  decode := (RecordReader.make DeleteEntry.mk |>.and Members.key).decode

structure BatchEntry where
  put : Option PutEntry := none
  delete : Option DeleteEntry := none

def BatchEntry.codec : Codec BatchEntry where
  encode x := .object ((Member.optional "PutRequest" PutEntry.codec).write x.put ++
    (Member.optional "DeleteRequest" DeleteEntry.codec).write x.delete)
  decode := (RecordReader.make BatchEntry.mk |>.and (Member.optional "PutRequest" PutEntry.codec)
    |>.and (Member.optional "DeleteRequest" DeleteEntry.codec)).decode

namespace BatchEntry

def ofItem (item : Item) : BatchEntry := { put := some ⟨item⟩ }

def ofKey (key : Item) : BatchEntry := { delete := some ⟨key⟩ }

end BatchEntry

structure BatchWriteItem where
  requestItems : List (String × List BatchEntry) := []
  capacityReport : Option CapacityReport := none
  metricsReport : Option MetricsReport := none

def BatchWriteItem.codec : Codec BatchWriteItem where
  encode x := .object ((Member.required "RequestItems" (.map (.list BatchEntry.codec))).write x.requestItems ++
    Members.capacityReport.write x.capacityReport ++ Members.metricsReport.write x.metricsReport)
  decode := (RecordReader.make BatchWriteItem.mk
    |>.and (Member.required "RequestItems" (.map (.list BatchEntry.codec))) |>.and Members.capacityReport
    |>.and Members.metricsReport).decode

structure Get where
  tableName : String := ""
  key : Item := []
  projection : Option String := none
  names : List (String × String) := []

def Get.codec : Codec Get where
  encode x := .object (Members.tableName.write x.tableName ++ Members.key.write x.key ++
    Members.projection.write x.projection ++ Members.names.write x.names)
  decode := (RecordReader.make Get.mk |>.and Members.tableName |>.and Members.key |>.and Members.projection
    |>.and Members.names).decode

structure TransactGetEntry where
  get : Get

def TransactGetEntry.codec : Codec TransactGetEntry where
  encode x := .object ((Member.required "Get" Get.codec).write x.get)
  decode := (RecordReader.make TransactGetEntry.mk |>.and (Member.required "Get" Get.codec)).decode

structure TransactGetItems where
  entries : List TransactGetEntry := []
  capacityReport : Option CapacityReport := none

def TransactGetItems.codec : Codec TransactGetItems where
  encode x := .object ((Member.required "TransactItems" (.list TransactGetEntry.codec)).write x.entries ++
    Members.capacityReport.write x.capacityReport)
  decode := (RecordReader.make TransactGetItems.mk
    |>.and (Member.required "TransactItems" (.list TransactGetEntry.codec)) |>.and Members.capacityReport).decode

structure ConditionCheck where
  tableName : String := ""
  key : Item := []
  condition : Option String := none
  names : List (String × String) := []
  values : List (String × Wire) := []
  onCheckFailure : Option OnCheckFailure := none

def ConditionCheck.codec : Codec ConditionCheck where
  encode x := .object (Members.tableName.write x.tableName ++ Members.key.write x.key ++
    Members.condition.write x.condition ++ Members.names.write x.names ++ Members.values.write x.values ++
    Members.onCheckFailure.write x.onCheckFailure)
  decode := (RecordReader.make ConditionCheck.mk |>.and Members.tableName |>.and Members.key
    |>.and Members.condition |>.and Members.names |>.and Members.values |>.and Members.onCheckFailure).decode

structure TransactWriteEntry where
  check : Option ConditionCheck := none
  put : Option PutItem := none
  delete : Option DeleteItem := none
  update : Option UpdateItem := none

def TransactWriteEntry.codec : Codec TransactWriteEntry where
  encode x := .object ((Member.optional "ConditionCheck" ConditionCheck.codec).write x.check ++
    (Member.optional "Put" PutItem.codec).write x.put ++
    (Member.optional "Delete" DeleteItem.codec).write x.delete ++
    (Member.optional "Update" UpdateItem.codec).write x.update)
  decode := (RecordReader.make TransactWriteEntry.mk |>.and (Member.optional "ConditionCheck" ConditionCheck.codec)
    |>.and (Member.optional "Put" PutItem.codec) |>.and (Member.optional "Delete" DeleteItem.codec)
    |>.and (Member.optional "Update" UpdateItem.codec)).decode

structure TransactWriteItems where
  entries : List TransactWriteEntry := []
  requestToken : Option String := none
  capacityReport : Option CapacityReport := none
  metricsReport : Option MetricsReport := none

def TransactWriteItems.codec : Codec TransactWriteItems where
  encode x := .object ((Member.required "TransactItems" (.list TransactWriteEntry.codec)).write x.entries ++
    Members.requestToken.write x.requestToken ++ Members.capacityReport.write x.capacityReport ++
    Members.metricsReport.write x.metricsReport)
  decode := (RecordReader.make TransactWriteItems.mk
    |>.and (Member.required "TransactItems" (.list TransactWriteEntry.codec)) |>.and Members.requestToken
    |>.and Members.capacityReport |>.and Members.metricsReport).decode

end Request

inductive Request where
  | putItem (r : Request.PutItem)
  | getItem (r : Request.GetItem)
  | updateItem (r : Request.UpdateItem)
  | deleteItem (r : Request.DeleteItem)
  | query (r : Request.Query)
  | scan (r : Request.Scan)
  | batchGetItem (r : Request.BatchGetItem)
  | batchWriteItem (r : Request.BatchWriteItem)
  | transactGetItems (r : Request.TransactGetItems)
  | transactWriteItems (r : Request.TransactWriteItems)

namespace Request

def operation : Request → Operation
  | putItem _ => .putItem
  | getItem _ => .getItem
  | updateItem _ => .updateItem
  | deleteItem _ => .deleteItem
  | query _ => .query
  | scan _ => .scan
  | batchGetItem _ => .batchGetItem
  | batchWriteItem _ => .batchWriteItem
  | transactGetItems _ => .transactGetItems
  | transactWriteItems _ => .transactWriteItems

def toJson : Request → Json
  | putItem r => PutItem.codec.encode r
  | getItem r => GetItem.codec.encode r
  | updateItem r => UpdateItem.codec.encode r
  | deleteItem r => DeleteItem.codec.encode r
  | query r => Query.codec.encode r
  | scan r => Scan.codec.encode r
  | batchGetItem r => BatchGetItem.codec.encode r
  | batchWriteItem r => BatchWriteItem.codec.encode r
  | transactGetItems r => TransactGetItems.codec.encode r
  | transactWriteItems r => TransactWriteItems.codec.encode r

end Request

end ItemMapper
