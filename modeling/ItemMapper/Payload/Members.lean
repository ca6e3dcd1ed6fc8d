import ItemMapper.Payload.Table

/-!
# Members that payloads share
-/

namespace ItemMapper

open Codec (named)

structure ConsumedCapacity where
  tableName : Option String := none
  units : Option Binary64 := none
  readUnits : Option Binary64 := none
  writeUnits : Option Binary64 := none

def ConsumedCapacity.codec : Codec ConsumedCapacity where
  encode x := .object ((Member.optional "TableName" .text).write x.tableName ++
    (Member.optional "CapacityUnits" .float).write x.units ++ (Member.optional "ReadCapacityUnits" .float).write x.readUnits ++
    (Member.optional "WriteCapacityUnits" .float).write x.writeUnits)
  decode := (RecordReader.make ConsumedCapacity.mk |>.and (Member.optional "TableName" .text)
    |>.and (Member.optional "CapacityUnits" .float) |>.and (Member.optional "ReadCapacityUnits" .float)
    |>.and (Member.optional "WriteCapacityUnits" .float)).decode

structure ItemCollectionMetrics where
  collectionKey : Item := []
  sizeRange : List Binary64 := []

def ItemCollectionMetrics.codec : Codec ItemCollectionMetrics where
  encode x := .object ((Member.sequence "ItemCollectionKey" .item).write x.collectionKey ++
    (Member.sequence "SizeEstimateRangeGB" (.list .float)).write x.sizeRange)
  decode := (RecordReader.make ItemCollectionMetrics.mk |>.and (Member.sequence "ItemCollectionKey" .item)
    |>.and (Member.sequence "SizeEstimateRangeGB" (.list .float))).decode

namespace Members

def tableName : Member String := .required "TableName" .text
def item : Member Item := .required "Item" .item
def optionalItem : Member (Option Item) := .optional "Item" .item
def sparseItem : Member Item := .sequence "Item" .item
def key : Member Item := .required "Key" .item
def keys : Member (List Item) := .required "Keys" (.list .item)
def condition : Member (Option String) := .optional "ConditionExpression" .text
def update : Member (Option String) := .optional "UpdateExpression" .text
def keyCondition : Member (Option String) := .optional "KeyConditionExpression" .text
def filter : Member (Option String) := .optional "FilterExpression" .text
def projection : Member (Option String) := .optional "ProjectionExpression" .text
def names : Member (List (String × String)) := .sequence "ExpressionAttributeNames" (.map .text)
def values : Member (List (String × Wire)) := .sequence "ExpressionAttributeValues" (.map .wire)
def returnValues : Member (Option ReturnValue) := .optional "ReturnValues" (named ReturnValue)
def capacityReport : Member (Option CapacityReport) := .optional "ReturnConsumedCapacity" (named CapacityReport)
def metricsReport : Member (Option MetricsReport) := .optional "ReturnItemCollectionMetrics" (named MetricsReport)
def onCheckFailure : Member (Option OnCheckFailure) :=
  .optional "ReturnValuesOnConditionCheckFailure" (named OnCheckFailure)
def consistentRead : Member (Option Bool) := .optional "ConsistentRead" .bool
def indexName : Member (Option String) := .optional "IndexName" .text
def select : Member (Option Select) := .optional "Select" (named Select)
def limit : Member (Option Int) := .optional "Limit" .int32
def forward : Member (Option Bool) := .optional "ScanIndexForward" .bool
def startKey : Member Item := .sequence "ExclusiveStartKey" .item
def segment : Member (Option Int) := .optional "Segment" .int32
def totalSegments : Member (Option Int) := .optional "TotalSegments" .int32
def requestToken : Member (Option String) := .optional "ClientRequestToken" .text
def attributes : Member Item := .sequence "Attributes" .item
def items : Member (List Item) := .sequence "Items" (.list .item)
def count : Member Int := .defaulted "Count" .int32 0
def scannedCount : Member Int := .defaulted "ScannedCount" .int32 0
def lastKey : Member Item := .sequence "LastEvaluatedKey" .item
def capacity : Member (Option ConsumedCapacity) := .optional "ConsumedCapacity" ConsumedCapacity.codec
def capacities : Member (List ConsumedCapacity) := .sequence "ConsumedCapacity" (.list ConsumedCapacity.codec)
def metrics : Member (Option ItemCollectionMetrics) :=
  .optional "ItemCollectionMetrics" ItemCollectionMetrics.codec
def metricsByTable : Member (List (String × List ItemCollectionMetrics)) :=
  .sequence "ItemCollectionMetrics" (.map (.list ItemCollectionMetrics.codec))

end Members

end ItemMapper
