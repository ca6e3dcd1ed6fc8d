import ItemMapper.Payload.Names

/-!
# Keys and indexes

The metadata with which a table is provisioned.
-/

namespace ItemMapper

open Codec (named)

structure KeyElement where
  attributeName : String
  keyType : KeyType
  deriving DecidableEq, Repr

namespace KeyElement

def nameMember : Member String := .required "AttributeName" .text
def typeMember : Member KeyType := .required "KeyType" (named KeyType)

def codec : Codec KeyElement where
  encode x := .object (nameMember.write x.attributeName ++ typeMember.write x.keyType)
  decode := ((RecordReader.make KeyElement.mk).and nameMember |>.and typeMember).decode

def hash (name : String) : KeyElement := ⟨name, .hash⟩

def range (name : String) : KeyElement := ⟨name, .range⟩

end KeyElement

structure AttributeDefinition where
  attributeName : String
  attributeType : KeyKind
  deriving DecidableEq, Repr

namespace AttributeDefinition

def nameMember : Member String := .required "AttributeName" .text
def typeMember : Member KeyKind := .required "AttributeType" (named KeyKind)

def codec : Codec AttributeDefinition where
  encode x := .object (nameMember.write x.attributeName ++ typeMember.write x.attributeType)
  decode := ((RecordReader.make AttributeDefinition.mk).and nameMember |>.and typeMember).decode

end AttributeDefinition

structure Throughput where
  reads : Int
  writes : Int
  deriving DecidableEq, Repr

namespace Throughput

def readsMember : Member Int := .required "ReadCapacityUnits" .int64
def writesMember : Member Int := .required "WriteCapacityUnits" .int64

def codec : Codec Throughput where
  encode x := .object (readsMember.write x.reads ++ writesMember.write x.writes)
  decode := ((RecordReader.make Throughput.mk).and readsMember |>.and writesMember).decode

end Throughput

structure Projection where
  projectionType : Option ProjectionType := none
  nonKeyAttributes : List String := []
  deriving DecidableEq, Repr

namespace Projection

def typeMember : Member (Option ProjectionType) := .optional "ProjectionType" (named ProjectionType)
def attributesMember : Member (List String) := .sequence "NonKeyAttributes" (.list .text)

def codec : Codec Projection where
  encode x := .object (typeMember.write x.projectionType ++ attributesMember.write x.nonKeyAttributes)
  decode := ((RecordReader.make Projection.mk).and typeMember |>.and attributesMember).decode

end Projection

structure GlobalIndex where
  indexName : String
  keySchema : List KeyElement
  projection : Projection
  throughput : Option Throughput
  deriving DecidableEq, Repr

namespace GlobalIndex

def nameMember : Member String := .required "IndexName" .text
def keysMember : Member (List KeyElement) := .required "KeySchema" (.list KeyElement.codec)
def projectionMember : Member Projection := .required "Projection" Projection.codec
def throughputMember : Member (Option Throughput) := .optional "ProvisionedThroughput" Throughput.codec

def codec : Codec GlobalIndex where
  encode x := .object (nameMember.write x.indexName ++ keysMember.write x.keySchema ++
    projectionMember.write x.projection ++ throughputMember.write x.throughput)
  decode := ((RecordReader.make GlobalIndex.mk).and nameMember |>.and keysMember |>.and projectionMember |>.and
    throughputMember).decode

end GlobalIndex

structure LocalIndex where
  indexName : String
  keySchema : List KeyElement
  projection : Projection
  deriving DecidableEq, Repr

namespace LocalIndex

def nameMember : Member String := .required "IndexName" .text
def keysMember : Member (List KeyElement) := .required "KeySchema" (.list KeyElement.codec)
def projectionMember : Member Projection := .required "Projection" Projection.codec

def codec : Codec LocalIndex where
  encode x := .object (nameMember.write x.indexName ++ keysMember.write x.keySchema ++
    projectionMember.write x.projection)
  decode := ((RecordReader.make LocalIndex.mk).and nameMember |>.and keysMember |>.and projectionMember).decode

end LocalIndex

structure TableDefinition where
  tableName : String
  keySchema : List KeyElement
  attributeDefinitions : List AttributeDefinition
  localIndexes : List LocalIndex
  globalIndexes : List GlobalIndex
  deriving DecidableEq, Repr

def TableDefinition.toJson (x : TableDefinition) : Json :=
  .object ((Member.required "TableName" .text).write x.tableName ++
    (Member.required "KeySchema" (.list KeyElement.codec)).write x.keySchema ++
    (Member.required "AttributeDefinitions" (.list AttributeDefinition.codec)).write x.attributeDefinitions ++
    (Member.sequence "LocalSecondaryIndexes" (.list LocalIndex.codec)).write x.localIndexes ++
    (Member.sequence "GlobalSecondaryIndexes" (.list GlobalIndex.codec)).write x.globalIndexes)

end ItemMapper
