import ItemMapper.Payload.Codec

/-!
# Constants of payloads

The named constants that requests and responses use, and the operations of the store.
-/

namespace ItemMapper

open Codec (Named)

instance : Named Kind := ⟨Kind.all, Kind.name⟩

inductive KeyType where
  | hash
  | range
  deriving DecidableEq, Repr

instance : Named KeyType where
  all := [.hash, .range]
  name
    | .hash => "HASH"
    | .range => "RANGE"

inductive KeyKind where
  | s
  | n
  | b
  deriving DecidableEq, Repr

instance : Named KeyKind where
  all := [.s, .n, .b]
  name
    | .s => "S"
    | .n => "N"
    | .b => "B"

inductive ProjectionType where
  | all
  | keysOnly
  | selected
  deriving DecidableEq, Repr

instance : Named ProjectionType where
  all := [.all, .keysOnly, .selected]
  name
    | .all => "ALL"
    | .keysOnly => "KEYS_ONLY"
    | .selected => "INCLUDE"

inductive ReturnValue where
  | nothing
  | allOld
  | updatedOld
  | allNew
  | updatedNew
  deriving DecidableEq, Repr

instance : Named ReturnValue where
  all := [.nothing, .allOld, .updatedOld, .allNew, .updatedNew]
  name
    | .nothing => "NONE"
    | .allOld => "ALL_OLD"
    | .updatedOld => "UPDATED_OLD"
    | .allNew => "ALL_NEW"
    | .updatedNew => "UPDATED_NEW"

inductive OnCheckFailure where
  | nothing
  | allOld
  deriving DecidableEq, Repr

instance : Named OnCheckFailure where
  all := [.nothing, .allOld]
  name
    | .nothing => "NONE"
    | .allOld => "ALL_OLD"

inductive CapacityReport where
  | indexes
  | total
  | nothing
  deriving DecidableEq, Repr

instance : Named CapacityReport where
  all := [.indexes, .total, .nothing]
  name
    | .indexes => "INDEXES"
    | .total => "TOTAL"
    | .nothing => "NONE"

inductive MetricsReport where
  | size
  | nothing
  deriving DecidableEq, Repr

instance : Named MetricsReport where
  all := [.size, .nothing]
  name
    | .size => "SIZE"
    | .nothing => "NONE"

inductive Select where
  | allAttributes
  | allProjected
  | specific
  | count
  deriving DecidableEq, Repr

instance : Named Select where
  all := [.allAttributes, .allProjected, .specific, .count]
  name
    | .allAttributes => "ALL_ATTRIBUTES"
    | .allProjected => "ALL_PROJECTED_ATTRIBUTES"
    | .specific => "SPECIFIC_ATTRIBUTES"
    | .count => "COUNT"

inductive Operation where
  | putItem
  | getItem
  | updateItem
  | deleteItem
  | query
  | scan
  | batchGetItem
  | batchWriteItem
  | transactGetItems
  | transactWriteItems
  deriving DecidableEq, Repr

instance : Named Operation where
  all := [.putItem, .getItem, .updateItem, .deleteItem, .query, .scan, .batchGetItem, .batchWriteItem,
    .transactGetItems, .transactWriteItems]
  name
    | .putItem => "PutItem"
    | .getItem => "GetItem"
    | .updateItem => "UpdateItem"
    | .deleteItem => "DeleteItem"
    | .query => "Query"
    | .scan => "Scan"
    | .batchGetItem => "BatchGetItem"
    | .batchWriteItem => "BatchWriteItem"
    | .transactGetItems => "TransactGetItems"
    | .transactWriteItems => "TransactWriteItems"

namespace Operation

def name (o : Operation) : String := Named.name o

def ofName? (name : String) : Option Operation := Codec.ofName? name

def isWrite : Operation → Bool
  | putItem | updateItem | deleteItem | batchWriteItem | transactWriteItems => true
  | _ => false

end Operation

end ItemMapper
