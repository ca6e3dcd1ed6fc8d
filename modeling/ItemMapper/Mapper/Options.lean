import ItemMapper.Payload.Names
import ItemMapper.Value.Basic

/-!
# Options

What callers may ask of an operation besides its subject.
-/

namespace ItemMapper

inductive Selection where
  | paths (texts : List String)
  | count
  | all
  | projected
  deriving DecidableEq, Repr

namespace Selection

def paths? : Option Selection → List String
  | some (paths texts) => texts
  | _ => []

def select? : Option Selection → Option Select
  | some count => some .count
  | some all => some .allAttributes
  | some projected => some .allProjected
  | _ => none

end Selection

structure ReadOptions where
  select : Option Selection := none
  consistentRead : Option Bool := none
  limit : Option Int := none
  forward : Option Bool := none
  startKey : Option Value := none
  segment : Option Int := none
  totalSegments : Option Int := none
  capacityReport : Option CapacityReport := none
  context : Value := .undefined

structure WriteOptions where
  returnValues : Option ReturnValue := none
  capacityReport : Option CapacityReport := none
  metricsReport : Option MetricsReport := none
  onCheckFailure : Option OnCheckFailure := none
  context : Value := .undefined

structure CheckMember where
  condition : Value
  onCheckFailure : Option OnCheckFailure := none

structure PutMember where
  item : Value
  condition : Option Value := none
  onCheckFailure : Option OnCheckFailure := none

structure DeleteMember where
  filter : Value
  onCheckFailure : Option OnCheckFailure := none

structure UpdateMember where
  filter : Value
  change : Value
  onCheckFailure : Option OnCheckFailure := none

structure TransactionMembers where
  checks : List CheckMember := []
  puts : List PutMember := []
  deletes : List DeleteMember := []
  updates : List UpdateMember := []

structure TransactionOptions where
  checks : List CheckMember := []
  requestToken : Option String := none
  capacityReport : Option CapacityReport := none
  metricsReport : Option MetricsReport := none
  context : Value := .undefined

end ItemMapper
