import ItemMapper.Json.Printer

/-!
# Misuse

The ways in which a schema, a condition, an update or a request can be malformed, each with the data that its
message shows.
-/

namespace ItemMapper

inductive KeyRole where
  | hash
  | sort
  deriving DecidableEq

def KeyRole.name : KeyRole → String
  | hash => "hash"
  | sort => "sort"

structure Scope where
  path : Option String
  operator : String

def Scope.text (s : Scope) : String :=
  match s.path with
  | some p => "'" ++ p ++ "' > '" ++ s.operator ++ "'"
  | none => "'" ++ s.operator ++ "'"

inductive Misuse where
  -- declarations
  | unknownType (name : String)
  | untypedField (declaration : Json)
  | enumNotList
  | unknownDateFormat (format : Json)
  | fieldsNotObject
  | indexUnnamed
  | notPositive (modifier : String)
  | projectedNameNotText
  | unknownProjection (projection : Json)
  | schemaNotObject
  -- compiled schemas
  | nestedIndex (path : String)
  | notIndexable (path typeName : String)
  | setUntyped (path : String)
  | setOfOthers (typeName path : String)
  | emptyUnion (path : String)
  | secondPartitionKey (field first : String)
  | secondSortKey (field first : String)
  | secondIndexKey (index field : String) (role : KeyRole) (first : String)
  | indexNameTaken (index : String)
  | noPartitionKey
  | indexWithoutHash (index : String)
  -- paths and keys
  | malformedPath (path : String)
  | placeholderIndex
  | undefinedCondition (scope : Scope)
  -- conditions
  | conditionNotObject (path kindName : String)
  | emptyNested (path : String)
  | undefinedOperand (scope : Scope)
  | notUnderAttribute (operator : String)
  | betweenOperands (scope : Scope)
  | unknownOperator (operator : String) (allowed : List String)
  | notList (scope : Scope)
  | emptyList (scope : Scope)
  | sizeWithoutOperator (path operators : String)
  | sizeBetween
  | sizeOperator (path operator : String)
  | emptyIn (scope : Scope)
  | typeNotName (kindName : String)
  | ambiguousType (name : String)
  -- updates
  | updateNotObject (kindName : String)
  | assignmentsNotObject (operator : String)
  | dateUnitsNotObject (units : List String) (kindName : String)
  | unknownDateUnit (unit : String) (units : List String)
  | dateUnitOperator (unit : String)
  -- requests
  | filterNotObject (table kindName : String)
  | emptyBatch (table operation : String)
  | unknownIndex (table index : String)
  | selectedNotPath (kindName : String)
  | selectionNotList (kindName : String)

namespace Misuse

def commas (ss : List String) : String := String.intercalate ", " ss

def message : Misuse → String
  | unknownType name => "Unknown type '" ++ name ++ "'"
  | untypedField j => "Field declaration must have a 'type': " ++ j.render
  | enumNotList => "'enum' must be an array"
  | unknownDateFormat j => "Unknown date format " ++ j.render
  | fieldsNotObject => "'fields' must be an object"
  | indexUnnamed => "'GSI' must have an 'indexName'"
  | notPositive m => "'" ++ m ++ "' must be a positive integer"
  | projectedNameNotText => "projected attribute names must be strings"
  | unknownProjection j =>
    "Invalid projection " ++ j.render ++ ". Expected 'ALL', 'KEYS' or a list of attribute names"
  | schemaNotObject => "Schema declaration must be an object"
  | nestedIndex p => "'" ++ p ++ "' can not be used as a key or index. Only top-level fields can."
  | notIndexable p t =>
    "'" ++ p ++ "' of type " ++ t ++
      " can not be used as a key or index. Allowed types: String, Number, BigInt, Binary, Date"
  | setUntyped p => "'" ++ p ++ "': 'Set' type must provide 'items' type"
  | setOfOthers t p =>
    "Invalid 'Set' 'items' type '" ++ t ++ "' at '" ++ p ++ "'\nMust be String | Number | BigInt | Binary"
  | emptyUnion p => "'" ++ p ++ "': a union must declare at least one type"
  | secondPartitionKey f e =>
    "primaryIndex can not be used on field '" ++ f ++ "'. It is already set on field '" ++ e ++ "'"
  | secondSortKey f e =>
    "sortKey can not be used on field '" ++ f ++ "'. It is already set on field '" ++ e ++ "'"
  | secondIndexKey i f r e =>
    "GSI '" ++ i ++ "' can not use field '" ++ f ++ "' as " ++ r.name ++ " key. It is already set on field '" ++ e ++ "'"
  | indexNameTaken i => "Index name '" ++ i ++ "' is already used"
  | noPartitionKey => "primaryIndex is missing in your Schema"
  | indexWithoutHash i => "GSI '" ++ i ++ "' has a sort key but no hash key"
  | malformedPath p => "Invalid attribute path '" ++ p ++ "'"
  | placeholderIndex => "'[#]' is a placeholder. Please use a real number."
  | undefinedCondition s => s.text ++ " can not use 'undefined' as condition value."
  | conditionNotObject p k => "Condition at '" ++ p ++ "' must be an object. Received: " ++ k
  | emptyNested p =>
    "Invalid condition expression at \"" ++ p ++ "\".\nCondition expression can not be empty"
  | undefinedOperand s => s.text ++ " condition can not have 'undefined' condition."
  | notUnderAttribute o => "'" ++ o ++ "' must be nested under an attribute name."
  | betweenOperands s => s.text ++ " condition must include exactly two defined values."
  | unknownOperator o allowed => "Unknown operator '" ++ o ++ "'\nAllowed operators: " ++ commas allowed
  | notList s => s.text ++ " condition must be an array."
  | emptyList s => s.text ++ " condition can not be empty array."
  | sizeWithoutOperator p ops =>
    "$size condition for '" ++ p ++ "' must contain at least one of comparison operator (" ++ ops ++ ")"
  | sizeBetween => "$between condition for \"$size\" must include exactly two numbers/bigint."
  | sizeOperator p o => p ++ " > $size > '" ++ o ++ "' is not a valid comparison operator"
  | emptyIn s => s.text ++ " condition must include at least one defined value."
  | typeNotName k => "$type expects a type name. Received: " ++ k
  | ambiguousType n => "$type '" ++ n ++ "' is ambiguous. Use one of SS, NS, BS."
  | updateNotObject k => "Update expression must be an object. Received: " ++ k
  | assignmentsNotObject o => "'" ++ o ++ "' at the top level must be an object of attribute names."
  | dateUnitsNotObject us k => "$date expects an object of " ++ commas us ++ ". Received: " ++ k
  | unknownDateUnit u us => "Unknown $date unit '" ++ u ++ "'. Allowed units: " ++ commas us
  | dateUnitOperator u => "$date > '" ++ u ++ "' must be \x7b$incr: number\x7d or \x7b$decr: number\x7d"
  | filterNotObject t k => t ++ " > expected an object of key and condition attributes. Received: " ++ k
  | emptyBatch t o => t ++ " > " ++ o ++ " must include at least one item."
  | unknownIndex t i => t ++ " > unknown index \"" ++ i ++ "\"."
  | selectedNotPath k => "$select expects attribute paths. Received: " ++ k
  | selectionNotList k => "$select expects a list of attribute paths. Received: " ++ k

end Misuse

end ItemMapper
