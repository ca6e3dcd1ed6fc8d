import ItemMapper.Payload.Failure

/-!
# Refusals

Why the memory store does not carry out a request.
-/

namespace ItemMapper

inductive Refusal where
  | noTable (name : String)
  | noKeyAttribute (name : String)
  | conditionFailed
  | cancelled (holding : List Bool)
  | emptyMember
  | noKeyCondition
  | unknownName (token : String)
  | unknownValue (token : String)
  | unsupported (expression : String)
  | notSet (name : String)
  | wrongOperand
  | invalidNumber (text : String)
  deriving DecidableEq, Repr

namespace Refusal

def reason (holds : Bool) : CancellationReason :=
  if holds then { code := some "None" }
  else { code := some "ConditionalCheckFailed", message := some "The conditional request failed" }

def invalid (detail : String) : StoreFailure := { code := .validation, detail }

def cancelledText (holding : List Bool) : String :=
  "Transaction cancelled, please refer cancellation reasons for specific reasons [" ++
    String.intercalate ", " (holding.filterMap fun h => (reason h).code) ++ "]"

def error : Refusal → StoreFailure
  | noTable name =>
    { code := .resourceNotFound, detail := "Requested resource not found: Table: " ++ name ++ " not found" }
  | noKeyAttribute name => invalid ("missing key attribute " ++ name)
  | conditionFailed => { code := .conditionalCheckFailed, detail := "The conditional request failed" }
  | cancelled holding =>
    { code := .transactionCanceled, detail := cancelledText holding, reasons := holding.map reason }
  | emptyMember => invalid "empty transaction member"
  | noKeyCondition => invalid "Query requires a KeyConditionExpression"
  | unknownName token => invalid ("undefined attribute name " ++ token)
  | unknownValue token => invalid ("undefined attribute value " ++ token)
  | unsupported expression => invalid ("memory store cannot evaluate: " ++ expression)
  | notSet name => invalid (name ++ " is not set")
  | wrongOperand => invalid "An operand in the update expression has an incorrect data type"
  | invalidNumber text => invalid ("invalid number " ++ text)

end Refusal

end ItemMapper
