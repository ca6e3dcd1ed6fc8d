import ItemMapper.Payload.Members

/-!
# Failures of the store

Failures that the store or its transport reports. They pass through unchanged.
-/

namespace ItemMapper

open Codec (Named)

inductive FailureCode where
  | conditionalCheckFailed
  | transactionCanceled
  | transactionConflict
  | requestLimitExceeded
  | resourceNotFound
  | validation
  | internalServer
  | transport
  deriving DecidableEq, Repr

instance : Inhabited FailureCode := ⟨.validation⟩

instance : Named FailureCode where
  all := [.conditionalCheckFailed, .transactionCanceled, .transactionConflict, .requestLimitExceeded,
    .resourceNotFound, .validation, .internalServer, .transport]
  name
    | .conditionalCheckFailed => "ConditionalCheckFailedException"
    | .transactionCanceled => "TransactionCanceledException"
    | .transactionConflict => "TransactionConflictException"
    | .requestLimitExceeded => "RequestLimitExceeded"
    | .resourceNotFound => "ResourceNotFoundException"
    | .validation => "ValidationException"
    | .internalServer => "InternalServerError"
    | .transport => "TransportError"

namespace FailureCode

def name (c : FailureCode) : String := Named.name c

def shortName (typeName : List Char) : List Char := (typeName.reverse.takeWhile (· != '#')).reverse

/-- The code of a type name, with or without its namespace. The store does not report transport failures. -/
def ofType? (typeName : String) : Option FailureCode :=
  let code : Option FailureCode := Codec.ofName? (String.ofList (shortName typeName.toList))
  if code = some transport then none else code

end FailureCode

structure CancellationReason where
  code : Option String := none
  message : Option String := none
  item : Item := []

def CancellationReason.codec : Codec CancellationReason where
  encode x := .object ((Member.optional "Code" .text).write x.code ++
    (Member.optional "Message" .text).write x.message ++ Members.sparseItem.write x.item)
  decode := (RecordReader.make CancellationReason.mk |>.and (Member.optional "Code" .text)
    |>.and (Member.optional "Message" .text) |>.and Members.sparseItem).decode

structure StoreFailure where
  code : FailureCode
  detail : String
  reasons : List CancellationReason := []

namespace StoreFailure

def ofCode (code : FailureCode) : StoreFailure := { code, detail := code.name }

def message (e : StoreFailure) : String := "StoreError(" ++ e.code.name ++ "): " ++ e.detail

end StoreFailure

end ItemMapper
