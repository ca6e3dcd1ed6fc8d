import ItemMapper.Misuse
import ItemMapper.Payload.Failure
import ItemMapper.Wire.Marshal

/-!
# Failures of a mapping

Everything that a mapping can fail with. What the mapper refuses is refused before a request is sent; failures of
the store pass through.
-/

namespace ItemMapper

inductive Phase where
  | required
  | type
  | enum
  | range
  | custom
  deriving DecidableEq, Repr

def Phase.title : Phase → String
  | required => "Missing Key"
  | type => "Invalid Type"
  | enum => "Invalid enum value"
  | range => "Invalid min/max value"
  | custom => "Custom validator exception"

inductive Violation where
  | absent
  | wrongKind (expected received : String)
  | noDate (kindName text : String)
  | notListed (text path : String) (allowed : List String)
  | shorter (least length : Nat)
  | longer (greatest length : Nat)
  | below (bound text : String)
  | above (bound text : String)
  | smaller (bound : String) (size : Nat)
  | larger (bound : String) (size : Nat)
  | objection (message : String)
  deriving DecidableEq

namespace Violation

def count (n : Nat) : String := intText n

def message : Violation → String
  | absent => "is required"
  | wrongKind e r => "Excepted: " ++ e ++ ". Received: " ++ r
  | noDate k t => "Excepted to be a valid date. Received: " ++ k ++ " - " ++ t
  | notListed t p allowed =>
    "Value '" ++ t ++ "' at '" ++ p ++ "' do not satisfies enum " ++ String.intercalate " | " allowed
  | shorter least n => "expected to have minimum length of " ++ count least ++ ". Received: " ++ count n
  | longer greatest n => "expected to have maximum length of " ++ count greatest ++ ". Received: " ++ count n
  | below b t => "expected to be at least " ++ b ++ ". Received: " ++ t
  | above b t => "expected to be maximum " ++ b ++ ". Received: " ++ t
  | smaller b n => "expected to have minimum size of " ++ b ++ ". Received: " ++ count n
  | larger b n => "expected to be maximum size of " ++ b ++ ". Received: " ++ count n
  | objection m => m

end Violation

abbrev Violations := List (String × Violation)

namespace Violations

def shownPath (path : String) : String :=
  match path.toList with
  | '.' :: rest => String.ofList rest
  | _ => path

def add (path : String) (v : Violation) (vs : Violations) : Violations := Entries.insert (shownPath path) v vs

end Violations

structure Rejection where
  phase : Phase
  table : String
  violations : Violations
  deriving DecidableEq

namespace Rejection

def lines (e : Rejection) : List String := e.violations.map fun (path, v) => "'" ++ path ++ "' " ++ v.message

def message (e : Rejection) : String :=
  let title := e.phase.title ++ " (" ++ e.table ++ ")"
  match e.lines with
  | [] => title
  | lines => title ++ ": " ++ String.intercalate "; " lines

end Rejection

inductive Forbidden where
  | unknownUpdate (operator : String)
  | unknownField (field : String)
  | enumArithmetic (path operator : String)
  | requiredRemoval (path : String)
  | repeatedTarget (path : String)
  deriving DecidableEq

def Forbidden.message : Forbidden → String
  | unknownUpdate o => "Unknown update expression - \"" ++ o ++ "\""
  | unknownField f => "Can not set \"" ++ f ++ "\" as it doesn't exists in Schema."
  | enumArithmetic p o => p ++ " can not be used with " ++ o ++ " as it is an enum."
  | requiredRemoval p => p ++ " can not be removed as it is marked as 'required'."
  | repeatedTarget p => "Can not apply more than one update operator to \"" ++ p ++ "\"."

inductive MappingFailure where
  | misuse (m : Misuse)
  | forbidden (table : String) (f : Forbidden)
  | invalid (e : Rejection)
  | marshal (e : MarshalError)
  | store (e : StoreFailure)

def MappingFailure.message : MappingFailure → String
  | misuse m => m.message
  | forbidden _ f => f.message
  | invalid e => e.message
  | marshal e => e.message
  | store e => e.message

end ItemMapper
