import ItemMapper.Misuse
import ItemMapper.Number.Reader
import ItemMapper.Text.Digit
import ItemMapper.Text.Split

/-!
# Attribute paths

Document paths such as `a.b[2].c`. A path is read character by character: a name, or the digits of an index
between brackets, or the place right after an index, where only another index or a point may follow.
-/

namespace ItemMapper

inductive PathStep where
  | name (s : String)
  | index (i : Nat)
  deriving DecidableEq, Repr

structure DocumentPath where
  elements : List PathStep
  deriving DecidableEq, Repr

namespace DocumentPath

inductive ReadState where
  | naming (read : List Char)
  | indexing (read : List Char)
  | indexed

def named (read : List Char) : List PathStep :=
  if read.isEmpty then [] else [.name (String.ofList read.reverse)]

def readFrom : ReadState → List Char → Option (List PathStep)
  | .naming read, [] => some (named read)
  | .indexing _, [] => none
  | .indexed, [] => some []
  | .naming read, c :: rest =>
    if c = '.' then
      if read.isEmpty || rest.isEmpty then none
      else (readFrom (.naming []) rest).map (named read ++ ·)
    else if c = '[' then (readFrom (.indexing []) rest).map (named read ++ ·)
    else readFrom (.naming (c :: read)) rest
  | .indexing read, c :: rest =>
    if c = ']' then do
      let i ← NumberReader.index? read.reverse
      let elements ← readFrom .indexed rest
      return .index i :: elements
    else readFrom (.indexing (c :: read)) rest
  | .indexed, c :: rest =>
    if c = '.' then if rest.isEmpty then none else readFrom (.naming []) rest
    else if c = '[' then readFrom (.indexing []) rest
    else none

def parse? (text : String) : Option DocumentPath := do
  let elements ← readFrom (.naming []) text.toList
  if elements.isEmpty then none else return ⟨elements⟩

def parse (text : String) : Except Misuse DocumentPath :=
  match parse? text with
  | some p => .ok p
  | none => .error (.malformedPath text)

def field (name : String) : DocumentPath := ⟨[.name name]⟩

def firstName? (p : DocumentPath) : Option String :=
  match p.elements with
  | .name s :: _ => some s
  | _ => none

def indexChars (i : Nat) : List Char := '[' :: NumberLayout.natDigits i ++ [']']

def restChars : List PathStep → List Char
  | [] => []
  | .name s :: rest => '.' :: s.toList ++ restChars rest
  | .index i :: rest => indexChars i ++ restChars rest

def chars (p : DocumentPath) : List Char :=
  match p.elements with
  | .name s :: rest => s.toList ++ restChars rest
  | elements => restChars elements

def text (p : DocumentPath) : String := String.ofList p.chars

/-- Replaces the digits of every index by one mark; `skip` characters have been replaced already. -/
def replaceIndices [DigitClass] : Nat → List Char → List Char
  | _, [] => []
  | skip + 1, _ :: rest => replaceIndices skip rest
  | 0, c :: rest =>
    let digits := rest.takeWhile DigitClass.isDigit
    if c = '[' ∧ digits ≠ [] ∧ (rest.drop digits.length).head? = some ']' then
      '[' :: '#' :: ']' :: replaceIndices (digits.length + 1) rest
    else c :: replaceIndices 0 rest

def pattern [DigitClass] (text : String) : Except Misuse String :=
  if Text.contains ['[', '#', ']'] text.toList then .error .placeholderIndex
  else .ok (String.ofList (replaceIndices 0 text.toList))

end DocumentPath

end ItemMapper
