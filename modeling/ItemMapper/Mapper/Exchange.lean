import ItemMapper.Expression.UpdateDocument
import ItemMapper.Item.Reading
import ItemMapper.Item.Writing
import ItemMapper.Mapper.Options
import ItemMapper.Payload.Response

/-!
# Exchanges

An exchange is a request together with what becomes of its response. Expressions of one request share a table of
tokens, and no two requests share one.
-/

namespace ItemMapper

structure Exchange (α : Type) where
  request : Request
  receive : Response → Mapping α

def Exchange.unexpected {α : Type} (wanted : Operation) (r : Response) : Mapping α :=
  throw (.store ⟨.transport, "expected a " ++ wanted.name ++ " response, received " ++ r.operation.name, []⟩)

/-- Carries out an exchange with a store. A failure to build the request leaves the store alone. -/
def Exchange.perform {σ α : Type} (send : Request → StateM σ (Except StoreFailure Response))
    (exchange : Mapping (Exchange α)) (session : Session) (store : σ) : Except MappingFailure α × Session × σ :=
  match exchange.run session with
  | (.error e, session) => (.error e, session, store)
  | (.ok x, session) =>
    match (send x.request).run store with
    | (.error e, store) => (.error (.store e), session, store)
    | (.ok r, store) =>
      let (result, session) := (x.receive r).run session
      (result, session, store)

structure Mapper where
  table : String
  schema : Schema
  config : Config := {}

namespace Mapper

def definition (m : Mapper) : TableDefinition := m.schema.tableDefinition m.table m.config

def index (m : Mapper) (name : String) : Except Misuse IndexKey :=
  match m.schema.indexKey? name with
  | some keys => .ok keys
  | none => .error (.unknownIndex m.table name)

def tokens (m : Mapper) : Tokens := { options := m.config.marshalOptions }

def keyOf (m : Mapper) (key : Value) : Mapping Item :=
  match m.schema.marshalKey m.config.marshalOptions key with
  | .ok item => return item
  | .error e => throw e

def startItem (m : Mapper) (options : ReadOptions) : Mapping Item :=
  match options.startKey with
  | some key => m.keyOf key
  | none => return []

def conditionText (m : Mapper) (doc : Value) (t : Tokens) : Mapping (Option String × Tokens) := do
  match ← m.schema.readCondition doc none with
  | some c =>
    let (text, t) ← Mapping.rendered c.render t
    return (some text, t)
  | none => return (none, t)

def addPaths : List String → Tokens → Mapping (List String × Tokens)
  | [], t => return ([], t)
  | text :: rest, t => do
    let p ← Mapping.ofMisuse (DocumentPath.parse text)
    let (token, t) := t.addPath p
    let (others, t) ← addPaths rest t
    return (token :: others, t)

def projectionText (paths : List String) (t : Tokens) : Mapping (Option String × Tokens) := do
  let (parts, t) ← addPaths paths t
  return (if parts.isEmpty then none else some (String.intercalate ", " parts), t)

def partitionFilter (m : Mapper) (isKey : String → Bool) : Value → Mapping (Value × Value)
  | .map entries => return (.map (entries.filter fun e => isKey e.1), .map (entries.filter fun e => !isKey e.1))
  | .undefined => return (.map [], .map [])
  | .null => return (.map [], .map [])
  | v => Mapping.misuse (.filterNotObject m.table v.kindName)

def storable (m : Mapper) (item context : Value) : Mapping Value := do
  let prepared ← Mapping.passes do
    let prepared ← m.schema.root.forStore item context
    match ← m.schema.root.validate "" m.table prepared with
    | some e => return Except.error e
    | none => return .ok prepared
  UpdateDocument.orInvalid prepared

def marshalItem (m : Mapper) (item : Value) : Mapping Item :=
  Mapping.ofMarshal (Item.ofValue m.config.marshalOptions item)

def retrieved (m : Mapper) (context : Value) (item : Item) : Mapping Value :=
  Mapping.passes (m.schema.root.forCaller item.toValue context)

def restored (m : Mapper) (item : Item) : Option Value :=
  if item.isEmpty then none else some (m.schema.root.restore false item.toValue)

end Mapper

end ItemMapper
