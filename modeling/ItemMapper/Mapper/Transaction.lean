import ItemMapper.Mapper.Single

/-!
# Transactions

Several reads or writes in one request, all done or none. Every member has its own table of tokens.
-/

namespace ItemMapper

structure TransactGetOutcome where
  items : List Value
  capacity : List ConsumedCapacity

namespace Mapper

def selectedPaths : Value → Except Misuse (List String)
  | .undefined => .ok []
  | .list paths => paths.mapM fun p =>
    match p with
    | .string s => .ok s
    | p => .error (.selectedNotPath p.kindName)
  | v => .error (.selectionNotList v.kindName)

def ownKey? : Value → Option Value
  | .map entries => Entries.get? "$key" entries
  | _ => none

def transactGetEntry (m : Mapper) (shared : Option String × Tokens) (entry : Value) :
    Mapping Request.TransactGetEntry := do
  match ownKey? entry with
  | some key =>
    let paths ← Mapping.ofMisuse (selectedPaths (entry.get "$select"))
    let (projection, t) ← projectionText paths m.tokens
    return ⟨{ tableName := m.table, key := ← m.keyOf key, projection, names := t.names }⟩
  | none =>
    return ⟨{ tableName := m.table, key := ← m.keyOf entry, projection := shared.1, names := shared.2.names }⟩

def transactGet (m : Mapper) (keys : List Value) (options : ReadOptions) :
    Mapping (Exchange TransactGetOutcome) := do
  let shared ← projectionText (Selection.paths? options.select) m.tokens
  let entries ← keys.mapM (m.transactGetEntry shared)
  return ⟨.transactGetItems { entries, capacityReport := options.capacityReport }, fun
    | .transactGetItems r => do
      let items ← (r.responses.filterMap (·.item)).mapM (m.retrieved options.context)
      return ⟨items, r.capacity⟩
    | r => Exchange.unexpected .transactGetItems r⟩

def checkEntry (m : Mapper) (c : CheckMember) : Mapping Request.TransactWriteEntry := do
  let u ← m.updateRequest c.condition (.map []) { onCheckFailure := c.onCheckFailure }
  return { check := some {
    tableName := u.tableName
    key := u.key
    condition := u.condition
    names := u.names
    values := u.values
    onCheckFailure := u.onCheckFailure } }

def putEntry (m : Mapper) (context : Value) (p : PutMember) : Mapping Request.TransactWriteEntry := do
  let (request, _) ← m.putRequest p.item p.condition { onCheckFailure := p.onCheckFailure, context }
  return { put := some request }

def deleteEntry (m : Mapper) (d : DeleteMember) : Mapping Request.TransactWriteEntry := do
  return { delete := some (← m.deleteRequest d.filter { onCheckFailure := d.onCheckFailure }) }

def updateEntry (m : Mapper) (u : UpdateMember) : Mapping Request.TransactWriteEntry := do
  return { update := some (← m.updateRequest u.filter u.change { onCheckFailure := u.onCheckFailure }) }

def transactWrite (m : Mapper) (members : TransactionMembers) (options : TransactionOptions) :
    Mapping (Exchange Response.TransactWriteItems) := do
  let checks ← (options.checks ++ members.checks).mapM m.checkEntry
  let puts ← members.puts.mapM (m.putEntry options.context)
  let deletes ← members.deletes.mapM m.deleteEntry
  let updates ← members.updates.mapM m.updateEntry
  let request : Request.TransactWriteItems := {
    entries := checks ++ puts ++ deletes ++ updates
    requestToken := options.requestToken
    capacityReport := options.capacityReport
    metricsReport := options.metricsReport }
  return ⟨.transactWriteItems request, fun
    | .transactWriteItems r => return r
    | r => Exchange.unexpected .transactWriteItems r⟩

end Mapper

end ItemMapper
