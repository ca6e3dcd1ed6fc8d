import ItemMapper.Config
import ItemMapper.Payload.Table
import ItemMapper.Schema.Declaration

/-!
# Compiled schemas

A declaration becomes a tree of nodes and the metadata of the table's keys and indexes. Only top-level scalars may
be keys; a key is required.
-/

namespace ItemMapper

namespace Node

def checkMemberships (path : String) (top : Bool) (n : Node) : Except Misuse Node :=
  if n.modifiers.memberships.any then
    if !top then .error (.nestedIndex path)
    else match n with
      | scalar _ k => if k.canBeKey then .ok n else .error (.notIndexable path n.typeName)
      | _ => .error (.notIndexable path n.typeName)
  else .ok n

def isMemberNode : Node → Bool
  | scalar _ .string => true
  | scalar _ .number => true
  | scalar _ .bigInt => true
  | scalar _ .binary => true
  | _ => false

def setOf (m : Modifiers) (path : String) (items : Node) : Except Misuse Node :=
  if items.isMemberNode then .ok (set m items) else .error (.setOfOthers items.typeName path)

def ofTag (m : Modifiers) (path : String) (t : BaseType) : Except Misuse Node :=
  match t with
  | .array => .ok (list m anything)
  | .set => .error (.setUntyped path)
  | t => match t.scalar? with
    | some k => .ok (scalar m k)
    | none => .ok (any m)

mutual

def ofDecl (path : String) (top : Bool) : FieldDeclaration → Except Misuse Node
  | .tag t =>
    if t = .object then .ok (object { required := true } [] true) else ofTag { required := true } path t
  | .union variants =>
    if variants.isEmpty then .error (.emptyUnion path) else (variantsOfDecls path variants).map (union {})
  | .typedUnion variants m =>
    if variants.isEmpty then .error (.emptyUnion path)
    else do
      let vs ← variantsOfDecls path variants
      checkMemberships path top (union m vs)
  | .typed .object (some fields) _ isOpen m => do
    let fs ← fieldsOfDecls path fields
    checkMemberships path top (object m fs isOpen)
  | .typed .array _ (some items) _ m => do
    let n ← ofDecl (path ++ "[#]") false items
    checkMemberships path top (list m (n.withRequired false))
  | .typed .set _ (some items) _ m => do
    let n ← ofDecl (path ++ "[#]") false items
    let s ← setOf m path n
    checkMemberships path top s
  | .typed t _ _ _ m => do
    let n ← ofTag m path t
    checkMemberships path top n

def fieldsOfDecls (path : String) : List (String × FieldDeclaration) → Except Misuse (List (String × Node))
  | [] => .ok []
  | (name, d) :: rest => do
    let n ← ofDecl (path ++ "." ++ name) false d
    let fs ← fieldsOfDecls path rest
    return (name, n) :: fs

def variantsOfDecls (path : String) : List FieldDeclaration → Except Misuse (List Node)
  | [] => .ok []
  | d :: rest => do
    let n ← ofDecl path false d
    let n := match d with
      | .tag _ => n.withRequired false
      | _ => n
    let vs ← variantsOfDecls path rest
    return n :: vs

end

end Node

structure GlobalIndexDraft where
  name : String
  hash : Option String := none
  range : Option String := none
  projection : Projection := {}
  throughput : Option Throughput := none

structure KeyDraft where
  primaryKey : Option String := none
  sortKey : Option String := none
  definitions : List AttributeDefinition := []
  locals : List (String × String × Projection) := []
  globals : List GlobalIndexDraft := []

def Coverage.projection : Option Coverage → Projection
  | none => {}
  | some .all => ⟨some .all, []⟩
  | some .keys => ⟨some .keysOnly, []⟩
  | some (.selected names) => ⟨some .selected, names⟩

namespace KeyDraft

def keyKind : Scalar → KeyKind
  | .string => .s
  | .binary => .b
  | _ => .n

def requireFreeName (d : KeyDraft) (name : String) : Except Misuse Unit :=
  if d.locals.any (·.1 == name) || d.globals.any (·.name == name) then .error (.indexNameTaken name) else .ok ()

def addPrimary (d : KeyDraft) (field : String) (memberships : Memberships) : Except Misuse KeyDraft :=
  if memberships.primary then
    match d.primaryKey with
    | some first => .error (.secondPartitionKey field first)
    | none => .ok { d with primaryKey := some field }
  else .ok d

def addSortKey (d : KeyDraft) (field : String) (memberships : Memberships) : Except Misuse KeyDraft :=
  if memberships.sortKey then
    match d.sortKey with
    | some first => .error (.secondSortKey field first)
    | none => .ok { d with sortKey := some field }
  else .ok d

def addLocal (d : KeyDraft) (field : String) (memberships : Memberships) : Except Misuse KeyDraft :=
  match memberships.localIndex with
  | none => .ok d
  | some localIndex => do
    let name := localIndex.indexName.getD field
    d.requireFreeName name
    return { d with locals := d.locals ++ [(name, field, Coverage.projection localIndex.project)] }

def withField (draft : GlobalIndexDraft) (field : String) (globalIndex : GlobalMembership) :
    Except Misuse GlobalIndexDraft :=
  if globalIndex.sortKey then
    match draft.range with
    | some first => .error (.secondIndexKey globalIndex.indexName field .sort first)
    | none => .ok { draft with range := some field }
  else
    match draft.hash with
    | some first => .error (.secondIndexKey globalIndex.indexName field .hash first)
    | none => .ok { draft with
        hash := some field
        projection := Coverage.projection globalIndex.project
        throughput := globalIndex.capacity.map fun c => ⟨c.read, c.write⟩ }

def addToIndex (field : String) (globalIndex : GlobalMembership) :
    List GlobalIndexDraft → Except Misuse (List GlobalIndexDraft)
  | [] => do
    let draft ← withField { name := globalIndex.indexName } field globalIndex
    return [draft]
  | draft :: rest =>
    if draft.name = globalIndex.indexName then do
      let draft ← withField draft field globalIndex
      return draft :: rest
    else do
      let rest ← addToIndex field globalIndex rest
      return draft :: rest

def addGlobal (d : KeyDraft) (field : String) (memberships : Memberships) : Except Misuse KeyDraft :=
  match memberships.globalIndex with
  | none => .ok d
  | some globalIndex => do
    if !d.globals.any (·.name == globalIndex.indexName) then d.requireFreeName globalIndex.indexName
    let globals ← addToIndex field globalIndex d.globals
    return { d with globals }

def add (d : KeyDraft) (field : String) : Node → Except Misuse KeyDraft
  | .scalar m k => do
    if !m.memberships.any then return d
    let d ← d.addPrimary field m.memberships
    let d ← d.addSortKey field m.memberships
    let d ← d.addLocal field m.memberships
    let d ← d.addGlobal field m.memberships
    if d.definitions.any (·.attributeName == field) then return d
    return { d with definitions := d.definitions ++ [⟨field, keyKind k⟩] }
  | _ => .ok d

def addAll : KeyDraft → List (String × Node) → Except Misuse KeyDraft
  | d, [] => .ok d
  | d, (field, n) :: rest => do
    let d ← d.add field n
    addAll d rest

end KeyDraft

structure Schema where
  root : Node
  primaryKey : String
  sortKey : Option String
  attributeDefinitions : List AttributeDefinition
  localIndexes : List LocalIndex
  globalIndexes : List GlobalIndex

namespace Schema

def globalIndexOf (g : GlobalIndexDraft) : Except Misuse GlobalIndex :=
  match g.hash with
  | none => .error (.indexWithoutHash g.name)
  | some hash =>
    .ok ⟨g.name, .hash hash :: (g.range.map KeyElement.range).toList, g.projection, g.throughput⟩

def localIndexOf (primaryKey : String) : String × String × Projection → LocalIndex
  | (name, field, projection) => ⟨name, [.hash primaryKey, .range field], projection⟩

def requireKey (n : Node) : Node :=
  if n.modifiers.memberships.primary || n.modifiers.memberships.sortKey then n.withRequired true else n

def fieldsOf : SchemaDeclaration → Except Misuse (List (String × Node))
  | [] => .ok []
  | (name, d) :: rest => do
    let n ← Node.ofDecl name true d
    let fs ← fieldsOf rest
    return (name, n) :: fs

def ofDeclaration (decl : SchemaDeclaration) : Except Misuse Schema := do
  let fields ← fieldsOf decl
  let draft ← KeyDraft.addAll {} fields
  match draft.primaryKey with
  | none => .error .noPartitionKey
  | some primaryKey =>
    let globalIndexes ← draft.globals.mapM globalIndexOf
    return {
      root := .object { required := true } (Entries.mapValues requireKey fields) false
      primaryKey
      sortKey := draft.sortKey
      attributeDefinitions := draft.definitions
      localIndexes := draft.locals.map (localIndexOf primaryKey)
      globalIndexes }

/-- The schema of a declaration that compiles. A schema without fields stands for the others. -/
def compiled (decl : SchemaDeclaration) : Schema :=
  match ofDeclaration decl with
  | .ok s => s
  | .error _ => ⟨.nowhere, "", none, [], [], []⟩

def fields (s : Schema) : List (String × Node) := s.root.fields?.getD []

def field? (s : Schema) (name : String) : Option Node := s.root.field? name

def keySchema (s : Schema) : List KeyElement := .hash s.primaryKey :: (s.sortKey.map KeyElement.range).toList

def isKey (s : Schema) (name : String) : Bool := s.primaryKey == name || s.sortKey == some name

end Schema

structure IndexKey where
  name : String
  isLocal : Bool
  hashKey : String
  sortKey : Option String
  deriving DecidableEq, Repr

namespace IndexKey

def contains (k : IndexKey) (field : String) : Bool := k.hashKey == field || k.sortKey == some field

def attributeOf? (role : KeyType) (keys : List KeyElement) : Option String :=
  (keys.find? (·.keyType == role)).map (·.attributeName)

def ofElements? (name : String) (isLocal : Bool) (keys : List KeyElement) : Option IndexKey :=
  (attributeOf? .hash keys).map fun hash => ⟨name, isLocal, hash, attributeOf? .range keys⟩

end IndexKey

namespace Schema

def indexKey? (s : Schema) (name : String) : Option IndexKey :=
  match s.localIndexes.find? (·.indexName == name) with
  | some i => IndexKey.ofElements? name true i.keySchema
  | none => (s.globalIndexes.find? (·.indexName == name)).bind fun i => IndexKey.ofElements? name false i.keySchema

def tableDefinition (s : Schema) (table : String) (config : Config) : TableDefinition where
  tableName := table
  keySchema := s.keySchema
  attributeDefinitions := s.attributeDefinitions
  localIndexes := s.localIndexes
  globalIndexes := s.globalIndexes.map fun i =>
    { i with throughput := some (i.throughput.getD ⟨config.readCapacity, config.writeCapacity⟩) }

end Schema

end ItemMapper
