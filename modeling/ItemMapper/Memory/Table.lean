import ItemMapper.Wire.Basic

/-!
# Tables in memory

A table lists its items in the order in which their keys first came. Items are told apart by their key attributes.
-/

namespace ItemMapper

structure MemoryTable where
  key : List String
  items : List Item := []

namespace MemoryTable

def sameAttribute : Option Wire → Option Wire → Bool
  | none, none => true
  | some v, some w => v.same w
  | _, _ => false

def sameKey (t : MemoryTable) (x y : Item) : Bool :=
  t.key.all fun name => sameAttribute (Entries.get? name x) (Entries.get? name y)

def attributesOf (item : Item) : List String → Except String Item
  | [] => .ok []
  | name :: rest =>
    match Entries.get? name item with
    | none => .error name
    | some v => (attributesOf item rest).map fun others => (name, v) :: others

def keyOf (t : MemoryTable) (item : Item) : Except String Item := (attributesOf item t.key).map Entries.ofList

def find? (t : MemoryTable) (key : Item) : Option Item := t.items.find? fun item => t.sameKey item key

def store (same : Item → Bool) (item : Item) : List Item → List Item
  | [] => [item]
  | x :: rest => if same x then item :: rest else x :: store same item rest

def put (t : MemoryTable) (key item : Item) : MemoryTable :=
  { t with items := store (fun x => t.sameKey x key) item t.items }

def erase (t : MemoryTable) (key : Item) : MemoryTable :=
  { t with items := t.items.eraseP fun x => t.sameKey x key }

end MemoryTable

end ItemMapper
