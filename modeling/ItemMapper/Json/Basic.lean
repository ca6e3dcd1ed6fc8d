import ItemMapper.Entries
import ItemMapper.Number.Reader

/-!
# JSON values

Objects keep the order of their members. Integers that fit 64 bits are told apart from all other numbers, since
the texts of the two differ.
-/

namespace ItemMapper

inductive Json where
  | null
  | bool (b : Bool)
  | int (i : Int)
  | float (x : Binary64)
  | string (s : String)
  | array (items : List Json)
  | object (members : List (String × Json))
  deriving Inhabited

namespace Json

def get? (key : String) : Json → Option Json
  | object members => Entries.get? key members
  | _ => none

def asString? : Json → Option String
  | string s => some s
  | _ => none

def asBool? : Json → Option Bool
  | bool b => some b
  | _ => none

def asInt? : Json → Option Int
  | int i => some i
  | _ => none

end Json

end ItemMapper
