import ItemMapper.Entries
import ItemMapper.Number.Binary64
import ItemMapper.Time.Instant
import ItemMapper.Value.Kind

/-!
# Native values

What callers put in and get back. An absent attribute is told apart from a stored null, and dates and big integers
are kinds of their own so that a schema decides how they are stored. Maps keep their order; a set lists its
members.
-/

namespace ItemMapper

inductive Value where
  | undefined
  | null
  | bool (b : Bool)
  | number (x : Binary64)
  | bigInt (i : Int)
  | string (s : String)
  | binary (bytes : List UInt8)
  | date (t : Instant)
  | list (items : List Value)
  | map (entries : List (String × Value))
  | set (members : List Value)
  deriving Inhabited

namespace Value

def isUndefined : Value → Bool
  | undefined => true
  | _ => false

def isMap : Value → Bool
  | map _ => true
  | _ => false

def isSetNumber : Value → Bool
  | number x => !x.isNaN
  | bigInt _ => true
  | _ => false

def isString : Value → Bool
  | string _ => true
  | _ => false

def isBinary : Value → Bool
  | binary _ => true
  | _ => false

def isDate : Value → Bool
  | date _ => true
  | _ => false

def memberKind? (members : List Value) : Option Kind :=
  if members.all isSetNumber then some .ns
  else if members.all isString then some .ss
  else if members.all isBinary then some .bs
  else if members.all isDate then some .ns
  else none

def kind? : Value → Option Kind
  | undefined => none
  | null => some .null
  | bool _ => some .bool
  | number x => if x.isNaN then none else some .n
  | bigInt _ => some .n
  | date _ => some .n
  | string _ => some .s
  | binary _ => some .b
  | list _ => some .l
  | map _ => some .m
  | set members => memberKind? members

def kindName : Value → String
  | number x => if x.isNaN then "NaN" else "N"
  | set members => ((memberKind? members).map Kind.name).getD "Multi-type Set instance"
  | v => ((kind? v).map Kind.name).getD "undefined"

def truthy : Value → Bool
  | undefined => false
  | null => false
  | bool b => b
  | number x => !x.isZero && !x.isNaN
  | bigInt i => i != 0
  | string s => s != ""
  | _ => true

def asNumber? : Value → Option Binary64
  | number x => some x
  | bigInt i => some (.ofInt i)
  | _ => none

def asBool? : Value → Option Bool
  | bool b => some b
  | _ => none

def asString? : Value → Option String
  | string s => some s
  | _ => none

def asMap? : Value → Option (List (String × Value))
  | map entries => some entries
  | _ => none

def asList? : Value → Option (List Value)
  | list items => some items
  | _ => none

def get (key : String) : Value → Value
  | map entries => (Entries.get? key entries).getD undefined
  | _ => undefined

mutual

/-- Equality of values: numbers as numbers, so that NaN differs from itself, and maps whatever their order. -/
def same : Value → Value → Bool
  | undefined, undefined => true
  | null, null => true
  | bool a, bool b => a == b
  | number x, number y => x.same y
  | bigInt i, bigInt j => i == j
  | string s, string t => s == t
  | binary a, binary b => a == b
  | date a, date b => a == b
  | list xs, list ys => sameItems xs ys
  | map xs, map ys => xs.length == ys.length && sameEntries xs ys
  | set xs, set ys => sameItems xs ys
  | _, _ => false

def sameItems : List Value → List Value → Bool
  | [], [] => true
  | x :: xs, y :: ys => same x y && sameItems xs ys
  | _, _ => false

def sameEntries : List (String × Value) → List (String × Value) → Bool
  | [], _ => true
  | (key, x) :: xs, ys =>
    (match Entries.get? key ys with
      | some y => same x y
      | none => false) && sameEntries xs ys

end

def isMember (v : Value) (vs : List Value) : Bool := vs.any fun w => same w v

def distinct (members : List Value) : List Value :=
  members.foldl (fun out v => if v.isUndefined || isMember v out then out else out ++ [v]) []

def ofInt (i : Int) : Value := if i.natAbs ≤ Binary64.greatestExact then number (.ofInt i) else bigInt i

end Value

end ItemMapper
