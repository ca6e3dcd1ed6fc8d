/-!
# Storage kinds

The ten kinds of stored values, named by the descriptors of the wire format.
-/

namespace ItemMapper

inductive Kind where
  | s
  | n
  | b
  | ss
  | ns
  | bs
  | bool
  | null
  | l
  | m
  deriving DecidableEq, Repr

namespace Kind

def all : List Kind := [s, n, b, ss, ns, bs, bool, null, l, m]

def name : Kind → String
  | s => "S"
  | n => "N"
  | b => "B"
  | ss => "SS"
  | ns => "NS"
  | bs => "BS"
  | bool => "BOOL"
  | null => "NULL"
  | l => "L"
  | m => "M"

def isScalar : Kind → Bool
  | s | n | b | bool | null => true
  | _ => false

def isSet : Kind → Bool
  | ss | ns | bs => true
  | _ => false

end Kind

end ItemMapper
