import ItemMapper.Entries
import ItemMapper.Number.Layout
import ItemMapper.Text.Listing
import ItemMapper.Value.Kind

/-!
# Wire values

Stored values in the tagged form that requests and responses carry. Numbers are texts, so that no digit is lost;
maps keep their order.
-/

namespace ItemMapper

inductive Wire where
  | s (text : String)
  | n (digits : String)
  | b (bytes : List UInt8)
  | ss (texts : List String)
  | ns (numbers : List String)
  | bs (members : List (List UInt8))
  | bool (flag : Bool)
  | null (flag : Bool)
  | l (items : List Wire)
  | m (entries : List (String × Wire))
  deriving Inhabited

abbrev Item := List (String × Wire)

namespace Wire

def kind : Wire → Kind
  | .s _ => .s
  | .n _ => .n
  | .b _ => .b
  | .ss _ => .ss
  | .ns _ => .ns
  | .bs _ => .bs
  | .bool _ => .bool
  | .null _ => .null
  | .l _ => .l
  | .m _ => .m

def asBool? : Wire → Option Bool
  | .bool flag => some flag
  | _ => none

def boolText (flag : Bool) : String := if flag then "true" else "false"

def identity? : Wire → Option String
  | .s t => some ("S:" ++ t)
  | .n t => some ("N:" ++ t)
  | .bool flag => some ("BOOL:" ++ boolText flag)
  | .null flag => some ("NULL:" ++ boolText flag)
  | _ => none

def braces (s : String) : String := "\x7b" ++ s ++ "\x7d"

def text : Wire → String
  | .s t => braces ("S: " ++ t)
  | .n t => braces ("N: " ++ t)
  | .b bytes => braces ("B: " ++ intText bytes.length ++ " bytes")
  | .ss ts => braces ("SS: " ++ Text.listing ts)
  | .ns ts => braces ("NS: " ++ Text.listing ts)
  | .bs ms => braces ("BS: " ++ intText ms.length ++ " items")
  | .bool flag => braces ("BOOL: " ++ boolText flag)
  | .null flag => braces ("NULL: " ++ boolText flag)
  | .l items => braces ("L: " ++ intText items.length ++ " items")
  | .m entries => braces ("M: " ++ intText entries.length ++ " keys")

mutual

def same : Wire → Wire → Bool
  | .s x, .s y => x == y
  | .n x, .n y => x == y
  | .b x, .b y => x == y
  | .ss x, .ss y => x == y
  | .ns x, .ns y => x == y
  | .bs x, .bs y => x == y
  | .bool x, .bool y => x == y
  | .null x, .null y => x == y
  | .l xs, .l ys => sameItems xs ys
  | .m xs, .m ys => xs.length == ys.length && sameEntries xs ys
  | _, _ => false

def sameItems : List Wire → List Wire → Bool
  | [], [] => true
  | x :: xs, y :: ys => same x y && sameItems xs ys
  | _, _ => false

def sameEntries : List (String × Wire) → List (String × Wire) → Bool
  | [], _ => true
  | (key, x) :: xs, ys =>
    (match Entries.get? key ys with
      | some y => same x y
      | none => false) && sameEntries xs ys

end

end Wire

end ItemMapper
