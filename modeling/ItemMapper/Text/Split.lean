/-!
# Cuts at a separator

Separators are found from left to right and do not overlap.
-/

namespace ItemMapper.Text

def after? : List Char → List Char → Option (List Char)
  | [], cs => some cs
  | _ :: _, [] => none
  | l :: lead, c :: cs => if l = c then after? lead cs else none

def before? (tail cs : List Char) : Option (List Char) :=
  (after? tail.reverse cs.reverse).map List.reverse

def splitOnce? (sep : List Char) : List Char → Option (List Char × List Char)
  | [] => if sep.isEmpty then some ([], []) else none
  | c :: rest =>
    match after? sep (c :: rest) with
    | some tail => some ([], tail)
    | none => (splitOnce? sep rest).map fun (front, tail) => (c :: front, tail)

def upTo (sep cs : List Char) : List Char := ((splitOnce? sep cs).map Prod.fst).getD cs

def contains (sep cs : List Char) : Bool := (splitOnce? sep cs).isSome

def splitFrom (sep : List Char) : Nat → List Char → List Char → List (List Char)
  | _, piece, [] => [piece.reverse]
  | skip + 1, piece, _ :: rest => splitFrom sep skip piece rest
  | 0, piece, c :: rest =>
    if (after? sep (c :: rest)).isSome then piece.reverse :: splitFrom sep (sep.length - 1) [] rest
    else splitFrom sep 0 (c :: piece) rest

def splitAt (sep cs : List Char) : List (List Char) := splitFrom sep 0 [] cs

def joinWith (sep : List Char) : List (List Char) → List Char
  | [] => []
  | [piece] => piece
  | piece :: rest => piece ++ sep ++ joinWith sep rest

end ItemMapper.Text
