import ItemMapper.Text.CaseTable
import ItemMapper.Text.Digit

/-!
# Letter case

Full case maps of texts: a letter may become several, and a capital sigma at the end of a word becomes the final
one.
-/

namespace ItemMapper.Text

def CaseRun.covers (r : CaseRun) (n : Nat) : Bool :=
  decide (r.first ≤ n) && decide (n ≤ r.last) && (n - r.first) % r.step == 0

def mapCase (runs : List CaseRun) (sequences : List (Nat × List Nat)) (c : Char) : List Char :=
  let n := c.toNat
  match sequences.find? (·.1 == n) with
  | some (_, letters) => letters.map Char.ofNat
  | none =>
    match runs.find? (·.covers n) with
    | some r => [Char.ofNat (n + r.distance).toNat]
    | none => [c]

def lowerChar (c : Char) : List Char := mapCase lowerRuns lowerSequences c

def upperChar (c : Char) : List Char := mapCase upperRuns upperSequences c

def isCased (c : Char) : Bool := inRanges casedRanges c

def isIgnorable (c : Char) : Bool := inRanges ignorableRanges c

def reachesCased (cs : List Char) : Bool :=
  match cs.dropWhile isIgnorable with
  | c :: _ => isCased c
  | [] => false

def lowerFrom : List Char → List Char → List Char
  | _, [] => []
  | before, c :: rest =>
    (if c = 'Σ' then [if reachesCased before && !reachesCased rest then 'ς' else 'σ'] else lowerChar c) ++
      lowerFrom (c :: before) rest

def lower (cs : List Char) : List Char := lowerFrom [] cs

def upper (cs : List Char) : List Char := cs.flatMap upperChar

def capitalize : List Char → List Char
  | [] => []
  | c :: rest => upperChar c ++ rest

end ItemMapper.Text
