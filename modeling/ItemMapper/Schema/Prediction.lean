import ItemMapper.Schema.Node

/-!
# Which variant a value belongs to

A date variant wins as soon as the value denotes a date. Otherwise the variants of the value's kind compete: of
several objects or lists the one whose structure scores best against the value, a closed one before an open one,
the first one on a tie. Scores are counted in half points.
-/

namespace ItemMapper

structure Entrant (α : Type) where
  place : Nat
  score : α
  isOpen : Bool

def Entrant.better {α : Type} [LT α] [DecidableLT α] [DecidableEq α] (x y : Entrant α) : Bool :=
  decide (y.score < x.score) || (decide (x.score = y.score) && y.isOpen && !x.isOpen)

def bestFrom {α : Type} [LT α] [DecidableLT α] [DecidableEq α] :
    Nat → Option (Entrant α) → List (α × Bool) → Option (Entrant α)
  | _, best, [] => best
  | i, none, (score, isOpen) :: rest => bestFrom (i + 1) (some ⟨i, score, isOpen⟩) rest
  | i, some best, (score, isOpen) :: rest =>
    let entrant : Entrant α := ⟨i, score, isOpen⟩
    bestFrom (i + 1) (some (if entrant.better best then entrant else best)) rest

def bestOf {α : Type} [LT α] [DecidableLT α] [DecidableEq α] (entries : List (α × Bool)) : Option (Nat × α) :=
  (bestFrom 0 none entries).map fun e => (e.place, e.score)

namespace Node

def hasKind (n : Node) (kind : Option Kind) : Bool := kind.isSome && n.kind? == kind

def denotesDate (n : Node) (v : Value) : Bool := n.isDate && (n.millis? v).isSome

def dateVariant? (variants : List Node) (v : Value) : Option Nat := variants.findIdx? fun n => n.denotesDate v

def ofKind (variants : List Node) (kind : Option Kind) : List (Nat × Node) :=
  variants.zipIdx.filterMap fun (n, i) => if n.hasKind kind then some (i, n) else none

def scoreOf (n : Node) (entries : List (String × Value)) (matched : Nat) : Nat :=
  match n.fields? with
  | none => 0
  | some fields =>
    let declared := 2 * fields.length
    let undeclared := 2 * (entries.filter fun (key, _) => !Entries.has key fields).length
    if entries.isEmpty && fields.isEmpty then matched + 2
    else if 0 < matched ∧ declared ≤ matched then
      if n.keepsUndeclared ∧ declared < matched then matched + undeclared else matched
    else if n.keepsUndeclared then matched + undeclared else matched

/-- The item node that a list element goes to: one that takes it for a date, else one of its kind. -/
def itemIndex? (items : List (Option Node)) (element : Value) : Option Nat :=
  let kind := element.kind?
  let date := items.findIdx? fun i => (i.map isDate).getD false
  match date with
  | some d =>
    if ((items[d]?.join).map fun n => (n.millis? element).isSome).getD false then some d
    else items.findIdx? fun i => (i.map (ofElementKind kind)).getD false
  | none => items.findIdx? fun i => (i.map (ofElementKind kind)).getD false
where
  ofElementKind (kind : Option Kind) (n : Node) : Bool :=
    match n.variants? with
    | some variants => variants.any fun u => u.hasKind kind
    | none => n.hasKind kind

def addScores (xs ys : List Nat) : List Nat := List.zipWith (· + ·) xs ys

def pointAt (length place : Nat) : List Nat := (List.range length).map fun i => if i = place then 2 else 0

def bestList? (items : List (Option Node)) (scores : List Nat) : Option (Nat × Nat) :=
  let isOpen := items.map fun i => (i.map keepsUndeclared).getD false
  match bestOf (scores.zip isOpen) with
  | some (i, score) => if 0 < score then some (i, score) else none
  | none => none

def variantAt? (n : Node) (place : Option Nat) : Option Node := place.bind fun i => (n.variants?.getD [])[i]?

def isNested : Value → Bool
  | .map _ => true
  | .list _ => true
  | _ => false

mutual

def bestVariant? (variants : List Node) : Value → Option Nat
  | .map entries =>
    match dateVariant? variants (.map entries), ofKind variants (some .m) with
    | some i, _ => some i
    | none, [] => none
    | none, [(i, _)] => some i
    | none, candidates =>
      let scores := candidates.map fun (_, c) =>
        (scoreOf c entries (matchedScore (c.fields?.getD []) entries), c.keepsUndeclared)
      (bestOf scores).bind fun (i, _) => (candidates[i]?).map Prod.fst
  | .list elements =>
    match dateVariant? variants (.list elements), ofKind variants (some .l) with
    | some i, _ => some i
    | none, [] => none
    | none, [(i, _)] => some i
    | none, candidates =>
      let items := candidates.map fun (_, c) => c.items?
      (bestList? items (listScores items elements)).bind fun (i, _) => (candidates[i]?).map Prod.fst
  | v =>
    match dateVariant? variants v with
    | some i => some i
    | none => ((ofKind variants v.kind?).head?).map Prod.fst

def innerScore? (n : Node) : Value → Option Nat
  | .map entries => some (scoreOf n entries (matchedScore (n.fields?.getD []) entries))
  | .list elements => some (((bestList? [n.items?] (listScores [n.items?] elements)).map Prod.snd).getD 0)
  | _ => none

def matchedScore (fields : List (String × Node)) : List (String × Value) → Nat
  | [] => 0
  | (key, v) :: rest =>
    (match Entries.get? key fields with
      | none => 0
      | some f =>
        1 + (if f.hasKind v.kind? then (innerScore? f v).getD 2
          else match variantAt? f (bestVariant? (f.variants?.getD []) v) with
            | some variant => (innerScore? variant v).getD 2
            | none => if f.denotesDate v then 2 else 0)) +
      matchedScore fields rest

def listScores (items : List (Option Node)) : List Value → List Nat
  | [] => items.map fun _ => 0
  | element :: rest =>
    addScores
      (match itemIndex? items element with
        | none => items.map fun _ => 0
        | some found =>
          if !isNested element then pointAt items.length found
          else items.map fun item =>
            match item with
            | none => 0
            | some n =>
              if n.kind? == element.kind? then (innerScore? n element).getD 0
              else match variantAt? n (bestVariant? (n.variants?.getD []) element) with
                | some variant => (innerScore? variant element).getD 0
                | none => 0)
      (listScores items rest)

end

def scoreAgainst (n : Node) (entries : List (String × Value)) : Nat :=
  scoreOf n entries (matchedScore (n.fields?.getD []) entries)

def variantFor? (n : Node) (v : Value) : Option Nat := n.variants?.bind fun variants => bestVariant? variants v

end Node

end ItemMapper
