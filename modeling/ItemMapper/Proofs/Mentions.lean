import ItemMapper.Expression.Update

/-!
# What expressions mention

The paths and literals that stand in a condition or an update, and the same expression with other names in its paths and
other literals.
-/

namespace ItemMapper

inductive Mention where
  | path (p : DocumentPath)
  | literal (v : Value)

def Operand.mention : Operand → Mention
  | .path p => .path p
  | .literal v => .literal v
  | .size p => .path p

def Assigned.mentions : Assigned → List Mention
  | .operand o => [o.mention]
  | .plus a b => [a.mention, b.mention]
  | .minus a b => [a.mention, b.mention]
  | .ifNotExists p o => [.path p, o.mention]
  | .listAppend a b => [a.mention, b.mention]

def Assignment.mentions (a : Assignment) : List Mention := .path a.path :: a.value.mentions

def MemberAction.mentions (a : MemberAction) : List Mention := [.path a.path, a.value.mention]

def Update.mentions (u : Update) : List Mention :=
  u.sets.flatMap Assignment.mentions ++ u.removes.map .path ++ u.adds.flatMap MemberAction.mentions ++
    u.deletes.flatMap MemberAction.mentions

mutual

def Condition.mentions : Condition → List Mention
  | .compare l _ r => [l.mention, r.mention]
  | .between v l h => [v.mention, l.mention, h.mention]
  | .isIn v cs => v.mention :: cs.map Operand.mention
  | .logical _ cs => Condition.allMentions cs
  | .not inner => Condition.mentions inner
  | .function _ p a => .path p :: (a.map Operand.mention).toList

def Condition.allMentions : List Condition → List Mention
  | [] => []
  | c :: rest => Condition.mentions c ++ Condition.allMentions rest

end

theorem Condition.mem_allMentions {x : Mention} {cs : List Condition} :
    x ∈ Condition.allMentions cs ↔ ∃ c ∈ cs, x ∈ c.mentions := by
  induction cs with
  | nil => simp [allMentions]
  | cons c rest ih => simp [allMentions, ih]

section Renaming

variable (r : String → String) (m : Value → Value)

def PathStep.rename : PathStep → PathStep
  | .name s => .name (r s)
  | .index i => .index i

def DocumentPath.rename (p : DocumentPath) : DocumentPath := ⟨p.elements.map (PathStep.rename r)⟩

def Operand.rename : Operand → Operand
  | .path p => .path (p.rename r)
  | .literal v => .literal (m v)
  | .size p => .size (p.rename r)

def Assigned.rename : Assigned → Assigned
  | .operand o => .operand (o.rename r m)
  | .plus a b => .plus (a.rename r m) (b.rename r m)
  | .minus a b => .minus (a.rename r m) (b.rename r m)
  | .ifNotExists p o => .ifNotExists (p.rename r) (o.rename r m)
  | .listAppend a b => .listAppend (a.rename r m) (b.rename r m)

def Assignment.rename (a : Assignment) : Assignment := ⟨a.path.rename r, a.value.rename r m⟩

def MemberAction.rename (a : MemberAction) : MemberAction := ⟨a.path.rename r, a.value.rename r m⟩

def Update.rename (u : Update) : Update where
  sets := u.sets.map (Assignment.rename r m)
  removes := u.removes.map (DocumentPath.rename r)
  adds := u.adds.map (MemberAction.rename r m)
  deletes := u.deletes.map (MemberAction.rename r m)

mutual

def Condition.rename : Condition → Condition
  | .compare l op x => .compare (l.rename r m) op (x.rename r m)
  | .between v l h => .between (v.rename r m) (l.rename r m) (h.rename r m)
  | .isIn v cs => .isIn (v.rename r m) (cs.map (Operand.rename r m))
  | .logical op cs => .logical op (Condition.renameAll cs)
  | .not inner => .not (Condition.rename inner)
  | .function name p a => .function name (p.rename r) (a.map (Operand.rename r m))

def Condition.renameAll : List Condition → List Condition
  | [] => []
  | c :: rest => Condition.rename c :: Condition.renameAll rest

end

end Renaming

end ItemMapper
