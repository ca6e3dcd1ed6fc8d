import ItemMapper.Proofs.Numbering
import ItemMapper.Proofs.Outcomes

/-!
# Rendered expressions

What a rendering leaves behind: its text is that of an outline over tokens, the tables hold what the tokens of the text
stand for, and the text has the tokens that were issued, in that order. All of it stays true of any later tables.
-/

namespace ItemMapper

def MarshalOptions.wire? (options : MarshalOptions) (v : Value) : Option Wire :=
  match Wire.ofValue options v with
  | .ok w => w
  | .error _ => none

def MarshalOptions.wireD (options : MarshalOptions) (v : Value) : Wire := (options.wire? v).getD default

def Tokens.Reads (t : Tokens) (g : Value → Option Wire) : Prop := ∀ v w, t.options.wire? v = some w → g v = some w

theorem Tokens.reads_wire? {t : Tokens} : t.Reads t.options.wire? := fun _ _ hw => hw

theorem Tokens.reads_wireD {t : Tokens} : t.Reads fun v => some (t.options.wireD v) := by
  intro v w hw
  simp only [MarshalOptions.wireD, hw, Option.getD_some]

namespace Rendering

variable {α β F G : Type} {r : Rendering α} {q : α → Rendering β} {t t' : Tokens} {a : α} {b : β}
  {P : Tokens → α → List String → Prop} {Q : α → Tokens → β → List String → Prop} {text : Rendering String}
  {chars : F → List Char} {decode : Tokens → F → G} {tree : (Value → Option Wire) → G}
  {trees : (Value → Option Wire) → List G}

/-- The result and the tokens issued for it have a property, in the tables that the rendering ends with and in all
later ones. -/
def Yields (r : Rendering α) (P : Tokens → α → List String → Prop) : Prop :=
  ∀ t a t', r.run t = (.ok a, t') → t.Leads t' ∧ ∀ issued, Tokens.Indexed issued t →
    ∃ tokens, t.Extends t' ∧ Tokens.Indexed (issued ++ tokens).eraseDups t' ∧ ∀ u, t'.Extends u → P u a tokens

/-- The text is that of an outline that stands for a tree, and its tokens are those that were issued. -/
def Spells (text : Rendering String) (chars : F → List Char) (decode : Tokens → F → G)
    (tree : (Value → Option Wire) → G) : Prop :=
  text.Yields fun u text tokens => tokens = tokensIn text.toList ∧
    ∃ f, text.toList = chars f ∧ ∀ g, u.Reads g → decode u f = tree g

def SpellsAll (texts : Rendering (List String)) (chars : F → List Char) (decode : Tokens → F → G)
    (trees : (Value → Option Wire) → List G) : Prop :=
  texts.Yields fun u texts tokens => tokens = texts.flatMap (tokensIn ·.toList) ∧
    ∃ fs : List F, texts.map String.toList = fs.map chars ∧ ∀ g, u.Reads g → fs.map (decode u) = trees g

theorem Yields.reachable {options : MarshalOptions} {u : Tokens} (h : r.Yields P) (ht : ({ options } : Tokens).Leads t)
    (hr : r.run t = (.ok a, t')) (hlater : t'.Leads u) : ({ options } : Tokens).Leads u ∧ ∃ tokens, P u a tokens := by
  obtain ⟨hlead, hissue⟩ := h t a t' hr
  obtain ⟨issued, hnum⟩ := ht.indexed .new
  obtain ⟨tokens, -, hnum', hspells⟩ := hissue issued hnum
  exact ⟨(ht.trans hlead).trans hlater, tokens, hspells u (hlater.extends hnum')⟩

theorem Yields.pure : Yields (Pure.pure a) fun _ b tokens => b = a ∧ tokens = [] := by
  intro t b t' h
  cases h
  exact ⟨.refl, fun issued h => ⟨[], .refl, by rwa [List.append_nil, eraseDups_of_nodup h.nodup], fun _ _ => ⟨rfl, rfl⟩⟩⟩

theorem Yields.bind (hr : r.Yields P) (hq : ∀ a, (q a).Yields (Q a)) : Yields (r >>= q) fun u b tokens =>
    ∃ a ts ts', tokens = ts ++ ts' ∧ P u a ts ∧ Q a u b ts' := by
  intro t b t' h
  obtain ⟨a, t₁, hra, hqb⟩ := Outcome.of_run_bind h
  obtain ⟨hlead, hissue⟩ := hr t a t₁ hra
  obtain ⟨hlead', hissue'⟩ := hq a t₁ b t' hqb
  refine ⟨hlead.trans hlead', fun issued hnum => ?_⟩
  obtain ⟨ts, hextends, hnum₁, hP⟩ := hissue issued hnum
  obtain ⟨ts', hextends', hnum₂, hQ⟩ := hissue' _ hnum₁
  refine ⟨ts ++ ts', hextends.trans hextends', ?_, fun u hu => ⟨a, ts, ts', rfl, hP u (hextends'.trans hu), hQ u hu⟩⟩
  rwa [eraseDups_append_of_nodup hnum₁.nodup, List.append_assoc] at hnum₂

theorem Yields.mono {P' : Tokens → α → List String → Prop} (hr : r.Yields P)
    (h : ∀ u a tokens, P u a tokens → P' u a tokens) : r.Yields P' := by
  intro t a t' hrun
  obtain ⟨hlead, hissue⟩ := hr t a t' hrun
  refine ⟨hlead, fun issued hnum => ?_⟩
  obtain ⟨tokens, hextends, hnum', hP⟩ := hissue issued hnum
  exact ⟨tokens, hextends, hnum', fun u hu => h u a tokens (hP u hu)⟩

theorem SpellsAll.nil : SpellsAll (Pure.pure []) chars decode fun _ => [] := by
  refine Yields.mono Yields.pure ?_
  rintro u texts tokens ⟨rfl, rfl⟩
  exact ⟨rfl, [], rfl, fun _ _ => rfl⟩

theorem SpellsAll.cons {texts : Rendering (List String)} (h : text.Spells chars decode tree)
    (hs : texts.SpellsAll chars decode trees) :
    SpellsAll (do let p ← text; let ps ← texts; return p :: ps) chars decode fun g => tree g :: trees g := by
  refine Yields.mono (h.bind fun p => hs.bind fun ps => Yields.pure) ?_
  rintro u _ _ ⟨p, _, _, rfl, ⟨rfl, f, hf, htree⟩, ps, _, _, rfl, ⟨rfl, fs, hfs, htrees⟩, rfl, rfl⟩
  exact ⟨by simp, f :: fs, by simp [hf, hfs], fun g hg => by simp [htree g hg, htrees g hg]⟩

theorem SpellsAll.mapM {action : α → Rendering String} {meaning : α → (Value → Option Wire) → G}
    (h : ∀ x, (action x).Spells chars decode (meaning x)) (xs : List α) :
    SpellsAll (xs.mapM action) chars decode fun g => xs.map (meaning · g) := by
  induction xs with
  | nil => exact .nil
  | cons x rest ih =>
    rw [List.mapM_cons]
    exact .cons (h x) ih

theorem Spells.pair {F₁ F₂ G₁ G₂ : Type} {p q : Rendering String} {chars₁ : F₁ → List Char} {chars₂ : F₂ → List Char}
    {decode₁ : Tokens → F₁ → G₁} {decode₂ : Tokens → F₂ → G₂} {tree₁ : (Value → Option Wire) → G₁}
    {tree₂ : (Value → Option Wire) → G₂} (join : String → String → String) (outline : F₁ → F₂ → F) (make : G₁ → G₂ → G)
    (hp : p.Spells chars₁ decode₁ tree₁) (hq : q.Spells chars₂ decode₂ tree₂)
    (htokens : ∀ s t, tokensIn (join s t).toList = tokensIn s.toList ++ tokensIn t.toList)
    (hchars : ∀ s t x y, s.toList = chars₁ x → t.toList = chars₂ y → (join s t).toList = chars (outline x y))
    (hdecode : ∀ u x y, decode u (outline x y) = make (decode₁ u x) (decode₂ u y)) :
    Spells (do let s ← p; let t ← q; return join s t) chars decode fun g => make (tree₁ g) (tree₂ g) := by
  refine Yields.mono (hp.bind fun s => hq.bind fun t => Yields.pure) ?_
  rintro u _ _ ⟨s, _, _, rfl, ⟨rfl, x, hx, htree₁⟩, t, _, _, rfl, ⟨rfl, y, hy, htree₂⟩, rfl, rfl⟩
  refine ⟨by rw [htokens, List.append_nil], outline x y, hchars s t x y hx hy, fun g hg => ?_⟩
  rw [hdecode, htree₁ g hg, htree₂ g hg]

theorem path_spells (p : DocumentPath) :
    (path p).Spells Step.chars (fun u => List.map (Step.map u.nameAt?)) fun _ => p.outline some := by
  intro t a t' h
  have hrun : (Except.ok (t.addPath p).1, (t.addPath p).2) = (Except.ok a, t') := h
  obtain ⟨ha, rfl⟩ := Prod.mk.inj hrun
  obtain rfl := Except.ok.inj ha
  refine ⟨.path p .refl, fun issued hnum => ?_⟩
  obtain ⟨steps, htext, hextends, hnum', hmap⟩ := Tokens.addElements_indexed p.elements "" hnum
  have htext' : (t.addPath p).1.toList = Step.chars steps := htext
  exact ⟨_, hextends, hnum', fun u hu => ⟨by rw [htext'], steps, htext', fun _ _ => hmap u hu⟩⟩

theorem value_spells (v : Value) : (value v).Spells valueChars Tokens.wireAt? fun g => g v := by
  intro t a t' h
  have hrun : t.addValue v = (.ok a, t') := h
  rw [Tokens.addValue] at hrun
  cases hw : Wire.ofValue t.options v with
  | error e =>
    rw [hw] at hrun
    cases hrun
  | ok o =>
    rw [hw] at hrun
    cases o with
    | none => cases hrun
    | some w =>
      have hentered : (Except.ok (t.addWire w).1, (t.addWire w).2) = (Except.ok a, t') := hrun
      obtain ⟨ha, rfl⟩ := Prod.mk.inj hentered
      obtain rfl := Except.ok.inj ha
      refine ⟨.wire w .refl, fun issued hnum => ?_⟩
      obtain ⟨k, htoken, hat, hnum'⟩ := Tokens.addWire_indexed (w := w) hnum
      have hextends : t.Extends (t.addWire w).2 := Tokens.addWire_extends hnum
      have htext : (t.addWire w).1.toList = valueChars k := by rw [htoken, toList_valueToken]
      refine ⟨_, hextends, hnum', fun u hu => ⟨by rw [htext, tokensIn_valueChars], k, htext, fun g hg => ?_⟩⟩
      have hoptions : u.options = t.options := hu.options.trans hextends.options
      exact (hu.wireAt? hat).trans (hg v w (by rw [MarshalOptions.wire?, hoptions, hw])).symm

theorem operand_spells (o : Operand) :
    o.render.Spells Term.chars (fun u => Term.map u.nameAt? u.wireAt?) (o.outline some) := by
  cases o with
  | path p =>
    refine Yields.mono (path_spells p) ?_
    rintro u text tokens ⟨rfl, steps, htext, hp⟩
    exact ⟨rfl, .path steps, htext, fun g hg => congrArg Term.path (hp g hg)⟩
  | literal v =>
    refine Yields.mono (value_spells v) ?_
    rintro u text tokens ⟨rfl, k, htext, hv⟩
    exact ⟨rfl, .literal k, htext, fun g hg => congrArg Term.literal (hv g hg)⟩
  | size p =>
    refine Yields.mono ((path_spells p).bind fun text => Yields.pure) ?_
    rintro u _ _ ⟨text, _, _, rfl, ⟨rfl, steps, htext, hp⟩, rfl, rfl⟩
    refine ⟨?_, .size steps, by simp [Term.chars, htext, call, inParentheses], fun g hg => congrArg Term.size (hp g hg)⟩
    simp (disch := decide) only [String.toList_append, List.append_nil, tokensIn_glue_end, tokensIn_glue_start]

theorem tokensIn_comparison {op : Comparison} : tokensIn op.text.toList = [] := by cases op <;> rfl

theorem tokensIn_predicate {name : Predicate} : tokensIn name.text.toList = [] := by cases name <;> rfl

theorem isGlue_between {op : Connective} : isGlue op.between = true := by cases op <;> rfl

abbrev SpellsCondition (r : Rendering String) (c : Condition) : Prop :=
  r.Spells Outline.chars (fun u => Outline.map u.nameAt? u.wireAt?) (c.outline some)

theorem compare_spells {left right : Operand} {op : Comparison} :
    SpellsCondition (Condition.compare left op right).render (.compare left op right) := by
  rw [Condition.render]
  refine Spells.pair (fun l r => l ++ " " ++ op.text ++ " " ++ r) (Outline.compare · op ·) (Outline.compare · op ·)
    (operand_spells left) (operand_spells right) (fun l r => ?_) (fun l r x y hx hy => ?_) fun u x y => rfl
  · simp (disch := decide) only [String.toList_append, tokensIn_glue, tokensIn_comparison, List.append_nil]
  · simp [Outline.chars, hx, hy, linked]

theorem between_spells {value low high : Operand} :
    SpellsCondition (Condition.between value low high).render (.between value low high) := by
  rw [Condition.render]
  refine Yields.mono ((operand_spells value).bind fun v => (operand_spells low).bind fun l =>
    (operand_spells high).bind fun h => Yields.pure) ?_
  rintro u _ _ ⟨v, _, _, rfl, ⟨rfl, x, hx, hv⟩, l, _, _, rfl, ⟨rfl, y, hy, hl⟩, h, _, _, rfl, ⟨rfl, z, hz, hh⟩, rfl, rfl⟩
  refine ⟨?_, .between x y z, by simp [Outline.chars, hx, hy, hz, linked], ?_⟩
  · simp (disch := decide) only [String.toList_append, tokensIn_glue, List.append_nil]
    rw [List.append_assoc]
  · exact fun g hg => by simp only [Outline.map, hv g hg, hl g hg, hh g hg, Condition.outline]

theorem isIn_spells {value : Operand} {candidates : List Operand} :
    SpellsCondition (Condition.isIn value candidates).render (.isIn value candidates) := by
  rw [Condition.render]
  refine Yields.mono ((operand_spells value).bind fun v =>
    (SpellsAll.mapM operand_spells candidates).bind fun cs => Yields.pure) ?_
  rintro u _ _ ⟨v, _, _, rfl, ⟨rfl, x, hx, hv⟩, parts, _, _, rfl, ⟨rfl, xs, hxs, hcs⟩, rfl, rfl⟩
  have htext : (v ++ " IN (" ++ String.intercalate ", " parts ++ ")").toList = (Outline.isIn x xs).chars := by
    simp [Outline.chars, hx, ← hxs, call, inParentheses]
  refine ⟨?_, .isIn x xs, htext, ?_⟩
  · simp (disch := decide) only [String.toList_append, String.toList_intercalate, tokensIn_glue, tokensIn_glue_end,
      tokensIn_intercalate, List.flatMap_map, List.append_nil]
  · exact fun g hg => by simp only [Outline.map, hv g hg, hcs g hg, Condition.outline]

theorem function_spells {name : Predicate} {p : DocumentPath} {argument : Option Operand} :
    SpellsCondition (Condition.function name p argument).render (.function name p argument) := by
  rw [Condition.render]
  cases argument with
  | none =>
    refine Yields.mono ((path_spells p).bind fun text => Yields.pure) ?_
    rintro u _ _ ⟨text, _, _, rfl, ⟨rfl, steps, hx, hp⟩, rfl, rfl⟩
    refine ⟨?_, .function name steps none, by simp [Outline.chars, hx, call, inParentheses], ?_⟩
    · simp (disch := decide) only [String.toList_append, tokensIn_glue, tokensIn_glue_end, tokensIn_predicate,
        List.append_nil, List.nil_append]
    · exact fun g hg => by simp only [Outline.map, hp g hg, Condition.outline, Option.map_none]
  | some a =>
    refine Spells.pair (fun l r => name.text ++ "(" ++ l ++ ", " ++ r ++ ")") (fun x y => Outline.function name x (some y))
      (fun x y => Outline.function name x (some y)) (path_spells p) (operand_spells a) (fun l r => ?_)
      (fun l r x y hx hy => ?_) fun u x y => rfl
    · simp (disch := decide) only [String.toList_append, tokensIn_glue, tokensIn_glue_end, tokensIn_predicate,
        List.nil_append]
    · simp [Outline.chars, hx, hy, linked, call, inParentheses]

theorem joined_yields {op : Connective} {parts : List String} :
    Yields (match parts with
      | [single] => return single
      | parts => return String.intercalate (" " ++ op.text ++ " ") (parts.map fun p => "(" ++ p ++ ")"))
      fun _ text tokens => tokens = [] ∧ (parts = [text] ∨ parts.length ≠ 1 ∧
        text = String.intercalate (" " ++ op.text ++ " ") (parts.map fun p => "(" ++ p ++ ")")) := by
  rcases parts with _ | ⟨p, _ | ⟨q, rest⟩⟩
  · refine Yields.mono Yields.pure fun u text tokens h => ⟨h.2, .inr ⟨by simp, h.1⟩⟩
  · refine Yields.mono Yields.pure fun u text tokens h => ⟨h.2, .inl (by rw [h.1])⟩
  · refine Yields.mono Yields.pure fun u text tokens h => ⟨h.2, .inr ⟨by simp, h.1⟩⟩

theorem tokensIn_inParentheses {text : List Char} : tokensIn (inParentheses text) = tokensIn text := by
  have hopen : isGlue ['('] = true := by decide
  have hclose : isGlue [')'] = true := by decide
  exact (tokensIn_glue_end hclose).trans (tokensIn_glue_start hopen)

theorem joined_spells {op : Connective} {parts : List String} {fs : List (Outline Nat Nat)} {text : String}
    {outlines : (Value → Option Wire) → List (Outline (Option String) (Option Wire))} {u : Tokens}
    (hfs : parts.map String.toList = fs.map Outline.chars)
    (hmap : ∀ g, u.Reads g → fs.map (Outline.map u.nameAt? u.wireAt?) = outlines g)
    (htext : parts = [text] ∨ parts.length ≠ 1 ∧
      text = String.intercalate (" " ++ op.text ++ " ") (parts.map fun p => "(" ++ p ++ ")")) :
    parts.flatMap (tokensIn ·.toList) ++ [] = tokensIn text.toList ∧ ∃ f : Outline Nat Nat, text.toList = f.chars ∧
      ∀ g, u.Reads g → f.map u.nameAt? u.wireAt? = Outline.joined op (outlines g) := by
  rcases htext with rfl | ⟨hone, rfl⟩
  · obtain ⟨f, rfl, hf⟩ := List.map_eq_singleton_iff.1 hfs.symm
    exact ⟨by simp, f, hf.symm, fun g hg => by simp [← hmap g hg, Outline.joined]⟩
  · have hparts : (parts.map fun p => "(" ++ p ++ ")").map String.toList = (parts.map String.toList).map inParentheses := by
      simp [inParentheses]
    have hbetween : (" " ++ op.text ++ " ").toList = op.between := by simp [Connective.between]
    have hcount : parts.length = fs.length := by simpa using congrArg List.length hfs
    refine ⟨?_, .logical op fs, ?_, fun g hg => ?_⟩
    · rw [String.toList_intercalate, hbetween, tokensIn_intercalate isGlue_between, hparts, List.append_nil]
      simp only [List.flatMap_map, tokensIn_inParentheses]
    · rw [String.toList_intercalate, hbetween, hparts, hfs, Outline.chars, Outline.allChars_eq, List.map_map]
      rfl
    · rw [Outline.map, Outline.mapAll_eq, hmap g hg]
      exact (Outline.joined_of_length (by rwa [← hmap g hg, List.length_map, ← hcount])).symm

mutual

theorem render_spells : ∀ c : Condition, SpellsCondition c.render c
  | .compare _ _ _ => compare_spells
  | .between _ _ _ => between_spells
  | .isIn _ _ => isIn_spells
  | .function _ _ _ => function_spells
  | .not inner => by
    rw [Condition.render]
    refine Yields.mono ((render_spells inner).bind fun text => Yields.pure) ?_
    rintro u _ _ ⟨text, _, _, rfl, ⟨rfl, f, htext, hf⟩, rfl, rfl⟩
    refine ⟨?_, .not f, by simp [Outline.chars, htext, call, inParentheses], ?_⟩
    · simp (disch := decide) only [String.toList_append, tokensIn_glue_start, tokensIn_glue_end, List.append_nil]
    · exact fun g hg => by simp only [Outline.map, hf g hg, Condition.outline]
  | .logical op cs => by
    rw [Condition.render]
    refine Yields.mono ((renderAll_spells cs).bind fun parts => joined_yields) ?_
    rintro u _ _ ⟨parts, _, _, rfl, ⟨rfl, fs, hfs, hcs⟩, rfl, hjoined⟩
    exact joined_spells hfs hcs hjoined

theorem renderAll_spells : ∀ cs : List Condition, SpellsAll (Condition.renderAll cs) Outline.chars
    (fun u => Outline.map u.nameAt? u.wireAt?) fun g => Condition.outlines some g cs
  | [] => .nil
  | c :: rest => .cons (render_spells c) (renderAll_spells rest)

end

theorem assigned_spells (a : Assigned) :
    a.render.Spells Source.chars (fun u => Source.map u.nameAt? u.wireAt?) (a.outline some) := by
  cases a with
  | operand o =>
    refine Yields.mono (operand_spells o) ?_
    rintro u text tokens ⟨rfl, x, hx, ho⟩
    exact ⟨rfl, .term x, hx, fun g hg => congrArg Source.term (ho g hg)⟩
  | plus a b =>
    refine Spells.pair (fun x y => x ++ " + " ++ y) Source.plus Source.plus (operand_spells a) (operand_spells b)
      (fun x y => ?_) (fun _ _ x y hx hy => ?_) fun u x y => rfl
    · simp (disch := decide) only [String.toList_append, tokensIn_glue]
    · simp [Source.chars, hx, hy, linked]
  | minus a b =>
    refine Spells.pair (fun x y => x ++ " - " ++ y) Source.minus Source.minus (operand_spells a) (operand_spells b)
      (fun x y => ?_) (fun _ _ x y hx hy => ?_) fun u x y => rfl
    · simp (disch := decide) only [String.toList_append, tokensIn_glue]
    · simp [Source.chars, hx, hy, linked]
  | ifNotExists p o =>
    refine Spells.pair (fun x y => "if_not_exists(" ++ x ++ ", " ++ y ++ ")") Source.ifNotExists
      Source.ifNotExists (path_spells p) (operand_spells o) (fun x y => ?_) (fun _ _ x y hx hy => ?_) fun u x y => rfl
    · simp (disch := decide) only [String.toList_append, tokensIn_glue, tokensIn_glue_start, tokensIn_glue_end]
    · simp [Source.chars, hx, hy, linked, call, inParentheses]
  | listAppend a b =>
    refine Spells.pair (fun x y => "list_append(" ++ x ++ ", " ++ y ++ ")") Source.listAppend
      Source.listAppend (operand_spells a) (operand_spells b) (fun x y => ?_) (fun _ _ x y hx hy => ?_) fun u x y => rfl
    · simp (disch := decide) only [String.toList_append, tokensIn_glue, tokensIn_glue_start, tokensIn_glue_end]
    · simp [Source.chars, hx, hy, linked, call, inParentheses]

theorem renderSet_spells (a : Assignment) : (Update.renderSet a).Spells UpdateOutline.setChars
    (fun u f => (f.1.map (Step.map u.nameAt?), f.2.map u.nameAt? u.wireAt?))
    fun g => (a.path.outline some, a.value.outline some g) := by
  refine Spells.pair (fun x y => x ++ " = " ++ y) Prod.mk Prod.mk (path_spells a.path) (assigned_spells a.value)
    (fun x y => ?_) (fun _ _ x y hx hy => ?_) fun u x y => rfl
  · simp (disch := decide) only [String.toList_append, tokensIn_glue]
  · simp [UpdateOutline.setChars, hx, hy, linked]

theorem renderMember_spells (a : MemberAction) : (Update.renderMember a).Spells UpdateOutline.memberChars
    (fun u f => (f.1.map (Step.map u.nameAt?), f.2.map u.nameAt? u.wireAt?))
    fun g => (a.path.outline some, a.value.outline some g) := by
  refine Spells.pair (fun x y => x ++ " " ++ y) Prod.mk Prod.mk (path_spells a.path) (operand_spells a.value)
    (fun x y => ?_) (fun _ _ x y hx hy => ?_) fun u x y => rfl
  · simp (disch := decide) only [String.toList_append, tokensIn_glue]
  · simp [UpdateOutline.memberChars, hx, hy, linked]

theorem renderClause_spells {keyword : String} {action : α → Rendering String} {meaning : α → (Value → Option Wire) → G}
    (hkeyword : isGlue (keyword ++ " ").toList = true) (h : ∀ x, (action x).Spells chars decode (meaning x)) (xs : List α) :
    (Update.renderClause keyword action xs).Yields fun u texts tokens => tokens = texts.flatMap (tokensIn ·.toList) ∧
      ∃ fs : List F, texts.map String.toList = UpdateOutline.clauseChars keyword (fs.map chars) ∧
        ∀ g, u.Reads g → fs.map (decode u) = xs.map (meaning · g) := by
  rw [Update.renderClause]
  cases xs with
  | nil =>
    refine Yields.mono Yields.pure ?_
    rintro u texts tokens ⟨rfl, rfl⟩
    exact ⟨rfl, [], rfl, fun _ _ => rfl⟩
  | cons x rest =>
    rw [List.isEmpty_cons, if_neg Bool.false_ne_true]
    refine Yields.mono ((SpellsAll.mapM h (x :: rest)).bind fun parts => Yields.pure) ?_
    rintro u _ _ ⟨parts, _, _, rfl, ⟨rfl, fs, hfs, hmap⟩, rfl, rfl⟩
    have hne : fs.map chars ≠ [] := by
      intro h
      have hnil := hmap u.options.wire? fun v w hw => hw
      rw [List.map_eq_nil_iff.1 h] at hnil
      cases hnil
    have hlist : tokensIn (keyword ++ " " ++ String.intercalate ", " parts).toList = parts.flatMap (tokensIn ·.toList) := by
      rw [String.toList_append, tokensIn_glue_start hkeyword, String.toList_intercalate]
      rw [tokensIn_intercalate (by decide), List.flatMap_map]
    refine ⟨?_, fs, ?_, hmap⟩
    · rw [List.flatMap_singleton, hlist, List.append_nil]
    · rw [UpdateOutline.clauseChars, if_neg (by simpa using hne), ← hfs]
      simp

/-- What is written of an update is the text of its outline; without actions there is nothing to write. -/
theorem update_spells (update : Update) : update.render.Yields fun u text tokens =>
    tokens = text.toList.flatMap (tokensIn ·.toList) ∧ ∃ f : UpdateOutline Nat Nat,
      text.map String.toList = (if f.clauses.isEmpty then none else some f.chars) ∧
        ∀ g, u.Reads g → f.map u.nameAt? u.wireAt? = update.outline some g := by
  rw [Update.render]
  refine Yields.mono ((renderClause_spells (by decide) renderSet_spells update.sets).bind fun sets =>
    (renderClause_spells (by decide) path_spells update.removes).bind fun removes =>
    (renderClause_spells (by decide) renderMember_spells update.adds).bind fun adds =>
    (renderClause_spells (by decide) renderMember_spells update.deletes).bind fun deletes => Yields.pure) ?_
  rintro u _ _ ⟨sets, _, _, rfl, ⟨rfl, fs, hfs, hsets⟩, removes, _, _, rfl, ⟨rfl, gs, hgs, hremoves⟩,
    adds, _, _, rfl, ⟨rfl, hs, hhs, hadds⟩, deletes, _, _, rfl, ⟨rfl, is, his, hdeletes⟩, rfl, rfl⟩
  let f : UpdateOutline Nat Nat := ⟨fs, gs, hs, is⟩
  have hclauses : (sets ++ removes ++ adds ++ deletes).map String.toList = f.clauses := by
    simp only [List.map_append, hfs, hgs, hhs, his, UpdateOutline.clauses, f]
  have hclause : (sets ++ removes ++ adds ++ deletes).isEmpty = f.clauses.isEmpty := by
    rw [← hclauses, List.isEmpty_map]
  refine ⟨?_, f, ?_, fun g hg => ?_⟩
  · have htokens : tokensIn (String.intercalate " " (sets ++ removes ++ adds ++ deletes)).toList =
        (sets ++ removes ++ adds ++ deletes).flatMap (tokensIn ·.toList) := by
      rw [String.toList_intercalate, tokensIn_intercalate (by decide), List.flatMap_map]
    split
    · simp_all
    · rw [Option.toList_some, List.flatMap_singleton, htokens]
      simp only [List.flatMap_append, List.append_nil, List.append_assoc]
  · rw [hclause]
    split
    · rfl
    · simp [UpdateOutline.chars, ← hclauses]
  · simp only [UpdateOutline.map, Update.outline, UpdateOutline.mk.injEq]
    exact ⟨hsets g hg, hremoves g hg, hadds g hg, hdeletes g hg⟩

end Rendering

end ItemMapper
