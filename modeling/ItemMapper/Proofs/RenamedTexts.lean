import ItemMapper.Proofs.Mentions
import ItemMapper.Proofs.Rendered
import Mathlib.Data.Set.Function

/-!
# Texts of renamed expressions

The text of an expression shows neither its names nor its literals, only which of them repeat. An expression and the same
one with other names and literals are written in step: at every moment the next tokens are the same, and a name or a
literal and what replaces it have the same token.
-/

namespace ItemMapper

def MarshalOptions.key? (options : MarshalOptions) (v : Value) : Option String := (options.wire? v).bind Wire.identity?

def MarshalOptions.Shares (options : MarshalOptions) (v w : Value) : Prop :=
  ∃ key, options.key? v = some key ∧ options.key? w = some key

def Mention.names (mentions : List Mention) : Set String := {s | ∃ p, .path p ∈ mentions ∧ .name s ∈ p.elements}

/-- Names and literals are replaced without a change in which of them repeat. -/
structure MarshalOptions.Renames (options : MarshalOptions) (r : String → String) (m : Value → Value)
    (mentions : List Mention) : Prop where
  names : Set.InjOn r (Mention.names mentions)
  literals : ∀ v w, .literal v ∈ mentions → .literal w ∈ mentions → (options.Shares (m v) (m w) ↔ options.Shares v w)

/-- Written with a table of its own each, both have the same text. -/
def Rendering.SameText {α : Type} (options : MarshalOptions) (p q : Rendering α) : Prop :=
  ∀ x y, (p.run { options }).1 = .ok x → (q.run { options }).1 = .ok y → x = y

variable {options : MarshalOptions} {r : String → String} {m : Value → Value} {ms : List Mention} {t u : Tokens}
  {s : String} {v x : Value} {w w' : Wire}

theorem MarshalOptions.shares_iff (hv : options.wire? v = some w) (hx : options.wire? x = some w') :
    options.Shares v x ↔ ∃ key, w.identity? = some key ∧ w'.identity? = some key := by
  simp only [Shares, key?, hv, hx, Option.bind_some]

namespace Tokens

/-- The next tokens are the same, and a name or a literal and what replaces it lead to one token. -/
structure Corresponds (options : MarshalOptions) (r : String → String) (m : Value → Value) (ms : List Mention)
    (t u : Tokens) : Prop where
  left : t.options = options
  right : u.options = options
  counter : u.counter = t.counter
  nameTokens : ∀ s ∈ Mention.names ms, Entries.get? (r s) u.nameTokens = Entries.get? s t.nameTokens
  valueTokens : ∀ v w w', .literal v ∈ ms → options.wire? v = some w → options.wire? (m v) = some w' →
    w'.identity?.bind (Entries.get? · u.valueTokens) = w.identity?.bind (Entries.get? · t.valueTokens)

theorem get?_entered {key token : String} {tokens : List (String × String)} (hw : w.identity? = some key)
    (hw' : w'.identity? = some key) :
    w'.identity?.bind (Entries.get? · (w.identity?.elim tokens (Entries.insert · token tokens))) = some token := by
  simp [hw, hw']

theorem get?_entered_of_not {token : String} {tokens : List (String × String)}
    (h : ¬ ∃ key, w.identity? = some key ∧ w'.identity? = some key) :
    w'.identity?.bind (Entries.get? · (w.identity?.elim tokens (Entries.insert · token tokens))) =
      w'.identity?.bind (Entries.get? · tokens) := by
  cases hw : w.identity? with
  | none => rfl
  | some key =>
    cases hw' : w'.identity? with
    | none => rfl
    | some key' =>
      have hne : key ≠ key' := fun he => h ⟨key, hw, he ▸ hw'⟩
      simp [Entries.get?_insert_of_ne hne]

namespace Corresponds

theorem new : Corresponds options r m ms { options } { options } where
  left := rfl
  right := rfl
  counter := rfl
  nameTokens _ _ := rfl
  valueTokens _ w w' _ _ _ := by cases w.identity? <;> cases w'.identity? <;> rfl

variable (hr : options.Renames r m ms)
include hr

theorem addField (h : Corresponds options r m ms t u) (hs : s ∈ Mention.names ms) :
    (u.addField (r s)).1 = (t.addField s).1 ∧ Corresponds options r m ms (t.addField s).2 (u.addField (r s)).2 := by
  rw [Tokens.addField, Tokens.addField, h.nameTokens s hs, h.counter]
  cases Entries.get? s t.nameTokens with
  | some token => exact ⟨rfl, h⟩
  | none =>
    refine ⟨rfl, h.left, h.right, rfl, fun other hother => ?_, h.valueTokens⟩
    simp only [Entries.get?_insert, h.nameTokens other hother, hr.names.eq_iff hs hother]

theorem addElements {steps : List PathStep} (hsteps : ∀ s, .name s ∈ steps → s ∈ Mention.names ms) (out : String)
    (h : Corresponds options r m ms t u) :
    (Tokens.addElements (steps.map (PathStep.rename r)) out u).1 = (Tokens.addElements steps out t).1 ∧
      Corresponds options r m ms (Tokens.addElements steps out t).2
        (Tokens.addElements (steps.map (PathStep.rename r)) out u).2 := by
  induction steps generalizing out t u with
  | nil => exact ⟨rfl, h⟩
  | cons e rest ih =>
    have hrest : ∀ s, .name s ∈ rest → s ∈ Mention.names ms := fun s hs => hsteps s (List.mem_cons_of_mem e hs)
    cases e with
    | name s =>
      obtain ⟨htoken, hfield⟩ := h.addField hr (hsteps s List.mem_cons_self)
      rw [List.map_cons, PathStep.rename, Tokens.addElements, Tokens.addElements]
      simp only [htoken]
      exact ih hrest _ hfield
    | index i => exact ih hrest _ h

theorem addPath {p : DocumentPath} (hp : .path p ∈ ms) (h : Corresponds options r m ms t u) :
    (u.addPath (p.rename r)).1 = (t.addPath p).1 ∧
      Corresponds options r m ms (t.addPath p).2 (u.addPath (p.rename r)).2 :=
  h.addElements hr (fun _ hs => ⟨p, hp, hs⟩) ""

theorem addWire (h : Corresponds options r m ms t u) (hmem : .literal v ∈ ms) (hw : options.wire? v = some w)
    (hw' : options.wire? (m v) = some w') :
    (u.addWire w').1 = (t.addWire w).1 ∧ Corresponds options r m ms (t.addWire w).2 (u.addWire w').2 := by
  rw [Tokens.addWire, Tokens.addWire, h.valueTokens v w w' hmem hw hw', h.counter]
  cases w.identity?.bind (Entries.get? · t.valueTokens) with
  | some token => exact ⟨rfl, h⟩
  | none =>
    refine ⟨rfl, h.left, h.right, rfl, h.nameTokens, fun other x x' hother hx hx' => ?_⟩
    have hshares := hr.literals v other hmem hother
    rw [MarshalOptions.shares_iff hw' hx', MarshalOptions.shares_iff hw hx] at hshares
    by_cases hkey : ∃ key, w.identity? = some key ∧ x.identity? = some key
    · obtain ⟨key, hwkey, hxkey⟩ := hkey
      obtain ⟨key', hwkey', hxkey'⟩ := hshares.2 ⟨key, hwkey, hxkey⟩
      exact (get?_entered hwkey' hxkey').trans (get?_entered hwkey hxkey).symm
    · have hkey' := fun hkey' => hkey (hshares.1 hkey')
      exact (get?_entered_of_not hkey').trans
        ((h.valueTokens other x x' hother hx hx').trans (get?_entered_of_not hkey).symm)

end Corresponds

theorem of_addValue {a : String} (h : t.addValue v = (.ok a, u)) : ∃ w, t.options.wire? v = some w ∧ t.addWire w = (a, u) := by
  rw [addValue] at h
  split at h
  · rename_i w hw
    refine ⟨w, by rw [MarshalOptions.wire?, hw], ?_⟩
    obtain ⟨ha, hu⟩ := Prod.mk.inj h
    exact Prod.ext (Except.ok.inj ha) hu
  · cases h
  · cases h

end Tokens

namespace Rendering

variable {α β γ δ : Type} {p q : Rendering α} {f g : α → Rendering β}

/-- From tables that correspond both give the same, if they give anything, and leave tables that correspond. -/
def InStep (options : MarshalOptions) (r : String → String) (m : Value → Value) (ms : List Mention)
    (p q : Rendering α) : Prop :=
  ∀ t u a b t' u', t.Corresponds options r m ms u → p.run t = (.ok a, t') → q.run u = (.ok b, u') →
    a = b ∧ t'.Corresponds options r m ms u'

theorem InStep.pure (a : α) : InStep options r m ms (Pure.pure a) (Pure.pure a) := by
  rintro t u _ _ _ _ h ⟨⟩ ⟨⟩
  exact ⟨rfl, h⟩

theorem InStep.bind (h : InStep options r m ms p q) (hf : ∀ a, InStep options r m ms (f a) (g a)) :
    InStep options r m ms (p >>= f) (q >>= g) := by
  intro t u b b' t' u' htu hp hq
  obtain ⟨a, t₁, hpa, hfb⟩ := Outcome.of_run_bind hp
  obtain ⟨a', u₁, hqa, hgb⟩ := Outcome.of_run_bind hq
  obtain ⟨rfl, htu₁⟩ := h t u a a' t₁ u₁ htu hpa hqa
  exact hf a t₁ u₁ b b' t' u' htu₁ hfb hgb

theorem InStep.mapM {action : γ → Rendering α} {action' : δ → Rendering α} {rename : γ → δ} {xs : List γ}
    (h : ∀ x ∈ xs, InStep options r m ms (action x) (action' (rename x))) :
    InStep options r m ms (xs.mapM action) ((xs.map rename).mapM action') := by
  induction xs with
  | nil => exact .pure []
  | cons x rest ih =>
    obtain ⟨hx, hrest⟩ := List.forall_mem_cons.1 h
    rw [List.map_cons, List.mapM_cons, List.mapM_cons]
    exact hx.bind fun _ => (ih hrest).bind fun _ => .pure _

theorem InStep.sameText (h : InStep options r m ms p q) : SameText options p q := by
  intro x y hx hy
  exact (h { options } { options } x y _ _ .new (Prod.ext hx rfl) (Prod.ext hy rfl)).1

section Parts

variable (hr : options.Renames r m ms)
include hr

theorem path_inStep {p : DocumentPath} (hp : .path p ∈ ms) : InStep options r m ms (path p) (path (p.rename r)) := by
  rintro t u _ _ _ _ h ⟨⟩ ⟨⟩
  obtain ⟨htext, hleft⟩ := h.addPath hr hp
  exact ⟨htext.symm, hleft⟩

theorem value_inStep (hv : .literal v ∈ ms) : InStep options r m ms (value v) (value (m v)) := by
  intro t u a b t' u' h ht hu
  obtain ⟨w, hw, ha⟩ := Tokens.of_addValue ht
  obtain ⟨w', hw', hb⟩ := Tokens.of_addValue hu
  rw [h.left] at hw
  rw [h.right] at hw'
  obtain ⟨htoken, hleft⟩ := h.addWire hr hv hw hw'
  rw [ha, hb] at htoken hleft
  exact ⟨htoken.symm, hleft⟩

theorem operand_inStep (o : Operand) (ho : o.mention ∈ ms) : InStep options r m ms o.render (o.rename r m).render := by
  cases o with
  | path p => exact path_inStep hr ho
  | literal v => exact value_inStep hr ho
  | size p => exact (path_inStep hr ho).bind fun _ => .pure _

theorem operands_inStep {os : List Operand} (h : os.map Operand.mention ⊆ ms) :
    InStep options r m ms (os.mapM Operand.render) ((os.map (Operand.rename r m)).mapM Operand.render) :=
  .mapM fun o ho => operand_inStep hr o (h (List.mem_map_of_mem ho))

end Parts

mutual

theorem condition_inStep (hr : options.Renames r m ms) :
    ∀ c : Condition, c.mentions ⊆ ms → InStep options r m ms c.render (c.rename r m).render
  | .compare l op x, h => by
    rw [Condition.mentions, List.cons_subset, List.cons_subset] at h
    rw [Condition.rename, Condition.render, Condition.render]
    exact (operand_inStep hr l h.1).bind fun _ => (operand_inStep hr x h.2.1).bind fun _ => .pure _
  | .between v l x, h => by
    rw [Condition.mentions, List.cons_subset, List.cons_subset, List.cons_subset] at h
    rw [Condition.rename, Condition.render, Condition.render]
    exact (operand_inStep hr v h.1).bind fun _ => (operand_inStep hr l h.2.1).bind fun _ =>
      (operand_inStep hr x h.2.2.1).bind fun _ => .pure _
  | .isIn v cs, h => by
    rw [Condition.mentions, List.cons_subset] at h
    rw [Condition.rename, Condition.render, Condition.render]
    exact (operand_inStep hr v h.1).bind fun _ => (operands_inStep hr h.2).bind fun _ => .pure _
  | .logical op cs, h => by
    rw [Condition.rename, Condition.render, Condition.render]
    refine (conditions_inStep hr cs h).bind fun parts => ?_
    rcases parts with _ | ⟨p, _ | ⟨q, rest⟩⟩ <;> exact .pure _
  | .not inner, h => by
    rw [Condition.rename, Condition.render, Condition.render]
    exact (condition_inStep hr inner h).bind fun _ => .pure _
  | .function name p a, h => by
    rw [Condition.mentions, List.cons_subset] at h
    rw [Condition.rename, Condition.render, Condition.render]
    refine (path_inStep hr h.1).bind fun _ => ?_
    cases a with
    | none => exact .pure _
    | some a => exact (operand_inStep hr a (h.2 (by simp))).bind fun _ => .pure _

theorem conditions_inStep (hr : options.Renames r m ms) : ∀ cs : List Condition, Condition.allMentions cs ⊆ ms →
    InStep options r m ms (Condition.renderAll cs) (Condition.renderAll (Condition.renameAll r m cs))
  | [], _ => .pure []
  | c :: rest, h => by
    obtain ⟨hc, hrest⟩ := List.append_subset.1 h
    rw [Condition.renameAll, Condition.renderAll, Condition.renderAll]
    exact (condition_inStep hr c hc).bind fun _ => (conditions_inStep hr rest hrest).bind fun _ => .pure _

end

section Actions

variable (hr : options.Renames r m ms)
include hr

theorem assigned_inStep (a : Assigned) (h : a.mentions ⊆ ms) : InStep options r m ms a.render (a.rename r m).render := by
  have htwo {x y : Operand} (h : [x.mention, y.mention] ⊆ ms) (join : String → String → String) :
      InStep options r m ms (do let s ← x.render; let t ← y.render; return join s t)
        (do let s ← (x.rename r m).render; let t ← (y.rename r m).render; return join s t) := by
    rw [List.cons_subset, List.cons_subset] at h
    exact (operand_inStep hr x h.1).bind fun _ => (operand_inStep hr y h.2.1).bind fun _ => .pure _
  cases a with
  | operand o => exact operand_inStep hr o (h List.mem_cons_self)
  | plus a b => exact htwo h fun x y => x ++ " + " ++ y
  | minus a b => exact htwo h fun x y => x ++ " - " ++ y
  | ifNotExists p o =>
    rw [Assigned.mentions, List.cons_subset, List.cons_subset] at h
    exact (path_inStep hr h.1).bind fun _ => (operand_inStep hr o h.2.1).bind fun _ => .pure _
  | listAppend a b => exact htwo h fun x y => "list_append(" ++ x ++ ", " ++ y ++ ")"

theorem renderSet_inStep (a : Assignment) (h : a.mentions ⊆ ms) :
    InStep options r m ms (Update.renderSet a) (Update.renderSet (a.rename r m)) := by
  obtain ⟨hp, hv⟩ := List.cons_subset.1 h
  exact (path_inStep hr hp).bind fun _ => (assigned_inStep hr a.value hv).bind fun _ => .pure _

theorem renderMember_inStep (a : MemberAction) (h : a.mentions ⊆ ms) :
    InStep options r m ms (Update.renderMember a) (Update.renderMember (a.rename r m)) := by
  obtain ⟨hp, hv⟩ := List.cons_subset.1 h
  exact (path_inStep hr hp).bind fun _ => (operand_inStep hr a.value (hv List.mem_cons_self)).bind fun _ => .pure _

omit hr in
theorem renderClause_inStep {keyword : String} {action : γ → Rendering String} {rename : γ → γ} {xs : List γ}
    (h : ∀ x ∈ xs, InStep options r m ms (action x) (action (rename x))) :
    InStep options r m ms (Update.renderClause keyword action xs) (Update.renderClause keyword action (xs.map rename)) := by
  rw [Update.renderClause, Update.renderClause, List.isEmpty_map]
  split
  · exact .pure []
  · exact (InStep.mapM h).bind fun _ => .pure _

theorem update_inStep (u : Update) (h : u.mentions ⊆ ms) : InStep options r m ms u.render (u.rename r m).render := by
  simp only [Update.mentions, List.append_subset] at h
  obtain ⟨⟨⟨hsets, hremoves⟩, hadds⟩, hdeletes⟩ := h
  have hmember {as : List MemberAction} (h : as.flatMap MemberAction.mentions ⊆ ms) (a : MemberAction) (ha : a ∈ as) :
      InStep options r m ms (Update.renderMember a) (Update.renderMember (a.rename r m)) :=
    renderMember_inStep hr a fun x hx => h (List.mem_flatMap.2 ⟨a, ha, hx⟩)
  have hset (a : Assignment) (ha : a ∈ u.sets) :
      InStep options r m ms (Update.renderSet a) (Update.renderSet (a.rename r m)) :=
    renderSet_inStep hr a fun x hx => hsets (List.mem_flatMap.2 ⟨a, ha, hx⟩)
  have hremove (p : DocumentPath) (hp : p ∈ u.removes) : InStep options r m ms (path p) (path (p.rename r)) :=
    path_inStep hr (hremoves (List.mem_map_of_mem hp))
  exact (renderClause_inStep hset).bind fun _ => (renderClause_inStep hremove).bind fun _ =>
    (renderClause_inStep (hmember hadds)).bind fun _ => (renderClause_inStep (hmember hdeletes)).bind fun _ => .pure _

end Actions

/-- The text of a condition or an update stays the same if its names and literals are replaced, as long as the same names
and the same keyed literals repeat. -/
theorem sameText_rename (options : MarshalOptions) (r : String → String) (m : Value → Value) :
    (∀ c : Condition, options.Renames r m c.mentions → SameText options c.render (c.rename r m).render) ∧
      ∀ u : Update, options.Renames r m u.mentions → SameText options u.render (u.rename r m).render :=
  ⟨fun c h => (condition_inStep h c fun _ hx => hx).sameText, fun u h => (update_inStep h u fun _ hx => hx).sameText⟩

def disguised (name : String) : String := name ++ ") OR (#n0 = :v1"

def quoted : Value → Value
  | .string s => .string ("size(" ++ s)
  | v => v

def unsolved : Condition :=
  .logical .or [.comparePath (.field "state") .eq (.string "open"),
    .not (.isIn (.path ⟨[.name "notes", .index 2, .name "state"]⟩) [.literal (.string "open"), .literal (.list [])])]

def solve : Update where
  sets := [⟨.field "state", .ifNotExists (.field "state") (.literal (.string "done"))⟩]
  adds := [⟨.field "notes", .literal (.string "done")⟩]

def unsolvedText : String := "(#n0 = :v1) OR (NOT (#n2[2].#n0 IN (:v1, :v3)))"

def solveText : String := "SET #n0 = if_not_exists(#n0, :v1) ADD #n2 :v1"

theorem unsolved_sameText : MarshalOptions.Renames {} disguised quoted unsolved.mentions ∧
    SameText {} unsolved.render (unsolved.rename disguised quoted).render ∧
    (unsolved.render.run {}).1 = .ok unsolvedText ∧
    ((unsolved.rename disguised quoted).render.run {}).1 = .ok unsolvedText ∧
    MarshalOptions.Renames {} disguised quoted solve.mentions ∧
    SameText {} solve.render (solve.rename disguised quoted).render ∧
    (solve.render.run {}).1 = .ok (some solveText) ∧
    ((solve.rename disguised quoted).render.run {}).1 = .ok (some solveText) := by
  have hnames {names : Set String} : Set.InjOn disguised names := by
    intro s _ s' _ h
    have hlist := congrArg String.toList h
    rw [disguised, disguised, String.toList_append, String.toList_append] at hlist
    exact String.toList_inj.1 (List.append_cancel_right hlist)
  have hunsolved : MarshalOptions.Renames {} disguised quoted unsolved.mentions := by
    have hliteral (v : Value) (hv : .literal v ∈ unsolved.mentions) : v = .string "open" ∨ v = .list [] := by
      simpa [unsolved, Condition.mentions, Condition.allMentions, Condition.comparePath, Operand.mention] using hv
    refine ⟨hnames, fun v w hv hw => ?_⟩
    rcases hliteral v hv with rfl | rfl <;> rcases hliteral w hw with rfl | rfl <;>
      simp [MarshalOptions.Shares, MarshalOptions.key?, MarshalOptions.wire?, quoted, Wire.ofValue, Wire.ofItems,
        Wire.identity?, Except.map]
  have hsolve : MarshalOptions.Renames {} disguised quoted solve.mentions := by
    have hliteral (v : Value) (hv : .literal v ∈ solve.mentions) : v = .string "done" := by
      simpa [solve, Update.mentions, Assignment.mentions, Assigned.mentions, MemberAction.mentions, Operand.mention]
        using hv
    refine ⟨hnames, fun v w hv hw => ?_⟩
    rw [hliteral v hv, hliteral w hw]
    simp [MarshalOptions.Shares, MarshalOptions.key?, MarshalOptions.wire?, quoted, Wire.ofValue, Wire.identity?]
  exact ⟨hunsolved, (sameText_rename {} disguised quoted).1 unsolved hunsolved, rfl, rfl, hsolve,
    (sameText_rename {} disguised quoted).2 solve hsolve, rfl, rfl⟩

end Rendering

end ItemMapper
