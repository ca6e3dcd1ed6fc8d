import ItemMapper.Proofs.ReachedPositions
import ItemMapper.Proofs.Validated

/-!
# Surveyed positions

A survey adds the paths of what its phase reports from a position on, whatever else it has found before. It keeps the
picks that it makes, and those fit as long as unions under one key are entered alike.
-/

namespace ItemMapper

namespace Position

variable {t : Picks} {root x y : Position} {phase : Phase}

def asks (x : Position) : Bool := x.node.isUnion && !x.value.isUndefined

def choice (choose : Chooser) (x : Position) : Option Nat :=
  match x.node with
  | .union _ variants => choose x.key x.path variants x.value
  | _ => none

def Consistent (choose : Chooser) (root : Position) : Prop := ∀ x y, root.Reaches choose true x →
  root.Reaches choose true y → x.asks = true → y.asks = true → x.key = y.key → x.choice choose = y.choice choose

def Fits (choose : Chooser) (root : Position) (t : Picks) : Prop := ∀ x, root.Reaches choose true x → x.asks = true →
  x.choice t.resolver = x.choice choose

theorem Reaches.next {choose : Chooser} {members : Bool} (h : root.Reaches choose true x)
    (hy : y ∈ x.next choose members) : root.Reaches choose true y := h.tail (next_mono hy)

theorem choice_insert {p : Picks} {place : Option Nat} (h : x.asks = true) :
    x.choice (Picks.resolver (Entries.insert y.key place p)) =
      if y.key = x.key then place else x.choice p.resolver := by
  obtain ⟨key, path, v, n, inUnion⟩ := x
  cases n with
  | union m variants =>
    have hv : v.isUndefined = false := by simpa [asks, Node.isUnion] using h
    simp only [choice, Picks.resolver, hv, Bool.false_eq_true, if_false, Entries.get?_insert]
    by_cases hk : y.key = key <;> simp [hk]
  | _ => cases h

theorem Fits.insert {choose : Chooser} {p : Picks} (h : Fits choose root p) (hd : Consistent choose root)
    (hy : root.Reaches choose true y) (ha : y.asks = true) :
    Fits choose root (Entries.insert y.key (y.choice choose) p) := by
  intro x hx hxa
  rw [choice_insert hxa]
  split
  · exact hd y x hy hx ha hxa ‹_›
  · exact h x hx hxa

end Position

namespace Survey

variable {phase : Phase} {t : Picks} {x y root : Position} {s : Survey} {shown path : String} {vs : List Violation}

def visitAt (phase : Phase) (x : Position) (s : Survey) : Survey := visit phase x.inUnion x.key x.path x.value s x.node

def enterAt (phase : Phase) (x : Position) (s : Survey) : Bool × Survey := enter phase x.inUnion x.path x.value s x.node

def keeping (choose : Chooser) (x : Position) (s : Survey) : Survey :=
  if x.asks then { s with picks := Entries.insert x.key (x.choice choose) s.picks } else s

theorem visitFields_eq {entries : List (String × Value)} {fields : List (String × Node)} :
    visitFields phase path entries s fields = (fields.map fun f => Position.place (memberPath path f.1)
      ((Entries.get? f.1 entries).getD .undefined) f.2).foldl (fun s y => visitAt phase y s) s := by
  induction fields generalizing s with
  | nil => rfl
  | cons f rest ih =>
    rw [visitFields, ih]
    rfl

theorem visitVariant_eq {key : String} {v : Value} {i : Nat} {variants : List Node} :
    visitVariant phase key path v s i variants = ((variants[i]?).map fun n =>
      (⟨key, path, v, n, true⟩ : Position)).toList.foldl (fun s y => visitAt phase y s) s := by
  induction variants generalizing i with
  | nil => rfl
  | cons n rest ih =>
    cases i with
    | zero => rfl
    | succ i => exact ih

theorem visitElements_eq {elements : List Value} {items : Node} : elements.zipIdx.foldl
    (fun s (e, i) => visit phase false (elementPath path i) (elementPath path i) e s items) s =
      (elements.zipIdx.map fun e => Position.place (elementPath path e.2) e.1 items).foldl
        (fun s y => visitAt phase y s) s := by
  rw [List.foldl_map]
  rfl

theorem enterAt_picks : (enterAt phase x s).2.picks = s.picks := by
  rw [enterAt, enter]
  split
  · rfl
  · split <;> rfl

theorem visitAt_eq (hc : x.asks = true → x.choice s.picks.resolver = x.choice t.resolver) : visitAt phase x s =
    if (enterAt phase x s).1 then (x.next t.resolver phase.visitsMembers).foldl (fun s y => visitAt phase y s)
      (keeping t.resolver x (enterAt phase x s).2) else (enterAt phase x s).2 := by
  obtain ⟨key, path, v, n, inUnion⟩ := x
  cases n with
  | object m fields isOpen =>
    change visit phase inUnion key path v s (.object m fields isOpen) = _
    rw [visit_object, enterAt]
    cases (enter phase inUnion path v s (.object m fields isOpen)).1 <;> cases v <;> first | rfl | exact visitFields_eq
  | list m items =>
    change visit phase inUnion key path v s (.list m items) = _
    rw [visit_list, enterAt]
    cases (enter phase inUnion path v s (.list m items)).1 <;> cases v <;> first | rfl | exact visitElements_eq
  | set m items =>
    change visit phase inUnion key path v s (.set m items) = _
    rw [visit_set, enterAt]
    cases (enter phase inUnion path v s (.set m items)).1 <;> cases hm : phase.visitsMembers <;> cases v <;>
      first | rfl | exact visitElements_eq
  | union m variants =>
    cases he : enterAt phase ⟨key, path, v, .union m variants, inUnion⟩ s with
    | mk go s' =>
      have henter : enter phase inUnion path v s (.union m variants) = (go, s') := he
      have hp : s'.picks = s.picks := (congrArg (fun r => r.2.picks) he).symm.trans enterAt_picks
      cases go with
      | false => simp [visitAt, visit, henter]
      | true =>
        simp only [visitAt, visit, henter, if_true]
        cases hv : v.isUndefined with
        | true => simp [Position.next, Picks.resolver, keeping, Position.asks, hv]
        | false =>
          have ha : Position.asks ⟨key, path, v, .union m variants, inUnion⟩ = true := by
            simp [Position.asks, Node.isUnion, hv]
          have hpick : (Entries.get? key s'.picks).getD (variantOf path v variants) =
              t.resolver key path variants v := by
            have hchoice := hc ha
            simp only [Position.choice] at hchoice
            rw [hp, ← hchoice]
            simp [Picks.resolver, hv]
          rw [variantOf] at hpick
          simp only [hpick, Bool.false_eq_true, if_false, keeping, ha, if_true, Position.choice, Position.next]
          cases t.resolver key path variants v with
          | none => rfl
          | some i => exact visitVariant_eq
  | _ =>
    cases (enterAt phase _ s).1 <;> rfl

theorem keys_addAll : shown ∈ Entries.keys (s.addAll path vs).violations ↔
    shown ∈ Entries.keys s.violations ∨ vs ≠ [] ∧ Violations.shownPath path = shown := by
  suffices h : ∀ out : Violations, shown ∈ Entries.keys (vs.foldl (fun out v => Violations.add path v out) out) ↔
      shown ∈ Entries.keys out ∨ vs ≠ [] ∧ Violations.shownPath path = shown from h _
  induction vs with
  | nil => simp
  | cons v rest ih =>
    intro out
    rw [List.foldl_cons, ih, Violations.add, Entries.mem_keys_insert]
    by_cases hp : Violations.shownPath path = shown
    · simp [hp]
    · simp [hp, Ne.symm hp]

theorem violates_iff (hv : phase.visits x.value = true) (hx : (x.inUnion && x.node.isUnion) = false) :
    x.Violates phase ↔ phase.check x.node x.value x.path ≠ [] := by
  rw [Position.Violates, Phase.demand_iff x.path]
  simp [hv, hx]

theorem not_violates (h : phase.visits x.value = false) : ¬ x.Violates phase := by
  intro hx
  exact hx.2 ((Phase.demand_iff x.path).2 fun hv => absurd hv (by simp [h]))

theorem keys_enterAt : shown ∈ Entries.keys (enterAt phase x s).2.violations ↔
    shown ∈ Entries.keys s.violations ∨ x.Violates phase ∧ Violations.shownPath x.path = shown := by
  rw [enterAt, enter]
  cases hv : phase.visits x.value with
  | false => simp [not_violates hv]
  | true =>
    cases hx : x.inUnion && x.node.isUnion with
    | true => simp [Position.Violates, hx]
    | false =>
      simp only [Bool.not_true, Bool.false_eq_true, if_false]
      rw [keys_addAll, violates_iff hv hx]

theorem not_stops (h : (enterAt phase x s).1 = true) : ¬ (phase = .type ∧ x.Violates .type) := by
  intro hstop
  obtain ⟨rfl, hx, hdemand⟩ := hstop
  have hv : Phase.visits .type x.value = true := by
    by_contra hv
    exact not_violates (Bool.eq_false_iff.2 hv) ⟨hx, hdemand⟩
  have hdescends : Phase.descends .type x.node x.value = false := by
    refine Phase.descends_eq_false_iff.2 ⟨rfl, .inr fun htakes => hdemand fun _ => htakes⟩
  simp [enterAt, enter, hv, hx, hdescends] at h

theorem stops_or_next (h : (enterAt phase x s).1 = false) :
    (phase = .type ∧ x.Violates .type) ∨ x.next t.resolver phase.visitsMembers = [] := by
  rw [enterAt, enter] at h
  cases hv : phase.visits x.value with
  | false =>
    have hundefined : x.value.isUndefined = true := by simp_all [Phase.visits]
    exact .inr (Position.next_of_undefined hundefined)
  | true =>
    cases hx : x.inUnion && x.node.isUnion with
    | true => simp [hv, hx] at h
    | false =>
      simp only [hv, hx, Bool.not_true, Bool.false_eq_true, if_false] at h
      obtain ⟨rfl, hany | htakes⟩ := Phase.descends_eq_false_iff.1 h
      · obtain ⟨m, hm⟩ := hany
        rw [Position.next, hm]
        exact .inr rfl
      · refine .inl ⟨rfl, hx, fun hdemand => htakes (hdemand ?_)⟩
        simpa [Phase.visits] using hv

/-- The table still fits, and the paths of what is found are added to those of the violations. -/
structure Adds (t : Picks) (root : Position) (s s' : Survey) (found : Position → Prop) : Prop where
  fits : Position.Fits t.resolver root s'.picks
  keys : ∀ shown, shown ∈ Entries.keys s'.violations ↔
    shown ∈ Entries.keys s.violations ∨ ∃ z, found z ∧ Violations.shownPath z.path = shown

theorem Adds.trans {s' s'' : Survey} {found further : Position → Prop} (h : Adds t root s s' found)
    (h' : Adds t root s' s'' further) : Adds t root s s'' fun z => found z ∨ further z where
  fits := h'.fits
  keys shown := by
    rw [h'.keys, h.keys, or_assoc, ← exists_or]
    simp only [or_and_right]

theorem Adds.congr {s' : Survey} {found found' : Position → Prop} (h : Adds t root s s' found)
    (hf : ∀ z, found z ↔ found' z) : Adds t root s s' found' := by
  rwa [← funext fun z => propext (hf z)]

theorem Adds.foldl {ys : List Position} {found : Position → Position → Prop}
    (hs : Position.Fits t.resolver root s.picks)
    (h : ∀ y ∈ ys, ∀ s, Position.Fits t.resolver root s.picks → Adds t root s (visitAt phase y s) (found y)) :
    Adds t root s (ys.foldl (fun s y => visitAt phase y s) s) fun z => ∃ y ∈ ys, found y z := by
  induction ys generalizing s with
  | nil => exact ⟨hs, by simp⟩
  | cons y rest ih =>
    have hy := h y List.mem_cons_self s hs
    have hrest := ih hy.fits fun z hz => h z (List.mem_cons_of_mem _ hz)
    exact (hy.trans hrest).congr fun z => by simp

theorem Adds.enter (hs : Position.Fits t.resolver root s.picks) :
    Adds t root s (enterAt phase x s).2 fun z => z = x ∧ x.Violates phase where
  fits := by rwa [enterAt_picks]
  keys shown := by
    rw [keys_enterAt]
    simp

theorem Adds.keeping (hd : Position.Consistent t.resolver root) (hx : root.Reaches t.resolver true x)
    (hs : Position.Fits t.resolver root s.picks) : Adds t root s (keeping t.resolver x s) fun _ => False := by
  rw [Survey.keeping]
  split
  · exact ⟨hs.insert hd hx ‹_›, by simp⟩
  · exact ⟨hs, by simp⟩

/-- A visit adds what its phase reports from there. -/
theorem visitAt_adds (hd : Position.Consistent t.resolver root) (hx : root.Reaches t.resolver true x)
    (hs : Position.Fits t.resolver root s.picks) :
    Adds t root s (visitAt phase x s) (x.Reported t.resolver phase) := by
  obtain ⟨n, hn⟩ : ∃ n, x.node = n := ⟨_, rfl⟩
  induction n using Node.induct_children generalizing x s with
  | step n ih =>
    have henter : Adds t root s (enterAt phase x s).2 fun z => z = x ∧ x.Violates phase := Adds.enter hs
    rw [visitAt_eq (hs x hx)]
    cases hgo : (enterAt phase x s).1 with
    | false =>
      refine henter.congr fun z => ?_
      rw [Position.reported_iff]
      have hend : _ ∨ x.next t.resolver phase.visitsMembers = [] := stops_or_next hgo
      rcases hend with hstop | hnext
      · simp [hstop]
      · simp [hnext]
    | true =>
      have hkeeping := Adds.keeping hd hx henter.fits
      have hbelow : ∀ y ∈ x.next t.resolver phase.visitsMembers, ∀ s, Position.Fits t.resolver root s.picks →
          Adds t root s (visitAt phase y s) (y.Reported t.resolver phase) :=
        fun y hy s hs => ih y.node (hn ▸ Position.next_children hy) (hx.next hy) hs rfl
      refine ((henter.trans hkeeping).trans (Adds.foldl hkeeping.fits hbelow)).congr fun z => ?_
      rw [Position.reported_iff]
      simp [not_stops hgo]

end Survey

end ItemMapper
