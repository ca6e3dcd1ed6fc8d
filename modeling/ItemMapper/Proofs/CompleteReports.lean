import ItemMapper.Proofs.DirectPicks
import ItemMapper.Proofs.SurveyedPositions

/-!
# Complete reports

Validation accepts exactly what violates no phase at any position. What it rejects is rejected by the first phase that
is violated, with the paths of all violations of that phase.
-/

namespace ItemMapper

namespace Position

variable {t : Picks} {root x y : Position}

/-- Different positions have different paths. What is right inside a union is at the position of the union. -/
def Distinct (choose : Chooser) (root : Position) : Prop := ∀ x y, root.Reaches choose true x →
  root.Reaches choose true y → x.inUnion = false → y.inUnion = false → x.path = y.path → x = y

theorem Reaches.mem {choose : Chooser} {members : Bool} {positions : List Position} (h : root.Reaches choose members x)
    (hp : positions = root :: positions.flatMap fun x => x.next choose members) : x ∈ positions := by
  induction h with
  | refl =>
    rw [hp]
    exact List.mem_cons_self
  | tail _ hstep ih =>
    rw [hp]
    exact List.mem_cons_of_mem _ (List.mem_flatMap.2 ⟨_, ih, hstep⟩)

theorem distinct_of_nodup {choose : Chooser} {positions : List Position}
    (hp : positions = root :: positions.flatMap fun x => x.next choose true)
    (hpaths : ((positions.filter fun x => !x.inUnion).map path).Nodup) : Distinct choose root := by
  intro x y hx hy hin hin' hpath
  have hmem : x ∈ positions.filter fun x => !x.inUnion := List.mem_filter.2 ⟨hx.mem hp, by simp [hin]⟩
  have hmem' : y ∈ positions.filter fun x => !x.inUnion := List.mem_filter.2 ⟨hy.mem hp, by simp [hin']⟩
  exact List.inj_on_of_nodup_map hpaths hmem hmem' hpath

/-- If different positions have different paths, then no union is mistaken for another. -/
theorem Distinct.consistent {path : String} {v : Value} {n : Node} (hd : Distinct t.resolver (place path v n))
    (ht : Direct (place path v n) t) : Consistent t.resolver (place path v n) := by
  have hout {x : Position} (hx : (place path v n).Reaches t.resolver true x) (ha : x.asks = true) :
      x.inUnion = false := by
    by_contra hin
    have hno := ht.of_inUnion rfl hx (Bool.not_eq_false _ ▸ hin)
    simp [asks, hno] at ha
  intro x y hx hy hxa hya hkey
  have hpath : x.path = y.path := by
    rw [← hx.key_eq rfl (hout hx hxa), ← hy.key_eq rfl (hout hy hya), hkey]
  rw [hd x y hx hy (hout hx hxa) (hout hy hya) hpath]

end Position

namespace Node

open Position (place)

variable {n : Node} {key path table : String} {v : Value} {s : Pass} {t : Picks} {phase : Phase}

theorem objections_of_no_validator (hn : n.Throughout fun n => n.modifiers.validator = none) :
    (n.objections key path v s).1 = [] := by
  have hshallow : n.Throughout Shallow :=
    hn.throughout.mono fun u hu m items he => .inr (hu.child (by rw [he]; exact List.mem_singleton_self _))
  have hhears : Passing.Hears (n.objections key path v s).2.picks (n.objections key path v)
      ((⟨key, path, v, n, false⟩ : Position).Reaches (n.objections key path v s).2.picks.resolver true) :=
    objections_hears hshallow
  obtain ⟨heard, -, hheard⟩ := hhears.heard s List.prefix_rfl
  apply hheard.quiet.2
  intro c hc
  obtain ⟨hreached, hf⟩ := hheard.source c hc
  have hnone : c.1.node.modifiers.validator = none := (hreached.throughout hn).self
  rw [Position.validator?, hnone, ite_self] at hf
  cases hf

end Node

namespace Position

def Meets (choose : Chooser) (root : Position) (phase : Phase) : Prop :=
  ∀ y, root.Reaches choose phase.visitsMembers y → ¬ y.Violates phase

/-- What is demanded at a position is met everywhere. Set members only have to be listed and within bounds. -/
structure Valid (choose : Chooser) (root : Position) : Prop where
  required : ∀ y, root.Reaches choose false y → ¬ y.Violates .required
  type : ∀ y, root.Reaches choose false y → ¬ y.Violates .type
  enum : ∀ y, root.Reaches choose true y → ¬ y.Violates .enum
  range : ∀ y, root.Reaches choose true y → ¬ y.Violates .range

/-- A rejection is by the first of some phases that is violated, and has the paths of all violations of that phase. -/
structure Tells (choose : Chooser) (root : Position) (table : String) (phases : List Phase) (e : Rejection) : Prop where
  table : e.table = table
  first : ∃ before after, phases = before ++ e.phase :: after ∧ ∀ phase ∈ before, root.Meets choose phase
  violated : ∃ y, root.Reaches choose e.phase.visitsMembers y ∧ y.Violates e.phase
  paths : ∀ shown, shown ∈ Entries.keys e.violations ↔
    ∃ y, root.Reported choose e.phase y ∧ Violations.shownPath y.path = shown

variable {choose : Chooser} {root : Position} {table : String} {phase : Phase} {phases : List Phase} {e : Rejection}

theorem valid_iff : root.Valid choose ↔ ∀ phase ∈ Phase.surveys, root.Meets choose phase := by
  constructor
  · intro h phase hphase
    cases phase with
    | required => exact h.required
    | type => exact h.type
    | enum => exact h.enum
    | range => exact h.range
    | custom => exact absurd hphase (by decide)
  · intro h
    exact ⟨h .required (by decide), h .type (by decide), h .enum (by decide), h .range (by decide)⟩

theorem Tells.cons (hphase : root.Meets choose phase) (h : root.Tells choose table phases e) :
    root.Tells choose table (phase :: phases) e where
  table := h.table
  first := by
    obtain ⟨before, after, hphases, hbefore⟩ := h.first
    exact ⟨phase :: before, after, congrArg (phase :: ·) hphases, List.forall_mem_cons.2 ⟨hphase, hbefore⟩⟩
  violated := h.violated
  paths := h.paths

def Answers (choose : Chooser) (root : Position) (table : String) (phases : List Phase) : Option Rejection → Prop
  | none => ∀ phase ∈ phases, root.Meets choose phase
  | some e => root.Tells choose table phases e

theorem Answers.cons {answer : Option Rejection} (hphase : root.Meets choose phase)
    (h : root.Answers choose table phases answer) : root.Answers choose table (phase :: phases) answer := by
  cases answer with
  | none => exact List.forall_mem_cons.2 ⟨hphase, h⟩
  | some e => exact Tells.cons hphase h

theorem Tells.not_valid (h : root.Tells choose table Phase.surveys e) : ¬ root.Valid choose := by
  intro hvalid
  obtain ⟨before, after, hphases, -⟩ := h.first
  obtain ⟨y, hy, hviolates⟩ := h.violated
  have hmem : e.phase ∈ Phase.surveys := by simp [hphases]
  exact valid_iff.1 hvalid e.phase hmem y hy hviolates

end Position

namespace Node

open Position (place)

variable {n : Node} {path table shown : String} {v : Value} {s : Pass} {t : Picks} {phase : Phase}

theorem surveyed_adds (hd : Position.Consistent t.resolver (place path v n))
    (hs : Position.Fits t.resolver (place path v n) s.picks) : Survey.Adds t (place path v n) { picks := s.picks }
      (Survey.visitAt phase (place path v n) { picks := s.picks }) ((place path v n).Reported t.resolver phase) :=
  Survey.visitAt_adds hd .refl hs

theorem fits_surveyed (hd : Position.Consistent t.resolver (place path v n))
    (hs : Position.Fits t.resolver (place path v n) s.picks) :
    Position.Fits t.resolver (place path v n) (n.surveyed phase path v s).2.picks :=
  (surveyed_adds hd hs).fits

theorem mem_keys_surveyed (hd : Position.Consistent t.resolver (place path v n))
    (hs : Position.Fits t.resolver (place path v n) s.picks) : shown ∈ Entries.keys (n.surveyed phase path v s).1 ↔
      ∃ y, (place path v n).Reported t.resolver phase y ∧ Violations.shownPath y.path = shown :=
  ((surveyed_adds hd hs).keys shown).trans (by simp [Entries.keys])

theorem isEmpty_surveyed_iff (hd : Position.Consistent t.resolver (place path v n))
    (hs : Position.Fits t.resolver (place path v n) s.picks) :
    (n.surveyed phase path v s).1.isEmpty = true ↔ (place path v n).Meets t.resolver phase := by
  rw [Position.Meets, ← Position.not_violates_iff, List.isEmpty_iff]
  constructor
  · intro hnil y hy
    have hmem := (mem_keys_surveyed hd hs).2 ⟨y, hy, rfl⟩
    rw [hnil] at hmem
    cases hmem
  · intro hnone
    by_contra hne
    obtain ⟨f, hf⟩ := List.exists_mem_of_ne_nil _ hne
    obtain ⟨y, hy, -⟩ := (mem_keys_surveyed hd hs).1 (List.mem_map_of_mem hf)
    exact hnone y hy

theorem failure?_answers {phases : List Phase} (hn : n.Throughout fun n => n.modifiers.validator = none)
    (hd : Position.Consistent t.resolver (place path v n)) (hs : Position.Fits t.resolver (place path v n) s.picks)
    (hp : Phase.custom ∉ phases) :
    (place path v n).Answers t.resolver table phases (n.failure? path table v (phases ++ [.custom]) s).1 := by
  induction phases generalizing s with
  | nil =>
    have hnone : (n.violationsOf path v .custom s).1 = [] := by
      rw [violationsOf, Passing.bind_apply, objections_of_no_validator hn]
      rfl
    rw [List.nil_append, failure?_cons, hnone]
    exact fun phase hphase => nomatch hphase
  | cons phase rest ih =>
    obtain ⟨hphase, hlast⟩ := List.ne_and_not_mem_of_not_mem_cons hp
    rw [List.cons_append, failure?_cons, violationsOf_eq_surveyed hphase.symm]
    by_cases hempty : (n.surveyed phase path v s).1.isEmpty = true
    · rw [if_pos hempty]
      have hfits : Position.Fits t.resolver (place path v n) (n.surveyed phase path v s).2.picks := fits_surveyed hd hs
      have hrest := ih hfits hlast
      exact hrest.cons ((isEmpty_surveyed_iff hd hs).1 hempty)
    · rw [if_neg hempty]
      have hviolated : ∃ y, (place path v n).Reaches t.resolver phase.visitsMembers y ∧ y.Violates phase := by
        simpa [isEmpty_surveyed_iff hd hs, Position.Meets] using hempty
      exact ⟨rfl, ⟨[], rest, rfl, by simp⟩, hviolated, fun shown => mem_keys_surveyed hd hs⟩

/-- Validation accepts exactly the valid values. It rejects others by the first phase that is violated, with the paths
of all violations of that phase, for the type phase of those that are not below another one. -/
theorem validate_reports (hn : n.Throughout fun n => n.modifiers.validator = none)
    (hd : Position.Distinct s.picks.resolver (place path v n)) (hs : Position.Direct (place path v n) s.picks) :
    ((n.validate path table v s).1 = none ↔ (place path v n).Valid s.picks.resolver) ∧
      ∀ e, (n.validate path table v s).1 = some e → (place path v n).Tells s.picks.resolver table Phase.surveys e := by
  have hfits : Position.Fits s.picks.resolver (place path v n) s.picks := fun _ _ _ => rfl
  have hanswers : (place path v n).Answers s.picks.resolver table Phase.surveys (n.validate path table v s).1 :=
    failure?_answers hn (hd.consistent hs) hfits (by decide)
  cases hr : (n.validate path table v s).1 with
  | none =>
    rw [hr] at hanswers
    exact ⟨⟨fun _ => Position.valid_iff.2 hanswers, fun _ => rfl⟩, by simp⟩
  | some e =>
    rw [hr] at hanswers
    exact ⟨⟨fun h => (nomatch h), fun h => absurd h (Position.Tells.not_valid hanswers)⟩,
      fun _ he => Option.some.inj he ▸ hanswers⟩

def role : Node := union {} [scalar { enumValues := [.string "admin"] } .string, scalar {} .number]

def initials : Node := set {} (scalar { maxLength := some 1 } .string)

def member : Node := object {} [("role", role), ("initials", initials)] false

def guest : Value := .map [("role", .string "guest"), ("initials", .set [.string "ab"])]

def guestPositions : List Position :=
  [place "" guest member, place "role" (.string "guest") role, place "initials" (.set [.string "ab"]) initials,
    ⟨"role|", "role", .string "guest", scalar { enumValues := [.string "admin"] } .string, true⟩,
    place "initials[0]" (.string "ab") (scalar { maxLength := some 1 } .string)]

/-- The guest on its way to the store, where the variant for its role is picked. -/
def guestStored : Pass := (member.forStore guest .undefined {}).2

theorem guest_distinct : Position.Distinct guestStored.picks.resolver (place "" guest member) := by
  have hpositions : guestPositions = place "" guest member ::
      guestPositions.flatMap fun x => x.next guestStored.picks.resolver true := rfl
  exact Position.distinct_of_nodup hpositions (by decide)

theorem guest_direct : Position.Direct (place "" guest member) guestStored.picks := by
  have hmembers : member.Throughout HoldsMembers := by
    simp [member, role, initials, Throughout, fieldsThroughout, variantsThroughout, HoldsMembers, isMemberNode]
  have hnames : member.Throughout DistinctNames :=
    ⟨.of_object (by decide), ⟨.of_leaf rfl, .of_leaf rfl, .of_leaf rfl, trivial⟩, ⟨.of_leaf rfl, .of_leaf rfl⟩, trivial⟩
  have hclear : member.Throughout NamesClear := by
    refine ⟨?_, ⟨.of_leaf rfl, .of_leaf rfl, .of_leaf rfl, trivial⟩, ⟨.of_leaf rfl, .of_leaf rfl⟩, trivial⟩
    rintro _ ⟨⟩
    have hrole : ClearName "role" := ⟨by decide, by simp [isSeparator]⟩
    have hinitials : ClearName "initials" := ⟨by decide, by simp [isSeparator]⟩
    exact List.forall_mem_cons.2 ⟨hrole, List.forall_mem_singleton.2 hinitials⟩
  exact forStore_direct rfl hmembers hnames hclear rfl

theorem guest_reports : member.Throughout (fun n => n.modifiers.validator = none) ∧
    Position.Distinct guestStored.picks.resolver (place "" guest member) ∧
    Position.Direct (place "" guest member) guestStored.picks ∧
      ∃ e, (member.validate "" "members" guest guestStored).1 = some e ∧ e.phase = .enum ∧
        Entries.keys e.violations = ["role"] ∧
        (place "" guest member).Tells guestStored.picks.resolver "members" Phase.surveys e := by
  have hnone : member.Throughout fun n => n.modifiers.validator = none := by
    simp [member, role, initials, Throughout, fieldsThroughout, variantsThroughout, modifiers]
  have hreports : _ ∧ ∀ e, (member.validate "" "members" guest guestStored).1 = some e →
      (place "" guest member).Tells guestStored.picks.resolver "members" Phase.surveys e :=
    validate_reports hnone guest_distinct guest_direct
  exact ⟨hnone, guest_distinct, guest_direct, _, rfl, rfl, rfl, hreports.2 _ rfl⟩

end Node

end ItemMapper
