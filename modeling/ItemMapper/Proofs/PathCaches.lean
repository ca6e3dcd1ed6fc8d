import ItemMapper.Proofs.PathPatterns

/-!
# The cache of paths

Look-ups are answered from the cache if something was found under their key before. The cache does not show exactly
if all look-ups with one key would be answered alike on their own, from the first on that finds a node. That is so as
long as the texts are well formed. A malformed text shares its key with well-formed ones if its index is too large or
is written in digits of another script, and a path whose name looks like several steps shares it with those steps.
-/

namespace ItemMapper.Schema

inductive Lookup where
  | text (text : String)
  | path (p : DocumentPath)

section

variable [DigitClass]

namespace Lookup

def shown : Lookup → String
  | text t => t
  | path p => p.text

def key? (l : Lookup) : Option String := (DocumentPath.pattern l.shown).toOption

def WellFormed : Lookup → Prop
  | text t => ∃ p, DocumentPath.parse? t = some p
  | path p => DocumentPath.parse? p.text = some p

end Lookup

def answer (s : Schema) (l : Lookup) (cache : PathCache) : Except Misuse Node × PathCache :=
  match l with
  | .text t => s.nodeAtText t cache
  | .path p =>
    let (n, cache) := s.nodeAtPath p cache
    (.ok n, cache)

def answers (s : Schema) : List Lookup → PathCache → List (Except Misuse Node)
  | [], _ => []
  | l :: rest, cache => (s.answer l cache).1 :: answers s rest (s.answer l cache).2

def filled (s : Schema) (lookups : List Lookup) (cache : PathCache) : PathCache :=
  lookups.foldl (fun cache l => (s.answer l cache).2) cache

/-- The answer that a look-up gets on a cache with nothing in it. -/
def fresh (s : Schema) (l : Lookup) : Except Misuse Node := (s.answer l []).1

/-- If the first look-up finds a node, the second one finds it too. -/
def Consistent (s : Schema) (l l' : Lookup) : Prop :=
  ∀ key n, l.key? = some key → l'.key? = some key → s.fresh l = .ok n → s.fresh l' = .ok n

def Fits (s : Schema) (cache : PathCache) (l : Lookup) : Prop :=
  ∀ key n, l.key? = some key → Entries.get? key cache = some n → s.fresh l = .ok n

variable {s : Schema} {l l' : Lookup} {lookups : List Lookup} {cache : PathCache} {key : String} {n : Node}

theorem of_key? (h : l.key? = some key) : DocumentPath.pattern l.shown = .ok key := Outcome.of_toOption h

theorem answer_of_no_key (h : l.key? = none) : s.answer l cache = (s.fresh l, cache) := by
  cases l with
  | text t =>
    rw [fresh, answer, answer, nodeAtText, nodeAtText]
    cases hp : DocumentPath.pattern t with
    | error e => rfl
    | ok key =>
      rw [Lookup.key?, Lookup.shown, hp] at h
      cases h
  | path p =>
    rw [fresh, answer, answer, nodeAtPath, nodeAtPath]
    cases hp : DocumentPath.pattern p.text with
    | error e => rfl
    | ok key =>
      rw [Lookup.key?, Lookup.shown, hp] at h
      cases h

theorem answer_of_found (h : l.key? = some key) (hn : Entries.get? key cache = some n) :
    s.answer l cache = (.ok n, cache) := by
  have hp := of_key? h
  cases l with
  | text t =>
    rw [Lookup.shown] at hp
    rw [answer, nodeAtText, hp]
    simp only [hn]
  | path p =>
    rw [Lookup.shown] at hp
    rw [answer, nodeAtPath, hp]
    simp only [hn]

theorem answer_of_missing (h : l.key? = some key) (hn : Entries.get? key cache = none) :
    s.answer l cache = (s.fresh l, (s.fresh l).toOption.elim cache fun n => Entries.insert key n cache) := by
  have hp := of_key? h
  cases l with
  | text t =>
    rw [Lookup.shown] at hp
    rw [fresh, answer, answer, nodeAtText, nodeAtText, hp]
    simp only [hn, Entries.get?]
    cases DocumentPath.parse t <;> rfl
  | path p =>
    rw [Lookup.shown] at hp
    rw [fresh, answer, answer, nodeAtPath, nodeAtPath, hp]
    simp only [hn, Entries.get?]
    rfl

theorem answer_eq_fresh_iff : (s.answer l cache).1 = s.fresh l ↔ s.Fits cache l := by
  cases hkey : l.key? with
  | none =>
    rw [answer_of_no_key hkey]
    exact ⟨fun _ key n hk => absurd (hkey.symm.trans hk) (by simp), fun _ => rfl⟩
  | some key =>
    cases hn : Entries.get? key cache with
    | none =>
      rw [answer_of_missing hkey hn]
      refine ⟨fun _ k n hk hfound => ?_, fun _ => rfl⟩
      obtain rfl := Option.some.inj (hkey.symm.trans hk)
      rw [hn] at hfound
      cases hfound
    | some n =>
      rw [answer_of_found hkey hn]
      refine ⟨fun h k m hk hfound => ?_, fun h => (h key n hkey hn).symm⟩
      obtain rfl := Option.some.inj (hkey.symm.trans hk)
      obtain rfl := Option.some.inj (hn.symm.trans hfound)
      exact h.symm

/-- A look-up leaves the cache as it was, but for what it finds under a key of its own. -/
theorem get?_answer_iff : Entries.get? key (s.answer l cache).2 = some n ↔
    Entries.get? key cache = some n ∨ l.key? = some key ∧ Entries.get? key cache = none ∧ s.fresh l = .ok n := by
  cases hkey : l.key? with
  | none => simp [answer_of_no_key hkey]
  | some k =>
    cases hk : Entries.get? k cache with
    | some m =>
      rw [answer_of_found hkey hk]
      refine (or_iff_left ?_).symm
      rintro ⟨hkk, hnone, -⟩
      obtain rfl := Option.some.inj hkk
      rw [hk] at hnone
      cases hnone
    | none =>
      rw [answer_of_missing hkey hk]
      cases hfresh : s.fresh l with
      | error e => simp [Except.toOption]
      | ok m =>
        change Entries.get? key (Entries.insert k m cache) = some n ↔ _
        by_cases hkk : k = key
        · subst hkk
          simp [hk, Entries.get?_insert_self]
        · rw [Entries.get?_insert_of_ne hkk]
          simp [hkk]

theorem fits_answer_iff (hfits : s.Fits cache l) :
    s.Fits (s.answer l cache).2 l' ↔ s.Fits cache l' ∧ s.Consistent l l' := by
  constructor
  · refine fun h => ⟨fun key n hkey hn => h key n hkey (get?_answer_iff.2 (.inl hn)), fun key n hkey hkey' hfresh => ?_⟩
    refine h key n hkey' (get?_answer_iff.2 ?_)
    cases hcache : Entries.get? key cache with
    | none => exact .inr ⟨hkey, rfl, hfresh⟩
    | some m => exact .inl (congrArg some (Except.ok.inj ((hfits key m hkey hcache).symm.trans hfresh)))
  · rintro ⟨hbefore, hconsistent⟩ key n hkey' hn
    rcases get?_answer_iff.1 hn with hn | ⟨hkey, -, hfresh⟩
    · exact hbefore key n hkey' hn
    · exact hconsistent key n hkey hkey' hfresh

theorem answers_eq_iff : s.answers lookups cache = lookups.map s.fresh ↔
    (∀ l ∈ lookups, s.Fits cache l) ∧ lookups.Pairwise s.Consistent := by
  induction lookups generalizing cache with
  | nil => simp [answers]
  | cons l rest ih =>
    rw [answers, List.map_cons, List.cons.injEq, answer_eq_fresh_iff, ih, List.forall_mem_cons, List.pairwise_cons,
      and_assoc]
    refine and_congr_right fun hfits => ?_
    simp only [fits_answer_iff hfits, forall_and, and_assoc]

theorem of_get?_filled (h : Entries.get? key (s.filled lookups []) = some n) :
    ∃ l ∈ lookups, l.key? = some key ∧ s.fresh l = .ok n := by
  induction lookups using List.reverseRecOn with
  | nil => cases h
  | append_singleton lookups l ih =>
    rw [filled, List.foldl_append, ← filled] at h
    rcases get?_answer_iff.1 h with hbefore | ⟨hkey, -, hfresh⟩
    · obtain ⟨l', hl', hfound⟩ := ih hbefore
      exact ⟨l', List.mem_append_left _ hl', hfound⟩
    · exact ⟨l, List.mem_append_right _ (List.mem_singleton_self l), hkey, hfresh⟩

theorem fresh_of_wellFormed (h : l.WellFormed) (hkey : l.key? = some key) :
    ∃ p, DocumentPath.parse? l.shown = some p ∧ s.fresh l = .ok (s.root.walk p.elements) := by
  have hp := of_key? hkey
  cases l with
  | text t =>
    obtain ⟨p, ht⟩ := h
    rw [Lookup.shown] at hp
    refine ⟨p, ht, ?_⟩
    rw [fresh, answer, nodeAtText, hp]
    simp only [Entries.get?, DocumentPath.parse, ht]
  | path p =>
    rw [Lookup.shown] at hp
    refine ⟨p, h, ?_⟩
    rw [fresh, answer, nodeAtPath, hp]
    rfl

theorem fresh_of_field {name : String} (h : DocumentPath.parse? name = some (.field name)) (hkey : l.key? = some name) :
    s.fresh l = .ok (s.root.walk [.name name]) := by
  have hshown := DocumentPath.eq_of_pattern (of_key? hkey) (DocumentPath.plain_of_parse? h).2
  have hwell : l.WellFormed := by
    cases l with
    | text t =>
      obtain rfl : t = name := hshown
      exact ⟨_, h⟩
    | path p =>
      obtain rfl : p.text = name := hshown
      rw [Lookup.WellFormed, h, ← DocumentPath.eq_field_of_text h rfl]
  obtain ⟨p, hp, hfresh⟩ := fresh_of_wellFormed (s := s) hwell hkey
  rw [hshown, h] at hp
  rw [hfresh, ← Option.some.inj hp]
  rfl

theorem nodeAtText_field {name : String} (h : DocumentPath.parse? name = some (.field name)) :
    (s.nodeAtText name (s.filled lookups [])).1 = .ok (s.root.walk [.name name]) := by
  have hkey : (Lookup.text name).key? = some name := by
    rw [Lookup.key?, Lookup.shown, DocumentPath.pattern_of_plain (DocumentPath.plain_of_parse? h).2]
    rfl
  change (s.answer (.text name) _).1 = _
  cases hn : Entries.get? name (s.filled lookups []) with
  | none => rw [answer_of_missing hkey hn, fresh_of_field h hkey]
  | some n =>
    obtain ⟨l, -, hl, hfresh⟩ := of_get?_filled hn
    rw [answer_of_found hkey hn, ← hfresh, fresh_of_field h hl]

variable [LawfulDigitClass]

theorem consistent_of_wellFormed (h : l.WellFormed) (h' : l'.WellFormed) : s.Consistent l l' := by
  intro key n hkey hkey' hn
  obtain ⟨p, hp, hfresh⟩ := fresh_of_wellFormed (s := s) h hkey
  obtain ⟨q, hq, hfresh'⟩ := fresh_of_wellFormed (s := s) h' hkey'
  rw [← hn, hfresh, hfresh', DocumentPath.walk_eq_of_pattern hq hp (of_key? hkey') (of_key? hkey)]

/-- Look-ups share one cache without a trace exactly if no two of them have one key and different answers, the earlier
one a node. Well-formed look-ups always do. -/
theorem answers_eq_fresh_iff : (s.answers lookups [] = lookups.map s.fresh ↔ lookups.Pairwise s.Consistent) ∧
    ((∀ l ∈ lookups, l.WellFormed) → s.answers lookups [] = lookups.map s.fresh) := by
  have hiff : s.answers lookups [] = lookups.map s.fresh ↔ lookups.Pairwise s.Consistent := by
    rw [answers_eq_iff]
    exact and_iff_right fun l _ key n _ hn => nomatch hn
  refine ⟨hiff, fun h => hiff.2 (List.Pairwise.imp_of_mem ?_ (List.pairwise_of_forall fun _ _ => trivial))⟩
  exact fun hl hl' _ => consistent_of_wellFormed (h _ hl) (h _ hl')

end

def taggedDeclaration : SchemaDeclaration :=
  [("id", .typed .string none none false { memberships := { primary := true } }),
    ("tags", .typed .array none (some (.tag .string)) false {})]

def tagged : Schema := .compiled taggedDeclaration

def tagLookups : List Lookup := [.text "tags[0]", .path (.field "id"), .text "tags[07]", .text "tags[1].size"]

theorem tagged_answers_eq_fresh : (∀ l ∈ tagLookups, l.WellFormed) ∧
    tagged.answers tagLookups [] = tagLookups.map tagged.fresh := by
  have hwell : ∀ l ∈ tagLookups, l.WellFormed := by
    simp only [tagLookups, List.forall_mem_cons]
    exact ⟨⟨_, rfl⟩, rfl, ⟨_, rfl⟩, ⟨_, rfl⟩, fun _ h => nomatch h⟩
  exact ⟨hwell, answers_eq_fresh_iff.2 hwell⟩

def arabicLookups : List Lookup := [.text "tags[0]", .text "tags[٣]"]

theorem arabic_answers_ne_fresh : ¬ ∀ (d : SchemaDeclaration) (s : Schema), ofDeclaration d = .ok s →
    ∀ lookups : List Lookup, s.answers lookups [] = lookups.map s.fresh := by
  intro hall
  have hcompiled : ofDeclaration taggedDeclaration = .ok tagged := rfl
  have hanswers : (tagged.answers arabicLookups []).map Except.isOk = [true, true] := by decide +kernel
  have hfresh : (arabicLookups.map tagged.fresh).map Except.isOk = [true, false] := by decide +kernel
  rw [hall _ _ hcompiled arabicLookups, hfresh] at hanswers
  cases hanswers

end ItemMapper.Schema
