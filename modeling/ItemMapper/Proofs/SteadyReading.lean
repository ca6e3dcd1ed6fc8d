import ItemMapper.Proofs.PathCaches
import ItemMapper.Proofs.PathTexts
import ItemMapper.Proofs.ReadingRules

/-!
# Readings that a cache does not steer

Look-ups of texts leave a cache that answers every well-formed text as before, even if it did not answer rightly. What is
read of a condition document looks up texts only, and where one of them is malformed the reading fails whatever was
found. So the same is read in every session whose cache answers alike, and the entries of a document may be read in any
order or apart.
-/

namespace ItemMapper

namespace Schema

variable {schema : Schema} {cache other third : PathCache} {text : String} {n : Node}

def Agree (schema : Schema) (cache other : PathCache) : Prop :=
  ∀ text p, DocumentPath.parse? text = some p → (schema.nodeAtText text cache).1 = (schema.nodeAtText text other).1

theorem Agree.refl : schema.Agree cache cache := fun _ _ _ => rfl

theorem Agree.symm (h : schema.Agree cache other) : schema.Agree other cache := fun text p hp => (h text p hp).symm

theorem Agree.trans (h : schema.Agree cache other) (h' : schema.Agree other third) : schema.Agree cache third :=
  fun text p hp => (h text p hp).trans (h' text p hp)

theorem wellFormed_of_fresh (h : schema.fresh (.text text) = .ok n) : (Lookup.text text).WellFormed := by
  rw [fresh, answer, nodeAtText] at h
  split at h
  · cases h
  · rw [Entries.get?] at h
    dsimp only at h
    cases hp : DocumentPath.parse? text with
    | some p => exact ⟨p, hp⟩
    | none =>
      rw [DocumentPath.parse, hp] at h
      cases h

/-- A text is filed under its key only if it is well formed, and then it is what all well-formed texts of the key find. -/
theorem agree_nodeAtText : schema.Agree cache (schema.nodeAtText text cache).2 := by
  intro other p hp
  have hother : (Lookup.text other).WellFormed := ⟨p, hp⟩
  change (schema.answer (.text other) cache).1 = (schema.answer (.text other) (schema.answer (.text text) cache).2).1
  cases hkey : (Lookup.text other).key? with
  | none => rw [answer_of_no_key hkey, answer_of_no_key hkey]
  | some key =>
    cases hbefore : Entries.get? key cache with
    | some n =>
      have hafter := get?_answer_iff (s := schema) (l := .text text).2 (.inl hbefore)
      rw [answer_of_found hkey hbefore, answer_of_found hkey hafter]
    | none =>
      rw [answer_of_missing hkey hbefore]
      cases hafter : Entries.get? key (schema.answer (.text text) cache).2 with
      | none => rw [answer_of_missing hkey hafter]
      | some n =>
        rw [answer_of_found hkey hafter]
        rcases get?_answer_iff.1 hafter with hfound | ⟨htext, -, hfresh⟩
        · rw [hbefore] at hfound
          cases hfound
        · exact consistent_of_wellFormed (wellFormed_of_fresh hfresh) hother key n htext hkey hfresh

end Schema

namespace Mapping

variable {α β : Type} {schema : Schema} {p : Mapping α} {q : α → Mapping β} {s s' : Session} {r : Except MappingFailure α}

/-- What is given, if anything, is the same for all caches that answer alike, and the cache behind it is one of them. -/
def Steady (schema : Schema) (p : Mapping α) : Prop :=
  ∀ s, schema.Agree s.cache (p.run s).2.cache ∧
    ∀ s', schema.Agree s.cache s'.cache → (p.run s').1.toOption = (p.run s).1.toOption

theorem Steady.agree (hp : Steady schema p) : schema.Agree s.cache (p.run s).2.cache := (hp s).1

theorem Steady.same (hp : Steady schema p) (h : schema.Agree s.cache s'.cache) :
    (p.run s').1.toOption = (p.run s).1.toOption := (hp s).2 s' h

theorem Steady.of_result (h : ∀ s, p.run s = (r, s)) : Steady schema p := by
  intro s
  rw [h s]
  exact ⟨.refl, fun s' _ => by rw [h s']⟩

theorem Steady.pure (a : α) : Steady schema (Pure.pure a : Mapping α) := .of_result fun _ => rfl

theorem Steady.misuse (m : Misuse) : Steady schema (misuse m : Mapping α) := .of_result fun _ => rfl

theorem Steady.ofMisuse (x : Except Misuse α) : Steady schema (ofMisuse x) := .of_result fun _ => rfl

theorem Steady.bind (hp : Steady schema p) (hq : ∀ a, (∃ s t, p.run s = (.ok a, t)) → Steady schema (q a)) :
    Steady schema (p >>= q) := by
  intro s
  rw [Outcome.run_bind]
  have hagree := hp.agree (s := s)
  cases hs : p.run s with
  | mk result t =>
    rw [hs] at hagree
    cases result with
    | error e =>
      refine ⟨hagree, fun s' h => ?_⟩
      have hsame := hp.same h
      rw [hs] at hsame
      rw [Outcome.run_bind]
      cases hs' : p.run s' with
      | mk result' t' =>
        rw [hs'] at hsame
        cases result' with
        | error e' => rfl
        | ok a => cases hsame
    | ok a =>
      have hqa := hq a ⟨s, t, hs⟩
      refine ⟨hagree.trans hqa.agree, fun s' h => ?_⟩
      have hsame := hp.same h
      have hagree' := hp.agree (s := s')
      rw [hs] at hsame
      rw [Outcome.run_bind]
      cases hs' : p.run s' with
      | mk result' t' =>
        rw [hs'] at hsame hagree'
        cases result' with
        | error e => cases hsame
        | ok a' =>
          obtain rfl := Option.some.inj hsame
          exact hqa.same (hagree.symm.trans (h.trans hagree'))

theorem Steady.of_fails (hp : ∀ s, schema.Agree s.cache (p.run s).2.cache)
    (hq : ∀ a s, ∃ e, (q a).run s = (.error e, s)) : Steady schema (p >>= q) := by
  have hfails (s : Session) : ((p >>= q).run s).1.toOption = none ∧
      schema.Agree s.cache ((p >>= q).run s).2.cache := by
    have hagree := hp s
    rw [Outcome.run_bind]
    cases hs : p.run s with
    | mk result t =>
      rw [hs] at hagree
      cases result with
      | error e => exact ⟨rfl, hagree⟩
      | ok a =>
        obtain ⟨e, he⟩ := hq a t
        change ((q a).run t).1.toOption = none ∧ schema.Agree s.cache ((q a).run t).2.cache
        rw [he]
        exact ⟨rfl, hagree⟩
  exact fun s => ⟨(hfails s).2, fun s' _ => (hfails s').1.trans (hfails s).1.symm⟩

theorem Steady.toOption_bind (hp : Steady schema p) (hq : ∀ a, Steady schema (q a)) :
    ((p >>= q).run s).1.toOption = (p.run s).1.toOption.bind fun a => ((q a).run s).1.toOption := by
  rw [Outcome.run_bind]
  have hagree := hp.agree (s := s)
  cases hs : p.run s with
  | mk result t =>
    rw [hs] at hagree
    cases result with
    | error e => rfl
    | ok a => exact (hq a).same hagree

end Mapping

namespace ConditionDocument

open Mapping

variable {schema : Schema} {parent : Option String} {key path : String} {v : Value} {p : DocumentPath}
  {entries : List (String × Value)} {s : Session}

theorem agree_inStoredForm : schema.Agree s.cache ((inStoredForm schema path v).run s).2.cache := by
  rw [inStoredForm]
  split
  · have hnode : schema.Agree s.cache ((node schema path).run s).2.cache := Schema.agree_nodeAtText
    rw [Outcome.run_bind]
    cases hs : (node schema path).run s with
    | mk result t =>
      rw [hs] at hnode
      cases result <;> exact hnode
  · exact .refl

theorem toOption_node :
    ((node schema path).run s).1.toOption = (schema.nodeAtText path s.cache).1.toOption := by
  change ((node schema path) s).1.toOption = _
  rw [node]
  obtain ⟨result, cache⟩ := schema.nodeAtText path s.cache
  cases result <;> rfl

theorem steady_inStoredForm (h : DocumentPath.parse? path = some p) : Steady schema (inStoredForm schema path v) := by
  have hnode : Steady schema (node schema path) := by
    refine fun s => ⟨Schema.agree_nodeAtText, fun s' hs => ?_⟩
    rw [toOption_node, toOption_node, hs path p h]
  rw [inStoredForm]
  split
  · exact hnode.bind fun _ _ => .pure _
  · exact .pure _

theorem steady_equality : Steady schema (readEquality schema path v) := by
  cases hp : DocumentPath.parse? path with
  | some p => exact (steady_inStoredForm hp).bind fun _ _ => (Steady.ofMisuse _).bind fun _ _ => .pure _
  | none =>
    refine .of_fails (fun s => agree_inStoredForm) fun w s => ⟨.misuse (.malformedPath path), ?_⟩
    rw [DocumentPath.parse, hp]
    rfl

theorem steady_traversal : Traversal schema (fun _ p P => Steady schema p ∧ p.Yields P) (fun _ => True)
    (fun p => DocumentPath.parse? p.text = some p) fun _ => True where
  rules := judgement_of_course .pure .misuse .ofMisuse .bind
  below _ := trivial
  path _ h := DocumentPath.parse?_text_of_parse? (DocumentPath.parse?_of_parse h)
  stored h := ⟨steady_inStoredForm h, .any⟩
  equality _ := ⟨steady_equality, .any⟩
  leaf _ _ := trivial
  not _ := trivial
  logical _ _ := trivial

theorem steady_read (doc : Value) : Steady schema (read schema parent doc) := (steady_traversal.read doc trivial).1

theorem steady_readEntries (entries : List (String × Value)) : Steady schema (readEntries schema parent entries) :=
  (steady_traversal.readEntries entries trivial).1

theorem steady_readEntry (v : Value) (key : String) : Steady schema (readEntry schema parent key v) :=
  (steady_traversal.readEntry v key trivial).1

def entryIn (schema : Schema) (s : Session) (parent : Option String) (e : String × Value) : Option Condition :=
  ((readEntry schema parent e.1 e.2).run s).1.toOption

theorem toOption_readEntries :
    ((readEntries schema parent entries).run s).1.toOption = entries.mapM (entryIn schema s parent) := by
  induction entries with
  | nil =>
    rw [readEntries]
    rfl
  | cons e rest ih =>
    obtain ⟨key, v⟩ := e
    have hrest (c : Condition) : Steady schema (readEntries schema parent rest >>= fun cs => pure (c :: cs)) :=
      (steady_readEntries rest).bind fun _ _ => .pure _
    rw [readEntries, (steady_readEntry v key).toOption_bind hrest, List.mapM_cons]
    refine congrArg (Option.bind _) (funext fun c => ?_)
    rw [(steady_readEntries rest).toOption_bind fun _ => .pure _, ih]
    rfl

theorem toOption_read_map : ((read schema parent (.map entries)).run s).1.toOption =
    (entries.mapM (entryIn schema s parent)).map conjunction := by
  rw [read, (steady_readEntries entries).toOption_bind fun _ => .pure _, toOption_readEntries]
  cases entries.mapM (entryIn schema s parent) <;> rfl

theorem read_map_eq_ok_iff {s' : Session} {o : Option Condition} (h : schema.Agree s.cache s'.cache) :
    ((read schema parent (.map entries)).run s').1 = .ok o ↔
      ∃ cs, entries.mapM (entryIn schema s parent) = some cs ∧ conjunction cs = o := by
  rw [← Option.map_eq_some_iff, ← toOption_read_map, ← (steady_read (.map entries)).same h]
  exact ⟨fun hok => by rw [hok]; rfl, Outcome.of_toOption⟩

end ConditionDocument

end ItemMapper
