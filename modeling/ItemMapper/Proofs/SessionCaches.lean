import ItemMapper.Mapper.Single
import ItemMapper.Proofs.Outcomes
import ItemMapper.Proofs.PathCaches
import ItemMapper.Proofs.ReadingRules

/-!
# Caches of sessions

A session begins with an empty cache, and whatever is read in it changes the cache only by looking up paths. So the
cache of a session is always one that look-ups have filled.
-/

namespace ItemMapper

theorem Schema.filled_append {s : Schema} {before after : List Schema.Lookup} {cache : PathCache} :
    s.filled (before ++ after) cache = s.filled after (s.filled before cache) := List.foldl_append

namespace Mapping

variable {α β : Type} {schema : Schema} {p : Mapping α} {q : α → Mapping β} {s s' : Session}

def Looks (schema : Schema) (p : Mapping α) : Prop :=
  ∀ s, ∃ lookups, (p.run s).2.cache = schema.filled lookups s.cache

theorem Looks.of_cache (h : ∀ s, (p.run s).2.cache = s.cache) : Looks schema p := fun s => ⟨[], h s⟩

theorem Looks.of_run {result : Except MappingFailure α} (hp : Looks schema p) (h : p.run s = (result, s')) :
    ∃ lookups, s'.cache = schema.filled lookups s.cache := by
  obtain ⟨lookups, hcache⟩ := hp s
  rw [h] at hcache
  exact ⟨lookups, hcache⟩

theorem Looks.pure (a : α) : Looks schema (Pure.pure a : Mapping α) := .of_cache fun _ => rfl

theorem Looks.misuse (m : Misuse) : Looks schema (misuse m : Mapping α) := .of_cache fun _ => rfl

theorem Looks.ofMisuse (x : Except Misuse α) : Looks schema (ofMisuse x) := .of_cache fun _ => rfl

theorem Looks.ofMarshal (x : Except MarshalError α) : Looks schema (ofMarshal x) := .of_cache fun _ => rfl

theorem Looks.passes (p : Passing α) : Looks schema (passes p) := .of_cache fun _ => rfl

theorem Looks.rendered (r : Rendering α) (t : Tokens) : Looks schema (rendered r t) := .of_cache fun _ => rfl

theorem Looks.node (path : String) : Looks schema (node schema path) := fun _ => ⟨[.text path], rfl⟩

theorem Looks.bind (hp : Looks schema p) (hq : ∀ a, (∃ s t, p.run s = (.ok a, t)) → Looks schema (q a)) :
    Looks schema (p >>= q) := by
  intro s
  obtain ⟨first, hfirst⟩ := hp s
  rw [Outcome.run_bind]
  cases hs : p.run s with
  | mk result between =>
    rw [hs] at hfirst
    cases result with
    | error e => exact ⟨first, hfirst⟩
    | ok a =>
      obtain ⟨later, hlater⟩ := hq a ⟨s, between, hs⟩ between
      exact ⟨first ++ later, by rw [Schema.filled_append, ← hfirst, hlater]⟩

end Mapping

namespace ConditionDocument

open Mapping

variable {schema : Schema} {path : String} {v : Value}

theorem looks_inStoredForm : Looks schema (inStoredForm schema path v) := by
  rw [inStoredForm]
  split
  · exact (Looks.node path).bind fun _ _ => .pure _
  · exact .pure _

theorem looks_traversal : Traversal schema (fun _ p P => Looks schema p ∧ p.Yields P) (fun _ => True) (fun _ => True)
    fun _ => True where
  rules := judgement_of_course .pure .misuse .ofMisuse .bind
  below _ := trivial
  path _ _ := trivial
  stored _ := ⟨looks_inStoredForm, .any⟩
  equality _ := ⟨looks_inStoredForm.bind fun _ _ => (Looks.ofMisuse _).bind fun _ _ => .pure _, .any⟩
  leaf _ _ := trivial
  not _ := trivial
  logical _ _ := trivial

theorem looks_read (doc : Value) (parent : Option String) : Looks schema (read schema parent doc) :=
  (looks_traversal.read doc trivial).1

end ConditionDocument

namespace Mapper

open Mapping

variable {m : Mapper} {doc item context : Value} {t : Tokens} {condition : Option Value} {options : WriteOptions}

theorem looks_conditionText : Looks m.schema (m.conditionText doc t) := by
  rw [conditionText]
  refine (ConditionDocument.looks_read doc none).bind fun c _ => ?_
  split
  · exact (Looks.rendered _ _).bind fun _ _ => .pure _
  · exact .pure _

theorem looks_storable : Looks m.schema (m.storable item context) := by
  rw [storable]
  exact (Looks.passes _).bind fun r _ => .of_cache fun s => by cases r <;> rfl

theorem looks_putRequest : Looks m.schema (m.putRequest item condition options) := by
  rw [putRequest]
  refine looks_storable.bind fun _ _ => ?_
  cases condition with
  | none => exact (Looks.pure _).bind fun _ _ => (Looks.ofMarshal _).bind fun _ _ => .pure _
  | some doc => exact looks_conditionText.bind fun _ _ => (Looks.ofMarshal _).bind fun _ _ => .pure _

end Mapper

end ItemMapper
