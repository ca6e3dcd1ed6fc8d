import ItemMapper.Proofs.AbsentPuts
import ItemMapper.Proofs.Mentions
import ItemMapper.Proofs.PathTexts
import ItemMapper.Proofs.ReadingRules

/-!
# What conditions concern

The texts below an attribute extend its name by further steps, and so do the paths that are parsed from them. What is read
of a condition document below an attribute concerns this attribute only, however deep its operators are nested.
-/

namespace ItemMapper

namespace DocumentPath

open ConditionDocument

variable {name text key : String} {p : DocumentPath}

def Extends (name text : String) : Prop :=
  ∃ rest, text.toList = name.toList ++ rest ∧ ∀ c ∈ rest.head?, c = '.' ∨ c = '['

theorem Extends.refl : Extends name name := ⟨[], (List.append_nil _).symm, by simp⟩

theorem Extends.below (h : Extends name text) : Extends name (pathBelow (some text) key) := by
  obtain ⟨rest, htext, hhead⟩ := h
  have hgoes {more : List Char} (hmore : ∀ c ∈ more.head?, c = '.' ∨ c = '[') :
      ∀ c ∈ (rest ++ more).head?, c = '.' ∨ c = '[' := by
    cases rest with
    | nil => exact hmore
    | cons c rest => exact hhead
  rw [pathBelow]
  split
  · rename_i hbracket
    refine ⟨rest ++ key.toList, by rw [String.toList_append, htext, List.append_assoc], hgoes ?_⟩
    rw [hbracket.1]
    simp
  · refine ⟨rest ++ '.' :: key.toList, ?_, hgoes (by simp)⟩
    rw [String.toList_append, String.toList_append, htext, List.append_assoc, List.append_assoc]
    rfl

theorem firstName?_of_extends (hname : parse? name = some (field name)) (h : Extends name text)
    (hp : parse? text = some p) : p.firstName? = some name := by
  have hreadable : (PathStep.name name).Readable := (readable_of_parse? hname).2 _ List.mem_cons_self
  obtain ⟨rest, htext, hhead⟩ := h
  have hread := of_parse? hp
  have hfirst {es : List PathStep} (hes : p.elements = .name name :: es) : p.firstName? = some name := by
    rw [firstName?, hes]
  rw [htext, readFrom_name hreadable] at hread
  cases rest with
  | nil =>
    rw [readFrom, named_reverse hreadable.1] at hread
    exact hfirst (Option.some.inj hread).symm
  | cons c rest =>
    rw [readFrom] at hread
    rcases hhead c rfl with rfl | rfl
    · rw [if_pos rfl] at hread
      split at hread
      · cases hread
      · obtain ⟨es, -, hes⟩ := Option.map_eq_some_iff.1 hread
        rw [named_reverse hreadable.1] at hes
        exact hfirst hes.symm
    · rw [if_neg (by decide), if_pos rfl] at hread
      obtain ⟨es, -, hes⟩ := Option.map_eq_some_iff.1 hread
      rw [named_reverse hreadable.1] at hes
      exact hfirst hes.symm

end DocumentPath

namespace Condition

def Concerns (name : String) (c : Condition) : Prop := ∀ p, .path p ∈ c.mentions → p.firstName? = some name

end Condition

namespace ConditionDocument

open Mapping Condition DocumentPath

variable {schema : Schema} {name text : String} {v : Value} {p : DocumentPath} {c d : Condition} {cs : List Condition}

theorem mem_mentions_of_leafOn {q : DocumentPath} (h : LeafOn p c) (hq : .path q ∈ c.mentions) : q = p := by
  have hsubject {o : Operand} (ho : o = .path p ∨ o = .size p) (hmention : Mention.path q = o.mention) : q = p := by
    rcases ho with rfl | rfl <;> exact Mention.path.inj hmention
  cases h with
  | compare ho op v => exact hsubject ho (by simpa [mentions, Operand.mention] using hq)
  | isIn ho hne => exact hsubject ho (by simpa [mentions, Operand.mention] using hq)
  | between ho low high => exact hsubject ho (by simpa [mentions, Operand.mention] using hq)
  | function predicate argument => cases argument <;> simpa [mentions, Operand.mention] using hq

theorem concerns_of_leafOn (hp : p.firstName? = some name) (h : LeafOn p c) : c.Concerns name := by
  intro q hq
  rw [mem_mentions_of_leafOn h hq, hp]

theorem exists_of_mem_conjunction {x : Mention} (hd : conjunction cs = some d) (hx : x ∈ d.mentions) :
    ∃ c ∈ cs, x ∈ c.mentions := by
  rcases cs with _ | ⟨c, _ | ⟨e, rest⟩⟩
  · cases hd
  · cases hd
    exact ⟨_, List.mem_cons_self, hx⟩
  · cases hd
    exact mem_allMentions.1 hx

section Attribute

variable (hname : parse? name = some (field name))

include hname

theorem firstName?_of_parse (htext : Extends name text) (hp : DocumentPath.parse text = .ok p) :
    p.firstName? = some name := firstName?_of_extends hname htext (parse?_of_parse hp)

theorem yields_equality (htext : Extends name text) : (readEquality schema text v).Yields (Concerns name) :=
  judge_equality yields_judgement .any (fun _ => firstName?_of_parse hname htext) concerns_of_leafOn

theorem concerns_traversal : Traversal schema (fun _ p P => p.Yields P) (fun parent => parent.elim False (Extends name))
    (fun p => p.firstName? = some name) (Concerns name) where
  rules := yields_judgement
  below {parent key} h := by
    cases parent with
    | none => exact h.elim
    | some text =>
      have htext : Extends name text := h
      exact htext.below
  path := firstName?_of_parse hname
  stored _ := .any
  equality := yields_equality hname
  leaf := concerns_of_leafOn
  not h := h
  logical _ hcs p hp := by
    obtain ⟨c, hc, hpc⟩ := mem_allMentions.1 hp
    exact hcs c hc p hpc

theorem yields_named (hplain : ConditionKey.isOperator name = false) :
    (readEntry schema none name v).Yields (Concerns name) := by
  have hnamed := ConditionKey.ofName_eq_named hplain
  have hbelow : pathBelow none name = name := rfl
  have hleaf : (leaf schema none name v).Yields (Concerns name) := by
    rw [leaf, hnamed]
    exact yields_equality hname .refl
  cases v with
  | undefined => exact yields_judgement.misuse _
  | map entries =>
    rw [readEntry, hnamed]
    simp only [hbelow]
    have hrules : Traversal schema _ _ _ _ := concerns_traversal hname
    have hentries : (readEntries schema (some name) entries).Yields fun cs => ∀ c ∈ cs, c.Concerns name :=
      hrules.readEntries entries Extends.refl
    refine hentries.bind fun cs hcs => ?_
    split
    · rename_i d hd
      exact yields_judgement.pure (hrules.conjunction hcs d hd)
    · exact yields_judgement.misuse _
  | list items =>
    rw [readEntry, hnamed]
    exact hleaf
  | _ => exact hleaf

end Attribute

end ConditionDocument

end ItemMapper
