import ItemMapper.Memory.Expression
import ItemMapper.Proofs.Outcomes
import ItemMapper.Proofs.SoundTables

/-!
# Items after an update

Whatever the text of an update is, an attribute that it does not assign is afterwards as it was, or gone. So an update
that assigns no attribute of the key either keeps the key or leaves an item without one.
-/

namespace ItemMapper

open MemoryExpression

theorem Outcome.foldlM_keeps {α β ε : Type} {f : α → β → Except ε α} {P : α → Prop} {bs : List β} {a a' : α} (ha : P a)
    (hstep : ∀ a, ∀ b ∈ bs, ∀ a', P a → f a b = .ok a' → P a') (h : bs.foldlM f a = .ok a') : P a' := by
  induction bs generalizing a with
  | nil =>
    obtain rfl := Except.ok.inj h
    exact ha
  | cons b rest ih =>
    rw [List.foldlM_cons] at h
    obtain ⟨next, hnext, h⟩ := Outcome.of_bind h
    exact ih (hstep a b List.mem_cons_self next ha hnext) (fun a c hc => hstep a c (List.mem_cons_of_mem b hc)) h

namespace Bindings

variable {b : Bindings} {item item' before : Item} {token action : List Char} {name : String} {v v' w : Wire}
  {assigned : List String}

def assignedName? (b : Bindings) (action : List Char) : Option String :=
  (Text.words action).head?.bind fun path => Entries.get? (String.ofList path) b.names

def assignedNames (b : Bindings) (text : String) : List String :=
  (clauses text.toList).flatMap fun c => if c.1 = "SET".toList then (actions c.2).filterMap b.assignedName? else []

theorem get?_of_name (h : b.name token = .ok name) : Entries.get? (String.ofList token) b.names = some name := by
  rw [Bindings.name] at h
  split at h
  · rename_i found hfound
    rw [hfound, Except.ok.inj h]
  · cases h

theorem get?_of_value (h : b.value token = .ok w) : Entries.get? (String.ofList token) b.values = some w := by
  rw [value] at h
  split at h
  · rename_i found hfound
    rw [hfound, Except.ok.inj h]
  · cases h

theorem wellKeyed_of_combine {subtract : Bool} (h : v.combine subtract w = .ok v') : v'.wellKeyed = true := by
  unfold Wire.combine at h
  split at h
  · split at h
    · obtain rfl := Except.ok.inj h
      rfl
    · cases h
    · cases h
  · cases h

section Values

variable (hvalues : Item.WellKeyed b.values)

include hvalues

theorem of_assign (h : b.assign item action = .ok item') :
    ∃ name w, b.assignedName? action = some name ∧ w.wellKeyed = true ∧ item' = Entries.insert name w item := by
  rw [assign] at h
  split at h
  · rename_i path value hwords
    obtain ⟨name, hname, h⟩ := Outcome.of_bind h
    obtain ⟨w, hw, h⟩ := Outcome.of_bind h
    refine ⟨name, w, ?_, hvalues.get? (get?_of_value hw), (Except.ok.inj h).symm⟩
    rw [assignedName?, hwords, List.head?_cons, Option.bind_some, get?_of_name hname]
  · rename_i path source sign value hwords
    split at h
    · obtain ⟨name, hname, h⟩ := Outcome.of_bind h
      split at h
      · cases h
      · obtain ⟨w, -, h⟩ := Outcome.of_bind h
        obtain ⟨sum, hsum, h⟩ := Outcome.of_bind h
        refine ⟨name, sum, ?_, wellKeyed_of_combine hsum, (Except.ok.inj h).symm⟩
        rw [assignedName?, hwords, List.head?_cons, Option.bind_some, get?_of_name hname]
    · cases h
  · cases h

structure Evolved (assigned : List String) (before after : Item) : Prop where
  wellKeyed : after.WellKeyed
  others : ∀ name ∉ assigned, Entries.get? name after = Entries.get? name before ∨ Entries.get? name after = none

omit hvalues in
theorem Evolved.insert (h : Evolved assigned before item) (hname : name ∈ assigned) (hw : w.wellKeyed = true) :
    Evolved assigned before (Entries.insert name w item) := by
  refine ⟨h.wellKeyed.insert hw, fun other hother => ?_⟩
  have hne : name ≠ other := fun he => hother (he ▸ hname)
  rw [Entries.get?_insert_of_ne hne]
  exact h.others other hother

omit hvalues in
theorem Evolved.erase (h : Evolved assigned before item) (name : String) :
    Evolved assigned before (Entries.erase name item) := by
  refine ⟨h.wellKeyed.erase name, fun other hother => ?_⟩
  rw [Entries.erase_eq_filter h.wellKeyed.nodup, Entries.get?_filter fun key => decide (key ≠ name)]
  split
  · exact h.others other hother
  · exact .inr rfl

theorem evolved_of_clause {text : List Char} {c : List Char × List Char} (hbefore : Evolved assigned before item)
    (hassigned : c.1 = "SET".toList → ∀ name ∈ (actions c.2).filterMap b.assignedName?, name ∈ assigned)
    (h : b.clause text item c = .ok item') : Evolved assigned before item' := by
  rw [clause] at h
  split at h
  · rename_i hset
    refine Outcome.foldlM_keeps hbefore (fun item action haction item' hitem hassign => ?_) h
    obtain ⟨name, w, hname, hw, rfl⟩ := of_assign hvalues hassign
    exact hitem.insert (hassigned hset name (List.mem_filterMap.2 ⟨action, haction, hname⟩)) hw
  · split at h
    · refine Outcome.foldlM_keeps hbefore (fun item action _ item' hitem hremove => ?_) h
      obtain ⟨name, -, hremove⟩ := Outcome.of_bind hremove
      obtain rfl := Except.ok.inj hremove
      exact hitem.erase name
    · cases h

theorem evolved_of_update {text : String} (hitem : item.WellKeyed) (h : b.update text item = .ok item') :
    Evolved (b.assignedNames text) item item' := by
  refine Outcome.foldlM_keeps ⟨hitem, fun _ _ => .inl rfl⟩ (fun _ c hc _ hbefore hclause => ?_) h
  refine evolved_of_clause hvalues hbefore (fun hset name hname => ?_) hclause
  refine List.mem_flatMap.2 ⟨c, hc, ?_⟩
  rwa [if_pos hset]

end Values

end Bindings

namespace MemoryTable

variable {t : MemoryTable} {item item' : Item} {assigned : List String}

/-- An item that still has a key, though none of its attributes was assigned, has the one that it had. -/
theorem sameKey_evolved (hitem : item.WellKeyed) (h : Bindings.Evolved assigned item item')
    (hkey : ∀ name ∈ t.key, name ∉ assigned) (hcomplete : t.Complete item') : t.sameKey item' item = true := by
  refine sameKey_iff.2 fun name hname => ?_
  rcases h.others name (hkey name hname) with hsame | hgone
  · rw [hsame]
    exact sameAttribute_self fun _ hv => hitem.get? hv
  · have hhas := hcomplete name hname
    rw [Entries.has, hgone] at hhas
    cases hhas

end MemoryTable

end ItemMapper
