import ItemMapper.Expression.UpdateDocument
import ItemMapper.Proofs.ReadConditions

/-!
# Updates that are read

What is read from a document is well-formed: every path has a step, and no two actions have the same target. A draft
keeps its targets in a list of its own, in front of which every action is checked.
-/

namespace ItemMapper

def Assigned.WellFormed : Assigned → Prop
  | operand o => o.WellFormed
  | plus a b => a.WellFormed ∧ b.WellFormed
  | minus a b => a.WellFormed ∧ b.WellFormed
  | ifNotExists p o => p.elements ≠ [] ∧ o.WellFormed
  | listAppend a b => a.WellFormed ∧ b.WellFormed

def Update.targets (u : Update) : List DocumentPath :=
  u.sets.map Assignment.path ++ u.removes ++ u.adds.map MemberAction.path ++ u.deletes.map MemberAction.path

structure Update.WellFormed (u : Update) : Prop where
  distinct : (u.targets.map DocumentPath.text).Nodup
  paths : ∀ p ∈ u.targets, p.elements ≠ []
  sources : ∀ a ∈ u.sets, a.value.WellFormed
  members : ∀ a ∈ u.adds ++ u.deletes, a.value.WellFormed

structure UpdateDraft.Tidy (d : UpdateDraft) : Prop where
  wellFormed : d.update.WellFormed
  taken : ∀ p ∈ d.update.targets, p.text ∈ d.targets

variable {place : UpdateDocument.Place} {path key : String} {p : DocumentPath} {d d' : UpdateDraft} {u : Update}
  {s s' : Session} {v : Value} {value : Assigned} {parent : Option String}

theorem UpdateDraft.Tidy.empty : UpdateDraft.Tidy {} where
  wellFormed := ⟨List.nodup_nil, by simp [Update.targets], by simp, by simp⟩
  taken := by simp [Update.targets]

theorem perm_grown {α : Type} {xs ys : List α} {x : α} : (xs ++ (ys ++ [x])).Perm (x :: (xs ++ ys)) := by
  rw [← List.append_assoc]
  exact List.perm_append_singleton x (xs ++ ys)

theorem UpdateDraft.Tidy.add (h : d.Tidy) (hp : p.elements ≠ []) (hfree : p.text ∉ d.targets)
    (hperm : u.targets.Perm (p :: d.update.targets)) (hsources : ∀ a ∈ u.sets, a.value.WellFormed)
    (hmembers : ∀ a ∈ u.adds ++ u.deletes, a.value.WellFormed) :
    UpdateDraft.Tidy ⟨u, d.targets ++ [p.text]⟩ where
  wellFormed := by
    have hnot : p.text ∉ d.update.targets.map DocumentPath.text := by
      intro hmem
      obtain ⟨q, hq, he⟩ := List.mem_map.1 hmem
      exact hfree (he ▸ h.taken q hq)
    refine ⟨(hperm.map DocumentPath.text).nodup_iff.2 (List.nodup_cons.2 ⟨hnot, h.wellFormed.distinct⟩), ?_, hsources,
      hmembers⟩
    intro q hq
    rcases List.mem_cons.1 (hperm.mem_iff.1 hq) with rfl | hq
    · exact hp
    · exact h.wellFormed.paths q hq
  taken := by
    intro q hq
    rcases List.mem_cons.1 (hperm.mem_iff.1 hq) with rfl | hq
    · exact List.mem_append_right _ (List.mem_singleton_self _)
    · exact List.mem_append_left _ (h.taken q hq)

namespace UpdateDocument

theorem of_refuse {α : Type} {f : Forbidden} {a : α} (h : (place.refuse f : Mapping α).run s = (.ok a, s')) : False := by
  cases h

theorem of_parsed (h : (parsed path).run s = (.ok p, s')) : p.elements ≠ [] :=
  DocumentPath.of_parse (Mapping.of_ofMisuse h)

theorem reserve_eq (h : (reserve place p d).run s = (.ok d', s')) :
    p.text ∉ d.targets ∧ d' = { d with targets := d.targets ++ [p.text] } := by
  rw [reserve] at h
  split at h
  · exact (of_refuse h).elim
  · rename_i hfree
    obtain ⟨rfl, -⟩ := Mapping.of_pure h
    exact ⟨by simpa using hfree, rfl⟩

def Tidies (f : UpdateDraft → Mapping UpdateDraft) : Prop :=
  ∀ {d d' s s'}, d.Tidy → (f d).run s = (.ok d', s') → d'.Tidy

theorem assign_tidies (hvalue : value.WellFormed) : Tidies (assign place path value) := by
  intro d d' s s' hd h
  rw [assign] at h
  obtain ⟨p, t, hp, h⟩ := Mapping.of_bind h
  obtain ⟨d₁, t₁, hreserve, h⟩ := Mapping.of_bind h
  obtain ⟨hfree, rfl⟩ := reserve_eq hreserve
  obtain ⟨rfl, -⟩ := Mapping.of_pure h
  refine hd.add (of_parsed hp) hfree ?_ (fun a ha => ?_) hd.wellFormed.members
  · rw [Update.targets, List.map_append]
    exact ((List.perm_append_singleton _ _).append_right _ |>.append_right _).append_right _
  · rcases List.mem_append.1 ha with ha | ha
    · exact hd.wellFormed.sources a ha
    · obtain rfl := List.mem_singleton.1 ha
      exact hvalue

theorem changeBy_tidies {operator : String} {amount : Value} : Tidies (changeBy place path operator amount) := by
  intro d d' s s' hd h
  rw [changeBy] at h
  obtain ⟨n, t, -, h⟩ := Mapping.of_bind h
  split at h
  · exact (of_refuse h).elim
  · obtain ⟨p, t₁, hp, h⟩ := Mapping.of_bind h
    refine assign_tidies ?_ hd h
    split
    · exact ⟨of_parsed hp, trivial⟩
    · exact ⟨of_parsed hp, trivial⟩

theorem removeTargets_tidies (targets : List Value) : Tidies (removeTargets place path targets) := by
  induction targets with
  | nil =>
    intro d d' s s' hd h
    obtain ⟨rfl, -⟩ := Mapping.of_pure h
    exact hd
  | cons target rest ih =>
    intro d d' s s' hd h
    rw [removeTargets] at h
    obtain ⟨n, t, -, h⟩ := Mapping.of_bind h
    split at h
    · exact (of_refuse h).elim
    · obtain ⟨p, t₁, hp, h⟩ := Mapping.of_bind h
      obtain ⟨d₁, t₂, hreserve, h⟩ := Mapping.of_bind h
      obtain ⟨hfree, rfl⟩ := reserve_eq hreserve
      have hperm : (Update.targets { d.update with removes := d.update.removes ++ [p] }).Perm (p :: d.update.targets) :=
        (perm_grown.append_right _).append_right _
      exact ih (hd.add (of_parsed hp) hfree hperm hd.wellFormed.sources hd.wellFormed.members) h

theorem assignFields_tidies (onlyIfAbsent : Bool) (entries : List (String × Value)) :
    Tidies (assignFields place onlyIfAbsent entries) := by
  induction entries with
  | nil =>
    intro d d' s s' hd h
    obtain ⟨rfl, -⟩ := Mapping.of_pure h
    exact hd
  | cons e rest ih =>
    intro d d' s s' hd h
    rw [assignFields] at h
    split at h
    · exact ih hd h
    · split at h
      · exact (of_refuse h).elim
      · obtain ⟨w, t, -, h⟩ := Mapping.of_bind h
        obtain ⟨d₁, t₁, hassign, h⟩ := Mapping.of_bind h
        refine ih (assign_tidies ?_ hd hassign) h
        split
        · exact ⟨List.cons_ne_nil _ _, trivial⟩
        · trivial

theorem extend_tidies {inFront : Bool} : Tidies (extend place path inFront v) := by
  intro d d' s s' hd h
  rw [extend] at h
  obtain ⟨n, t, -, h⟩ := Mapping.of_bind h
  obtain ⟨r, t₁, -, h⟩ := Mapping.of_bind h
  split at h
  · cases h
  · obtain ⟨p, t₂, hp, h⟩ := Mapping.of_bind h
    refine assign_tidies ?_ hd h
    split
    · exact ⟨trivial, of_parsed hp⟩
    · exact ⟨of_parsed hp, trivial⟩

theorem changeMembers_tidies {adding : Bool} : Tidies (changeMembers place path adding v) := by
  intro d d' s s' hd h
  rw [changeMembers] at h
  obtain ⟨p, t, hp, h⟩ := Mapping.of_bind h
  obtain ⟨d₁, t₁, hreserve, h⟩ := Mapping.of_bind h
  obtain ⟨hfree, rfl⟩ := reserve_eq hreserve
  obtain ⟨rfl, -⟩ := Mapping.of_pure h
  have hnew (a : MemberAction) (ha : a ∈ d.update.adds ++ d.update.deletes ∨ a = ⟨p, .literal (.set (membersOf v))⟩) :
      a.value.WellFormed := by
    rcases ha with ha | rfl
    · exact hd.wellFormed.members a ha
    · trivial
  cases adding with
  | true =>
    refine hd.add (of_parsed hp) hfree ?_ hd.wellFormed.sources fun a ha => hnew a ?_
    · rw [if_pos rfl, Update.targets, List.map_append]
      exact perm_grown.append_right _
    · simpa [or_comm, or_assoc, or_left_comm] using ha
  | false =>
    refine hd.add (of_parsed hp) hfree ?_ hd.wellFormed.sources fun a ha => hnew a ?_
    · rw [if_neg Bool.false_ne_true, Update.targets, List.map_append]
      exact perm_grown
    · simpa [or_assoc] using ha

theorem nestedOperator_tidies : Tidies (nestedOperator place path key v) := by
  intro d d' s s' hd h
  rw [nestedOperator] at h
  split at h
  · obtain ⟨w, t, -, h⟩ := Mapping.of_bind h
    refine assign_tidies ?_ hd h
    trivial
  · obtain ⟨w, t, -, h⟩ := Mapping.of_bind h
    obtain ⟨p, t₁, hp, h⟩ := Mapping.of_bind h
    refine assign_tidies ?_ hd h
    exact ⟨of_parsed hp, trivial⟩
  · exact removeTargets_tidies _ hd h
  · exact extend_tidies hd h
  · exact extend_tidies hd h
  · exact changeBy_tidies hd h
  · exact changeBy_tidies hd h
  · obtain ⟨n, t, -, h⟩ := Mapping.of_bind h
    obtain ⟨delta, t₁, -, h⟩ := Mapping.of_bind h
    exact changeBy_tidies hd h
  · exact changeMembers_tidies hd h
  · exact changeMembers_tidies hd h
  · exact (of_refuse h).elim

theorem topOperator_tidies : Tidies (topOperator place key v) := by
  have hassignments (onlyIfAbsent : Bool) : Tidies fun d => topOperator.assignments place key v d onlyIfAbsent := by
    intro d d' s s' hd h
    cases v with
    | map entries => exact assignFields_tidies onlyIfAbsent entries hd h
    | _ => exact (Mapping.of_misuse h).elim
  intro d d' s s' hd h
  rw [topOperator] at h
  split at h
  · exact hassignments false hd h
  · exact hassignments true hd h
  · exact removeTargets_tidies _ hd h
  · exact (Mapping.of_misuse h).elim

theorem leaf_tidies : Tidies (leaf place parent key v) := by
  intro d d' s s' hd h
  unfold leaf at h
  split at h
  · cases parent with
    | some path => exact nestedOperator_tidies hd h
    | none => exact topOperator_tidies hd h
  · dsimp only at h
    split at h
    · refine assign_tidies ?_ hd h
      trivial
    · obtain ⟨w, t, -, h⟩ := Mapping.of_bind h
      refine assign_tidies ?_ hd h
      trivial

mutual

theorem readEntries_tidies : ∀ (entries : List (String × Value)) {parent : Option String},
    Tidies (readEntries place parent entries)
  | [], parent, d, d', s, s', hd, h => by
    rw [readEntries] at h
    obtain ⟨rfl, -⟩ := Mapping.of_pure h
    exact hd
  | (key, v) :: rest, parent, d, d', s, s', hd, h => by
    rw [readEntries] at h
    obtain ⟨d₁, t, hentry, h⟩ := Mapping.of_bind h
    exact readEntries_tidies rest (readEntry_tidies v hd hentry) h

theorem readEntry_tidies : ∀ (v : Value) {parent : Option String} {key : String}, Tidies (readEntry place parent key v)
  | .undefined, parent, key, d, d', s, s', hd, h => by
    obtain ⟨rfl, -⟩ := Mapping.of_pure h
    exact hd
  | .map entries, parent, key, d, d', s, s', hd, h => by
    rw [readEntry] at h
    split at h
    · exact leaf_tidies hd h
    · exact readEntries_tidies entries hd h
  | .null, _, _, _, _, _, _, hd, h | .bool _, _, _, _, _, _, _, hd, h | .number _, _, _, _, _, _, _, hd, h
  | .bigInt _, _, _, _, _, _, _, hd, h | .string _, _, _, _, _, _, _, hd, h | .binary _, _, _, _, _, _, _, hd, h
  | .date _, _, _, _, _, _, _, hd, h | .list _, _, _, _, _, _, _, hd, h | .set _, _, _, _, _, _, _, hd, h =>
    leaf_tidies hd h

end

/-- Updates that are read from documents are well-formed. -/
theorem readUpdate_wellFormed {schema : Schema} {table : String} {doc : Value}
    (h : (schema.readUpdate table doc).run s = (.ok u, s')) : u.WellFormed := by
  unfold Schema.readUpdate at h
  split at h
  · obtain ⟨d, t, hd, h⟩ := Mapping.of_bind h
    obtain ⟨rfl, -⟩ := Mapping.of_pure h
    exact (readEntries_tidies _ .empty hd).wellFormed
  · exact (Mapping.of_misuse h).elim

end UpdateDocument

end ItemMapper
