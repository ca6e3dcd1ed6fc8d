import ItemMapper.Proofs.ReadUpdates
import ItemMapper.Proofs.TermTexts

/-!
# Texts of updates

The text of an update is cut into its clauses and their actions again. Keywords are found where they were written, since
no action has a capital letter in it.
-/

namespace ItemMapper

open MemoryExpression

def clauseWords : List (List Char) := ["SET", "REMOVE", "ADD", "DELETE"].map String.toList

structure IsClause (c : List Char × List Char) : Prop where
  word : c.1 ∈ clauseWords
  body : Text.Trimmed c.2
  lower : ∀ d ∈ c.2, d.isUpper = false

def clauseText (c : List Char × List Char) : List Char := c.1 ++ ' ' :: c.2

variable {c : List Char × List Char} {cs : List (List Char × List Char)} {x y : List Char}

theorem keywords_eq : keywords = clauseWords.map fun w => ' ' :: (w ++ [' ']) := rfl

theorem word_trimmed (h : x ∈ clauseWords) : Text.Trimmed x := by
  have hall : ∀ x ∈ clauseWords, x ≠ [] ∧ x.any Text.isBlank = false := by decide
  exact .of_no_blank (hall x h).1 (Text.free_of_any (hall x h).2)

theorem blank_notin_word (h : x ∈ clauseWords) : ' ' ∉ x := by
  have hall : ∀ x ∈ clauseWords, ' ' ∉ x := by decide
  exact hall x h

theorem IsClause.trimmed (h : IsClause c) : Text.Trimmed (clauseText c) :=
  (word_trimmed h.word).append (z := [' ']) h.body

theorem clauses_trimmed (hne : cs ≠ []) (h : ∀ c ∈ cs, IsClause c) :
    Text.Trimmed ([' '].intercalate (cs.map clauseText)) := by
  induction cs with
  | nil => exact absurd rfl hne
  | cons c rest ih =>
    obtain ⟨hc, hrest⟩ := List.forall_mem_cons.1 h
    cases rest with
    | nil =>
      rw [List.map_singleton, List.intercalate_singleton]
      exact hc.trimmed
    | cons d rest =>
      rw [List.map_cons, List.map_cons, List.intercalate_cons_cons, ← List.map_cons, List.append_assoc]
      exact hc.trimmed.append (ih (List.cons_ne_nil d rest) hrest)

theorem keyword_clear {k : List Char} (hk : k ∈ keywords) (hx : ∀ d ∈ x, d.isUpper = false) (hy : ∀ d ∈ y.head?, d = ' ') :
    Text.Clear k x y := by
  obtain ⟨word, hword, rfl⟩ := List.mem_map.1 (keywords_eq ▸ hk)
  have hall : ∀ word ∈ clauseWords, ∃ d rest, word = d :: rest ∧ d.isUpper = true := by
    simp [clauseWords]
  obtain ⟨d, rest, rfl, hupper⟩ := hall word hword
  refine Text.Clear.of_second (fun hd => ?_) fun e he hd => ?_
  · rw [hx d hd] at hupper
    cases hupper
  · rw [← hd, hy e he] at hupper
    cases hupper

theorem clauseLength_last (hx : ∀ d ∈ x, d.isUpper = false) : clauseLength x = x.length := by
  rw [clauseLength, List.filterMap_eq_nil_iff.2]
  · rfl
  · intro k hk
    have hne : k ≠ [] := by
      rintro rfl
      revert hk
      decide
    rw [Text.splitOnce?_eq_none (keyword_clear hk hx (by simp)) hne]
    rfl

theorem clauseLength_append {word : List Char} (hx : ∀ d ∈ x, d.isUpper = false) (hword : word ∈ clauseWords) :
    clauseLength (x ++ ' ' :: (word ++ ' ' :: y)) = x.length := by
  have hkey : ' ' :: (word ++ [' ']) ∈ keywords := keywords_eq ▸ List.mem_map_of_mem hword
  have hrest : ' ' :: (word ++ ' ' :: y) = ' ' :: (word ++ [' ']) ++ y := by simp
  have hcut (k : List Char) (hk : k ∈ keywords) :=
    Text.splitOnce?_append (keyword_clear hk hx (y := ' ' :: (word ++ ' ' :: y)) (by simp))
  rw [clauseLength, (List.min?_eq_some_iff (a := x.length)).2]
  · rfl
  · refine ⟨List.mem_filterMap.2 ⟨_, hkey, ?_⟩, fun n hn => ?_⟩
    · rw [hcut _ hkey, hrest, Text.splitOnce?_self (List.cons_ne_nil _ _)]
      simp
    · obtain ⟨k, hk, hn⟩ := List.mem_filterMap.1 hn
      rw [hcut k hk, Option.map_map] at hn
      obtain ⟨⟨front, rest⟩, -, rfl⟩ := Option.map_eq_some_iff.1 hn
      simp

theorem clausesFrom_eq (h : ∀ c ∈ cs, IsClause c) {fuel : Nat} (hf : cs.length ≤ fuel) :
    clausesFrom fuel ([' '].intercalate (cs.map clauseText)) = cs := by
  induction cs generalizing fuel with
  | nil => cases fuel <;> rfl
  | cons c rest ih =>
    obtain ⟨hc, hrest⟩ := List.forall_mem_cons.1 h
    obtain ⟨n, rfl⟩ : ∃ n, fuel = n + 1 := ⟨fuel - 1, by simp at hf; omega⟩
    have hn : rest.length ≤ n := by simpa using hf
    -- what stands behind the body, and that it is trimmed to the other clauses
    obtain ⟨tail, htext, hlength, htail⟩ : ∃ tail,
        [' '].intercalate ((c :: rest).map clauseText) = c.1 ++ ([' '] ++ (c.2 ++ tail)) ∧
        clauseLength (c.2 ++ tail) = c.2.length ∧ Text.trim tail = [' '].intercalate (rest.map clauseText) := by
      cases rest with
      | nil =>
        refine ⟨[], by simp [clauseText], ?_, rfl⟩
        rw [List.append_nil]
        exact clauseLength_last hc.lower
      | cons d rest =>
        refine ⟨' ' :: [' '].intercalate ((d :: rest).map clauseText), by simp [clauseText], ?_, ?_⟩
        · have hnext : ∃ y, [' '].intercalate ((d :: rest).map clauseText) = d.1 ++ ' ' :: y := by
            rw [List.map_cons, intercalate_cons_flatMap, clauseText, List.append_assoc]
            exact ⟨_, rfl⟩
          obtain ⟨y, hy⟩ := hnext
          rw [hy]
          exact clauseLength_append hc.lower (hrest d List.mem_cons_self).word
        · exact (clauses_trimmed (List.cons_ne_nil d rest) hrest).trim_cons (by decide)
    have hsplit : Text.splitOnce? [' '] (c.1 ++ ([' '] ++ (c.2 ++ tail))) = some (c.1, c.2 ++ tail) :=
      Text.splitOnce?_of_clear (Text.Clear.of_not_mem (blank_notin_word hc.word)) (List.cons_ne_nil _ _)
    rw [htext, clausesFrom, hsplit]
    simp only [hlength, List.take_left, List.drop_left, hc.body.trim_eq, htail, ih hrest hn]

theorem length_le_intercalate (h : ∀ c ∈ cs, IsClause c) : cs.length ≤ ([' '].intercalate (cs.map clauseText)).length := by
  induction cs with
  | nil => exact Nat.zero_le _
  | cons c rest ih =>
    obtain ⟨hc, hrest⟩ := List.forall_mem_cons.1 h
    have hpos : 0 < (clauseText c).length := List.length_pos_iff.2 hc.trimmed.ne_nil
    cases rest with
    | nil =>
      rw [List.map_singleton, List.intercalate_singleton]
      exact hpos
    | cons d rest =>
      have hlen := ih hrest
      rw [List.map_cons, List.map_cons, List.intercalate_cons_cons, ← List.map_cons, List.length_append, List.length_append,
        List.length_cons]
      omega

theorem clauses_eq (h : ∀ c ∈ cs, IsClause c) : clauses ([' '].intercalate (cs.map clauseText)) = cs := by
  have htrim : Text.trim ([' '].intercalate (cs.map clauseText)) = [' '].intercalate (cs.map clauseText) := by
    rcases cs with _ | ⟨c, rest⟩
    · rfl
    · exact (clauses_trimmed (List.cons_ne_nil c rest) h).trim_eq
  rw [clauses, htrim]
  exact clausesFrom_eq h (length_le_intercalate h)

structure IsAction (x : List Char) : Prop where
  trimmed : Text.Trimmed x
  lower : ∀ d ∈ x, d.isUpper = false

namespace IsAction

variable {link function : String} {xs : List (List Char)}

theorem of_term {t : Term Nat Nat} (h : t.WellFormed) : IsAction t.chars where
  trimmed := .of_no_blank (termChars_ne_nil h) fun _ hd => not_blank_of_term (termChars_subset hd)
  lower _ hd := not_upper_of_term (termChars_subset hd)

theorem of_path {p : List (Step Nat)} (h : p ≠ []) : IsAction (Step.chars p) := of_term (t := .path p) h

theorem linked (hx : IsAction x) (hy : IsAction y) (hl : ∀ d ∈ link.toList, d.isUpper = false) :
    IsAction (linked link x y) where
  trimmed := by
    rw [ItemMapper.linked, List.append_assoc]
    exact hx.trimmed.append hy.trimmed
  lower d hd := by
    rcases List.mem_append.1 hd with hd | hd
    · rcases List.mem_append.1 hd with hd | hd
      · exact hx.lower d hd
      · exact hl d hd
    · exact hy.lower d hd

theorem call (hx : IsAction x) (hf : IsAction function.toList) : IsAction (call function x) where
  trimmed := by
    have hclose : Text.Trimmed [')'] := .of_no_blank (List.cons_ne_nil _ _) (Text.free_of_any (by decide))
    exact hf.trimmed.append (z := '(' :: x) hclose
  lower d hd := by
    simp only [ItemMapper.call, inParentheses, List.mem_append, List.mem_cons, List.not_mem_nil, or_false] at hd
    rcases hd with hd | (rfl | hd) | rfl
    · exact hf.lower d hd
    · decide
    · exact hx.lower d hd
    · decide

theorem intercalate (hne : xs ≠ []) (h : ∀ x ∈ xs, IsAction x) : IsAction (", ".toList.intercalate xs) := by
  induction xs with
  | nil => exact absurd rfl hne
  | cons x rest ih =>
    obtain ⟨hx, hrest⟩ := List.forall_mem_cons.1 h
    cases rest with
    | nil =>
      rw [List.intercalate_singleton]
      exact hx
    | cons y rest =>
      have hcomma : ", ".toList.any Char.isUpper = false := by decide
      rw [List.intercalate_cons_cons]
      exact linked hx (ih (List.cons_ne_nil y rest) hrest) (Text.free_of_any hcomma)

end IsAction

def Source.WellFormed {ν β : Type} : Source ν β → Prop
  | term x => x.WellFormed
  | plus a b => a.WellFormed ∧ b.WellFormed
  | minus a b => a.WellFormed ∧ b.WellFormed
  | ifNotExists p x => p ≠ [] ∧ x.WellFormed
  | listAppend a b => a.WellFormed ∧ b.WellFormed

structure UpdateOutline.WellFormed {ν β : Type} (f : UpdateOutline ν β) : Prop where
  sets : ∀ a ∈ f.sets, a.1 ≠ [] ∧ a.2.WellFormed
  removes : ∀ p ∈ f.removes, p ≠ []
  members : ∀ a ∈ f.adds ++ f.deletes, a.1 ≠ [] ∧ a.2.WellFormed

section Maps

variable {ν ν' β β' : Type} {f : ν → ν'} {g : β → β'}

theorem Source.wellFormed_map {src : Source ν β} : (src.map f g).WellFormed ↔ src.WellFormed := by
  cases src <;> simp [Source.map, Source.WellFormed, Term.wellFormed_map]

theorem UpdateOutline.wellFormed_of_map {x : UpdateOutline ν β} (h : (x.map f g).WellFormed) : x.WellFormed where
  sets a ha := by
    obtain ⟨hp, hs⟩ := h.sets _ (List.mem_map_of_mem ha)
    exact ⟨by simpa using hp, Source.wellFormed_map.1 hs⟩
  removes p hp := by
    have hne := h.removes _ (List.mem_map_of_mem hp)
    simpa using hne
  members a ha := by
    obtain ⟨hp, ht⟩ := h.members (a.1.map (Step.map f), a.2.map f g) (by
      rw [UpdateOutline.map, ← List.map_append]
      exact List.mem_map_of_mem ha)
    exact ⟨by simpa using hp, Term.wellFormed_map.1 ht⟩

end Maps

section Trees

variable {ν β : Type} {f : String → ν} {g : Value → β}

theorem DocumentPath.outline_ne_nil {p : DocumentPath} (h : p.elements ≠ []) : p.outline f ≠ [] := by
  simpa [DocumentPath.outline] using h

theorem Assigned.outline_wellFormed {a : Assigned} (h : a.WellFormed) : (a.outline f g).WellFormed := by
  cases a with
  | operand o => exact Operand.outline_wellFormed.2 h
  | plus a b => exact ⟨Operand.outline_wellFormed.2 h.1, Operand.outline_wellFormed.2 h.2⟩
  | minus a b => exact ⟨Operand.outline_wellFormed.2 h.1, Operand.outline_wellFormed.2 h.2⟩
  | ifNotExists p o => exact ⟨DocumentPath.outline_ne_nil h.1, Operand.outline_wellFormed.2 h.2⟩
  | listAppend a b => exact ⟨Operand.outline_wellFormed.2 h.1, Operand.outline_wellFormed.2 h.2⟩

theorem Update.outline_wellFormed {u : Update} (h : u.WellFormed) : (u.outline f g).WellFormed where
  sets x hx := by
    obtain ⟨a, ha, rfl⟩ := List.mem_map.1 hx
    have htarget : a.path ∈ u.targets := by
      simp only [Update.targets, List.mem_append]
      exact .inl (.inl (.inl (List.mem_map_of_mem ha)))
    exact ⟨DocumentPath.outline_ne_nil (h.paths _ htarget), Assigned.outline_wellFormed (h.sources a ha)⟩
  removes x hx := by
    obtain ⟨p, hp, rfl⟩ := List.mem_map.1 hx
    have htarget : p ∈ u.targets := by
      simp only [Update.targets, List.mem_append]
      exact .inl (.inl (.inr hp))
    exact DocumentPath.outline_ne_nil (h.paths _ htarget)
  members x hx := by
    rw [Update.outline, ← List.map_append] at hx
    obtain ⟨a, ha, rfl⟩ := List.mem_map.1 hx
    have htarget : a.path ∈ u.targets := by
      simp only [Update.targets, List.mem_append]
      rcases List.mem_append.1 ha with ha | ha
      · exact .inl (.inr (List.mem_map_of_mem ha))
      · exact .inr (List.mem_map_of_mem ha)
    exact ⟨DocumentPath.outline_ne_nil (h.paths _ htarget), Operand.outline_wellFormed.2 (h.members a ha)⟩

end Trees

theorem IsAction.of_source {src : Source Nat Nat} (h : src.WellFormed) : IsAction src.chars := by
  have hfunction {function : String} (hf : function = "if_not_exists" ∨ function = "list_append") :
      IsAction function.toList := by
    rcases hf with rfl | rfl
    · exact ⟨.of_no_blank (by decide) (Text.free_of_any (by decide)), Text.free_of_any (by decide)⟩
    · exact ⟨.of_no_blank (by decide) (Text.free_of_any (by decide)), Text.free_of_any (by decide)⟩
  cases src with
  | term x => exact .of_term h
  | plus a b => exact .linked (.of_term h.1) (.of_term h.2) (Text.free_of_any (by decide))
  | minus a b => exact .linked (.of_term h.1) (.of_term h.2) (Text.free_of_any (by decide))
  | ifNotExists p x => exact .call (.linked (.of_path h.1) (.of_term h.2) (Text.free_of_any (by decide))) (hfunction (.inl rfl))
  | listAppend a b => exact .call (.linked (.of_term h.1) (.of_term h.2) (Text.free_of_any (by decide))) (hfunction (.inr rfl))

theorem IsAction.of_set {a : List (Step Nat) × Source Nat Nat} (hp : a.1 ≠ []) (hs : a.2.WellFormed) :
    IsAction (UpdateOutline.setChars a) := .linked (.of_path hp) (.of_source hs) (Text.free_of_any (by decide))

theorem IsAction.of_member {a : List (Step Nat) × Term Nat Nat} (hp : a.1 ≠ []) (ht : a.2.WellFormed) :
    IsAction (UpdateOutline.memberChars a) := .linked (.of_path hp) (.of_term ht) (Text.free_of_any (by decide))

namespace UpdateOutline

def clause (word : String) (actions : List (List Char)) : List (List Char × List Char) :=
  if actions.isEmpty then [] else [(word.toList, ", ".toList.intercalate actions)]

def parts (f : UpdateOutline Nat Nat) : List (List Char × List Char) :=
  clause "SET" (f.sets.map setChars) ++ clause "REMOVE" (f.removes.map Step.chars) ++
    clause "ADD" (f.adds.map memberChars) ++ clause "DELETE" (f.deletes.map memberChars)

variable {f : UpdateOutline Nat Nat} {word : String} {xs : List (List Char)}

theorem clauseChars_eq : clauseChars word xs = (clause word xs).map clauseText := by
  rw [clauseChars, clause]
  cases xs <;> rfl

theorem chars_eq : f.chars = [' '].intercalate (f.parts.map clauseText) := by
  rw [chars, clauses, parts, List.map_append, List.map_append, List.map_append, clauseChars_eq, clauseChars_eq,
    clauseChars_eq, clauseChars_eq]

theorem isClause_of_mem (hword : word.toList ∈ clauseWords) (h : ∀ x ∈ xs, IsAction x) :
    ∀ c ∈ clause word xs, IsClause c := by
  intro c hc
  rw [clause] at hc
  split at hc
  · cases hc
  · rename_i hne
    obtain rfl := List.mem_singleton.1 hc
    have hbody := IsAction.intercalate (by simpa using hne) h
    exact ⟨hword, hbody.trimmed, hbody.lower⟩

theorem clauses_chars (h : f.WellFormed) : MemoryExpression.clauses f.chars = f.parts := by
  have hclauses : ∀ c ∈ f.parts, IsClause c := by
    intro c hc
    simp only [parts, List.mem_append] at hc
    rcases hc with ((hc | hc) | hc) | hc
    · refine isClause_of_mem (by decide) (fun x hx => ?_) c hc
      obtain ⟨a, ha, rfl⟩ := List.mem_map.1 hx
      exact .of_set (h.sets a ha).1 (h.sets a ha).2
    · refine isClause_of_mem (by decide) (fun x hx => ?_) c hc
      obtain ⟨p, hp, rfl⟩ := List.mem_map.1 hx
      exact .of_path (h.removes p hp)
    · refine isClause_of_mem (by decide) (fun x hx => ?_) c hc
      obtain ⟨a, ha, rfl⟩ := List.mem_map.1 hx
      have hwf := h.members a (List.mem_append_left _ ha)
      exact .of_member hwf.1 hwf.2
    · refine isClause_of_mem (by decide) (fun x hx => ?_) c hc
      obtain ⟨a, ha, rfl⟩ := List.mem_map.1 hx
      have hwf := h.members a (List.mem_append_right _ ha)
      exact .of_member hwf.1 hwf.2
  rw [chars_eq, clauses_eq hclauses]

theorem actions_intercalate (hne : xs ≠ []) :
    actions (", ".toList.intercalate xs) = xs.flatMap actions := by
  have hcut (x y : List Char) : actions (x ++ (", ".toList ++ y)) = actions x ++ actions y := Text.splitAt_append (by decide)
  induction xs with
  | nil => exact absurd rfl hne
  | cons x rest ih =>
    cases rest with
    | nil => simp
    | cons y rest =>
      rw [List.intercalate_cons_cons, List.append_assoc, hcut, ih (List.cons_ne_nil y rest)]
      simp only [List.flatMap_cons]

section Evaluation

variable {b : Bindings} {text : String} {item : Item}

/-- An update is carried out assignment by assignment and then removal by removal; other clauses are refused. -/
theorem update_chars (h : f.WellFormed) (htext : text.toList = f.chars) : b.update text item =
    (((f.sets.map setChars).flatMap actions).foldlM b.assign item >>= fun assigned =>
      ((f.removes.map Step.chars).flatMap actions).foldlM b.remove assigned >>= fun removed =>
        if f.adds.isEmpty && f.deletes.isEmpty then .ok removed else unsupported f.chars) := by
  have hset (xs : List (List Char)) (item : Item) : (clause "SET" xs).foldlM (b.clause f.chars) item =
      (xs.flatMap actions).foldlM b.assign item := by
    rw [clause]
    split
    · simp_all
    · rename_i hne
      rw [← actions_intercalate (by simpa using hne)]
      simp [Bindings.clause]
  have hremove (xs : List (List Char)) (item : Item) : (clause "REMOVE" xs).foldlM (b.clause f.chars) item =
      (xs.flatMap actions).foldlM b.remove item := by
    rw [clause]
    split
    · simp_all
    · rename_i hne
      rw [← actions_intercalate (by simpa using hne)]
      simp [Bindings.clause]
  have hother (word : String) (hword : word = "ADD" ∨ word = "DELETE") (xs : List (List Char)) (item : Item) :
      (clause word xs).foldlM (b.clause f.chars) item = if xs.isEmpty then .ok item else unsupported f.chars := by
    rw [clause]
    split
    · rfl
    · rcases hword with rfl | rfl <;> simp [Bindings.clause]
  rw [Bindings.update, htext, clauses_chars h, parts, List.foldlM_append, List.foldlM_append, List.foldlM_append, hset]
  simp only [hremove, hother "ADD" (.inl rfl), hother "DELETE" (.inr rfl), List.isEmpty_map, bind_assoc]
  refine bind_congr fun assigned => bind_congr fun removed => ?_
  cases f.adds.isEmpty <;> cases f.deletes.isEmpty <;> rfl

end Evaluation

end UpdateOutline

end ItemMapper
