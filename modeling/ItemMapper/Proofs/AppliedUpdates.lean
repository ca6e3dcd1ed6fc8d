import ItemMapper.Proofs.MemoryUpdates

/-!
# Updates that are carried out

An update whose text the memory store carries out is plain, all that it assigns has a value, and the item that it leaves
is the one with all its actions applied.
-/

namespace ItemMapper

open MemoryExpression

variable {u : Tokens} {issued : List String} {item item' next : Item} {text path source value : List Char}
  {options : MarshalOptions} {update : Update} {a : Assignment} {f : UpdateOutline Nat Nat} {name : String}

theorem value_of_assign_word (hwords : Text.words text = [path, ['='], value]) (h : u.bindings.assign item text = .ok next) :
    ∃ w, u.bindings.value value = .ok w := by
  rw [Bindings.assign, hwords] at h
  obtain ⟨name, -, h⟩ := Outcome.of_bind h
  obtain ⟨w, hw, -⟩ := Outcome.of_bind h
  exact ⟨w, hw⟩

theorem sum_of_assign {sign : Char} (hwords : Text.words text = [path, ['='], source, [sign], value])
    (h : u.bindings.assign item text = .ok next) :
    ∃ name current literal sum, u.bindings.name path = .ok name ∧ Entries.get? name item = some current ∧
      u.bindings.value value = .ok literal ∧ current.combine (sign == '-') literal = .ok sum := by
  rw [Bindings.assign, hwords] at h
  split at h
  · rename_i hshort
    cases hshort
  · rename_i hlong
    cases hlong
    split at h
    · obtain ⟨name, hname, h⟩ := Outcome.of_bind h
      cases hcurrent : Entries.get? name item with
      | none =>
        rw [hcurrent] at h
        cases h
      | some current =>
        rw [hcurrent] at h
        obtain ⟨literal, hliteral, h⟩ := Outcome.of_bind h
        obtain ⟨sum, hsum, -⟩ := Outcome.of_bind h
        exact ⟨name, current, literal, sum, hname, hcurrent, hliteral, hsum⟩
    · cases h
  · cases h

theorem wireAt?_of_value {j : Nat} {w : Wire} (h : u.bindings.value (valueChars j) = .ok w) : u.wireAt? j = some w := by
  rwa [value_ok_iff, ofList_valueChars] at h

theorem nameAt?_of_name {k : Nat} (h : u.bindings.name (Step.chars [.name k]) = .ok name) : u.nameAt? k = some name := by
  rwa [nameStep_chars, name_ok_iff, ofList_nameChars] at h

theorem value_of_own {k : Nat} {s t : Term Nat Nat} {sign : Char} {v : Value} (hk : u.nameAt? k = some name)
    (hsign : sign = '+' ∨ sign = '-') (hs : s.map u.nameAt? u.wireAt? = .path [.name (some name)])
    (ht : t.map u.nameAt? u.wireAt? = .literal (options.wire? v))
    (h : u.bindings.assign item (Step.chars [.name k] ++ ' ' :: '=' :: ' ' :: (s.chars ++ ' ' :: sign :: ' ' :: t.chars)) =
      .ok next) :
    ∃ w, (do ((← Entries.get? name item).combine (sign == '-') (← options.wire? v)).toOption) = some w := by
  obtain ⟨k', rfl, -⟩ := Term.of_map_name hs
  obtain ⟨j, rfl, hj⟩ := Term.of_map_literal ht
  have hpath : Text.words (Step.chars [.name k]) = [Step.chars [.name k]] := words_stepChars (List.cons_ne_nil _ _)
  have hsource : Text.words (Term.path [.name k']).chars = [(Term.path [.name k']).chars] :=
    words_termChars (x := .path [.name k']) (List.cons_ne_nil _ _)
  have hwords := words_assignment (y := (Term.path [.name k']).chars ++ ' ' :: sign :: ' ' :: valueChars j) hpath
  rw [words_sum hsign hsource words_valueChars] at hwords
  obtain ⟨name', current, literal, sum, hname, hcurrent, hliteral, hsum⟩ := sum_of_assign hwords h
  obtain rfl : name' = name := Option.some.inj ((nameAt?_of_name hname).symm.trans hk)
  have hwire : options.wire? v = some literal := hj.symm.trans (wireAt?_of_value hliteral)
  refine ⟨sum, ?_⟩
  rw [hcurrent, hwire]
  exact congrArg Except.toOption hsum

theorem actions_plain (ha : a.Plain) {x : List (Step Nat) × Source Nat Nat}
    (hx : UpdateOutline.lookUp u x = (a.path.outline some, a.value.outline some options.wire?)) :
    actions (UpdateOutline.setChars x) = [UpdateOutline.setChars x] := by
  obtain ⟨p, src⟩ := x
  refine actions_of_no_comma (UpdateOutline.comma_notin_set ?_)
  obtain ⟨-, hs⟩ := Prod.mk.inj hx
  cases ha with
  | literal name v =>
    cases src with
    | term t => exact UpdateOutline.comma_notin_chars
    | _ => cases hs
  | plus name v =>
    cases src with
    | plus s t => simp [UpdateOutline.plus_chars, UpdateOutline.comma_notin_chars]
    | _ => cases hs
  | minus name v =>
    cases src with
    | minus s t => simp [UpdateOutline.minus_chars, UpdateOutline.comma_notin_chars]
    | _ => cases hs

theorem value_of_assign (ha : a.Plain) {x : List (Step Nat) × Source Nat Nat}
    (hx : UpdateOutline.lookUp u x = (a.path.outline some, a.value.outline some options.wire?))
    (hpath : a.path = .field name) (hsame : Entries.get? name item' = Entries.get? name item)
    (h : u.bindings.assign item' (UpdateOutline.setChars x) = .ok next) : ∃ w, a.value.value? options item = some w := by
  obtain ⟨p, src⟩ := x
  obtain ⟨hp, hs⟩ := Prod.mk.inj hx
  rw [hpath] at hp
  obtain ⟨k, rfl, hk⟩ := Step.of_map_name hp
  rw [UpdateOutline.setChars_eq] at h
  cases ha with
  | literal name' v =>
    cases src with
    | term t =>
      obtain ⟨j, rfl, hj⟩ := Term.of_map_literal (Source.term.inj hs)
      have hwords := words_assignment (y := valueChars j) (words_stepChars (List.cons_ne_nil (.name k) []))
      rw [words_valueChars] at hwords
      obtain ⟨w, hw⟩ := value_of_assign_word hwords h
      exact ⟨w, hj.symm.trans (wireAt?_of_value hw)⟩
    | _ => cases hs
  | plus name' v =>
    obtain rfl : name' = name := by simpa [DocumentPath.field] using hpath
    cases src with
    | plus s t =>
      obtain ⟨hl, hr⟩ := Source.plus.inj hs
      rw [UpdateOutline.plus_chars] at h
      have hvalue := value_of_own hk (.inl rfl) hl hr h
      rw [hsame] at hvalue
      exact hvalue
    | _ => cases hs
  | minus name' v =>
    obtain rfl : name' = name := by simpa [DocumentPath.field] using hpath
    cases src with
    | minus s t =>
      obtain ⟨hl, hr⟩ := Source.minus.inj hs
      rw [UpdateOutline.minus_chars] at h
      have hvalue := value_of_own hk (.inr rfl) hl hr h
      rw [hsame] at hvalue
      exact hvalue
    | _ => cases hs

theorem values_of_assignments (hd : u.Distinct) {as : List Assignment} {xs : List (List (Step Nat) × Source Nat Nat)}
    (hx : xs.map (UpdateOutline.lookUp u) = as.map fun a => (a.path.outline some, a.value.outline some options.wire?))
    (ha : ∀ a ∈ as, a.Plain) (hdistinct : (as.map fun a => a.path.text).Nodup)
    (hsame : ∀ a ∈ as, Entries.get? a.path.text item' = Entries.get? a.path.text item)
    (h : ((xs.map UpdateOutline.setChars).flatMap actions).foldlM u.bindings.assign item' = .ok next) :
    ∀ a ∈ as, ∃ w, a.value.value? options item = some w := by
  induction xs generalizing as item' with
  | nil =>
    obtain rfl := List.map_eq_nil_iff.1 hx.symm
    exact fun a ha => absurd ha List.not_mem_nil
  | cons x xs ih =>
    obtain ⟨a, as, rfl, hxa, hxs⟩ := List.map_eq_cons_iff.1 hx.symm
    obtain ⟨haplain, haothers⟩ := List.forall_mem_cons.1 ha
    obtain ⟨hasame, hsames⟩ := List.forall_mem_cons.1 hsame
    rw [List.map_cons, List.nodup_cons] at hdistinct
    obtain ⟨hanew, hothers⟩ := hdistinct
    obtain ⟨name, hpath⟩ := haplain.target
    rw [hpath, DocumentPath.text_field] at hasame hanew
    rw [List.map_cons, List.flatMap_cons, actions_plain haplain hxa.symm, List.singleton_append, List.foldlM_cons] at h
    obtain ⟨changed, hassign, h⟩ := Outcome.of_bind h
    obtain ⟨w, haw⟩ := value_of_assign haplain hxa.symm hpath hasame hassign
    have hinsert := (assign_plain hd haplain hxa.symm hpath haw hasame).2
    obtain rfl : changed = Entries.insert name w item' := Except.ok.inj (hassign.symm.trans hinsert)
    have hnext : ∀ b ∈ as, Entries.get? b.path.text (Entries.insert name w item') = Entries.get? b.path.text item := by
      intro b hb
      have hne : name ≠ b.path.text := fun he => hanew (he ▸ List.mem_map_of_mem hb)
      rw [Entries.get?_insert_of_ne hne, hsames b hb]
    exact List.forall_mem_cons.2 ⟨⟨w, haw⟩, ih hxs.symm haothers hothers hnext h⟩

namespace Update

theorem values_of_update {text : String} (hd : u.Distinct) (hwf : update.WellFormed) (hf : f.WellFormed)
    (htext : text.toList = f.chars) (hmap : f.map u.nameAt? u.wireAt? = update.outline some options.wire?)
    (hplain : update.Plain) (h : u.bindings.update text item = .ok item') :
    ∀ a ∈ update.sets, ∃ w, a.value.value? options item = some w := by
  rw [UpdateOutline.update_chars hf htext] at h
  obtain ⟨assigned, hassigned, -⟩ := Outcome.of_bind h
  exact values_of_assignments hd (UpdateOutline.mk.inj hmap).1 hplain.sets hwf.nodup_paths (fun _ _ => rfl) hassigned

end Update

namespace UpdateDocument

variable {schema : Schema} {doc : Value} {table : String} {s s' : Session} {t t' : Tokens} {expression : String}

/-- An update that was read from a document leaves, where its text is carried out, the item with all its actions
applied. -/
theorem applied_of_update (hread : (schema.readUpdate table doc).run s = (.ok update, s'))
    (ht : ({ options } : Tokens).Leads t) (hrender : update.render.run t = (.ok (some expression), t'))
    (hlater : t'.Leads u) (hitem : (Entries.keys item).Nodup)
    (h : Bindings.update ⟨u.names, u.values⟩ expression item = .ok item') :
    update.Plain ∧ (∀ a ∈ update.sets, ∃ w, a.value.value? options item = some w) ∧
      item' = update.applied options item := by
  obtain ⟨hleads, tokens, -, f, htext, hmap⟩ := (Rendering.update_spells update).reachable ht hrender hlater
  obtain ⟨later, hu⟩ := hleads.indexed .new
  obtain rfl : u.options = options := (hleads.extends .new).options
  have htext : expression.toList = f.chars := by
    rw [Option.map_some] at htext
    split at htext
    · cases htext
    · exact Option.some.inj htext
  have houtline : f.map u.nameAt? u.wireAt? = update.outline some u.options.wire? := hmap _ Tokens.reads_wire?
  have hwf := readUpdate_wellFormed hread
  have hf : f.WellFormed := UpdateOutline.wellFormed_of_map (houtline ▸ Update.outline_wellFormed hwf)
  have hplain := Update.plain_of_update hu.toNumbered hf htext houtline h
  have hd := hu.distinct
  have hvalues := Update.values_of_update hd hwf hf htext houtline hplain h
  have happlied := Update.update_of_values hd hwf hf htext houtline hitem hplain hvalues
  exact ⟨hplain, hvalues, Except.ok.inj (h.symm.trans happlied)⟩

end UpdateDocument

end ItemMapper
