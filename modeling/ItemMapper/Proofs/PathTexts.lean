import ItemMapper.Proofs.Digits
import ItemMapper.Proofs.PathPatterns

/-!
# Texts of paths

What is read from a text has steps that a text can tell apart, and a path of such steps is read back from its own text,
whatever the text was that it was read from. So the paths that are read and their texts correspond one to one.
-/

namespace ItemMapper

open NumberReader NumberLayout

def PathStep.Readable : PathStep → Prop
  | .name s => s ≠ "" ∧ '.' ∉ s.toList ∧ '[' ∉ s.toList
  | .index i => i < twoPow 64

namespace DocumentPath

variable {cs rest read : List Char} {i : Nat} {es : List PathStep} {p : DocumentPath} {text : String} {state : ReadState}

theorem lt_of_index? (h : index? cs = some i) : i < twoPow 64 := by
  have hbound {ds : List Char} (h : (if (ds.isEmpty || !ds.all isAsciiDigit) = true then none
      else if natOfDigits ds < twoPow 64 then some (natOfDigits ds) else none) = some i) : i < twoPow 64 := by
    split at h
    · cases h
    split at h
    · rename_i hlt
      rwa [← Option.some.inj h]
    · cases h
  unfold index? at h
  split at h <;> exact hbound h

def ReadState.Unended : ReadState → Prop
  | .naming read => '.' ∉ read ∧ '[' ∉ read
  | _ => True

theorem readable_of_named (hpoint : '.' ∉ read) (hbracket : '[' ∉ read) : ∀ e ∈ named read, e.Readable := by
  intro e he
  rw [named] at he
  split at he
  · cases he
  · rename_i hne
    obtain rfl := List.mem_singleton.1 he
    have hread : (String.ofList read.reverse).toList = read.reverse := String.toList_ofList
    refine ⟨fun hempty => hne ?_, by rwa [hread, List.mem_reverse], by rwa [hread, List.mem_reverse]⟩
    rw [hempty] at hread
    simpa using hread.symm

theorem readable_of_readFrom (hstate : state.Unended) (h : readFrom state cs = some es) : ∀ e ∈ es, e.Readable := by
  induction cs generalizing state es with
  | nil =>
    cases state with
    | naming read =>
      obtain rfl := Option.some.inj h
      exact readable_of_named hstate.1 hstate.2
    | indexing read => cases h
    | indexed =>
      obtain rfl := Option.some.inj h
      exact List.forall_mem_nil _
  | cons c rest ih =>
    have hfresh : (ReadState.naming []).Unended := ⟨List.not_mem_nil, List.not_mem_nil⟩
    have hinside {read : List Char} : (ReadState.indexing read).Unended := trivial
    cases state with
    | naming read =>
      have hbefore := readable_of_named hstate.1 hstate.2
      rw [readFrom] at h
      split at h
      · split at h
        · cases h
        · obtain ⟨fs, hfs, rfl⟩ := Option.map_eq_some_iff.1 h
          exact List.forall_mem_append.2 ⟨hbefore, ih hfresh hfs⟩
      split at h
      · obtain ⟨fs, hfs, rfl⟩ := Option.map_eq_some_iff.1 h
        exact List.forall_mem_append.2 ⟨hbefore, ih hinside hfs⟩
      · rename_i hpoint hbracket
        have hlonger : (ReadState.naming (c :: read)).Unended :=
          ⟨List.not_mem_cons_of_ne_of_not_mem (Ne.symm hpoint) hstate.1,
            List.not_mem_cons_of_ne_of_not_mem (Ne.symm hbracket) hstate.2⟩
        exact ih hlonger h
    | indexing read =>
      rw [readFrom] at h
      split at h
      · obtain ⟨i, hi, h⟩ := Option.bind_eq_some_iff.1 h
        obtain ⟨fs, hfs, h⟩ := Option.bind_eq_some_iff.1 h
        obtain rfl := Option.some.inj h
        have hafter : ReadState.indexed.Unended := trivial
        exact List.forall_mem_cons.2 ⟨lt_of_index? hi, ih hafter hfs⟩
      · exact ih hinside h
    | indexed =>
      rw [readFrom] at h
      split at h
      · split at h
        · cases h
        · exact ih hfresh h
      split at h
      · exact ih hinside h
      · cases h

theorem parse?_of_parse (h : parse text = .ok p) : parse? text = some p := by
  rw [parse] at h
  split at h
  · rename_i q hq
    rw [hq, Except.ok.inj h]
  · cases h

theorem parse_of_parse? (h : parse? text = some p) : parse text = .ok p := by rw [parse, h]

theorem readable_of_parse? (h : parse? text = some p) : p.elements ≠ [] ∧ ∀ e ∈ p.elements, e.Readable := by
  have hfresh : (ReadState.naming []).Unended := ⟨List.not_mem_nil, List.not_mem_nil⟩
  refine ⟨?_, readable_of_readFrom hfresh (of_parse? h)⟩
  obtain ⟨elements, -, h⟩ := Option.bind_eq_some_iff.1 h
  split at h
  · cases h
  · rename_i hne
    cases h
    simpa using hne

theorem index?_natDigits (h : i < twoPow 64) : index? (natDigits i) = some i := by
  obtain ⟨c, rest, hd, hc⟩ := natDigits_eq_cons i
  have hplus : c ≠ '+' := by
    rintro rfl
    cases hc
  have hnatural := natOfDigits_natDigits (n := i)
  have hall := all_isAsciiDigit_natDigits (n := i)
  rw [hd] at hnatural hall ⊢
  rw [index?]
  · simp only [List.isEmpty_cons, hall, hnatural]
    exact if_pos h
  · exact fun ds hds => hplus (List.cons.inj hds).1

theorem readFrom_naming (hpoint : '.' ∉ cs) (hbracket : '[' ∉ cs) :
    readFrom (.naming read) (cs ++ rest) = readFrom (.naming (cs.reverse ++ read)) rest := by
  induction cs generalizing read with
  | nil => rfl
  | cons c cs ih =>
    obtain ⟨hcpoint, hpoint⟩ := not_or.1 (mt List.mem_cons.2 hpoint)
    obtain ⟨hcbracket, hbracket⟩ := not_or.1 (mt List.mem_cons.2 hbracket)
    rw [List.cons_append, readFrom, if_neg (Ne.symm hcpoint), if_neg (Ne.symm hcbracket), ih hpoint hbracket]
    simp

theorem readFrom_indexing (h : ']' ∉ cs) :
    readFrom (.indexing read) (cs ++ rest) = readFrom (.indexing (cs.reverse ++ read)) rest := by
  induction cs generalizing read with
  | nil => rfl
  | cons c cs ih =>
    obtain ⟨hc, hcs⟩ := not_or.1 (mt List.mem_cons.2 h)
    rw [List.cons_append, readFrom, if_neg (Ne.symm hc), ih hcs]
    simp

theorem readFrom_digits (h : i < twoPow 64) :
    readFrom (.indexing []) (natDigits i ++ ']' :: rest) = (readFrom .indexed rest).map (.index i :: ·) := by
  have hend : ']' ∉ natDigits i := not_mem_of_ascii (by decide) fun c hc => isAsciiDigit_of_mem_natDigits hc
  rw [readFrom_indexing hend, List.append_nil, readFrom, if_pos rfl, List.reverse_reverse, index?_natDigits h]
  cases readFrom .indexed rest <;> rfl

theorem named_reverse {s : String} (h : s ≠ "") : named s.toList.reverse = [.name s] := by
  rw [named, if_neg (by simpa using h), List.reverse_reverse, String.ofList_toList]

theorem readFrom_name {s : String} (hs : (PathStep.name s).Readable) :
    readFrom (.naming []) (s.toList ++ rest) = readFrom (.naming s.toList.reverse) rest := by
  rw [readFrom_naming hs.2.1 hs.2.2, List.append_nil]

theorem restChars_index : restChars (.index i :: es) = '[' :: (natDigits i ++ ']' :: restChars es) := by
  simp [restChars, indexChars]

theorem readFrom_indexed_bracket : readFrom .indexed ('[' :: cs) = readFrom (.indexing []) cs := by
  rw [readFrom, if_neg (by decide), if_pos rfl]

theorem readFrom_naming_bracket :
    readFrom (.naming read) ('[' :: cs) = (readFrom (.indexing []) cs).map (named read ++ ·) := by
  rw [readFrom, if_neg (by decide), if_pos rfl]

theorem readFrom_restChars (h : ∀ e ∈ es, e.Readable) : readFrom .indexed (restChars es) = some es ∧
    ∀ read, read ≠ [] → readFrom (.naming read) (restChars es) = some (named read ++ es) := by
  induction es with
  | nil =>
    refine ⟨rfl, fun read _ => ?_⟩
    rw [restChars, readFrom, List.append_nil]
  | cons e es ih =>
    obtain ⟨he, hes⟩ := List.forall_mem_cons.1 h
    obtain ⟨hindexed, hnaming⟩ := ih hes
    cases e with
    | name s =>
      have hne : s.toList.reverse ≠ [] := by simpa using he.1
      have hsome : (s.toList ++ restChars es).isEmpty = false := by simpa using fun hempty => absurd hempty he.1
      have hread : readFrom (.naming []) (s.toList ++ restChars es) = some (.name s :: es) := by
        rw [readFrom_name he, hnaming _ hne, named_reverse he.1]
        rfl
      constructor
      · rw [restChars, List.cons_append, readFrom, if_pos rfl, hsome]
        exact hread
      · intro read hne
        rw [restChars, List.cons_append, readFrom, if_pos rfl, hsome, List.isEmpty_eq_false_iff.2 hne, hread]
        rfl
    | index i =>
      have hread : readFrom (.indexing []) (natDigits i ++ ']' :: restChars es) = some (.index i :: es) := by
        rw [readFrom_digits he, hindexed]
        rfl
      rw [restChars_index]
      refine ⟨?_, fun read _ => ?_⟩
      · rw [readFrom_indexed_bracket, hread]
      · rw [readFrom_naming_bracket, hread]
        rfl

theorem parse?_text (hne : p.elements ≠ []) (h : ∀ e ∈ p.elements, e.Readable) : parse? p.text = some p := by
  have hread : readFrom (.naming []) p.chars = some p.elements := by
    obtain ⟨elements⟩ := p
    cases elements with
    | nil => exact absurd rfl hne
    | cons e es =>
      obtain ⟨he, hes⟩ := List.forall_mem_cons.1 h
      cases e with
      | name s =>
        have hs : s.toList.reverse ≠ [] := by simpa using he.1
        change readFrom (.naming []) (s.toList ++ restChars es) = _
        rw [readFrom_name he, (readFrom_restChars hes).2 _ hs, named_reverse he.1]
        rfl
      | index i =>
        change readFrom (.naming []) (restChars (.index i :: es)) = _
        rw [restChars_index, readFrom_naming_bracket, readFrom_digits he, (readFrom_restChars hes).1]
        rfl
  rw [parse?, text, String.toList_ofList, hread, Option.bind_eq_bind, Option.bind_some, if_neg (by simpa using hne)]
  rfl

theorem parse?_text_of_parse? (h : parse? text = some p) : parse? p.text = some p := by
  obtain ⟨hne, hsteps⟩ := readable_of_parse? h
  exact parse?_text hne hsteps

/-- A path with at least one step, of steps that a text can tell apart. -/
def Readable (p : DocumentPath) : Prop := p.elements ≠ [] ∧ ∀ e ∈ p.elements, e.Readable

theorem Readable.parse_text (h : p.Readable) : parse p.text = .ok p := parse_of_parse? (parse?_text h.1 h.2)

theorem parsed_iff : (∃ text, parse text = .ok p) ↔ p.Readable := by
  constructor
  · rintro ⟨text, h⟩
    exact readable_of_parse? (parse?_of_parse h)
  · intro h
    exact ⟨p.text, h.parse_text⟩

/-- The paths that are read from texts are the readable ones. Each of them is read back from its own text, so that no
two of them share one. -/
theorem parse_readable (p : DocumentPath) :
    ((∃ text, parse text = .ok p) ↔ p.Readable) ∧ (p.Readable → parse p.text = .ok p) ∧
    ∀ q : DocumentPath, (∃ text, parse text = .ok p) → (∃ text, parse text = .ok q) → p.text = q.text → p = q := by
  refine ⟨parsed_iff, Readable.parse_text, fun q hp hq htext => ?_⟩
  have hread : parse p.text = .ok p := (parsed_iff.1 hp).parse_text
  rw [htext, (parsed_iff.1 hq).parse_text] at hread
  exact (Except.ok.inj hread).symm

def thirdCell : DocumentPath := ⟨[.index 2, .name "row]", .index 10, .index 0, .name "b"]⟩

theorem thirdCell_parsed : thirdCell.text = "[2].row][10][0].b" ∧ parse thirdCell.text = .ok thirdCell := by
  have hreadable : thirdCell.Readable := by
    simp [Readable, thirdCell, PathStep.Readable]
  exact ⟨by decide +kernel, (parse_readable thirdCell).2.1 hreadable⟩

end DocumentPath

end ItemMapper
