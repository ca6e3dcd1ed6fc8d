import ItemMapper.Proofs.Cuts
import ItemMapper.Proofs.Entries
import ItemMapper.Proofs.Outcomes
import ItemMapper.Schema.Lookup

/-!
# Patterns of paths

Paths that differ in their indices only share a pattern, and a walk does not look at the value of an index. If two
texts of one pattern are both well formed, they are read alike up to their indices, and so they lead to the same node.
-/

namespace ItemMapper

def PathStep.name? : PathStep → Option String
  | .name s => some s
  | .index _ => none

namespace Node

theorem step?_congr {n : Node} {d e : PathStep} (h : d.name? = e.name?) : n.step? d = n.step? e := by
  cases d with
  | name s =>
    cases e with
    | name t => rw [Option.some.inj h]
    | index j => cases h
  | index i =>
    cases e with
    | name t => cases h
    | index j => cases n <;> rfl

theorem walk_congr {n : Node} {ds es : List PathStep} (h : ds.map PathStep.name? = es.map PathStep.name?) :
    n.walk ds = n.walk es := by
  induction ds generalizing n es with
  | nil => rw [List.map_eq_nil_iff.1 h.symm]
  | cons d ds ih =>
    cases es with
    | nil => cases h
    | cons e es =>
      obtain ⟨hhead, htail⟩ := List.cons.inj h
      rw [walk, walk, step?_congr hhead]
      cases n.step? e with
      | none => rfl
      | some child => exact ih htail

end Node

/-- Of the ASCII characters just those from zero to nine are digits. -/
class LawfulDigitClass [DigitClass] : Prop where
  isDigit_ascii : ∀ c : Char, c.toNat < 128 → DigitClass.isDigit c = NumberReader.isAsciiDigit c

instance : LawfulDigitClass where
  isDigit_ascii c hc := by
    have hall : ∀ n : Fin 128, Text.isDecimalDigit (Char.ofNat n) = NumberReader.isAsciiDigit (Char.ofNat n) := by
      decide +kernel
    have hsame := hall ⟨c.toNat, hc⟩
    rwa [Char.ofNat_toNat] at hsame

namespace DocumentPath

open NumberReader Text

variable {c : Char} {cs rest read before t u : List Char} {i : Nat} {es fs : List PathStep}

theorem replaceIndices_skip [DigitClass] (cs rest : List Char) : replaceIndices cs.length (cs ++ rest) = replaceIndices 0 rest := by
  induction cs with
  | nil => rfl
  | cons c cs ih => exact ih

theorem replaceIndices_cons [DigitClass] (h : c ≠ '[') : replaceIndices 0 (c :: rest) = c :: replaceIndices 0 rest := by
  rw [replaceIndices]
  simp [h]

theorem replaceIndices_append [DigitClass] (h : '[' ∉ cs) (rest : List Char) :
    replaceIndices 0 (cs ++ rest) = cs ++ replaceIndices 0 rest := by
  induction cs with
  | nil => rfl
  | cons c cs ih =>
    obtain ⟨hc, hcs⟩ := not_or.1 (mt List.mem_cons.2 h)
    rw [List.cons_append, replaceIndices_cons (Ne.symm hc), ih hcs, List.cons_append]

theorem head?_replaceIndices [DigitClass] (cs : List Char) : (replaceIndices 0 cs).head? = cs.head? := by
  cases cs with
  | nil => rfl
  | cons c rest =>
    rw [replaceIndices]
    split
    · rename_i h
      rw [h.1]
      rfl
    · rfl

theorem isDigit_of_ascii [DigitClass] [LawfulDigitClass] (h : isAsciiDigit c = true) : DigitClass.isDigit c = true := by
  rw [LawfulDigitClass.isDigit_ascii c, h]
  rw [isAsciiDigit, Bool.and_eq_true, decide_eq_true_eq, decide_eq_true_eq] at h
  have hlast : '9'.toNat = 57 := rfl
  have hle : c.toNat ≤ '9'.toNat := h.2
  omega

theorem not_mem_of_ascii (hc : isAsciiDigit c = false) (h : ∀ d ∈ cs, isAsciiDigit d = true) : c ∉ cs := by
  intro hmem
  rw [h c hmem] at hc
  cases hc

theorem of_index? (h : index? cs = some i) :
    (cs ≠ [] ∧ ∀ c ∈ cs, isAsciiDigit c = true) ∨ ∃ ds, cs = '+' :: ds ∧ ∀ c ∈ ds, isAsciiDigit c = true := by
  have hdigits {ds : List Char} (h : ¬ (ds.isEmpty || !ds.all isAsciiDigit) = true) :
      ds ≠ [] ∧ ∀ c ∈ ds, isAsciiDigit c = true := by simpa using h
  by_cases hplus : ∃ ds, cs = '+' :: ds
  · obtain ⟨ds, rfl⟩ := hplus
    rw [index?] at h
    split at h
    · cases h
    · rename_i hnot
      exact .inr ⟨ds, rfl, (hdigits hnot).2⟩
  · rw [index?] at h
    · split at h
      · cases h
      · rename_i hnot
        exact .inl (hdigits hnot)
    · exact fun ds hds => hplus ⟨ds, hds⟩

theorem replaceIndices_index [DigitClass] [LawfulDigitClass] (h : index? cs = some i) : ∃ mark, ']' ∉ mark ∧
    ∀ rest, replaceIndices 0 ('[' :: (cs ++ ']' :: rest)) = '[' :: (mark ++ ']' :: replaceIndices 0 rest) := by
  rcases of_index? h with ⟨hne, hdigits⟩ | ⟨ds, rfl, hdigits⟩
  · refine ⟨['#'], by decide, fun rest => ?_⟩
    have hclose : DigitClass.isDigit ']' = false := LawfulDigitClass.isDigit_ascii ']' (by decide)
    have htake : (cs ++ ']' :: rest).takeWhile DigitClass.isDigit = cs := by
      rw [List.takeWhile_append_of_pos fun c hc => isDigit_of_ascii (hdigits c hc),
        List.takeWhile_cons_of_neg (by simp [hclose]), List.append_nil]
    have hskip : replaceIndices (cs.length + 1) (cs ++ ']' :: rest) = replaceIndices 0 rest := by
      have hskip := replaceIndices_skip (cs ++ [']']) rest
      rwa [List.length_append, List.append_assoc] at hskip
    rw [replaceIndices]
    simp only [htake, List.drop_left, List.head?_cons, hskip]
    rw [if_pos ⟨trivial, hne, trivial⟩]
    rfl
  · refine ⟨'+' :: ds, ?_, fun rest => ?_⟩
    · exact List.not_mem_cons_of_ne_of_not_mem (by decide) (not_mem_of_ascii (by decide) hdigits)
    · have hplain : '[' ∉ '+' :: ds ++ [']'] := by
        have hds : '[' ∉ ds := not_mem_of_ascii (by decide) hdigits
        simp [hds]
      have hcopy := replaceIndices_append hplain rest
      rw [List.append_assoc, List.append_assoc] at hcopy
      have hplus : DigitClass.isDigit '+' = false := LawfulDigitClass.isDigit_ascii '+' (by decide)
      have htake : ('+' :: ds ++ ']' :: rest).takeWhile DigitClass.isDigit = [] :=
        List.takeWhile_cons_of_neg (by simp [hplus])
      rw [replaceIndices]
      simp only [htake]
      rw [if_neg (by simp)]
      exact congrArg ('[' :: ·) hcopy

theorem of_indexing (h : readFrom (.indexing read) t = some es) : ∃ cs rest i fs, t = cs ++ ']' :: rest ∧
    index? (read.reverse ++ cs) = some i ∧ readFrom .indexed rest = some fs ∧ es = .index i :: fs := by
  induction t generalizing read with
  | nil => cases h
  | cons c rest ih =>
    rw [readFrom] at h
    by_cases hc : c = ']'
    · rw [if_pos hc] at h
      obtain ⟨i, hi, h⟩ := Option.bind_eq_some_iff.1 h
      obtain ⟨fs, hfs, h⟩ := Option.bind_eq_some_iff.1 h
      exact ⟨[], rest, i, fs, by rw [hc]; rfl, by rw [List.append_nil, hi], hfs, (Option.some.inj h).symm⟩
    · rw [if_neg hc] at h
      obtain ⟨cs, rest', i, fs, rfl, hi, hfs, rfl⟩ := ih h
      exact ⟨c :: cs, rest', i, fs, rfl, by rwa [List.reverse_cons, List.append_assoc] at hi, hfs, rfl⟩

theorem tail_eq_of_append {α : Type} {a : α} {x y v w : List α} (hx : a ∉ x) (hy : a ∉ y)
    (h : x ++ a :: v = y ++ a :: w) : v = w := by
  rcases List.append_eq_append_iff.1 h with ⟨z, rfl, hz⟩ | ⟨z, rfl, hz⟩
  · cases z with
    | nil => exact (List.cons.inj hz).2
    | cons b z =>
      obtain ⟨rfl, -⟩ := List.cons.inj hz
      simp at hy
  · cases z with
    | nil => exact (List.cons.inj hz).2.symm
    | cons b z =>
      obtain ⟨rfl, -⟩ := List.cons.inj hz
      simp at hx

theorem of_brackets [DigitClass] [LawfulDigitClass] (ht : readFrom (.indexing []) t = some es) (hu : readFrom (.indexing []) u = some fs)
    (h : replaceIndices 0 ('[' :: t) = replaceIndices 0 ('[' :: u)) :
    ∃ t' u' es' fs' i j, t'.length < t.length ∧ replaceIndices 0 t' = replaceIndices 0 u' ∧
      readFrom .indexed t' = some es' ∧ readFrom .indexed u' = some fs' ∧ es = .index i :: es' ∧
      fs = .index j :: fs' := by
  obtain ⟨cs, t', i, es', rfl, hi, hes, rfl⟩ := of_indexing ht
  obtain ⟨ds, u', j, fs', rfl, hj, hfs, rfl⟩ := of_indexing hu
  obtain ⟨mark, hmark, hreplace⟩ := replaceIndices_index hi
  obtain ⟨mark', hmark', hreplace'⟩ := replaceIndices_index hj
  rw [List.reverse_nil, List.nil_append] at hreplace hreplace'
  rw [hreplace, hreplace'] at h
  refine ⟨t', u', es', fs', i, j, ?_, tail_eq_of_append hmark hmark' (List.cons.inj h).2, hes, hfs, rfl, rfl⟩
  rw [List.length_append, List.length_cons]
  omega

namespace ReadState

def Outside : ReadState → Prop
  | indexing _ => False
  | _ => True

def next : ReadState → Char → ReadState
  | naming read, c => if c = '.' then naming [] else naming (c :: read)
  | _, _ => naming []

def completed : ReadState → Char → List PathStep
  | naming read, c => if c = '.' ∨ c = '[' then named read else []
  | _, _ => []

variable {state : ReadState}

theorem outside_next : (state.next c).Outside := by
  cases state with
  | naming read =>
    rw [next]
    split <;> trivial
  | indexing read => trivial
  | indexed => trivial

theorem of_bracket (hstate : state.Outside) (h : readFrom state ('[' :: t) = some es) :
    ∃ es', readFrom (.indexing []) t = some es' ∧ es = state.completed '[' ++ es' := by
  cases state with
  | naming read =>
    obtain ⟨es', hes, rfl⟩ := Option.map_eq_some_iff.1 h
    exact ⟨es', hes, rfl⟩
  | indexing read => exact hstate.elim
  | indexed => exact ⟨es, h, rfl⟩

theorem of_other (hstate : state.Outside) (hc : c ≠ '[') (h : readFrom state (c :: t) = some es) :
    ∃ es', readFrom (state.next c) t = some es' ∧ es = state.completed c ++ es' := by
  cases state with
  | naming read =>
    rw [readFrom] at h
    by_cases hpoint : c = '.'
    · rw [if_pos hpoint] at h
      split at h
      · cases h
      · obtain ⟨es', hes, rfl⟩ := Option.map_eq_some_iff.1 h
        exact ⟨es', by rwa [next, if_pos hpoint], by rw [completed, if_pos (.inl hpoint)]⟩
    · rw [if_neg hpoint, if_neg hc] at h
      exact ⟨es, by rwa [next, if_neg hpoint], by rw [completed, if_neg (not_or.2 ⟨hpoint, hc⟩), List.nil_append]⟩
  | indexing read => exact hstate.elim
  | indexed =>
    rw [readFrom, if_neg hc] at h
    split at h
    · split at h
      · cases h
      · exact ⟨es, h, rfl⟩
    · cases h

end ReadState

/-- Well-formed texts that are replaced alike are read alike. The induction is on the length of the first text, since an
index is passed over at once. -/
theorem names_eq_of_replaceIndices [DigitClass] [LawfulDigitClass] {state : ReadState} (hstate : state.Outside)
    (ht : readFrom state t = some es) (hu : readFrom state u = some fs) (h : replaceIndices 0 t = replaceIndices 0 u) :
    es.map PathStep.name? = fs.map PathStep.name? := by
  generalize hn : t.length = n
  induction n using Nat.strongRecOn generalizing state t u es fs with
  | ind n ih =>
    subst hn
    have hhead : t.head? = u.head? := by rw [← head?_replaceIndices, h, head?_replaceIndices]
    cases t with
    | nil =>
      obtain rfl := List.head?_eq_none_iff.1 hhead.symm
      rw [Option.some.inj (ht.symm.trans hu)]
    | cons c t =>
      obtain ⟨u, rfl⟩ := List.head?_eq_some_iff.1 hhead.symm
      by_cases hc : c = '['
      · subst hc
        obtain ⟨es, hes, rfl⟩ := ReadState.of_bracket hstate ht
        obtain ⟨fs, hfs, rfl⟩ := ReadState.of_bracket hstate hu
        obtain ⟨t', u', es', fs', i, j, hlt, hrest, hes', hfs', rfl, rfl⟩ := of_brackets hes hfs h
        have houtside : ReadState.indexed.Outside := trivial
        have hbehind := ih t'.length (Nat.lt_succ_of_lt hlt) houtside hes' hfs' hrest rfl
        rw [List.map_append, List.map_append, List.map_cons, List.map_cons, hbehind]
        rfl
      · rw [replaceIndices_cons hc, replaceIndices_cons hc] at h
        obtain ⟨es, hes, rfl⟩ := ReadState.of_other hstate hc ht
        obtain ⟨fs, hfs, rfl⟩ := ReadState.of_other hstate hc hu
        have hbehind := ih t.length (Nat.lt_succ_self _) ReadState.outside_next hes hfs (List.cons.inj h).2 rfl
        rw [List.map_append, List.map_append, hbehind]

theorem of_pattern [DigitClass] {text key : String} (h : pattern text = .ok key) : replaceIndices 0 text.toList = key.toList := by
  rw [pattern] at h
  split at h
  · cases h
  · rw [← Except.ok.inj h, String.toList_ofList]

theorem of_parse? {text : String} {p : DocumentPath} (h : parse? text = some p) :
    readFrom (.naming []) text.toList = some p.elements := by
  obtain ⟨es, hes, h⟩ := Option.bind_eq_some_iff.1 h
  split at h
  · cases h
  · rw [hes, ← Option.some.inj h]

theorem walk_eq_of_pattern [DigitClass] [LawfulDigitClass] {n : Node} {text other key : String} {p q : DocumentPath} (hp : parse? text = some p)
    (hq : parse? other = some q) (htext : pattern text = .ok key) (hother : pattern other = .ok key) :
    n.walk p.elements = n.walk q.elements := by
  have hreplace : replaceIndices 0 text.toList = replaceIndices 0 other.toList := by
    rw [of_pattern htext, of_pattern hother]
  have houtside : (ReadState.naming []).Outside := trivial
  exact Node.walk_congr (names_eq_of_replaceIndices houtside (of_parse? hp) (of_parse? hq) hreplace)

theorem plain_of_readFrom {name : String} (h : readFrom (.naming read) cs = some [.name name])
    (hname : name.toList = read.reverse ++ cs) : '.' ∉ cs ∧ '[' ∉ cs := by
  induction cs generalizing read with
  | nil => simp
  | cons c rest ih =>
    -- A name that ended here would be shorter than the whole one.
    have hempty {es : List PathStep} (he : named read ++ es = [.name name]) : read = [] := by
      cases read with
      | nil => rfl
      | cons d read =>
        have hlength := congrArg List.length hname
        rw [← PathStep.name.inj (List.cons.inj he).1, String.toList_ofList] at hlength
        simp at hlength
    rw [readFrom] at h
    by_cases hpoint : c = '.'
    · rw [if_pos hpoint] at h
      split at h
      · cases h
      · rename_i hnot
        obtain ⟨es, -, he⟩ := Option.map_eq_some_iff.1 h
        rw [hempty he] at hnot
        exact absurd rfl hnot
    · rw [if_neg hpoint] at h
      by_cases hbracket : c = '['
      · rw [if_pos hbracket] at h
        obtain ⟨es, hes, he⟩ := Option.map_eq_some_iff.1 h
        obtain ⟨_, _, i, fs, -, -, -, rfl⟩ := of_indexing hes
        rw [hempty he] at he
        cases he
      · rw [if_neg hbracket] at h
        obtain ⟨hp, hb⟩ := ih h (by rw [hname, List.reverse_cons, List.append_assoc]; rfl)
        exact ⟨List.not_mem_cons_of_ne_of_not_mem (Ne.symm hpoint) hp,
          List.not_mem_cons_of_ne_of_not_mem (Ne.symm hbracket) hb⟩

theorem plain_of_parse? {name : String} (h : parse? name = some (.field name)) :
    '.' ∉ name.toList ∧ '[' ∉ name.toList :=
  plain_of_readFrom (of_parse? h) rfl

theorem bracket_mem_replaceIndices [DigitClass] (h : '[' ∈ cs) : '[' ∈ replaceIndices 0 cs := by
  obtain ⟨before, behind, rfl, hbefore⟩ := List.eq_append_cons_of_mem h
  rw [replaceIndices_append hbefore]
  exact List.mem_append_right _ (List.mem_of_mem_head? (head?_replaceIndices ('[' :: behind)))

theorem replaceIndices_eq_self [DigitClass] (h : '[' ∉ cs) : replaceIndices 0 cs = cs := by
  have happend := replaceIndices_append h []
  rwa [replaceIndices, List.append_nil] at happend

theorem eq_of_pattern [DigitClass] {text name : String} (h : pattern text = .ok name) (hname : '[' ∉ name.toList) : text = name := by
  have hreplace := of_pattern h
  have hplain : '[' ∉ text.toList := fun hmem => hname (hreplace ▸ bracket_mem_replaceIndices hmem)
  rw [replaceIndices_eq_self hplain] at hreplace
  exact String.toList_injective hreplace

theorem pattern_of_plain [DigitClass] {name : String} (h : '[' ∉ name.toList) : pattern name = .ok name := by
  have hcontains : Text.contains ['[', '#', ']'] name.toList = false := by
    rw [Bool.eq_false_iff, Ne, Text.contains_iff (by decide)]
    exact fun hinside => h (hinside.subset List.mem_cons_self)
  rw [pattern, hcontains, replaceIndices_eq_self h, String.ofList_toList]
  rfl

theorem eq_field_of_text {p : DocumentPath} {name : String} (h : parse? name = some (.field name))
    (hp : p.text = name) : p = .field name := by
  obtain ⟨hpoint, hbracket⟩ := plain_of_parse? h
  have hchars : p.chars = name.toList := by rw [← hp, text, String.toList_ofList]
  obtain ⟨elements⟩ := p
  rw [← hchars] at hpoint hbracket
  cases elements with
  | nil =>
    obtain rfl : name = "" := hp.symm
    cases h
  | cons e rest =>
    cases e with
    | index i => exact absurd List.mem_cons_self hbracket
    | name s =>
      cases rest with
      | nil =>
        have hname : s.toList = name.toList := by simpa [chars, restChars] using hchars
        rw [String.toList_injective hname]
        rfl
      | cons e rest =>
        cases e with
        | name s' => exact absurd (List.mem_append_right _ List.mem_cons_self) hpoint
        | index i => exact absurd (List.mem_append_right _ List.mem_cons_self) hbracket

end DocumentPath

end ItemMapper
