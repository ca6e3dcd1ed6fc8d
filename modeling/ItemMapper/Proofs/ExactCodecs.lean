import ItemMapper.Payload.Members
import ItemMapper.Proofs.JsonTexts

/-!
# Exact codecs

A codec is exact on values of a kind if they are read back from their JSON. It is enough that the codecs of its parts
are exact: a member that is left out stands for what its absence does, and a record is read from the members that are
written for it, one after the other, as long as their keys differ.
-/

namespace ItemMapper

variable {α β : Type} {P : α → Prop}

/-- Values of a kind are read back from their JSON, which has a text of its own and is not null. -/
structure Codec.Exact (c : Codec α) (P : α → Prop) : Prop where
  read : ∀ x, P x → c.decode (c.encode x) = .ok x
  printable : ∀ x, P x → (c.encode x).Printable
  notNull : ∀ x, P x → c.encode x ≠ .null

def Entries.Distinct (P : α → Prop) (entries : List (String × α)) : Prop :=
  (Entries.keys entries).Nodup ∧ ∀ e ∈ entries, P e.2

def IsInt32 (i : Int) : Prop := -twoPow 31 ≤ i ∧ i ≤ twoPow 31 - 1

theorem Wire.toJson_printable (w : Wire) : w.toJson.Printable := by
  have hsingle {key : String} {j : Json} (h : j.Printable) : (Json.object [(key, j)]).Printable := by
    refine .object fun e he => ?_
    rw [List.mem_singleton.1 he]
    exact h
  induction w with
  | s t => exact hsingle (.string t)
  | n t => exact hsingle (.string t)
  | b bytes => exact hsingle (.string _)
  | ss ts => exact hsingle (.array (List.forall_mem_map.2 fun t _ => .string t))
  | ns ts => exact hsingle (.array (List.forall_mem_map.2 fun t _ => .string t))
  | bs ms => exact hsingle (.array (List.forall_mem_map.2 fun _ _ => .string _))
  | bool flag => exact hsingle (.bool flag)
  | null flag => exact hsingle (.bool flag)
  | l items ih =>
    rw [toJson, itemsToJson_eq]
    exact hsingle (.array (List.forall_mem_map.2 ih))
  | m entries ih =>
    rw [toJson, entriesToJson_eq]
    exact hsingle (.object (List.forall_mem_map.2 ih))

namespace Codec.Exact

theorem text : text.Exact fun _ => True := ⟨fun _ _ => rfl, fun s _ => .string s, fun _ _ => nofun⟩

theorem bool : bool.Exact fun _ => True := ⟨fun _ _ => rfl, fun b _ => .bool b, fun _ _ => nofun⟩

theorem int32 : int32.Exact IsInt32 where
  read _ h := if_pos h
  printable i h := by
    have hl : NumberReader.leastWord ≤ -twoPow 31 := by decide
    have hg : (twoPow 31 - 1 : Int) ≤ NumberReader.greatestWord := by decide
    refine .int ?_
    rw [NumberReader.isWord, Bool.and_eq_true, decide_eq_true_eq, decide_eq_true_eq]
    exact ⟨hl.trans h.1, h.2.trans hg⟩
  notNull _ _ := nofun

theorem float : float.Exact fun x => x.isFinite = true := ⟨fun _ _ => rfl, fun _ h => .float h, fun _ _ => nofun⟩

theorem wire : wire.Exact fun w => w.wellKeyed = true where
  read _ h := Wire.ofJson_toJson h
  printable w _ := w.toJson_printable
  notNull w _ := by cases w <;> exact nofun

theorem item : item.Exact Item.WellKeyed where
  read entries h := by
    obtain ⟨hkeys, hwell⟩ := Wire.wellKeyed_m.1 h
    have hread := Wire.entriesOfJson_entriesToJson fun e he => Wire.ofJson_toJson (hwell e he)
    change (Wire.entriesOfJson (Wire.entriesToJson entries)).map Entries.ofList = _
    rw [hread, Except.map, Entries.ofList_of_nodup hkeys]
  printable entries _ := by
    change (Json.object (Wire.entriesToJson entries)).Printable
    rw [Wire.entriesToJson_eq]
    exact .object (List.forall_mem_map.2 fun e _ => e.2.toJson_printable)
  notNull _ _ := nofun

theorem list {c : Codec α} (h : c.Exact P) : (list c).Exact fun xs => ∀ x ∈ xs, P x where
  read _ hxs := Outcome.mapM_eq_ok_iff.2
    (List.forall₂_map_left_iff.2 (List.forall₂_same.2 fun x hx => h.read x (hxs x hx)))
  printable _ hxs := .array (List.forall_mem_map.2 fun x hx => h.printable x (hxs x hx))
  notNull _ _ := nofun

theorem map {c : Codec α} (h : c.Exact P) : (map c).Exact (Entries.Distinct P) where
  read entries hentries := by
    have hread : (Entries.mapValues c.encode entries).mapM (fun e => (c.decode e.2).map fun x => (e.1, x)) =
        .ok entries := by
      refine Outcome.mapM_eq_ok_iff.2 (List.forall₂_map_left_iff.2 (List.forall₂_same.2 fun e he => ?_))
      dsimp only
      rw [h.read _ (hentries.2 e he)]
      rfl
    change ((Entries.mapValues c.encode entries).mapM (fun e => (c.decode e.2).map fun x => (e.1, x)) >>= _) = _
    rw [hread]
    exact congrArg Except.ok (Entries.ofList_of_nodup hentries.1)
  printable _ hentries := .object (List.forall_mem_map.2 fun e he => h.printable _ (hentries.2 e he))
  notNull _ _ := nofun

theorem names : (Codec.map Codec.text).Exact fun names => (Entries.keys names).Nodup where
  read names h := (map text).read names ⟨h, fun _ _ => trivial⟩
  printable names h := (map text).printable names ⟨h, fun _ _ => trivial⟩
  notNull _ _ := nofun

theorem values : (Codec.map Codec.wire).Exact Item.WellKeyed where
  read entries h := (map wire).read entries (Wire.wellKeyed_m.1 h)
  printable entries h := (map wire).printable entries (Wire.wellKeyed_m.1 h)
  notNull _ _ := nofun

theorem named [Named α] (h : ∀ x : α, ofName? (Named.name x) = some x) : (named α).Exact fun _ => True where
  read x _ := by
    simp only [Codec.named, h]
  printable _ _ := .string _
  notNull _ _ := nofun

end Codec.Exact

/-- What is written of a member is read back, and a value that is not written is what its absence stands for. -/
structure Member.Exact (m : Member α) (P : α → Prop) : Prop where
  written : ∀ x, P x → ∀ j, m.encode x = some j → m.decode j = .ok x ∧ j.Printable
  omitted : ∀ x, P x → m.encode x = none → m.absent = some x

namespace Member.Exact

variable {key : String} {c : Codec α}

theorem required (h : c.Exact P) : (required key c).Exact P where
  written x hx j hj := by
    obtain rfl := Option.some.inj hj
    exact ⟨h.read x hx, h.printable x hx⟩
  omitted _ _ := nofun

theorem defaulted {value : α} (h : c.Exact P) : (defaulted key c value).Exact P where
  written := by
    have hrequired : (Member.required key c).Exact P := required h
    exact hrequired.written
  omitted _ _ := nofun

theorem optional (h : c.Exact P) : (optional key c).Exact fun o => ∀ x ∈ o, P x where
  written o ho j hj := by
    cases o with
    | none => cases hj
    | some x =>
      obtain rfl := Option.some.inj hj
      have hx := ho x rfl
      refine ⟨?_, h.printable x hx⟩
      have hnull := h.notNull x hx
      have hread := h.read x hx
      generalize c.encode x = j at hnull hread
      cases j with
      | null => exact absurd rfl hnull
      | _ => exact congrArg (Except.map some) hread
  omitted o _ h := by
    cases o with
    | none => rfl
    | some x => cases h

theorem unbound (h : c.Exact fun _ => True) : (Member.optional key c).Exact fun _ => True := by
  have hoptional : (Member.optional key c).Exact fun o => ∀ x ∈ o, True := optional h
  exact ⟨fun o _ => hoptional.written o fun _ _ => trivial, fun o _ => hoptional.omitted o fun _ _ => trivial⟩

theorem sequence {c : Codec (List α)} {P : List α → Prop} (h : c.Exact P) : (sequence key c).Exact P where
  written xs hxs j hj := by
    obtain ⟨-, hj⟩ := Option.ite_none_left_eq_some.1 hj
    obtain rfl := Option.some.inj hj
    exact ⟨h.read xs hxs, h.printable xs hxs⟩
  omitted xs _ hj := by
    cases xs with
    | nil => rfl
    | cons x xs => cases hj

end Member.Exact

namespace RecordReader

variable {r : RecordReader α} {x : α} {f : α → β} {written : List (String × Json)}

def KeysDiffer (r : RecordReader α) : Prop := (Entries.keys r.checks).Nodup

instance : Decidable r.KeysDiffer := inferInstanceAs (Decidable (Entries.keys r.checks).Nodup)

/-- If its keys differ, a record is read from the members that are written for it, whatever others stand behind them, and
no check objects to one of these. -/
structure Reads (r : RecordReader α) (x : α) (written : List (String × Json)) : Prop where
  members : r.KeysDiffer → ∀ others, (∀ key ∈ Entries.keys others, key ∉ Entries.keys r.checks) →
    r.ofMembers (written ++ others) = .ok x
  checks : r.KeysDiffer → ∀ e ∈ written, ∃ check, Entries.get? e.1 r.checks = some check ∧ check e.2 = none
  printable : ∀ e ∈ written, e.2.Printable

theorem reads_make : (make x).Reads x [] := ⟨fun _ _ _ => rfl, by simp, by simp⟩

theorem keys_and {r : RecordReader (α → β)} {m : Member α} :
    Entries.keys (r.and m).checks = Entries.keys r.checks ++ [m.key] := by
  simp [RecordReader.and, Entries.keys]

theorem keysDiffer_and {r : RecordReader (α → β)} {m : Member α} :
    (r.and m).KeysDiffer ↔ r.KeysDiffer ∧ m.key ∉ Entries.keys r.checks := by
  rw [KeysDiffer, keys_and, List.nodup_append_comm, List.singleton_append, List.nodup_cons, and_comm]
  rfl

theorem Reads.key_mem (h : r.Reads x written) (hdiffer : r.KeysDiffer) {key : String}
    (hkey : key ∈ Entries.keys written) : key ∈ Entries.keys r.checks := by
  obtain ⟨e, he, rfl⟩ := List.mem_map.1 hkey
  obtain ⟨check, hcheck, -⟩ := h.checks hdiffer e he
  exact List.mem_map_of_mem (f := Prod.fst) (Entries.mem_of_get? hcheck)

theorem keys_write {m : Member α} {key : String} (h : key ∈ Entries.keys (m.write x)) : key = m.key := by
  obtain ⟨e, he, rfl⟩ := List.mem_map.1 h
  obtain ⟨j, -, rfl⟩ := Option.map_eq_some_iff.1 (Option.mem_toList.1 he)
  rfl

theorem get?_write {m : Member α} {before others : List (String × Json)} (hm : m.Exact P) (hx : P x)
    (hbefore : m.key ∉ Entries.keys before) (hothers : m.key ∉ Entries.keys others) :
    (∃ j, Entries.get? m.key (before ++ (m.write x ++ others)) = some j ∧ m.decode j = .ok x) ∨
    Entries.get? m.key (before ++ (m.write x ++ others)) = none ∧ m.absent = some x := by
  rw [Entries.get?_append, Entries.get?_eq_none_iff.2 hbefore, Option.none_or, Member.write]
  cases hj : m.encode x with
  | none => exact .inr ⟨Entries.get?_eq_none_iff.2 hothers, hm.omitted x hx hj⟩
  | some j => exact .inl ⟨j, if_pos rfl, (hm.written x hx j hj).1⟩

/-- A further member is read behind the ones before it. -/
theorem Reads.and {r : RecordReader (α → β)} {m : Member α} (h : r.Reads f written) (hm : m.Exact P) (hx : P x) :
    (r.and m).Reads (f x) (written ++ m.write x) where
  members hdiffer others hothers := by
    obtain ⟨hdiffer, hnew⟩ := keysDiffer_and.1 hdiffer
    rw [keys_and] at hothers
    have hrest : ∀ key ∈ Entries.keys (m.write x ++ others), key ∉ Entries.keys r.checks := fun key hkey => by
      rw [Entries.keys, List.map_append, List.mem_append] at hkey
      rcases hkey with hkey | hkey
      · rwa [keys_write hkey]
      · exact fun hold => hothers key hkey (List.mem_append_left _ hold)
    have hlast : m.key ∉ Entries.keys others := fun hkey => hothers _ hkey (List.mem_append_right _ List.mem_cons_self)
    have hfirst := h.members hdiffer _ hrest
    rw [List.append_assoc]
    obtain ⟨j, hj, hread⟩ | ⟨hnone, habsent⟩ := get?_write hm hx (fun hkey => hnew (h.key_mem hdiffer hkey)) hlast
    · simp only [RecordReader.and, hfirst, hj, hread]
      rfl
    · simp only [RecordReader.and, hfirst, hnone, habsent]
      rfl
  checks hdiffer e he := by
    obtain ⟨hdiffer, hnew⟩ := keysDiffer_and.1 hdiffer
    have hchecks : (r.and m).checks = r.checks ++ [(m.key, fun j => failure? (m.decode j))] := rfl
    rw [hchecks, Entries.get?_append]
    rcases List.mem_append.1 he with he | he
    · obtain ⟨check, hcheck, hpass⟩ := h.checks hdiffer e he
      exact ⟨check, by rw [hcheck, Option.some_or], hpass⟩
    · obtain ⟨j, hj, rfl⟩ := Option.map_eq_some_iff.1 (Option.mem_toList.1 he)
      refine ⟨fun j => failure? (m.decode j), ?_, congrArg failure? (hm.written x hx j hj).1⟩
      rw [Entries.get?_eq_none_iff.2 hnew, Option.none_or]
      exact if_pos rfl
  printable e he := by
    rcases List.mem_append.1 he with he | he
    · exact h.printable e he
    · obtain ⟨j, hj, rfl⟩ := Option.map_eq_some_iff.1 (Option.mem_toList.1 he)
      exact (hm.written x hx j hj).2

theorem Reads.decode (h : r.Reads x written) (hdiffer : r.KeysDiffer) : r.decode (.object written) = .ok x := by
  have hpass : r.firstFailure? written = none := by
    refine List.findSome?_eq_none_iff.2 fun e he => ?_
    obtain ⟨check, hcheck, hpass⟩ := h.checks hdiffer e he
    simp only [hcheck, Option.bind_some, hpass]
  have hread := h.members hdiffer [] (by simp [Entries.keys])
  rw [List.append_nil] at hread
  simp only [RecordReader.decode, hpass, hread]

end RecordReader

/-- A codec of records is exact if each record is read from what is written for it. -/
theorem Codec.Exact.record {c : Codec α} {r : RecordReader α} (hdecode : c.decode = r.decode) (hdiffer : r.KeysDiffer)
    (h : ∀ x, P x → ∃ written, c.encode x = .object written ∧ r.Reads x written) : c.Exact P where
  read x hx := by
    obtain ⟨written, hwritten, hreads⟩ := h x hx
    rw [hdecode, hwritten, hreads.decode hdiffer]
  printable x hx := by
    obtain ⟨written, hwritten, hreads⟩ := h x hx
    rw [hwritten]
    exact .object hreads.printable
  notNull x hx hnull := by
    obtain ⟨written, hwritten, -⟩ := h x hx
    rw [hwritten] at hnull
    cases hnull

end ItemMapper
