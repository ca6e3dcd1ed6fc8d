import ItemMapper.Proofs.Base64Texts
import ItemMapper.Proofs.Outcomes
import ItemMapper.Proofs.WireEquality
import ItemMapper.Wire.Json

/-!
# Wire values and their JSON

Reading accepts exactly what writing produces. A wire value is read back from its JSON, and the JSON of which a value is
read is the one that is written for it: an object of one member, named for the kind, whose payload has the shape of the
kind.
-/

namespace ItemMapper

namespace Json

@[induction_eliminator]
theorem induct {P : Json → Prop} (null : P null) (bool : ∀ flag, P (bool flag)) (int : ∀ i, P (int i))
    (float : ∀ x, P (float x)) (string : ∀ text, P (string text)) (array : ∀ items, (∀ j ∈ items, P j) → P (array items))
    (object : ∀ members, (∀ e ∈ members, P e.2) → P (object members)) (j : Json) : P j := by
  refine Json.rec (motive_1 := P) (motive_2 := fun items => ∀ j ∈ items, P j)
    (motive_3 := fun members => ∀ e ∈ members, P e.2) (motive_4 := fun e => P e.2)
    null bool int float string array object ?_ ?_ ?_ ?_ ?_ j
  · simp
  · intro j rest hj hrest
    exact List.forall_mem_cons.2 ⟨hj, hrest⟩
  · simp
  · intro e rest he hrest
    exact List.forall_mem_cons.2 ⟨he, hrest⟩
  · intro _ _ h
    exact h

mutual

def wellKeyed : Json → Bool
  | .object members => decide (Entries.keys members).Nodup && membersWellKeyed members
  | .array items => itemsWellKeyed items
  | _ => true

def itemsWellKeyed : List Json → Bool
  | [] => true
  | j :: rest => wellKeyed j && itemsWellKeyed rest

def membersWellKeyed : List (String × Json) → Bool
  | [] => true
  | (_, j) :: rest => wellKeyed j && membersWellKeyed rest

end

theorem itemsWellKeyed_iff {items : List Json} : itemsWellKeyed items = true ↔ ∀ j ∈ items, j.wellKeyed = true := by
  induction items with
  | nil => simp [itemsWellKeyed]
  | cons j rest ih => simp [itemsWellKeyed, ih]

theorem membersWellKeyed_iff {members : List (String × Json)} :
    membersWellKeyed members = true ↔ ∀ e ∈ members, e.2.wellKeyed = true := by
  induction members with
  | nil => simp [membersWellKeyed]
  | cons e rest ih => simp [membersWellKeyed, ih]

theorem wellKeyed_single {key : String} {j : Json} : (object [(key, j)]).wellKeyed = j.wellKeyed := by
  simp [wellKeyed, membersWellKeyed, Entries.keys]

theorem wellKeyed_array {items : List Json} : (array items).wellKeyed = true ↔ ∀ j ∈ items, j.wellKeyed = true := by
  rw [wellKeyed, itemsWellKeyed_iff]

theorem wellKeyed_object {members : List (String × Json)} :
    (object members).wellKeyed = true ↔ (Entries.keys members).Nodup ∧ ∀ e ∈ members, e.2.wellKeyed = true := by
  rw [wellKeyed, Bool.and_eq_true, decide_eq_true_eq, membersWellKeyed_iff]

section

variable [ByteTexts]

mutual

/-- An object of one member, named for the kind of its payload. -/
inductive Tagged : Json → Prop
  | of {k : Kind} {j : Json} (h : Payload k j) : Tagged (.object [(k.name, j)])

inductive Payload : Kind → Json → Prop
  | s (text : String) : Payload .s (.string text)
  | n (digits : String) : Payload .n (.string digits)
  | b (bytes : List UInt8) : Payload .b (.string (ByteTexts.write bytes))
  | ss (texts : List String) : Payload .ss (.array (texts.map .string))
  | ns (numbers : List String) : Payload .ns (.array (numbers.map .string))
  | bs (members : List (List UInt8)) : Payload .bs (.array (members.map fun bytes => .string (ByteTexts.write bytes)))
  | bool (flag : Bool) : Payload .bool (.bool flag)
  | null (flag : Bool) : Payload .null (.bool flag)
  | l {items : List Json} (h : ∀ j ∈ items, Tagged j) : Payload .l (.array items)
  | m {members : List (String × Json)} (h : ∀ e ∈ members, Tagged e.2) : Payload .m (.object members)

end

theorem Tagged.length_members {members : List (String × Json)} (h : (object members).Tagged) : members.length = 1 := by
  cases h
  rfl

end

end Json

theorem Entries.ofList_of_nodup {α : Type} {entries : List (String × α)} (h : (Entries.keys entries).Nodup) :
    Entries.ofList entries = entries := by
  have hnil : (Entries.keys ([] : List (String × α))).Nodup := List.nodup_nil
  have hinsert := Entries.foldl_insert hnil h
  rw [List.map_nil, List.nil_append] at hinsert
  refine hinsert.trans (List.filter_eq_self.2 fun e _ => ?_)
  simp [Entries.has, Entries.get?]

namespace Wire

variable {w : Wire} {key : String} {j : Json} {items : List Wire} {entries : List (String × Wire)}

theorem text_list (texts : List String) : Decoded.list Decoded.text (.array (texts.map .string)) = .ok texts := by
  refine Outcome.mapM_eq_ok_iff.2 (List.forall₂_map_left_iff.2 (List.forall₂_same.2 fun _ _ => rfl))

theorem of_text {text : String} (h : Decoded.text j = .ok text) : j = .string text := by
  cases j with
  | string s => exact congrArg Json.string (Except.ok.inj h)
  | _ => cases h

theorem of_bool {flag : Bool} (h : Decoded.bool j = .ok flag) : j = .bool flag := by
  cases j with
  | bool b => exact congrArg Json.bool (Except.ok.inj h)
  | _ => cases h

theorem of_list {α : Type} {item : Json → Decoded α} {write : α → Json} {xs : List α}
    (hitem : ∀ j x, item j = .ok x → j = write x) (h : Decoded.list item j = .ok xs) : j = .array (xs.map write) := by
  cases j with
  | array items =>
    have hwritten := Outcome.map_of_mapM (g := write) (k := id) h fun j x hx => (hitem j x hx).symm
    rw [hwritten, List.map_id]
  | _ => cases h

section

variable [ByteTexts]

theorem itemsToJson_eq : itemsToJson items = items.map toJson := by
  induction items with
  | nil => rfl
  | cons w rest ih => rw [itemsToJson, ih, List.map_cons]

theorem entriesToJson_eq : entriesToJson entries = entries.map fun e => (e.1, e.2.toJson) := by
  induction entries with
  | nil => rfl
  | cons e rest ih => rw [entriesToJson, ih, List.map_cons]

theorem itemsOfJson_itemsToJson (h : ∀ w ∈ items, ofJson w.toJson = .ok w) : itemsOfJson (itemsToJson items) = .ok items := by
  induction items with
  | nil => rfl
  | cons w rest ih =>
    obtain ⟨hw, hrest⟩ := List.forall_mem_cons.1 h
    rw [itemsToJson, itemsOfJson, hw, ih hrest]
    rfl

theorem entriesOfJson_entriesToJson (h : ∀ e ∈ entries, ofJson e.2.toJson = .ok e.2) :
    entriesOfJson (entriesToJson entries) = .ok entries := by
  induction entries with
  | nil => rfl
  | cons e rest ih =>
    obtain ⟨he, hrest⟩ := List.forall_mem_cons.1 h
    rw [entriesToJson, entriesOfJson, he, ih hrest]
    rfl

theorem bytes_text [LawfulByteTexts] (bytes : List UInt8) : Decoded.bytes (.string (ByteTexts.write bytes)) = .ok bytes := by
  rw [Decoded.bytes, LawfulByteTexts.read_write]

theorem bytes_list [LawfulByteTexts] (members : List (List UInt8)) :
    Decoded.list Decoded.bytes (.array (members.map fun bytes => .string (ByteTexts.write bytes))) = .ok members := by
  refine Outcome.mapM_eq_ok_iff.2 (List.forall₂_map_left_iff.2 (List.forall₂_same.2 fun bytes _ => bytes_text bytes))

theorem ofJson_single : ofJson (.object [(key, j)]) = ofPayload key j := by
  rw [ofJson]
  cases ofPayload key j <;> rfl

theorem ofPayload_of_flat? {r : Decoded Wire} (h : flat? key j = some r) : ofPayload key j = r := by
  have hl : key ≠ "L" := by
    rintro rfl
    cases h
  have hm : key ≠ "M" := by
    rintro rfl
    cases h
  cases j <;> simp [ofPayload, hl, hm, h]

theorem ofJson_of_flat? {r : Decoded Wire} (h : flat? key j = some r) : ofJson (.object [(key, j)]) = r := by
  rw [ofJson_single, ofPayload_of_flat? h]

theorem ofJson_toJson [LawfulByteTexts] (h : w.wellKeyed = true) : ofJson w.toJson = .ok w := by
  induction w with
  | s t => rfl
  | n t => rfl
  | b bytes => exact ofJson_of_flat? (congrArg (some <| Except.map b ·) (bytes_text bytes))
  | ss ts => exact ofJson_of_flat? (congrArg (some <| Except.map ss ·) (text_list ts))
  | ns ts => exact ofJson_of_flat? (congrArg (some <| Except.map ns ·) (text_list ts))
  | bs ms => exact ofJson_of_flat? (congrArg (some <| Except.map bs ·) (bytes_list ms))
  | bool flag => rfl
  | null flag => rfl
  | l items ih =>
    have hitems := itemsOfJson_itemsToJson fun w hw => ih w hw (wellKeyed_l.1 h w hw)
    rw [toJson, ofJson_single, ofPayload, if_pos rfl, hitems]
    rfl
  | m entries ih =>
    obtain ⟨hkeys, hwell⟩ := wellKeyed_m.1 h
    have hentries := entriesOfJson_entriesToJson fun e he => ih e he (hwell e he)
    rw [toJson, ofJson_single, ofPayload, if_pos rfl, hentries, Except.map, Entries.ofList_of_nodup hkeys]

/-- The value has distinct keys and is written as this JSON, which has the shape of a wire value. -/
structure WrittenAs (w : Wire) (j : Json) : Prop where
  wellKeyed : w.wellKeyed = true
  toJson : w.toJson = j
  tagged : j.Tagged

theorem of_bytes [LawfulByteTexts] {bytes : List UInt8} (h : Decoded.bytes j = .ok bytes) : j = .string (ByteTexts.write bytes) := by
  cases j with
  | string s =>
    rw [Decoded.bytes] at h
    split at h
    · rename_i bs hbs
      rw [← Except.ok.inj h, LawfulByteTexts.write_of_read _ _ hbs]
    · cases h
  | _ => cases h

theorem of_flat? [LawfulByteTexts] (h : flat? key j = some (.ok w)) : w.WrittenAs (.object [(key, j)]) := by
  unfold flat? at h
  split at h
  · obtain ⟨text, htext, rfl⟩ := Outcome.of_map (Option.some.inj h)
    obtain rfl := of_text htext
    exact ⟨rfl, rfl, .of (k := .s) (.s text)⟩
  · obtain ⟨text, htext, rfl⟩ := Outcome.of_map (Option.some.inj h)
    obtain rfl := of_text htext
    exact ⟨rfl, rfl, .of (k := .n) (.n text)⟩
  · obtain ⟨bytes, hbytes, rfl⟩ := Outcome.of_map (Option.some.inj h)
    obtain rfl := of_bytes hbytes
    exact ⟨rfl, rfl, .of (k := .b) (.b bytes)⟩
  · obtain ⟨texts, htexts, rfl⟩ := Outcome.of_map (Option.some.inj h)
    obtain rfl := of_list (fun _ _ => of_text) htexts
    exact ⟨rfl, rfl, .of (k := .ss) (.ss texts)⟩
  · obtain ⟨texts, htexts, rfl⟩ := Outcome.of_map (Option.some.inj h)
    obtain rfl := of_list (fun _ _ => of_text) htexts
    exact ⟨rfl, rfl, .of (k := .ns) (.ns texts)⟩
  · obtain ⟨members, hmembers, rfl⟩ := Outcome.of_map (Option.some.inj h)
    obtain rfl := of_list (fun _ _ => of_bytes) hmembers
    exact ⟨rfl, rfl, .of (k := .bs) (.bs members)⟩
  · obtain ⟨flag, hflag, rfl⟩ := Outcome.of_map (Option.some.inj h)
    obtain rfl := of_bool hflag
    exact ⟨rfl, rfl, .of (k := .bool) (.bool flag)⟩
  · obtain ⟨flag, hflag, rfl⟩ := Outcome.of_map (Option.some.inj h)
    obtain rfl := of_bool hflag
    exact ⟨rfl, rfl, .of (k := .null) (.null flag)⟩
  · cases h

theorem of_itemsOfJson {js : List Json} {ws : List Wire} (h : itemsOfJson js = .ok ws)
    (hjs : ∀ j ∈ js, ∀ w, ofJson j = .ok w → w.WrittenAs j) : List.Forall₂ (fun w j => w.WrittenAs j) ws js := by
  induction js generalizing ws with
  | nil =>
    cases h
    exact .nil
  | cons j rest ih =>
    obtain ⟨hj, hrest⟩ := List.forall_mem_cons.1 hjs
    obtain ⟨w, hw, h⟩ := Outcome.of_bind h
    obtain ⟨ws, hws, h⟩ := Outcome.of_bind h
    cases h
    exact .cons (hj w hw) (ih hws hrest)

theorem of_entriesOfJson {members : List (String × Json)} {es : List (String × Wire)} (h : entriesOfJson members = .ok es)
    (hmembers : ∀ e ∈ members, ∀ w, ofJson e.2 = .ok w → w.WrittenAs e.2) :
    List.Forall₂ (fun e f => e.1 = f.1 ∧ e.2.WrittenAs f.2) es members := by
  induction members generalizing es with
  | nil =>
    cases h
    exact .nil
  | cons e rest ih =>
    obtain ⟨he, hrest⟩ := List.forall_mem_cons.1 hmembers
    obtain ⟨w, hw, h⟩ := Outcome.of_bind h
    obtain ⟨es, hes, h⟩ := Outcome.of_bind h
    cases h
    exact .cons ⟨rfl, he w hw⟩ (ih hes hrest)

theorem l_writtenAs {ws : List Wire} {js : List Json} (h : List.Forall₂ (fun w j => w.WrittenAs j) ws js) :
    (l ws).WrittenAs (.object [("L", .array js)]) := by
  have hparts : (∀ w ∈ ws, w.wellKeyed = true) ∧ ws.map toJson = js ∧ ∀ j ∈ js, j.Tagged := by
    induction h with
    | nil => simp
    | cons hw _ ih =>
      obtain ⟨hwell, hwritten, htagged⟩ := ih
      refine ⟨List.forall_mem_cons.2 ⟨hw.wellKeyed, hwell⟩, ?_, List.forall_mem_cons.2 ⟨hw.tagged, htagged⟩⟩
      rw [List.map_cons, hw.toJson, hwritten]
  refine ⟨wellKeyed_l.2 hparts.1, ?_, .of (k := .l) (.l hparts.2.2)⟩
  rw [toJson, itemsToJson_eq, hparts.2.1]

theorem m_writtenAs {es : List (String × Wire)} {members : List (String × Json)}
    (h : List.Forall₂ (fun e f => e.1 = f.1 ∧ e.2.WrittenAs f.2) es members) (hkeys : (Entries.keys members).Nodup) :
    (m (Entries.ofList es)).WrittenAs (.object [("M", .object members)]) := by
  have hparts : Entries.keys es = Entries.keys members ∧ (∀ e ∈ es, e.2.wellKeyed = true) ∧
      es.map (fun e => (e.1, e.2.toJson)) = members ∧ ∀ e ∈ members, e.2.Tagged := by
    clear hkeys
    induction h with
    | nil => simp [Entries.keys]
    | cons he _ ih =>
      obtain ⟨hkeys, hwell, hwritten, htagged⟩ := ih
      refine ⟨congrArg₂ List.cons he.1 hkeys, List.forall_mem_cons.2 ⟨he.2.wellKeyed, hwell⟩, ?_,
        List.forall_mem_cons.2 ⟨he.2.tagged, htagged⟩⟩
      rw [List.map_cons, he.1, he.2.toJson, hwritten]
  obtain ⟨hsame, hwell, hwritten, htagged⟩ := hparts
  rw [← hsame] at hkeys
  rw [Entries.ofList_of_nodup hkeys]
  refine ⟨wellKeyed_m.2 ⟨hkeys, hwell⟩, ?_, .of (k := .m) (.m htagged)⟩
  rw [toJson, entriesToJson_eq, hwritten]

theorem of_getD [LawfulByteTexts] {e : DecodeError} (h : (flat? key j).getD (.error e) = .ok w) : w.WrittenAs (.object [(key, j)]) := by
  cases hflat : flat? key j with
  | none =>
    rw [hflat] at h
    cases h
  | some r =>
    rw [hflat] at h
    exact of_flat? (hflat.trans (congrArg some h))

theorem of_scalar [LawfulByteTexts] {e : DecodeError}
    (h : (if key = "L" ∨ key = "M" then .error .malformed else (flat? key j).getD (.error e)) = Except.ok w) :
    w.WrittenAs (.object [(key, j)]) := by
  split at h
  · cases h
  · exact of_getD h

/-- The value that is read of some JSON is written as this JSON. The two halves go by turns: JSON has a payload, and a
payload has JSON in it. -/
theorem writtenAs_of_read [LawfulByteTexts] (j : Json) (hj : j.wellKeyed = true) :
    (∀ w, ofJson j = .ok w → w.WrittenAs j) ∧ ∀ key w, ofPayload key j = .ok w → w.WrittenAs (.object [(key, j)]) := by
  induction j with
  | null => exact ⟨fun _ h => (nomatch h), fun _ _ h => of_scalar h⟩
  | bool flag => exact ⟨fun _ h => (nomatch h), fun _ _ h => of_scalar h⟩
  | int i => exact ⟨fun _ h => (nomatch h), fun _ _ h => of_scalar h⟩
  | float x => exact ⟨fun _ h => (nomatch h), fun _ _ h => of_scalar h⟩
  | string text => exact ⟨fun _ h => (nomatch h), fun _ _ h => of_scalar h⟩
  | array items ih =>
    rw [Json.wellKeyed_array] at hj
    refine ⟨fun _ h => (nomatch h), fun key w h => ?_⟩
    rw [ofPayload] at h
    split at h
    · rename_i hkey
      obtain ⟨ws, hws, rfl⟩ := Outcome.of_map h
      rw [hkey]
      exact l_writtenAs (of_itemsOfJson hws fun j hmem => (ih j hmem (hj j hmem)).1)
    split at h
    · cases h
    · exact of_getD h
  | object members ih =>
    obtain ⟨hkeys, hwell⟩ := Json.wellKeyed_object.1 hj
    constructor
    · intro w h
      rcases members with _ | ⟨⟨key, payload⟩, rest⟩
      · cases h
      · rw [ofJson] at h
        cases hpayload : ofPayload key payload with
        | error e =>
          rw [hpayload] at h
          cases h
        | ok w' =>
          rw [hpayload] at h
          dsimp only at h
          split at h
          · rename_i hrest
            obtain rfl := Except.ok.inj h
            obtain rfl := List.isEmpty_iff.1 hrest
            exact (ih (key, payload) List.mem_cons_self (hwell _ List.mem_cons_self)).2 key w' hpayload
          · cases h
    · intro key w h
      rw [ofPayload] at h
      split at h
      · rename_i hkey
        obtain ⟨es, hes, rfl⟩ := Outcome.of_map h
        rw [hkey]
        exact m_writtenAs (of_entriesOfJson hes fun e hmem => (ih e hmem (hwell e hmem)).1) hkeys
      split at h
      · cases h
      · exact of_getD h

theorem itemsOfJson_ok {js : List Json} (h : ∀ j ∈ js, ∃ w, ofJson j = .ok w) : ∃ ws, itemsOfJson js = .ok ws := by
  induction js with
  | nil => exact ⟨[], rfl⟩
  | cons j rest ih =>
    obtain ⟨⟨w, hw⟩, hrest⟩ := List.forall_mem_cons.1 h
    obtain ⟨ws, hws⟩ := ih hrest
    refine ⟨w :: ws, ?_⟩
    rw [itemsOfJson, hw, hws]
    rfl

theorem entriesOfJson_ok {members : List (String × Json)} (h : ∀ e ∈ members, ∃ w, ofJson e.2 = .ok w) :
    ∃ es, entriesOfJson members = .ok es := by
  induction members with
  | nil => exact ⟨[], rfl⟩
  | cons e rest ih =>
    obtain ⟨⟨w, hw⟩, hrest⟩ := List.forall_mem_cons.1 h
    obtain ⟨es, hes⟩ := ih hrest
    refine ⟨(e.1, w) :: es, ?_⟩
    rw [entriesOfJson, hw, hes]
    rfl

theorem ofPayload_ok [LawfulByteTexts] {k : Kind} (h : Json.Payload k j)
    (hitems : ∀ js, j = .array js → ∀ i ∈ js, i.Tagged → ∃ w, ofJson i = .ok w)
    (hmembers : ∀ es, j = .object es → ∀ e ∈ es, e.2.Tagged → ∃ w, ofJson e.2 = .ok w) :
    ∃ w, ofPayload k.name j = .ok w := by
  cases h with
  | s text => exact ⟨.s text, rfl⟩
  | n digits => exact ⟨.n digits, rfl⟩
  | b bytes => exact ⟨.b bytes, ofPayload_of_flat? (congrArg (some <| Except.map b ·) (bytes_text bytes))⟩
  | ss texts => exact ⟨.ss texts, ofPayload_of_flat? (congrArg (some <| Except.map ss ·) (text_list texts))⟩
  | ns numbers => exact ⟨.ns numbers, ofPayload_of_flat? (congrArg (some <| Except.map ns ·) (text_list numbers))⟩
  | bs members => exact ⟨.bs members, ofPayload_of_flat? (congrArg (some <| Except.map bs ·) (bytes_list members))⟩
  | bool flag => exact ⟨.bool flag, rfl⟩
  | null flag => exact ⟨.null flag, rfl⟩
  | l htagged =>
    obtain ⟨ws, hws⟩ := itemsOfJson_ok fun i hi => hitems _ rfl i hi (htagged i hi)
    refine ⟨.l ws, ?_⟩
    rw [Kind.name, ofPayload, if_pos rfl, hws, Except.map]
  | m htagged =>
    obtain ⟨es, hes⟩ := entriesOfJson_ok fun e he => hmembers _ rfl e he (htagged e he)
    refine ⟨.m (Entries.ofList es), ?_⟩
    rw [Kind.name, ofPayload, if_pos rfl, hes, Except.map]

theorem read_of_shape [LawfulByteTexts] (j : Json) :
    (j.Tagged → ∃ w, ofJson j = .ok w) ∧ ∀ k, Json.Payload k j → ∃ w, ofPayload k.name j = .ok w := by
  induction j with
  | array items ih =>
    refine ⟨fun h => (nomatch h), fun k h => ofPayload_ok h (fun _ e i hi => ?_) (fun _ e => (nomatch e))⟩
    cases e
    exact (ih i hi).1
  | object members ih =>
    constructor
    · rintro ⟨hpayload⟩
      rw [ofJson_single]
      exact (ih _ List.mem_cons_self).2 _ hpayload
    · refine fun k h => ofPayload_ok h (fun _ e => (nomatch e)) (fun _ e m hm => ?_)
      cases e
      exact (ih m hm).1
  | _ => exact ⟨fun h => (nomatch h), fun k h => ofPayload_ok h (fun _ e => (nomatch e)) (fun _ e => (nomatch e))⟩

theorem toJson_wellKeyed (h : w.wellKeyed = true) : w.toJson.wellKeyed = true := by
  induction w with
  | s t => rfl
  | n t => rfl
  | b bytes => rfl
  | ss ts =>
    rw [toJson, Json.wellKeyed_single, Json.wellKeyed_array]
    exact List.forall_mem_map.2 fun _ _ => rfl
  | ns ts =>
    rw [toJson, Json.wellKeyed_single, Json.wellKeyed_array]
    exact List.forall_mem_map.2 fun _ _ => rfl
  | bs ms =>
    rw [toJson, Json.wellKeyed_single, Json.wellKeyed_array]
    exact List.forall_mem_map.2 fun _ _ => rfl
  | bool flag => rfl
  | null flag => rfl
  | l items ih =>
    rw [toJson, Json.wellKeyed_single, Json.wellKeyed_array, itemsToJson_eq]
    exact List.forall_mem_map.2 fun w hw => ih w hw (wellKeyed_l.1 h w hw)
  | m entries ih =>
    obtain ⟨hkeys, hwell⟩ := wellKeyed_m.1 h
    have hsame : Entries.keys (entries.map fun e => (e.1, e.2.toJson)) = Entries.keys entries := by
      rw [Entries.keys, List.map_map]
      rfl
    rw [toJson, Json.wellKeyed_single, Json.wellKeyed_object, entriesToJson_eq, hsame]
    exact ⟨hkeys, List.forall_mem_map.2 fun e he => ih e he (hwell e he)⟩

/-- Over wire values and JSON whose objects have distinct keys, reading and writing are inverse to each other, and what is
read is the JSON that has the shape of a wire value. -/
theorem ofJson_bijective [LawfulByteTexts] :
    (∀ w : Wire, w.wellKeyed = true → w.toJson.wellKeyed = true ∧ ofJson w.toJson = .ok w) ∧
    ∀ j : Json, j.wellKeyed = true →
      (∀ w, ofJson j = .ok w ↔ w.wellKeyed = true ∧ w.toJson = j) ∧ ((∃ w, ofJson j = .ok w) ↔ j.Tagged) := by
  refine ⟨fun w h => ⟨toJson_wellKeyed h, ofJson_toJson h⟩, fun j hj => ⟨fun w => ⟨fun h => ?_, ?_⟩, ?_, ?_⟩⟩
  · have hwritten := (writtenAs_of_read j hj).1 w h
    exact ⟨hwritten.wellKeyed, hwritten.toJson⟩
  · rintro ⟨hw, rfl⟩
    exact ofJson_toJson hw
  · rintro ⟨w, h⟩
    exact ((writtenAs_of_read j hj).1 w h).tagged
  · exact (read_of_shape j).1

end

theorem nested_read :
    let payload := Json.object [("tags", .object [("NS", .array [.string "1", .string "2.50"])]),
      ("blobs", .object [("L", .array [.object [("B", .string "AP8=")]])])]
    let w := Wire.m [("tags", .ns ["1", "2.50"]), ("blobs", .l [.b [0, 255]])]
    ofJson (.object [("M", payload)]) = .ok w ∧ w.toJson = .object [("M", payload)] ∧
      ¬∃ v, ofJson (.object [("M", payload), ("S", .null)]) = .ok v := by
  intro payload w
  have hw : w.wellKeyed = true := by decide
  have hj : (Json.object [("M", payload)]).wellKeyed = true := by decide
  have hsecond : (Json.object [("M", payload), ("S", .null)]).wellKeyed = true := by decide
  have hwritten : w.toJson = .object [("M", payload)] := by
    have hbytes : ByteTexts.write [0, 255] = "AP8=" := by decide
    simp [w, payload, toJson, entriesToJson, itemsToJson, hbytes]
  refine ⟨((ofJson_bijective.2 _ hj).1 w).2 ⟨hw, hwritten⟩, hwritten, fun h => ?_⟩
  have hone := ((ofJson_bijective.2 _ hsecond).2.1 h).length_members
  simp at hone

end Wire

end ItemMapper
