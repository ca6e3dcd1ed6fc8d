import ItemMapper.Entries
import Mathlib.Data.List.Nodup

/-!
# Look-ups in ordered maps

How the look-ups and the keys of a map change when entries are inserted, changed in place, dropped or mapped.
-/

namespace ItemMapper.Entries

variable {α β : Type} {key other : String} {value : α} {entries : List (String × α)}

theorem get?_eq_none_iff : get? key entries = none ↔ key ∉ keys entries := by
  induction entries with
  | nil => simp [get?, keys]
  | cons e rest ih =>
    by_cases h : e.1 = key
    · simp [get?, keys, h]
    · have h' : key ≠ e.1 := fun he => h he.symm
      simpa [get?, keys, h, h'] using ih

theorem mem_of_get? (h : get? key entries = some value) : (key, value) ∈ entries := by
  induction entries with
  | nil => simp [get?] at h
  | cons e rest ih =>
    by_cases he : e.1 = key
    · simp only [get?, he, if_true, Option.some.injEq] at h
      simp [← h, ← he]
    · simp only [get?, he, if_false] at h
      exact List.mem_cons_of_mem _ (ih h)

theorem get?_of_mem (hd : (keys entries).Nodup) (h : (key, value) ∈ entries) : get? key entries = some value := by
  induction entries with
  | nil => simp at h
  | cons e rest ih =>
    simp only [keys, List.map_cons, List.nodup_cons] at hd
    rcases List.mem_cons.1 h with rfl | h
    · simp [get?]
    · have hne : e.1 ≠ key := fun he => hd.1 (he ▸ List.mem_map_of_mem (f := Prod.fst) h)
      simpa [get?, hne] using ih hd.2 h

theorem has_iff : has key entries = true ↔ key ∈ keys entries := by
  rw [has, Option.isSome_iff_ne_none, ne_eq, get?_eq_none_iff, not_not]

theorem has_eq_false_iff : has key entries = false ↔ key ∉ keys entries := by
  rw [← has_iff, Bool.not_eq_true]

@[simp] theorem get?_insert_self : get? key (insert key value entries) = some value := by
  simp [get?_insert]

theorem get?_insert_of_ne (h : key ≠ other) : get? other (insert key value entries) = get? other entries := by
  simp [get?_insert, h]

theorem mem_keys_insert : other ∈ keys (insert key value entries) ↔ other = key ∨ other ∈ keys entries := by
  rw [← has_iff, ← has_iff, has, has, get?_insert]
  by_cases h : key = other
  · simp [h]
  · simp [h, Ne.symm h]

theorem keys_insert_of_not_mem (h : key ∉ keys entries) : keys (insert key value entries) = keys entries ++ [key] := by
  induction entries with
  | nil => rfl
  | cons e rest ih =>
    simp only [keys, List.map_cons, List.mem_cons, not_or] at h
    have he : e.1 ≠ key := fun he => h.1 he.symm
    have ht : keys (insert key value rest) = keys rest ++ [key] := ih h.2
    simpa [insert, he, keys] using ht

theorem insert_of_get?_eq_none (h : get? key entries = none) :
    insert key value entries = entries ++ [(key, value)] := by
  induction entries with
  | nil => rfl
  | cons e rest ih =>
    by_cases he : e.1 = key
    · simp [get?, he] at h
    · simp only [get?, he, if_false] at h
      simp [insert, he, ih h]

theorem get?_of_prefix {more : List (String × α)} (hp : entries <+: more) (h : get? key entries = some value) :
    get? key more = some value := by
  obtain ⟨rest, rfl⟩ := hp
  induction entries with
  | nil => cases h
  | cons e es ih =>
    by_cases he : e.1 = key
    · simpa [get?, he] using h
    · simp only [get?, he, if_false] at h
      simpa [get?, he] using ih h

theorem get?_append {more : List (String × α)} : get? key (entries ++ more) = (get? key entries).or (get? key more) := by
  induction entries with
  | nil => rfl
  | cons e rest ih =>
    by_cases h : e.1 = key <;> simp [get?, h, ih]

theorem get?_append_self (h : get? key entries = none) : get? key (entries ++ [(key, value)]) = some value := by
  rw [← insert_of_get?_eq_none h, get?_insert_self]

/-- Maps of the same distinct keys with the same look-ups are the same. -/
theorem ext {others : List (String × α)} (hk : keys entries = keys others) (hd : (keys entries).Nodup)
    (h : ∀ key, get? key entries = get? key others) : entries = others := by
  induction entries generalizing others with
  | nil => simpa [keys] using hk.symm
  | cons e rest ih =>
    obtain _ | ⟨o, os⟩ := others
    · simp [keys] at hk
    · simp only [keys, List.map_cons, List.cons.injEq] at hk
      obtain ⟨hnot, hrest⟩ := List.nodup_cons.1 hd
      have hval : e.2 = o.2 := by simpa [get?, hk.1] using h e.1
      refine congrArg₂ List.cons (Prod.ext hk.1 hval) (ih hk.2 hrest fun k => ?_)
      by_cases hke : e.1 = k
      · have hno : k ∉ keys os := by rwa [keys, ← hk.2, ← hke]
        rw [get?_eq_none_iff.2 (hke ▸ hnot), get?_eq_none_iff.2 hno]
      · simpa [get?, hke, hk.1 ▸ hke] using h k

theorem nodup_keys_insert (hd : (keys entries).Nodup) : (keys (insert key value entries)).Nodup := by
  by_cases h : key ∈ keys entries
  · rwa [keys_insert_of_has _ _ _ (has_iff.2 h)]
  · rw [keys_insert_of_not_mem h]
    exact hd.append (List.nodup_singleton key) (by simpa using h)

theorem mem_insert {e : String × α} (h : e ∈ insert key value entries) : e = (key, value) ∨ e ∈ entries := by
  induction entries with
  | nil => simpa [insert] using h
  | cons d rest ih =>
    by_cases hd : d.1 = key
    · simp only [insert, hd, if_true, List.mem_cons] at h
      exact h.imp_right (List.mem_cons_of_mem _)
    · simp only [insert, hd, if_false, List.mem_cons] at h
      rcases h with rfl | h
      · exact .inr List.mem_cons_self
      · exact (ih h).imp_right (List.mem_cons_of_mem _)

theorem insert_get? (h : get? key entries = some value) : insert key value entries = entries := by
  induction entries with
  | nil => simp [get?] at h
  | cons e rest ih =>
    by_cases he : e.1 = key
    · simp only [get?, he, if_true, Option.some.injEq] at h
      rw [insert, if_pos he, ← h, ← he]
    · simp only [get?, he, if_false] at h
      simp [insert, he, ih h]

theorem get?_filter (p : String → Bool) :
    get? key (entries.filter fun e => p e.1) = if p key then get? key entries else none := by
  induction entries with
  | nil => simp [get?]
  | cons e rest ih =>
    by_cases he : e.1 = key <;> by_cases hp : p e.1 <;> simp_all [get?]

theorem keys_filter (p : String → Bool) : keys (entries.filter fun e => p e.1) = (keys entries).filter p := by
  simp [keys, List.filter_map, Function.comp_def]

theorem get?_map (f : String × α → β) :
    get? key (entries.map fun e => (e.1, f e)) = (get? key entries).map fun v => f (key, v) := by
  induction entries with
  | nil => rfl
  | cons e rest ih =>
    by_cases he : e.1 = key
    · subst he
      simp [get?]
    · simpa [get?, he] using ih

@[simp] theorem keys_map (f : String × α → β) : keys (entries.map fun e => (e.1, f e)) = keys entries := by
  simp [keys, Function.comp_def]

theorem insert_of_mem (hd : (keys entries).Nodup) (h : key ∈ keys entries) :
    insert key value entries = entries.map fun e => (e.1, if e.1 = key then value else e.2) := by
  induction entries with
  | nil => cases h
  | cons e rest ih =>
    obtain ⟨hnot, hrest⟩ := List.nodup_cons.1 hd
    by_cases he : e.1 = key
    · have hothers : rest.map (fun e => (e.1, if e.1 = key then value else e.2)) = rest := by
        refine (List.map_congr_left fun d hmem => ?_).trans (List.map_id rest)
        have hne : d.1 ≠ key := fun hd => hnot (he ▸ hd ▸ List.mem_map_of_mem (f := Prod.fst) hmem)
        rw [if_neg hne]
        rfl
      rw [insert, if_pos he, List.map_cons, if_pos he, hothers, he]
    · have hmem : key ∈ keys rest := by simpa [keys, Ne.symm he] using h
      rw [insert, if_neg he, ih hrest hmem, List.map_cons, if_neg he]

theorem foldl_insert {changes : List (String × α)} (hd : (keys entries).Nodup) (hc : (keys changes).Nodup) :
    changes.foldl (fun es c => insert c.1 c.2 es) entries =
      (entries.map fun e => (e.1, (get? e.1 changes).getD e.2)) ++ changes.filter fun c => !has c.1 entries := by
  induction changes generalizing entries with
  | nil => simp [get?]
  | cons c rest ih =>
    obtain ⟨hnot, hrest⟩ := List.nodup_cons.1 hc
    have hnone : get? c.1 rest = none := get?_eq_none_iff.2 hnot
    rw [List.foldl_cons, ih (nodup_keys_insert hd) hrest]
    by_cases h : c.1 ∈ keys entries
    · have hhas (d : String × α) : has d.1 (insert c.1 c.2 entries) = has d.1 entries := by
        rw [Bool.eq_iff_iff, has_iff, has_iff, keys_insert_of_has _ _ _ (has_iff.2 h)]
      have hsame : has c.1 entries = true := has_iff.2 h
      simp only [hhas]
      rw [insert_of_mem hd h, List.map_map, List.filter_cons_of_neg (by simp [hsame])]
      congr 1
      refine List.map_congr_left fun e _ => ?_
      by_cases he : e.1 = c.1
      · simp [he, hnone, get?]
      · simp [he, Ne.symm he, get?]
    · have hhas : ∀ d ∈ rest, has d.1 (insert c.1 c.2 entries) = has d.1 entries := by
        intro d hmem
        have hne : d.1 ≠ c.1 := fun he => hnot (he ▸ List.mem_map_of_mem (f := Prod.fst) hmem)
        rw [Bool.eq_iff_iff, has_iff, has_iff, keys_insert_of_not_mem h]
        simp [hne]
      have hnew : has c.1 entries = false := has_eq_false_iff.2 h
      have hold : ∀ e ∈ entries, (get? e.1 rest).getD e.2 = (get? e.1 (c :: rest)).getD e.2 := by
        intro e hmem
        have hne : c.1 ≠ e.1 := fun he => h (he ▸ List.mem_map_of_mem (f := Prod.fst) hmem)
        rw [get?, if_neg hne]
      have hfilter : rest.filter (fun d => !has d.1 (insert c.1 c.2 entries)) = rest.filter fun d => !has d.1 entries :=
        List.filter_congr fun d hmem => by rw [hhas d hmem]
      rw [hfilter, insert_of_get?_eq_none (get?_eq_none_iff.2 h), List.map_append, List.map_singleton, hnone,
        List.filter_cons_of_pos (by simp [hnew]), List.append_assoc, List.map_congr_left fun e hmem => by rw [hold e hmem]]
      rfl

theorem nodup_keys_foldl_insert {changes : List (String × α)} (hd : (keys entries).Nodup) :
    (keys (changes.foldl (fun es c => insert c.1 c.2 es) entries)).Nodup := by
  induction changes generalizing entries with
  | nil => exact hd
  | cons c rest ih => exact ih (nodup_keys_insert hd)

theorem erase_eq_filter (hd : (keys entries).Nodup) : erase key entries = entries.filter fun e => e.1 ≠ key := by
  induction entries with
  | nil => rfl
  | cons e rest ih =>
    obtain ⟨hnot, hrest⟩ := List.nodup_cons.1 hd
    by_cases he : e.1 = key
    · have hothers : rest.filter (fun e => e.1 ≠ key) = rest := by
        refine List.filter_eq_self.2 fun d hmem => ?_
        have hne : d.1 ≠ key := fun hd => hnot (he ▸ hd ▸ List.mem_map_of_mem (f := Prod.fst) hmem)
        simpa using hne
      rw [erase, if_pos he, List.filter_cons_of_neg (by simp [he]), hothers]
    · rw [erase, if_neg he, List.filter_cons_of_pos (by simpa using he), ih hrest]

theorem foldl_erase {names : List String} (hd : (keys entries).Nodup) :
    names.foldl (fun es name => erase name es) entries = entries.filter fun e => e.1 ∉ names := by
  induction names generalizing entries with
  | nil => simp
  | cons name rest ih =>
    have hkeys : (keys (entries.filter fun e => e.1 ≠ name)).Nodup := by
      rw [keys_filter fun key => decide (key ≠ name)]
      exact hd.filter _
    rw [List.foldl_cons, erase_eq_filter hd, ih hkeys, List.filter_filter]
    refine List.filter_congr fun e _ => ?_
    simp [Bool.and_comm]

end ItemMapper.Entries
