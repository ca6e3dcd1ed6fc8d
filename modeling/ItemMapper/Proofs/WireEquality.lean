import ItemMapper.Memory.Table
import ItemMapper.Proofs.Entries
import Mathlib.Data.List.Perm.Subperm

/-!
# Equality of wire values

Stored values are compared without regard to the order of maps. Where the keys of every map differ, as they do in
all that is sent, this is an equivalence, and a value with such keys is equal only to values with such keys.
-/

namespace ItemMapper

namespace Wire

@[induction_eliminator]
theorem induct {P : Wire → Prop} (s : ∀ text, P (s text)) (n : ∀ digits, P (n digits)) (b : ∀ bytes, P (b bytes))
    (ss : ∀ texts, P (ss texts)) (ns : ∀ numbers, P (ns numbers)) (bs : ∀ members, P (bs members))
    (bool : ∀ flag, P (bool flag)) (null : ∀ flag, P (null flag)) (l : ∀ items, (∀ v ∈ items, P v) → P (l items))
    (m : ∀ entries, (∀ e ∈ entries, P e.2) → P (m entries)) (v : Wire) : P v := by
  refine Wire.rec (motive_1 := P) (motive_2 := fun items => ∀ v ∈ items, P v)
    (motive_3 := fun entries => ∀ e ∈ entries, P e.2) (motive_4 := fun e => P e.2)
    s n b ss ns bs bool null l m ?_ ?_ ?_ ?_ ?_ v
  · simp
  · intro v rest hv hrest
    exact List.forall_mem_cons.2 ⟨hv, hrest⟩
  · simp
  · intro e rest he hrest
    exact List.forall_mem_cons.2 ⟨he, hrest⟩
  · intro _ _ h
    exact h

mutual

def wellKeyed : Wire → Bool
  | .m entries => decide (Entries.keys entries).Nodup && entriesWellKeyed entries
  | .l items => itemsWellKeyed items
  | _ => true

def itemsWellKeyed : List Wire → Bool
  | [] => true
  | v :: rest => wellKeyed v && itemsWellKeyed rest

def entriesWellKeyed : List (String × Wire) → Bool
  | [] => true
  | (_, v) :: rest => wellKeyed v && entriesWellKeyed rest

end

variable {v w x : Wire} {items others : List Wire} {entries more : List (String × Wire)}

theorem itemsWellKeyed_iff : itemsWellKeyed items = true ↔ ∀ v ∈ items, v.wellKeyed = true := by
  induction items with
  | nil => simp [itemsWellKeyed]
  | cons v rest ih => simp [itemsWellKeyed, ih]

theorem entriesWellKeyed_iff : entriesWellKeyed entries = true ↔ ∀ e ∈ entries, e.2.wellKeyed = true := by
  induction entries with
  | nil => simp [entriesWellKeyed]
  | cons e rest ih => simp [entriesWellKeyed, ih]

theorem wellKeyed_m : (Wire.m entries).wellKeyed = true ↔
    (Entries.keys entries).Nodup ∧ ∀ e ∈ entries, e.2.wellKeyed = true := by
  simp [wellKeyed, entriesWellKeyed_iff]

theorem wellKeyed_l : (Wire.l items).wellKeyed = true ↔ ∀ v ∈ items, v.wellKeyed = true := by
  rw [wellKeyed, itemsWellKeyed_iff]

theorem sameItems_iff : sameItems items others = true ↔ List.Forall₂ (fun v w => v.same w = true) items others := by
  induction items generalizing others with
  | nil => cases others <;> simp [sameItems]
  | cons v rest ih => cases others <;> simp [sameItems, ih]

theorem sameEntries_iff : sameEntries entries more = true ↔
    ∀ e ∈ entries, ∃ w, Entries.get? e.1 more = some w ∧ e.2.same w = true := by
  induction entries with
  | nil => simp [sameEntries]
  | cons e rest ih =>
    rw [sameEntries, Bool.and_eq_true, ih, List.forall_mem_cons]
    cases Entries.get? e.1 more <;> simp

theorem same_m : (Wire.m entries).same (.m more) = true ↔ entries.length = more.length ∧
    ∀ e ∈ entries, ∃ w, Entries.get? e.1 more = some w ∧ e.2.same w = true := by
  simp [same, sameEntries_iff]

theorem eq_l_of_same (h : (Wire.l items).same w = true) :
    ∃ others, w = .l others ∧ List.Forall₂ (fun v w => v.same w = true) items others := by
  cases w with
  | l others => exact ⟨others, rfl, sameItems_iff.1 h⟩
  | _ => cases h

theorem eq_m_of_same (h : (Wire.m entries).same w = true) : ∃ more, w = .m more ∧ entries.length = more.length ∧
    ∀ e ∈ entries, ∃ w, Entries.get? e.1 more = some w ∧ e.2.same w = true := by
  cases w with
  | m more => exact ⟨more, rfl, same_m.1 h⟩
  | _ => cases h

theorem keys_perm_of_found (hd : (Entries.keys entries).Nodup) (hlength : entries.length = more.length)
    (hfound : ∀ e ∈ entries, ∃ w, Entries.get? e.1 more = some w ∧ e.2.same w = true) :
    (Entries.keys entries).Perm (Entries.keys more) := by
  have hsubset : Entries.keys entries ⊆ Entries.keys more := by
    intro key hkey
    obtain ⟨e, he, rfl⟩ := List.mem_map.1 hkey
    obtain ⟨w, hw, -⟩ := hfound e he
    rw [← Entries.has_iff, Entries.has, hw, Option.isSome_some]
  refine (List.subperm_of_subset hd hsubset).perm_of_length_le ?_
  simp [Entries.keys, hlength]

theorem same_self (h : v.wellKeyed = true) : v.same v = true := by
  induction v with
  | l items ih =>
    refine sameItems_iff.2 (List.forall₂_same.2 fun w hw => ?_)
    exact ih w hw (wellKeyed_l.1 h w hw)
  | m entries ih =>
    obtain ⟨hd, hentries⟩ := wellKeyed_m.1 h
    refine same_m.2 ⟨rfl, fun e he => ?_⟩
    exact ⟨e.2, Entries.get?_of_mem hd he, ih e he (hentries e he)⟩
  | _ => simp [same]

theorem same_trans (hvw : v.same w = true) (hwx : w.same x = true) : v.same x = true := by
  induction v generalizing w x with
  | l items ih =>
    obtain ⟨others, rfl, hothers⟩ := eq_l_of_same hvw
    obtain ⟨lasts, rfl, hlasts⟩ := eq_l_of_same hwx
    refine sameItems_iff.2 ?_
    clear hvw hwx
    induction hothers generalizing lasts with
    | nil => exact hlasts
    | cons hfirst _ ihrest =>
      cases hlasts with
      | cons hsecond hlasts =>
        obtain ⟨ihfirst, ihothers⟩ := List.forall_mem_cons.1 ih
        exact .cons (ihfirst hfirst hsecond) (ihrest ihothers _ hlasts)
  | m entries ih =>
    obtain ⟨more, rfl, hmore, hfound⟩ := eq_m_of_same hvw
    obtain ⟨most, rfl, hmost, hthen⟩ := eq_m_of_same hwx
    refine same_m.2 ⟨hmore.trans hmost, fun e he => ?_⟩
    obtain ⟨w, hw, hew⟩ := hfound e he
    obtain ⟨x, hx, hwx⟩ := hthen _ (Entries.mem_of_get? hw)
    exact ⟨x, hx, ih e he hew hwx⟩
  | _ => cases w <;> cases x <;> simp_all [same]

/-- Of what equals a value with different keys, the keys differ as well, and it is the other way around equal too. -/
theorem same_symm (hv : v.wellKeyed = true) (h : v.same w = true) : w.wellKeyed = true ∧ w.same v = true := by
  induction v generalizing w with
  | l items ih =>
    obtain ⟨others, rfl, hothers⟩ := eq_l_of_same h
    rw [wellKeyed_l, same, sameItems_iff]
    rw [wellKeyed_l] at hv
    clear h
    induction hothers with
    | nil => simp
    | cons hfirst _ ihrest =>
      obtain ⟨ihfirst, ihothers⟩ := List.forall_mem_cons.1 ih
      obtain ⟨hvfirst, hvothers⟩ := List.forall_mem_cons.1 hv
      obtain ⟨hkeyed, hsame⟩ := ihfirst hvfirst hfirst
      obtain ⟨hrestKeyed, hrestSame⟩ := ihrest ihothers hvothers
      exact ⟨List.forall_mem_cons.2 ⟨hkeyed, hrestKeyed⟩, .cons hsame hrestSame⟩
  | m entries ih =>
    obtain ⟨more, rfl, hlength, hfound⟩ := eq_m_of_same h
    obtain ⟨hd, hentries⟩ := wellKeyed_m.1 hv
    have hperm := keys_perm_of_found hd hlength hfound
    have hdmore : (Entries.keys more).Nodup := hperm.nodup hd
    have hback : ∀ e ∈ more, ∃ v, Entries.get? e.1 entries = some v ∧ e.2.wellKeyed = true ∧ e.2.same v = true := by
      intro e he
      have hkey : e.1 ∈ Entries.keys entries := hperm.mem_iff.2 (List.mem_map_of_mem (f := Prod.fst) he)
      obtain ⟨d, hdmem, hde⟩ := List.mem_map.1 hkey
      obtain ⟨w, hw, hdw⟩ := hfound d hdmem
      rw [hde, Entries.get?_of_mem hdmore he] at hw
      obtain rfl := Option.some.inj hw
      obtain ⟨hkeyed, hsame⟩ := ih d hdmem (hentries d hdmem) hdw
      exact ⟨d.2, hde ▸ Entries.get?_of_mem hd hdmem, hkeyed, hsame⟩
    refine ⟨wellKeyed_m.2 ⟨hdmore, fun e he => ?_⟩, same_m.2 ⟨hlength.symm, fun e he => ?_⟩⟩
    · obtain ⟨-, -, hkeyed, -⟩ := hback e he
      exact hkeyed
    · obtain ⟨v, hv, -, hsame⟩ := hback e he
      exact ⟨v, hv, hsame⟩
  | _ => cases w <;> simp_all [same, wellKeyed]

end Wire

/-- The attributes of a record differ, and so do the keys of every map in their values. -/
def Item.WellKeyed (item : Item) : Prop := (Wire.m item).wellKeyed = true

namespace Item.WellKeyed

variable {item : Item} {name : String} {v : Wire}

theorem nodup (h : item.WellKeyed) : (Entries.keys item).Nodup := (Wire.wellKeyed_m.1 h).1

theorem get? (h : item.WellKeyed) (hv : Entries.get? name item = some v) : v.wellKeyed = true :=
  (Wire.wellKeyed_m.1 h).2 _ (Entries.mem_of_get? hv)

theorem insert (h : item.WellKeyed) (hv : v.wellKeyed = true) : Item.WellKeyed (Entries.insert name v item) := by
  refine Wire.wellKeyed_m.2 ⟨Entries.nodup_keys_insert h.nodup, fun e he => ?_⟩
  rcases Entries.mem_insert he with rfl | he
  · exact hv
  · exact (Wire.wellKeyed_m.1 h).2 e he

theorem erase (h : item.WellKeyed) (name : String) : Item.WellKeyed (Entries.erase name item) := by
  rw [Entries.erase_eq_filter h.nodup]
  refine Wire.wellKeyed_m.2 ⟨?_, fun e he => (Wire.wellKeyed_m.1 h).2 e (List.mem_of_mem_filter he)⟩
  rw [Entries.keys_filter fun key => decide (key ≠ name)]
  exact h.nodup.filter _

end Item.WellKeyed

namespace MemoryTable

variable {t : MemoryTable} {x y z : Item} {v w : Option Wire}

theorem sameAttribute_self (hv : ∀ u, v = some u → u.wellKeyed = true) : sameAttribute v v = true := by
  cases v with
  | none => rfl
  | some v => exact Wire.same_self (hv v rfl)

theorem sameAttribute_symm (hv : ∀ u, v = some u → u.wellKeyed = true) (h : sameAttribute v w = true) :
    sameAttribute w v = true := by
  cases v <;> cases w
  · rfl
  · cases h
  · cases h
  · exact (Wire.same_symm (hv _ rfl) h).2

theorem sameAttribute_trans {u : Option Wire} (hvw : sameAttribute v w = true) (hwu : sameAttribute w u = true) :
    sameAttribute v u = true := by
  cases v with
  | none =>
    cases w with
    | none => exact hwu
    | some w => cases hvw
  | some v =>
    cases w with
    | none => cases hvw
    | some w =>
      cases u with
      | none => cases hwu
      | some u => exact Wire.same_trans hvw hwu

theorem sameKey_iff : t.sameKey x y = true ↔
    ∀ name ∈ t.key, sameAttribute (Entries.get? name x) (Entries.get? name y) = true := by
  rw [sameKey, List.all_eq_true]

theorem sameKey_self (hx : x.WellKeyed) : t.sameKey x x = true :=
  sameKey_iff.2 fun _ _ => sameAttribute_self fun _ hu => hx.get? hu

theorem sameKey_symm (hx : x.WellKeyed) (h : t.sameKey x y = true) : t.sameKey y x = true :=
  sameKey_iff.2 fun name hname =>
    sameAttribute_symm (fun _ hu => hx.get? hu) (sameKey_iff.1 h name hname)

theorem sameKey_trans (hxy : t.sameKey x y = true) (hyz : t.sameKey y z = true) : t.sameKey x z = true :=
  sameKey_iff.2 fun name hname => sameAttribute_trans (sameKey_iff.1 hxy name hname) (sameKey_iff.1 hyz name hname)

theorem sameKey_congr (hx : x.WellKeyed) (h : t.sameKey x y = true) : t.sameKey x z = t.sameKey y z := by
  rw [Bool.eq_iff_iff]
  exact ⟨sameKey_trans (sameKey_symm hx h), sameKey_trans h⟩

theorem sameKey_eq_of_sameKey (hx : x.WellKeyed) (hy : y.WellKeyed) (hxz : t.sameKey x z = true) :
    t.sameKey x y = t.sameKey y z := by
  rw [Bool.eq_iff_iff]
  constructor
  · intro hxy
    exact sameKey_trans (sameKey_symm hx hxy) hxz
  · intro hyz
    have hyx : t.sameKey y x = true := sameKey_trans hyz (sameKey_symm hx hxz)
    exact sameKey_symm hy hyx

end MemoryTable

end ItemMapper
