import ItemMapper.Proofs.FreshPicks
import ItemMapper.Proofs.GetterCalls
import ItemMapper.Proofs.PickedVariants
import ItemMapper.Proofs.SteadyPasses

/-!
# Direct picks

No union is picked for a union. Where no declared name has a separator in it, a pick is made for one union only, so the
table that an item leaves on its way to the store leads no union right into another one.
-/

namespace ItemMapper

/-- Below a node, no pick of the table is a union, and nothing has been picked below a union without a pick. -/
inductive Picks.Sound (t : Picks) : String → String → Node → Prop
  | object {m fields isOpen key path}
    (h : ∀ f ∈ fields, Sound t (memberPath path f.1) (memberPath path f.1) f.2) : Sound t key path (.object m fields isOpen)
  | list {m items key path} (h : ∀ i, Sound t (elementPath path i) (elementPath path i) items) :
    Sound t key path (.list m items)
  | unpicked {m variants key path} (hkey : Entries.get? key t = none)
    (hbelow : ∀ v ∈ variants, ∀ k, v.Asks (nestedKey key) path k → Entries.get? k t = none) :
    Sound t key path (.union m variants)
  | picked {m variants key path place} (hkey : Entries.get? key t = some place)
    (hdirect : ∀ i v, place = some i → variants[i]? = some v → v.isUnion = false)
    (h : ∀ i v, place = some i → variants[i]? = some v → Sound t (nestedKey key) path v) :
    Sound t key path (.union m variants)
  | set {m items key path} : Sound t key path (.set m items)
  | scalar {m k key path} : Sound t key path (.scalar m k)
  | any {m key path} : Sound t key path (.any m)
  | undefined {m key path} : Sound t key path (.undefined m)

variable {n : Node} {key path k : String} {t u : Picks} {m : Modifiers} {variants : List Node}

namespace Node

theorem Asks.under (h : n.Asks key path k) (hb : Barred path key) (hp : path ≠ "") : Under path path k := by
  induction h with
  | here => exact .inl hb
  | variant _ _ ih => exact ih hb.nestedKey hp
  | field _ _ ih => exact .inr ((ih barred_self fun he => hp (memberPath_eq_empty_iff.1 he).1).below_of_member hp)
  | element i _ ih => exact .inr (ih barred_self elementPath_ne_empty).below_of_element
  | member _ ih => exact ih barred_self hp
  | memberAt i _ ih => exact .inr (ih barred_self elementPath_ne_empty).below_of_element

theorem not_asks_of_isMemberNode (h : n.isMemberNode = true) : ¬ n.Asks key path k := by
  intro hk
  cases hk <;> cases h

/-- Without unions in sets, no union below asks under the key of this one. -/
theorem Asks.under_key (h : n.Asks key path k) (hm : n.Throughout HoldsMembers) (hp : path ≠ "") : Under key path k := by
  induction h with
  | here => exact under_self
  | variant hn _ ih => exact (ih (hm.variant hn) hp).of_nestedKey
  | field hf h _ => exact .inr ((h.under barred_self fun he => hp (memberPath_eq_empty_iff.1 he).1).below_of_member hp)
  | element i h _ => exact .inr (h.under barred_self elementPath_ne_empty).below_of_element
  | member h _ => exact absurd h (not_asks_of_isMemberNode (hm.self _ _ rfl))
  | memberAt i h _ => exact absurd h (not_asks_of_isMemberNode (hm.self _ _ rfl))

end Node

namespace Picks

theorem Sound.frame (h : Sound t key path n) (hsame : ∀ k, n.Asks key path k → Entries.get? k u = Entries.get? k t) :
    Sound u key path n := by
  induction h with
  | object _ ih => exact .object fun f hf => ih f hf fun k hk => hsame k (.field hf hk)
  | list _ ih => exact .list fun i => ih i fun k hk => hsame k (.element i hk)
  | unpicked hkey hbelow =>
    exact .unpicked ((hsame _ .here).trans hkey) fun v hv k hk => (hsame k (.variant hv hk)).trans (hbelow v hv k hk)
  | picked hkey hdirect _ ih =>
    refine .picked ((hsame _ .here).trans hkey) hdirect fun i v hi hv => ih i v hi hv fun k hk => ?_
    exact hsame k (.variant (List.mem_of_getElem? hv) hk)
  | set => exact .set
  | scalar => exact .scalar
  | any => exact .any
  | undefined => exact .undefined

theorem Sound.of_none (h : ∀ k, n.Asks key path k → Entries.get? k t = none) : Sound t key path n := by
  induction n generalizing key path with
  | object m fields isOpen ih => exact .object fun f hf => ih f hf fun k hk => h k (.field hf hk)
  | list m items ih => exact .list fun i => ih fun k hk => h k (.element i hk)
  | union m variants ih => exact .unpicked (h _ .here) fun v hv k hk => h k (.variant hv hk)
  | set m items ih => exact .set
  | scalar m k => exact .scalar
  | any m => exact .any
  | undefined m => exact .undefined

theorem Sound.insert_pick {v : Value} (h : Sound t key path (.union m variants)) (hnone : Entries.get? key t = none)
    (hm : (Node.union m variants).Throughout Node.HoldsMembers) (hb : Barred path key) (hp : path ≠ "") :
    Sound (Entries.insert key (Survey.variantOf path v variants) t) key path (.union m variants) := by
  cases h with
  | picked hkey _ _ => cases hnone.symm.trans hkey
  | unpicked _ hbelow =>
    refine .picked Entries.get?_insert_self (fun i w hi hw => ?_) fun i w hi hw => Sound.of_none fun k hk => ?_
    · obtain ⟨z, hz, haccepts⟩ := Survey.variantOf_eq_some hi
      obtain rfl : z = w := Option.some.inj (hz.symm.trans hw)
      exact Node.isUnion_of_accepts haccepts
    · have hmem := List.mem_of_getElem? hw
      have hne : key ≠ k := by
        rintro rfl
        exact hb.not_under (hk.under_key (hm.variant hmem) hp)
      rw [Entries.get?_insert_of_ne hne]
      exact hbelow w hmem k hk

end Picks

namespace Passing

open Picks (Sound)

variable {α : Type} {F : String → Prop} {p : Passing α} {q : Option Nat → Passing α} {v : Value}

theorem Steady.get?_eq (h : Steady F p) (hk : ¬ F k) (s : Pass) :
    Entries.get? k (p s).2.picks = Entries.get? k s.picks := by
  cases hs : Entries.get? k s.picks with
  | some place => exact Entries.get?_of_prefix (h.grows s) hs
  | none =>
    refine Entries.get?_eq_none_iff.2 fun hmem => ?_
    exact Entries.get?_eq_none_iff.1 hs ((h.keys s k hmem).resolve_right hk)

def Keeps (Q : Picks → Prop) (p : Passing α) : Prop := ∀ s, Q s.picks → Q (p s).2.picks

theorem keeps_pick (hm : (Node.union m variants).Throughout Node.HoldsMembers) (hb : Barred path key) (hp : path ≠ "")
    (hsome : ∀ i w, variants[i]? = some w → (q (some i)).Keeps fun t => Sound t (nestedKey key) path w)
    (hgrows : ∀ i w, variants[i]? = some w → (q (some i)).Grows)
    (hother : ∀ i, variants[i]? = none → (q (some i)).Keeps fun t => Sound t key path (.union m variants))
    (hnone : (q none).Keeps fun t => Sound t key path (.union m variants)) :
    (pick key path variants v >>= q).Keeps fun t => Sound t key path (.union m variants) := by
  have hpicked : ∀ place s, Sound s.picks key path (.union m variants) → Entries.get? key s.picks = some place →
      Sound (q place s).2.picks key path (.union m variants) := by
    intro place s hs hkey
    cases place with
    | none => exact hnone s hs
    | some i =>
      cases hw : variants[i]? with
      | none => exact hother i hw s hs
      | some w =>
        cases hs with
        | unpicked hkey' _ => cases hkey'.symm.trans hkey
        | picked hkey' hdirect hbelow =>
          cases hkey'.symm.trans hkey
          refine .picked (Entries.get?_of_prefix (hgrows i w hw s) hkey) hdirect fun j z hj hz => ?_
          obtain rfl := Option.some.inj hj
          obtain rfl : w = z := Option.some.inj (hw.symm.trans hz)
          exact hsome i w hw s (hbelow i w rfl hw)
  intro s hs
  rw [bind_apply]
  simp only [Passing.pick]
  split
  · exact hnone s hs
  · split
    · exact hpicked _ s hs ‹_›
    · exact hpicked _ _ (hs.insert_pick ‹_› hm hb hp) Entries.get?_insert_self

/-- What goes through a value at a node keeps the table sound, if no two fields of an object ask under one key. -/
theorem Through.keeps_sound (h : Through n key path p) (hm : n.Throughout Node.HoldsMembers)
    (hd : n.Throughout Node.DistinctNames) (hc : n.Throughout Node.NamesClear) (hb : Barred path key)
    (hp : n.isUnion = true → path ≠ "") : p.Keeps fun t => Sound t key path n := by
  induction h with
  | pure a => exact fun s hs => hs
  | record call => exact fun s hs => hs
  | bind _ _ hfirst hrest => exact fun s hs => hrest _ hm hd hc hb hp _ (hfirst hm hd hc hb hp s hs)
  | @field _ _ fields _ _ path f _ hf h ih =>
    have hclear := hc.self fields rfl
    intro s hs
    cases hs with
    | object hs =>
      refine .object fun g hg => ?_
      by_cases hname : f.1 = g.1
      · obtain rfl : f = g := List.inj_on_of_nodup_map (hd.self fields rfl) hf hg hname
        exact ih (hm.field hf) (hd.field hf) (hc.field hf) barred_self
          (fun _ => memberPath_ne_empty (hclear f hf)) s (hs f hf)
      · refine (hs g hg).frame fun k hk => h.steady.get?_eq (fun hfk => hname ?_) s
        exact members_disjoint (hclear f hf) (hclear g hg)
          (hfk.under barred_self (memberPath_ne_empty (hclear f hf)))
          (hk.under barred_self (memberPath_ne_empty (hclear g hg)))
  | element i h ih =>
    intro s hs
    cases hs with
    | list hs =>
      refine .list fun j => ?_
      by_cases hij : i = j
      · subst hij
        exact ih hm.item hd.item hc.item barred_self (fun _ => elementPath_ne_empty) s (hs i)
      · refine (hs j).frame fun k hk => h.steady.get?_eq (fun hik => hij ?_) s
        exact elements_disjoint (hik.under barred_self elementPath_ne_empty) (hk.under barred_self elementPath_ne_empty)
  | member _ _ => exact fun s _ => .set
  | @union _ _ variants _ path _ _ hsome _ _ ihsome ihother ihnone =>
    have hpath : path ≠ "" := hp rfl
    refine keeps_pick hm hb hpath (fun i w hw => ?_) (fun i w hw => (hsome i w hw).grows)
      (fun i hi => ihother i hi hm hd hc hb hp) (ihnone hm hd hc hb hp)
    have hmem := List.mem_of_getElem? hw
    exact ihsome i w hw (hm.variant hmem) (hd.variant hmem) (hc.variant hmem) hb.nestedKey fun _ => hpath

end Passing

namespace Position

variable {root x y : Position}

/-- The table holds no union as the pick of a union. -/
def Direct (root : Position) (t : Picks) : Prop := ∀ x, root.Reaches t.resolver true x → ∀ m variants i u,
  x.node = .union m variants → Entries.get? x.key t = some (some i) → variants[i]? = some u → u.isUnion = false

theorem Direct.of_inUnion (h : Direct root t) (hroot : root.inUnion = false) (hx : root.Reaches t.resolver true x)
    (hin : x.inUnion = true) : x.node.isUnion = false := by
  cases hx with
  | refl => cases hroot.symm.trans hin
  | tail hy hnext =>
    rcases next_cases hnext with hplace | ⟨m, variants, i, hunion, hi, hu, -⟩
    · rw [hplace] at hin
      cases hin
    · rw [Picks.resolver] at hi
      split at hi
      · cases hi
      · cases hpick : Entries.get? _ t with
        | some pick =>
          rw [hpick] at hi
          exact h _ hy m variants i _ hunion (hpick.trans (congrArg some hi)) hu
        | none =>
          rw [hpick] at hi
          obtain ⟨n, hn, haccepts⟩ := Survey.variantOf_eq_some hi
          obtain rfl : n = x.node := Option.some.inj (hn.symm.trans hu)
          exact Node.isUnion_of_accepts haccepts

theorem sound_next (h : Picks.Sound t x.key x.path x.node) (hm : x.node.HoldsMembers) (hy : y ∈ x.next t.resolver true) :
    Picks.Sound t y.key y.path y.node := by
  obtain ⟨key, path, v, n, inUnion⟩ := x
  cases h with
  | object h =>
    cases v with
    | map es =>
      obtain ⟨f, hf, rfl⟩ := List.mem_map.1 hy
      exact h f hf
    | _ => cases hy
  | list h =>
    cases v with
    | list elements =>
      obtain ⟨e, -, rfl⟩ := List.mem_map.1 hy
      exact h e.2
    | _ => cases hy
  | set =>
    cases v with
    | set members =>
      obtain ⟨e, -, rfl⟩ := List.mem_map.1 hy
      exact .of_none fun k hk => absurd hk (Node.not_asks_of_isMemberNode (hm _ _ rfl))
    | _ => cases hy
  | unpicked hkey hbelow =>
    obtain ⟨w, hw, rfl⟩ := Option.map_eq_some_iff.1 (Option.mem_toList.1 hy)
    obtain ⟨i, -, hw⟩ := Option.bind_eq_some_iff.1 hw
    exact .of_none (hbelow w (List.mem_of_getElem? hw))
  | picked hkey hdirect hbelow =>
    obtain ⟨w, hw, rfl⟩ := Option.map_eq_some_iff.1 (Option.mem_toList.1 hy)
    obtain ⟨i, hi, hw⟩ := Option.bind_eq_some_iff.1 hw
    rw [Picks.resolver, hkey, Option.getD_some] at hi
    split at hi
    · cases hi
    · exact hbelow i w hi hw
  | _ => cases hy

theorem sound_reached (h : Picks.Sound t root.key root.path root.node) (hm : root.node.Throughout Node.HoldsMembers)
    (hx : root.Reaches t.resolver true x) : Picks.Sound t x.key x.path x.node := by
  induction hx with
  | refl => exact h
  | tail hy hnext ih => exact sound_next ih (Reaches.throughout hy hm).self hnext

theorem direct_of_sound (h : Picks.Sound t root.key root.path root.node) (hm : root.node.Throughout Node.HoldsMembers) :
    Direct root t := by
  intro x hx m variants i w hnode hpick hw
  have hsound := sound_reached h hm hx
  rw [hnode] at hsound
  cases hsound with
  | unpicked hkey _ => cases hkey.symm.trans hpick
  | picked hkey hdirect _ => exact hdirect i w (Option.some.inj (hkey.symm.trans hpick)) hw

end Position

/-- The table that an item leaves on its way to the store is direct, whatever is validated with it. -/
theorem Node.forStore_direct {item context v : Value} {s : Pass} (hs : s.picks = [])
    (hm : n.Throughout HoldsMembers) (hd : n.Throughout DistinctNames) (hc : n.Throughout NamesClear)
    (hn : n.isUnion = false) : Position.Direct (.place "" v n) (n.forStore item context s).2.picks := by
  refine Position.direct_of_sound (forStore_through.keeps_sound hm hd hc barred_self (by simp [hn]) s ?_) hm
  rw [hs]
  exact .of_none fun _ _ => rfl

end ItemMapper
