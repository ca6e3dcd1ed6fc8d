import ItemMapper.Proofs.DistinctMembers
import ItemMapper.Proofs.Treatments

/-!
# Prepared values

The passes before a store are one rewriting. Where a schema has no setters, no defaults and no forms of texts, all
that it does is to turn dates into stored numbers, to drop repeated members of sets, and to prune.
-/

namespace ItemMapper.Node

variable {n : Node} {item context v : Value} {key path : String} {t : Picks} {m : Modifiers}
  {fields : List (String × Node)} {isOpen : Bool} {es : List (String × Value)}

theorem shaped_trims : shaped.Trims where
  isUndefined n v := by
    cases n with
    | scalar m k => cases k <;> cases v <;> rfl
    | set m items => cases v <;> rfl
    | _ => rfl
  object _ _ _ := ⟨fun _ => true, by simp, fun es => by simp [shaped, shapedText], fun v _ => rfl⟩
  list _ _ _ := rfl
  union _ _ _ := rfl

theorem storedForm_isUndefined : (n.storedForm v).isUndefined = v.isUndefined := by
  rw [storedForm]
  split
  · cases h : n.dateFormat.stored? v with
    | none => rfl
    | some w =>
      obtain ⟨ms, hms, rfl⟩ := Option.map_eq_some_iff.1 h
      cases v <;> first | rfl | cases hms
  · rfl

theorem assigned_trims : assigned.Trims where
  isUndefined n v := by
    have hdate : (if n.isDate && v.truthy then n.storedForm v else v).isUndefined = v.isUndefined := by
      split
      · exact storedForm_isUndefined
      · rfl
    cases n with
    | set m items => cases v <;> rfl
    | _ => exact hdate
  object _ _ _ := ⟨fun _ => true, by simp, fun es => by simp [assigned, isDate], fun v _ => by simp [assigned, isDate]⟩
  list _ _ _ := by simp [assigned, isDate]
  union _ _ _ := by simp [assigned, isDate]

theorem pruned_trims : pruned.Trims where
  isUndefined n v := by
    cases n with
    | object m fields isOpen => cases v <;> rfl
    | _ => rfl
  object m fields isOpen := by
    refine ⟨fun name => isOpen || Entries.has name fields, fun name hname => ?_, fun es => ?_, fun v hv => ?_⟩
    · simp [Entries.has_iff.2 hname]
    · cases isOpen <;> simp [pruned, keptEntries]
    · cases v <;> first | rfl | cases hv
  list _ _ _ := rfl
  union _ _ _ := rfl

def prepared (item : Value) : Treatment := (((filled item).andThen shaped).andThen assigned).andThen pruned

theorem filled_shaped_keepsDefined : ((filled item).andThen shaped).KeepsDefined :=
  filled_keepsDefined.andThen shaped_trims.keepsDefined

theorem filled_assigned_keepsDefined : (((filled item).andThen shaped).andThen assigned).KeepsDefined :=
  filled_shaped_keepsDefined.andThen assigned_trims.keepsDefined

theorem rewrite_prepared : n.rewrite t.chooser (prepared item) key path v =
    n.rewrite t.chooser pruned key path (n.rewrite t.chooser assigned key path
      (n.rewrite t.chooser shaped key path (n.rewrite t.chooser (filled item) key path v))) := by
  rw [rewrite_rewrite filled_keepsDefined shaped_trims, rewrite_rewrite filled_shaped_keepsDefined assigned_trims,
    rewrite_rewrite filled_assigned_keepsDefined pruned_trims]
  rfl

theorem forStore_gives (hk : n.Throughout WellKeyed) (hn : n.Throughout Plain) (hi : item.wellKeyed = true) :
    Passing.Gives t (n.forStore item context) (n.rewrite t.chooser (prepared item) "" "" item) := by
  rw [forStore, rewrite_prepared]
  refine Passing.Gives.bind_ensures ?_ (fill_gives hi hk hi) (fill_wellKeyed hi hk hi) fun hf => ?_
  · exact fun _ => shape_grows.bind fun _ => setValue_grows.bind fun _ => prune_grows
  refine Passing.Gives.bind_ensures ?_ (shape_gives hk hn hf) (shape_wellKeyed hf) fun hs => ?_
  · exact fun _ => setValue_grows.bind fun _ => prune_grows
  exact Passing.Gives.bind (fun _ => prune_grows) (setValue_gives hk hn hs) prune_gives

theorem rewrite_of_forStore {p q : Pass} {w : Value} (hk : n.Throughout WellKeyed) (hn : n.Throughout Plain)
    (hi : item.wellKeyed = true) (h : n.forStore item context p = (w, q)) :
    n.rewrite q.picks.chooser (prepared item) "" "" item = w := by
  have hg : Passing.Gives q.picks (n.forStore item context) (n.rewrite q.picks.chooser (prepared item) "" "" item) :=
    forStore_gives hk hn hi
  have hw := hg p (h ▸ List.prefix_rfl)
  rw [h] at hw
  exact hw.symm

structure Bare (n : Node) : Prop where
  setter : n.modifiers.setter = none
  default : n.modifiers.default = none
  trim : n.modifiers.trim = false
  lowercase : n.modifiers.lowercase = false
  uppercase : n.modifiers.uppercase = false
  capitalize : n.modifiers.capitalize = false

theorem Bare.of_none (hs : n.modifiers.setter = none) (hd : n.modifiers.default = none)
    (ht : (n.modifiers.trim || n.modifiers.lowercase || n.modifiers.uppercase || n.modifiers.capitalize) = false) :
    n.Bare := by
  simp only [Bool.or_eq_false_iff] at ht
  obtain ⟨⟨⟨htrim, hlower⟩, hupper⟩, hcapitalize⟩ := ht
  exact ⟨hs, hd, htrim, hlower, hupper, hcapitalize⟩

theorem withDefault_of_none (h : m.default = none) : withDefault m item v = pure v := by
  rw [withDefault, h]
  cases v.isUndefined <;> rfl

/-- What a put does with a value where there are no defaults, no setters and no forms of texts. -/
def converted : Treatment := assigned.andThen pruned

theorem converted_trims : converted.Trims := assigned_trims.andThen pruned_trims

theorem shapeText_of_bare {s : String} (h : n.Bare) : n.modifiers.shapeText s = s := by
  rw [Modifiers.shapeText, h.trim, h.lowercase, h.uppercase, h.capitalize]
  simp

theorem shapedText_of_bare (h : n.Bare) : n.shapedText v = v := by
  cases n with
  | scalar m k =>
    cases k <;> cases v <;> first | rfl | exact congrArg Value.string (shapeText_of_bare h)
  | _ => rfl

theorem orDefault_of_bare (h : n.Bare) : n.modifiers.orDefault item v = v := by
  rw [Modifiers.orDefault, h.default]
  split <;> rfl

theorem missing_of_bare (h : (object m fields isOpen).Throughout Bare) : missing item es fields = [] := by
  rw [missing, List.map_eq_nil_iff, List.filter_eq_nil_iff]
  intro f hf
  rw [orDefault_of_bare (h.field hf).self]
  simp [Value.isUndefined]

theorem prepared_of_bare (h : n.Throughout Bare) : prepared item n v = converted n v := by
  have hfilled : filled item n v = v := by
    cases n with
    | object m fields isOpen =>
      have hdefault : m.orDefault item v = v := orDefault_of_bare h.self
      simp only [filled, hdefault]
      cases v with
      | map es => simp only [missing_of_bare h, List.append_nil]
      | _ => rfl
    | _ => exact orDefault_of_bare h.self
  have hshaped : assigned n (shaped n v) = assigned n v := by
    cases n with
    | set m items =>
      cases v with
      | set ms =>
        have hid : ms.map items.shapedText = ms :=
          (List.map_congr_left fun e _ => shapedText_of_bare h.member.self).trans (List.map_id ms)
        simp only [shaped, assigned, hid, Value.distinct_distinct]
      | _ => rfl
    | _ => exact congrArg _ (shapedText_of_bare h.self)
  rw [prepared, Treatment.andThen, Treatment.andThen, Treatment.andThen, hfilled, hshaped]
  rfl

end ItemMapper.Node
