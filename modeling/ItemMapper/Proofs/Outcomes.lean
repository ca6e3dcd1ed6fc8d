import ItemMapper.Mapper.Single
import ItemMapper.Proofs.Passing
import Mathlib.Data.List.Forall2

/-!
# Outcomes

What is known of the parts of a computation that may fail, once the whole of it has succeeded.
-/

namespace ItemMapper

variable {α β ε : Type}

theorem exists_of_forall₂ {R : α → β → Prop} {as : List α} {bs : List β} {a : α} (h : List.Forall₂ R as bs)
    (ha : a ∈ as) : ∃ b ∈ bs, R a b := by
  induction h with
  | nil => cases ha
  | cons hfirst _ ih =>
    cases ha with
    | head => exact ⟨_, List.mem_cons_self, hfirst⟩
    | tail _ ha =>
      obtain ⟨b, hb, hr⟩ := ih ha
      exact ⟨b, List.mem_cons_of_mem _ hb, hr⟩

theorem eq_map_of_forall₂ {R : α → β → Prop} {g : β → α} {as : List α} {bs : List β} (hg : ∀ a b, R a b → a = g b)
    (h : List.Forall₂ R as bs) : as = bs.map g := by
  rw [← List.forall₂_eq_eq_eq, List.forall₂_map_right_iff]
  exact h.imp hg

namespace Outcome

theorem of_map {x : Except ε α} {f : α → β} {b : β} (h : x.map f = .ok b) : ∃ a, x = .ok a ∧ f a = b := by
  cases x with
  | error e => cases h
  | ok a => exact ⟨a, rfl, Except.ok.inj h⟩

theorem of_toOption {x : Except ε α} {a : α} (h : x.toOption = some a) : x = .ok a := by
  cases x with
  | error e => cases h
  | ok a => exact congrArg Except.ok (Option.some.inj h)

theorem of_bind {x : Except ε α} {f : α → Except ε β} {b : β} (h : (x >>= f) = .ok b) :
    ∃ a, x = .ok a ∧ f a = .ok b := by
  cases x with
  | error e => cases h
  | ok a => exact ⟨a, rfl, h⟩

section Lists

variable {γ : Type} {f : α → Except ε β} {xs : List α} {ys : List β}

theorem mapM_eq_ok_iff : xs.mapM f = .ok ys ↔ List.Forall₂ (fun x y => f x = .ok y) xs ys := by
  induction xs generalizing ys with
  | nil => simp [pure, Except.pure, eq_comm]
  | cons x rest ih =>
    rw [List.mapM_cons]
    constructor
    · intro h
      obtain ⟨y, hy, h⟩ := of_bind h
      obtain ⟨zs, hzs, h⟩ := of_bind h
      cases h
      exact .cons hy (ih.1 hzs)
    · intro h
      cases h with
      | cons hy hrest =>
        rw [hy, ih.2 hrest]
        rfl

theorem mem_of_mapM (h : xs.mapM f = .ok ys) {y : β} : y ∈ ys ↔ ∃ x ∈ xs, f x = .ok y := by
  have hall := mapM_eq_ok_iff.1 h
  clear h
  induction hall with
  | nil => simp
  | cons hx _ ih => simp [ih, hx, eq_comm]

theorem map_of_mapM {g : β → γ} {k : α → γ} (h : xs.mapM f = .ok ys) (hg : ∀ x y, f x = .ok y → g y = k x) :
    ys.map g = xs.map k := by
  have hall := mapM_eq_ok_iff.1 h
  clear h
  induction hall with
  | nil => rfl
  | cons hx _ ih => rw [List.map_cons, List.map_cons, hg _ _ hx, ih]

variable {g : α → Option β}

theorem mapM_eq_some_iff : xs.mapM g = some ys ↔ List.Forall₂ (fun x y => g x = some y) xs ys := by
  induction xs generalizing ys with
  | nil => simp [eq_comm]
  | cons x rest ih =>
    rw [List.mapM_cons]
    constructor
    · intro h
      obtain ⟨y, hy, h⟩ := Option.bind_eq_some_iff.1 h
      obtain ⟨zs, hzs, h⟩ := Option.bind_eq_some_iff.1 h
      cases h
      exact .cons hy (ih.1 hzs)
    · intro h
      cases h with
      | cons hy hrest =>
        rw [hy, ih.2 hrest]
        rfl

theorem mem_of_mapM_some (h : xs.mapM g = some ys) {y : β} : y ∈ ys ↔ ∃ x ∈ xs, g x = some y := by
  have hall := mapM_eq_some_iff.1 h
  clear h
  induction hall with
  | nil => simp
  | cons hx _ ih => simp [ih, hx, eq_comm]

end Lists

variable {σ : Type} {p : ExceptT ε (StateM σ) α} {q : α → ExceptT ε (StateM σ) β} {b : β} {s s' : σ}

theorem run_bind (p : ExceptT ε (StateM σ) α) (q : α → ExceptT ε (StateM σ) β) (s : σ) : (p >>= q).run s =
    match p.run s with
    | (.ok a, t) => (q a).run t
    | (.error e, t) => (.error e, t) := by
  change (ExceptT.bind p q).run s = _
  simp only [ExceptT.bind, ExceptT.run, ExceptT.mk, bind, StateT.bind, ExceptT.bindCont]
  cases p s with
  | mk r t => cases r <;> rfl

theorem of_run_bind (h : (p >>= q).run s = (.ok b, s')) :
    ∃ a t, p.run s = (.ok a, t) ∧ (q a).run t = (.ok b, s') := by
  rw [run_bind] at h
  cases hp : p.run s with
  | mk r t =>
    rw [hp] at h
    cases r with
    | error e => cases h
    | ok a => exact ⟨a, t, rfl, h⟩

theorem forall_of_run_mapM {f : α → ExceptT ε (StateM σ) β} {P : β → Prop} {xs : List α} {ys : List β}
    (h : (xs.mapM f).run s = (.ok ys, s')) (hf : ∀ x s y s', (f x).run s = (.ok y, s') → P y) : ∀ y ∈ ys, P y := by
  induction xs generalizing ys s with
  | nil =>
    cases h
    simp
  | cons x rest ih =>
    rw [List.mapM_cons] at h
    obtain ⟨y, t, hy, h⟩ := of_run_bind h
    obtain ⟨zs, u, hzs, h⟩ := of_run_bind h
    cases h
    exact List.forall_mem_cons.2 ⟨hf x s y t hy, ih hzs⟩

end Outcome

namespace Mapping

variable {s s' : Session} {a : α} {b : β} {p : Mapping α} {q : α → Mapping β}

theorem of_bind (h : (p >>= q).run s = (.ok b, s')) :
    ∃ a t, p.run s = (.ok a, t) ∧ (q a).run t = (.ok b, s') := Outcome.of_run_bind h

theorem of_pure {a' : α} (h : (pure a : Mapping α).run s = (.ok a', s')) : a = a' ∧ s = s' := by
  cases h
  exact ⟨rfl, rfl⟩

theorem of_marshal {x : Except MarshalError α} (h : (ofMarshal x).run s = (.ok a, s')) : x = .ok a ∧ s = s' := by
  cases x with
  | error e => cases h
  | ok a' =>
    cases h
    exact ⟨rfl, rfl⟩

theorem of_passes {p : Passing α} (h : (passes p).run s = (.ok a, s')) :
    ∃ t, p { calls := s.calls } = (a, t) := by
  cases hp : p { calls := s.calls } with
  | mk x t =>
    have hx : (passes p).run s = (.ok x, { s with calls := t.calls }) := by
      simp only [passes, StateT.run, ExceptT.run, hp]
    rw [hx] at h
    cases h
    exact ⟨t, rfl⟩

end Mapping

namespace Mapper

variable {m : Mapper} {item context prepared : Value} {condition : Option Value} {options : WriteOptions}
  {request : Request.PutItem} {s s' : Session}

theorem of_storable (h : (m.storable item context).run s = (.ok prepared, s')) :
    ∃ t, m.schema.root.forStore item context { calls := s.calls } = (prepared, t) ∧
      (m.schema.root.validate "" m.table prepared t).1 = none := by
  rw [storable] at h
  obtain ⟨r, t₁, hr, h⟩ := Mapping.of_bind h
  obtain ⟨t₂, hp⟩ := Mapping.of_passes hr
  rw [Passing.bind_apply, Passing.bind_apply] at hp
  cases ho : m.schema.root.validate "" m.table (m.schema.root.forStore item context { calls := s.calls }).1
      (m.schema.root.forStore item context { calls := s.calls }).2 with
  | mk o t =>
    rw [ho] at hp
    cases o with
    | some e =>
      cases hp
      cases h
    | none =>
      cases hp
      cases h
      exact ⟨_, rfl, congrArg Prod.fst ho⟩

theorem of_putRequest (h : (m.putRequest item condition options).run s = (.ok (request, prepared), s')) :
    ∃ t, (m.storable item options.context).run s = (.ok prepared, t) ∧
      Item.ofValue m.config.marshalOptions prepared = .ok request.item := by
  rw [putRequest] at h
  obtain ⟨prepared', t, hprepared, h⟩ := Mapping.of_bind h
  cases condition
  all_goals
    obtain ⟨⟨text, tokens⟩, t', -, h⟩ := Mapping.of_bind h
    obtain ⟨stored, t'', hstored, h⟩ := Mapping.of_bind h
    obtain ⟨he, -⟩ := Mapping.of_pure h
    cases he
    exact ⟨t, hprepared, (Mapping.of_marshal hstored).1⟩

end Mapper

end ItemMapper
