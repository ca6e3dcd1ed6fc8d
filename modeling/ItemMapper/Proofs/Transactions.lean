import ItemMapper.Proofs.Servings

/-!
# Write transactions

A transaction checks the conditions of all its members before it carries out the first write. If they do not all hold,
the tables stay as they are. Once they do, the writes are carried out one after the other in the tables themselves, and
each looks at its own condition again. A write that is then refused leaves no trace of its own, but those before it
stay.
-/

namespace ItemMapper

namespace Serving

variable {r : Request.TransactWriteItems} {entries : List Request.TransactWriteEntry} {ws done rest : List Write}
  {w : Write} {e : Refusal} {holding : List Bool} {s s' : List (String × MemoryTable)}

/-- The conditions of all members hold. -/
def Approved (r : Request.TransactWriteItems) (s : List (String × MemoryTable)) : Prop :=
  ∀ e ∈ r.entries, (conditionHolds e).run s = (.ok true, s)

def writes (r : Request.TransactWriteItems) : List Write := r.entries.flatMap writesOf

def carryAll (ws : List Write) : Serving Unit := ws.forM Write.carry

theorem mapM_of_approved (h : ∀ e ∈ entries, (conditionHolds e).run s = (.ok true, s)) :
    (entries.mapM conditionHolds).run s = (.ok (entries.map fun _ => true), s) := by
  induction entries with
  | nil => rfl
  | cons e rest ih =>
    obtain ⟨he, hrest⟩ := List.forall_mem_cons.1 h
    rw [List.mapM_cons, Outcome.run_bind, he]
    simp only [Outcome.run_bind, ih hrest]
    rfl

theorem approved_of_mapM (h : (entries.mapM conditionHolds).run s = (.ok holding, s')) (hall : holding.all id = true) :
    ∀ e ∈ entries, (conditionHolds e).run s = (.ok true, s) := by
  induction entries generalizing holding with
  | nil => exact fun e he => absurd he List.not_mem_nil
  | cons e rest ih =>
    rw [List.mapM_cons] at h
    obtain ⟨holds, s₁, hfirst, h⟩ := Outcome.of_run_bind h
    obtain ⟨others, s₂, hothers, h⟩ := Outcome.of_run_bind h
    cases h
    obtain rfl := (reads_conditionHolds e).of_run hfirst
    rw [List.all_cons, Bool.and_eq_true] at hall
    obtain rfl : holds = true := hall.1
    exact List.forall_mem_cons.2 ⟨hfirst, ih hothers hall.2⟩

theorem run_of_approved (h : Approved r s) :
    (transactWriteItems r).run s = (carryAll (writes r) >>= fun _ => pure {}).run s := by
  have hall : (r.entries.map fun _ => true).all id = true := by simp
  rw [transactWriteItems, Outcome.run_bind, mapM_of_approved h]
  simp only [hall, if_true, forM_writeMember]
  rfl

theorem refused_of_not_approved (h : ¬ Approved r s) : ∃ e, (transactWriteItems r).run s = (.error e, s) := by
  have hreads := Reads.mapM reads_conditionHolds r.entries s
  rw [transactWriteItems, Outcome.run_bind]
  cases hrun : (r.entries.mapM conditionHolds).run s with
  | mk result between =>
    rw [hrun] at hreads
    obtain rfl : between = s := hreads
    cases result with
    | error e => exact ⟨e, rfl⟩
    | ok holding =>
      have hnot : ¬ holding.all id = true := fun hall => h (approved_of_mapM hrun hall)
      simp only [hnot]
      exact ⟨.cancelled holding, rfl⟩

theorem run_carryAll_cons : (carryAll (w :: ws)).run s = (w.carry >>= fun _ => carryAll ws).run s := by
  rw [carryAll, List.forM_eq_forM, List.forM_cons]
  rfl

/-- Of writes that are not all carried out, those before the first refused one are what has been changed. -/
theorem of_carryAll_error (h : (carryAll ws).run s = (.error e, s')) :
    ∃ done w rest, ws = done ++ w :: rest ∧ (carryAll done).run s = (.ok (), s') ∧ w.carry.run s' = (.error e, s') := by
  induction ws generalizing s with
  | nil => cases h
  | cons w rest ih =>
    rw [run_carryAll_cons, Outcome.run_bind] at h
    cases hrun : w.carry.run s with
    | mk result between =>
      rw [hrun] at h
      cases result with
      | error e' =>
        obtain ⟨he, rfl⟩ := Prod.mk.inj h
        obtain rfl := Except.error.inj he
        obtain rfl := w.carry_atomic s e' _ hrun
        exact ⟨[], w, rest, rfl, rfl, hrun⟩
      | ok u =>
        obtain ⟨done, v, others, hws, hdone, hv⟩ := ih h
        refine ⟨w :: done, v, others, by rw [hws, List.cons_append], ?_, hv⟩
        rw [run_carryAll_cons, Outcome.run_bind, hrun]
        exact hdone

theorem carryAll_error (hdone : (carryAll done).run s = (.ok (), s')) (hw : w.carry.run s' = (.error e, s')) :
    (carryAll (done ++ w :: rest)).run s = (.error e, s') := by
  induction done generalizing s with
  | nil =>
    cases hdone
    rw [List.nil_append, run_carryAll_cons, Outcome.run_bind, hw]
  | cons first others ih =>
    rw [run_carryAll_cons] at hdone
    obtain ⟨u, between, hfirst, hothers⟩ := Outcome.of_run_bind hdone
    rw [List.cons_append, run_carryAll_cons, Outcome.run_bind, hfirst]
    exact ih hothers

theorem error_iff_of_approved (h : Approved r s) : (transactWriteItems r).run s = (.error e, s') ↔
    ∃ done w rest, writes r = done ++ w :: rest ∧ (carryAll done).run s = (.ok (), s') ∧
      w.carry.run s' = (.error e, s') := by
  have hcarried : (transactWriteItems r).run s = (.error e, s') ↔ (carryAll (writes r)).run s = (.error e, s') := by
    rw [run_of_approved h, Outcome.run_bind]
    cases hrun : (carryAll (writes r)).run s with
    | mk result between =>
      cases result <;> constructor <;> intro hfailed <;> cases hfailed <;> rfl
  rw [hcarried]
  constructor
  · exact of_carryAll_error
  · intro hws
    obtain ⟨done, w, rest, hws, hdone, hw⟩ := hws
    rw [hws]
    exact carryAll_error hdone hw

end Serving

namespace MemoryStore

open Serving

theorem run_send (s : MemoryStore) (request : Request) : (send request).run s =
    (((respond request).run s.tables).1.mapError Refusal.error,
      { tables := ((respond request).run s.tables).2, received := s.received ++ [request.operation] }) := rfl

theorem run_transaction (s : MemoryStore) (r : Request.TransactWriteItems) :
    (respond (.transactWriteItems r)).run s.tables =
      (((transactWriteItems r).run s.tables).1.map .transactWriteItems, ((transactWriteItems r).run s.tables).2) := by
  rw [respond, ← bind_pure_comp, Outcome.run_bind]
  cases (transactWriteItems r).run s.tables with
  | mk result tables => cases result <;> rfl

/-- A refused transaction leaves the tables as they were just if the writes that are carried out before a refused one
change nothing. -/
theorem transaction_restores_iff (s : MemoryStore) (r : Request.TransactWriteItems) :
    (∀ failure s', (send (.transactWriteItems r)).run s = (.error failure, s') → s'.tables = s.tables) ↔
      (Approved r s.tables → ∀ done w rest tables e, writes r = done ++ w :: rest →
        (carryAll done).run s.tables = (.ok (), tables) → w.carry.run tables = (.error e, tables) →
          tables = s.tables) := by
  have hsend (e : Refusal) (tables : List (String × MemoryTable))
      (h : (transactWriteItems r).run s.tables = (.error e, tables)) : (send (.transactWriteItems r)).run s =
        (.error e.error, { tables, received := s.received ++ [.transactWriteItems] }) := by
    rw [run_send, run_transaction, h]
    rfl
  constructor
  · intro hrestores happroved done w rest tables e hws hdone hw
    have hrun := (error_iff_of_approved happroved).2 ⟨done, w, rest, hws, hdone, hw⟩
    exact hrestores _ _ (hsend e tables hrun)
  · intro hwrites failure s' h
    cases hrun : (transactWriteItems r).run s.tables with
    | mk result tables =>
      cases result with
      | ok answer =>
        rw [run_send, run_transaction, hrun] at h
        cases h
      | error e =>
        rw [hsend e tables hrun] at h
        obtain ⟨-, rfl⟩ := Prod.mk.inj h
        by_cases happroved : Approved r s.tables
        · obtain ⟨done, w, rest, hws, hdone, hw⟩ := (error_iff_of_approved happroved).1 hrun
          exact hwrites happroved done w rest tables e hws hdone hw
        · obtain ⟨e', hunchanged⟩ := refused_of_not_approved happroved
          rw [hrun] at hunchanged
          exact congrArg Prod.snd hunchanged

def accounts : MemoryStore where
  tables := [("accounts", { key := ["id"], items := [[("id", .s "a"), ("balance", .n "10")]] })]

def transfer : Request.TransactWriteItems where
  entries := [
    { put := some { tableName := "accounts", item := [("id", .s "a"), ("balance", .n "5")] } },
    { update := some {
        tableName := "accounts"
        key := [("id", .s "b")]
        update := some "SET #n0 = #n0 + :v1"
        names := [("#n0", "balance")]
        values := [(":v1", .n "5")] } }]

theorem transfer_not_restored : ¬ ∀ (s s' : MemoryStore) (r : Request.TransactWriteItems) (failure : StoreFailure),
    (send (.transactWriteItems r)).run s = (.error failure, s') → s'.tables = s.tables := by
  intro hrestores
  have hrefused : ∃ s', (send (.transactWriteItems transfer)).run accounts =
      (.error (Refusal.error (.notSet "balance")), s') ∧
        s'.items "accounts" = [[("id", .s "a"), ("balance", .n "5")]] := ⟨_, rfl, rfl⟩
  obtain ⟨s', hrun, hitems⟩ := hrefused
  have hsame := hrestores accounts s' transfer _ hrun
  rw [items, hsame] at hitems
  simp [accounts, Entries.get?] at hitems

end MemoryStore

end ItemMapper
