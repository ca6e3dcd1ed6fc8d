import ItemMapper.Mapper.Batch
import ItemMapper.Mapper.Search
import ItemMapper.Mapper.Transaction
import ItemMapper.Proofs.Rendered

/-!
# Exact tokens

Every request that a mapper builds carries the names and the values of just the tokens in its expressions, and the
tokens first occur in the order of their numbers. The store refuses an expression with a token that is not defined, as
it does a token that is not used.
-/

namespace ItemMapper

def firstTokens (texts : List (Option String)) : List String :=
  (texts.flatMap fun text => text.toList.flatMap (tokensIn ·.toList)).eraseDups

/-- The tokens of some expressions are numbered without a gap as they first occur, and the tables hold just them. -/
def Tokens.Exact (texts : List (Option String)) (names : List (String × String)) (values : List (String × Wire)) : Prop :=
  Numbered (firstTokens texts) names values

namespace Request

def Get.ExactTokens (r : Get) : Prop := Tokens.Exact [r.projection] r.names []

def PutItem.ExactTokens (r : PutItem) : Prop := Tokens.Exact [r.condition] r.names r.values

def DeleteItem.ExactTokens (r : DeleteItem) : Prop := Tokens.Exact [r.condition] r.names r.values

def UpdateItem.ExactTokens (r : UpdateItem) : Prop := Tokens.Exact [r.update, r.condition] r.names r.values

def ConditionCheck.ExactTokens (r : ConditionCheck) : Prop := Tokens.Exact [r.condition] r.names r.values

def TransactWriteEntry.ExactTokens (e : TransactWriteEntry) : Prop :=
  (∀ c ∈ e.check, c.ExactTokens) ∧ (∀ p ∈ e.put, p.ExactTokens) ∧ (∀ d ∈ e.delete, d.ExactTokens) ∧
    ∀ u ∈ e.update, u.ExactTokens

/-- The expressions of each part with tables of its own, in the order in which their tokens are taken. A batch of writes
has none. -/
def ExactTokens : Request → Prop
  | putItem r => r.ExactTokens
  | getItem r => Tokens.Exact [r.projection] r.names []
  | updateItem r => r.ExactTokens
  | deleteItem r => r.ExactTokens
  | query r => Tokens.Exact [r.projection, r.keyCondition, r.filter] r.names r.values
  | scan r => Tokens.Exact [r.filter, r.projection] r.names r.values
  | batchGetItem r => ∀ e ∈ r.requestItems, Tokens.Exact [e.2.projection] e.2.names []
  | batchWriteItem _ => True
  | transactGetItems r => ∀ e ∈ r.entries, e.get.ExactTokens
  | transactWriteItems r => ∀ e ∈ r.entries, e.ExactTokens

end Request

namespace Mapper

/-- The requests with expressions that a mapper builds, from whatever it is called with and in whatever state. -/
inductive Builds (m : Mapper) : Request → Prop
  | put {item condition options s s' x} (h : (m.put item condition options).run s = (.ok x, s')) : Builds m x.request
  | get {key options s s' x} (h : (m.get key options).run s = (.ok x, s')) : Builds m x.request
  | update {filter change options s s' x} (h : (m.update filter change options).run s = (.ok x, s')) :
    Builds m x.request
  | delete {filter options s s' x} (h : (m.delete filter options).run s = (.ok x, s')) : Builds m x.request
  | query {index filter options s s' x} (h : (m.query index filter options).run s = (.ok x, s')) : Builds m x.request
  | scan {index filter options s s' x} (h : (m.scan index filter options).run s = (.ok x, s')) : Builds m x.request
  | batchGet {keys options s s' x} (h : (m.batchGet keys options).run s = (.ok x, s')) : Builds m x.request
  | transactGet {keys options s s' x} (h : (m.transactGet keys options).run s = (.ok x, s')) : Builds m x.request
  | transactWrite {members options s s' x} (h : (m.transactWrite members options).run s = (.ok x, s')) :
    Builds m x.request

variable {α : Type} {m : Mapper} {t t' : Tokens} {s s' : Session} {texts : List (Option String)} {text : Option String}

theorem tokens_indexed : Tokens.Indexed (firstTokens []) m.tokens := .new

theorem indexed_concat {tokens : List String} (hn : Tokens.Indexed (firstTokens texts) t)
    (htokens : tokens = text.toList.flatMap (tokensIn ·.toList))
    (h : Tokens.Indexed (firstTokens texts ++ tokens).eraseDups t') : Tokens.Indexed (firstTokens (texts ++ [text])) t' := by
  rw [firstTokens, List.flatMap_append, List.flatMap_singleton]
  rwa [htokens, firstTokens, eraseDups_append_of_nodup hn.nodup] at h

theorem of_rendered {r : Rendering α} {a : α} (h : (Mapping.rendered r t).run s = (.ok (a, t'), s')) :
    r.run t = (.ok a, t') := by
  simp only [Mapping.rendered, ExceptT.run] at h
  cases hr : r t with
  | mk x u =>
    rw [hr] at h
    cases x with
    | ok b =>
      cases h
      exact hr
    | error e => cases h

theorem condition_indexed {c : Condition} {text : String} (hn : Tokens.Indexed (firstTokens texts) t)
    (h : c.render.run t = (.ok text, t')) : Tokens.Indexed (firstTokens (texts ++ [some text])) t' := by
  obtain ⟨-, hissue⟩ := Rendering.render_spells c t text t' h
  obtain ⟨tokens, -, hnum, htokens⟩ := hissue _ hn
  exact indexed_concat hn (by simp [(htokens t' .refl).1]) hnum

theorem update_indexed {u : Update} (hn : Tokens.Indexed (firstTokens texts) t) (h : u.render.run t = (.ok text, t')) :
    Tokens.Indexed (firstTokens (texts ++ [text])) t' := by
  obtain ⟨-, hissue⟩ := Rendering.update_spells u t text t' h
  obtain ⟨tokens, -, hnum, htokens⟩ := hissue _ hn
  exact indexed_concat hn (htokens t' .refl).1 hnum

theorem conditionText_indexed {doc : Value} (hn : Tokens.Indexed (firstTokens texts) t)
    (h : (m.conditionText doc t).run s = (.ok (text, t'), s')) : Tokens.Indexed (firstTokens (texts ++ [text])) t' := by
  rw [conditionText] at h
  obtain ⟨c, s₁, -, h⟩ := Mapping.of_bind h
  cases c with
  | none =>
    obtain ⟨he, -⟩ := Mapping.of_pure h
    cases he
    exact indexed_concat hn rfl (by simpa [eraseDups_of_nodup hn.nodup] using hn)
  | some c =>
    obtain ⟨⟨body, t₁⟩, s₂, hbody, h⟩ := Mapping.of_bind h
    obtain ⟨he, -⟩ := Mapping.of_pure h
    cases he
    exact condition_indexed hn (of_rendered hbody)

theorem addPaths_indexed {paths parts : List String} {issued : List String} (hn : Tokens.Indexed issued t)
    (h : (addPaths paths t).run s = (.ok (parts, t'), s')) :
    Tokens.Indexed (issued ++ parts.flatMap (tokensIn ·.toList)).eraseDups t' ∧ t'.values = t.values := by
  induction paths generalizing t parts issued s with
  | nil =>
    obtain ⟨he, -⟩ := Mapping.of_pure h
    cases he
    exact ⟨by simpa [eraseDups_of_nodup hn.nodup] using hn, rfl⟩
  | cons path rest ih =>
    rw [addPaths] at h
    obtain ⟨p, s₁, -, h⟩ := Mapping.of_bind h
    obtain ⟨⟨others, t₂⟩, s₂, hothers, h⟩ := Mapping.of_bind h
    obtain ⟨he, rfl⟩ := Mapping.of_pure h
    cases he
    have hothers : (addPaths rest (t.addPath p).2).run s₁ = (.ok (others, t'), s₂) := hothers
    obtain ⟨-, hissue⟩ := Rendering.path_spells p t (t.addPath p).1 (t.addPath p).2 rfl
    obtain ⟨tokens, -, hnum, htokens⟩ := hissue issued hn
    obtain ⟨hnum', hvalues⟩ := ih hnum hothers
    obtain ⟨rfl, -⟩ := htokens _ .refl
    refine ⟨?_, hvalues.trans Tokens.addPath_values⟩
    rwa [eraseDups_append_of_nodup hnum.nodup, List.append_assoc] at hnum'

theorem projectionText_indexed {paths : List String} (hn : Tokens.Indexed (firstTokens texts) t)
    (h : (projectionText paths t).run s = (.ok (text, t'), s')) :
    Tokens.Indexed (firstTokens (texts ++ [text])) t' ∧ t'.values = t.values := by
  rw [projectionText] at h
  obtain ⟨⟨parts, t₁⟩, s₁, hparts, h⟩ := Mapping.of_bind h
  obtain ⟨he, -⟩ := Mapping.of_pure h
  cases he
  obtain ⟨hnum, hvalues⟩ := addPaths_indexed hn hparts
  refine ⟨indexed_concat hn ?_ hnum, hvalues⟩
  by_cases hp : parts = []
  · simp [hp]
  · have hlist : tokensIn (String.intercalate ", " parts).toList = parts.flatMap (tokensIn ·.toList) := by
      rw [String.toList_intercalate, tokensIn_intercalate (by decide), List.flatMap_map]
    rw [if_neg (by simpa using hp), Option.toList_some, List.flatMap_singleton, hlist]

theorem projectionText_exact {paths : List String} (h : (projectionText paths m.tokens).run s = (.ok (text, t'), s')) :
    Tokens.Exact [text] t'.names [] := by
  obtain ⟨hindexed, hvalues⟩ := projectionText_indexed tokens_indexed h
  have hexact := hindexed.toNumbered
  rwa [hvalues] at hexact

theorem putRequest_exact {item prepared : Value} {condition : Option Value} {options : WriteOptions}
    {r : Request.PutItem} (h : (m.putRequest item condition options).run s = (.ok (r, prepared), s')) :
    r.ExactTokens := by
  rw [putRequest] at h
  obtain ⟨_, s₁, -, h⟩ := Mapping.of_bind h
  cases condition with
  | none =>
    obtain ⟨⟨text, t⟩, s₂, htext, h⟩ := Mapping.of_bind h
    obtain ⟨he, -⟩ := Mapping.of_pure htext
    obtain ⟨stored, s₃, -, h⟩ := Mapping.of_bind h
    obtain ⟨he', -⟩ := Mapping.of_pure h
    cases he
    cases he'
    exact Tokens.Numbered.nil
  | some doc =>
    obtain ⟨⟨text, t⟩, s₂, htext, h⟩ := Mapping.of_bind h
    obtain ⟨stored, s₃, -, h⟩ := Mapping.of_bind h
    obtain ⟨he, -⟩ := Mapping.of_pure h
    cases he
    exact (conditionText_indexed tokens_indexed htext).toNumbered

theorem updateRequest_exact {filter change : Value} {options : WriteOptions} {r : Request.UpdateItem}
    (h : (m.updateRequest filter change options).run s = (.ok r, s')) : r.ExactTokens := by
  rw [updateRequest] at h
  obtain ⟨u, s₁, -, h⟩ := Mapping.of_bind h
  obtain ⟨⟨text, t₁⟩, s₂, htext, h⟩ := Mapping.of_bind h
  obtain ⟨⟨key, condition⟩, s₃, -, h⟩ := Mapping.of_bind h
  obtain ⟨⟨condition', t₂⟩, s₄, hcondition, h⟩ := Mapping.of_bind h
  obtain ⟨_, s₅, -, h⟩ := Mapping.of_bind h
  obtain ⟨rfl, -⟩ := Mapping.of_pure h
  exact (conditionText_indexed (update_indexed tokens_indexed (of_rendered htext)) hcondition).toNumbered

theorem deleteRequest_exact {filter : Value} {options : WriteOptions} {r : Request.DeleteItem}
    (h : (m.deleteRequest filter options).run s = (.ok r, s')) : r.ExactTokens := by
  rw [deleteRequest] at h
  obtain ⟨⟨key, condition⟩, s₁, -, h⟩ := Mapping.of_bind h
  obtain ⟨_, s₂, -, h⟩ := Mapping.of_bind h
  obtain ⟨⟨condition', t₁⟩, s₃, hcondition, h⟩ := Mapping.of_bind h
  obtain ⟨rfl, -⟩ := Mapping.of_pure h
  exact (conditionText_indexed tokens_indexed hcondition).toNumbered

theorem get_exact {key : Value} {options : ReadOptions} {x : Exchange GetOutcome}
    (h : (m.get key options).run s = (.ok x, s')) : x.request.ExactTokens := by
  rw [get] at h
  obtain ⟨⟨projection, t⟩, s₁, hprojection, h⟩ := Mapping.of_bind h
  obtain ⟨_, s₂, -, h⟩ := Mapping.of_bind h
  obtain ⟨rfl, -⟩ := Mapping.of_pure h
  exact projectionText_exact hprojection

theorem query_exact {index : Option IndexKey} {filter : Value} {options : ReadOptions} {x : Exchange SearchOutcome}
    (h : (m.query index filter options).run s = (.ok x, s')) : x.request.ExactTokens := by
  unfold query at h
  obtain ⟨⟨projection, t₁⟩, s₁, hprojection, h⟩ := Mapping.of_bind h
  obtain ⟨⟨key, rest⟩, s₂, -, h⟩ := Mapping.of_bind h
  obtain ⟨⟨keyCondition, t₂⟩, s₃, hkey, h⟩ := Mapping.of_bind h
  obtain ⟨⟨restText, t₃⟩, s₄, hrest, h⟩ := Mapping.of_bind h
  obtain ⟨_, s₅, -, h⟩ := Mapping.of_bind h
  obtain ⟨rfl, -⟩ := Mapping.of_pure h
  obtain ⟨hprojected, -⟩ := projectionText_indexed tokens_indexed hprojection
  exact (conditionText_indexed (conditionText_indexed hprojected hkey) hrest).toNumbered

theorem scan_exact {index : Option IndexKey} {filter : Value} {options : ReadOptions} {x : Exchange SearchOutcome}
    (h : (m.scan index filter options).run s = (.ok x, s')) : x.request.ExactTokens := by
  rw [scan] at h
  obtain ⟨⟨text, t₁⟩, s₁, hfilter, h⟩ := Mapping.of_bind h
  obtain ⟨⟨projection, t₂⟩, s₂, hprojection, h⟩ := Mapping.of_bind h
  obtain ⟨_, s₃, -, h⟩ := Mapping.of_bind h
  obtain ⟨rfl, -⟩ := Mapping.of_pure h
  exact (projectionText_indexed (conditionText_indexed tokens_indexed hfilter) hprojection).1.toNumbered

theorem batchGet_exact {keys : List Value} {options : ReadOptions} {x : Exchange BatchGetOutcome}
    (h : (m.batchGet keys options).run s = (.ok x, s')) : x.request.ExactTokens := by
  rw [batchGet] at h
  obtain ⟨_, s₁, -, h⟩ := Mapping.of_bind h
  obtain ⟨⟨projection, t⟩, s₂, hprojection, h⟩ := Mapping.of_bind h
  obtain ⟨_, s₃, -, h⟩ := Mapping.of_bind h
  obtain ⟨rfl, -⟩ := Mapping.of_pure h
  rintro e he
  obtain rfl := List.mem_singleton.1 he
  exact projectionText_exact hprojection

theorem transactGetEntry_exact {shared : Option String × Tokens} {key : Value} {e : Request.TransactGetEntry}
    (hs : Tokens.Exact [shared.1] shared.2.names []) (h : (m.transactGetEntry shared key).run s = (.ok e, s')) :
    e.get.ExactTokens := by
  rw [transactGetEntry] at h
  split at h
  · obtain ⟨paths, s₁, -, h⟩ := Mapping.of_bind h
    obtain ⟨⟨projection, t⟩, s₂, hprojection, h⟩ := Mapping.of_bind h
    obtain ⟨_, s₃, -, h⟩ := Mapping.of_bind h
    obtain ⟨rfl, -⟩ := Mapping.of_pure h
    exact projectionText_exact hprojection
  · obtain ⟨_, s₁, -, h⟩ := Mapping.of_bind h
    obtain ⟨rfl, -⟩ := Mapping.of_pure h
    exact hs

theorem transactGet_exact {keys : List Value} {options : ReadOptions} {x : Exchange TransactGetOutcome}
    (h : (m.transactGet keys options).run s = (.ok x, s')) : x.request.ExactTokens := by
  rw [transactGet] at h
  obtain ⟨shared, s₁, hshared, h⟩ := Mapping.of_bind h
  obtain ⟨entries, s₂, hentries, h⟩ := Mapping.of_bind h
  obtain ⟨rfl, -⟩ := Mapping.of_pure h
  exact Outcome.forall_of_run_mapM hentries fun _ _ _ _ => transactGetEntry_exact (projectionText_exact hshared)

theorem updateRequest_update_none {filter : Value} {options : WriteOptions} {r : Request.UpdateItem}
    (h : (m.updateRequest filter (.map []) options).run s = (.ok r, s')) : r.update = none := by
  rw [updateRequest] at h
  obtain ⟨u, s₁, hu, h⟩ := Mapping.of_bind h
  obtain ⟨⟨text, t₁⟩, s₂, htext, h⟩ := Mapping.of_bind h
  obtain ⟨⟨key, condition⟩, s₃, -, h⟩ := Mapping.of_bind h
  obtain ⟨⟨condition', t₂⟩, s₄, -, h⟩ := Mapping.of_bind h
  obtain ⟨_, s₅, -, h⟩ := Mapping.of_bind h
  obtain ⟨rfl, -⟩ := Mapping.of_pure h
  have hempty : u = {} := by
    cases hu
    rfl
  subst hempty
  have hnone := of_rendered htext
  cases hnone
  rfl

theorem checkEntry_exact {c : CheckMember} {e : Request.TransactWriteEntry} (h : (m.checkEntry c).run s = (.ok e, s')) :
    e.ExactTokens := by
  rw [checkEntry] at h
  obtain ⟨u, s₁, hu, h⟩ := Mapping.of_bind h
  obtain ⟨rfl, -⟩ := Mapping.of_pure h
  refine ⟨?_, ?_, ?_, ?_⟩ <;> rintro _ ⟨⟩
  have hexact := updateRequest_exact hu
  rw [Request.UpdateItem.ExactTokens, updateRequest_update_none hu] at hexact
  exact hexact

theorem putEntry_exact {context : Value} {p : PutMember} {e : Request.TransactWriteEntry}
    (h : (m.putEntry context p).run s = (.ok e, s')) : e.ExactTokens := by
  rw [putEntry] at h
  obtain ⟨⟨r, prepared⟩, s₁, hr, h⟩ := Mapping.of_bind h
  obtain ⟨rfl, -⟩ := Mapping.of_pure h
  refine ⟨?_, ?_, ?_, ?_⟩ <;> rintro _ ⟨⟩
  exact putRequest_exact hr

theorem deleteEntry_exact {d : DeleteMember} {e : Request.TransactWriteEntry}
    (h : (m.deleteEntry d).run s = (.ok e, s')) : e.ExactTokens := by
  rw [deleteEntry] at h
  obtain ⟨r, s₁, hr, h⟩ := Mapping.of_bind h
  obtain ⟨rfl, -⟩ := Mapping.of_pure h
  refine ⟨?_, ?_, ?_, ?_⟩ <;> rintro _ ⟨⟩
  exact deleteRequest_exact hr

theorem updateEntry_exact {u : UpdateMember} {e : Request.TransactWriteEntry}
    (h : (m.updateEntry u).run s = (.ok e, s')) : e.ExactTokens := by
  rw [updateEntry] at h
  obtain ⟨r, s₁, hr, h⟩ := Mapping.of_bind h
  obtain ⟨rfl, -⟩ := Mapping.of_pure h
  refine ⟨?_, ?_, ?_, ?_⟩ <;> rintro _ ⟨⟩
  exact updateRequest_exact hr

theorem transactWrite_exact {members : TransactionMembers} {options : TransactionOptions}
    {x : Exchange Response.TransactWriteItems} (h : (m.transactWrite members options).run s = (.ok x, s')) :
    x.request.ExactTokens := by
  rw [transactWrite] at h
  obtain ⟨checks, s₁, hchecks, h⟩ := Mapping.of_bind h
  obtain ⟨puts, s₂, hputs, h⟩ := Mapping.of_bind h
  obtain ⟨deletes, s₃, hdeletes, h⟩ := Mapping.of_bind h
  obtain ⟨updates, s₄, hupdates, h⟩ := Mapping.of_bind h
  obtain ⟨rfl, -⟩ := Mapping.of_pure h
  intro e he
  simp only [List.mem_append] at he
  rcases he with ((he | he) | he) | he
  · exact Outcome.forall_of_run_mapM hchecks (fun _ _ _ _ => checkEntry_exact) e he
  · exact Outcome.forall_of_run_mapM hputs (fun _ _ _ _ => putEntry_exact) e he
  · exact Outcome.forall_of_run_mapM hdeletes (fun _ _ _ _ => deleteEntry_exact) e he
  · exact Outcome.forall_of_run_mapM hupdates (fun _ _ _ _ => updateEntry_exact) e he

/-- The tables of every request that is built hold just the tokens of its expressions, which are numbered in order. -/
theorem built_exactTokens {r : Request} (h : m.Builds r) : r.ExactTokens := by
  cases h with
  | put h =>
    obtain ⟨⟨r, prepared⟩, s₁, hr, h⟩ := Mapping.of_bind h
    obtain ⟨rfl, -⟩ := Mapping.of_pure h
    exact putRequest_exact hr
  | update h =>
    obtain ⟨r, s₁, hr, h⟩ := Mapping.of_bind h
    obtain ⟨rfl, -⟩ := Mapping.of_pure h
    exact updateRequest_exact hr
  | delete h =>
    obtain ⟨r, s₁, hr, h⟩ := Mapping.of_bind h
    obtain ⟨rfl, -⟩ := Mapping.of_pure h
    exact deleteRequest_exact hr
  | get h => exact get_exact h
  | query h => exact query_exact h
  | scan h => exact scan_exact h
  | batchGet h => exact batchGet_exact h
  | transactGet h => exact transactGet_exact h
  | transactWrite h => exact transactWrite_exact h

def counters : Mapper where
  table := "counters"
  schema := .compiled [
      ("id", .typed .string none none false { memberships := { primary := true } }),
      ("state", .typed .string none none false {}),
      ("count", .typed .number none none false {})]

def closing : Value := .map [("$set", .map [("state", .string "closed")]), ("count", .map [("$incr", .number (.ofInt 1))])]

def openCounter : Value := .map [("id", .string "a"), ("state", .string "open")]

theorem closing_exactTokens : ∃ r, counters.Builds (.updateItem r) ∧ r.update = some "SET #n0 = :v1, #n2 = #n2 + :v3" ∧
    r.condition = some "#n0 = :v4" ∧ r.ExactTokens := by
  have htexts : ((counters.updateRequest openCounter closing {}).run {}).1.toOption.map (fun r => (r.update, r.condition)) =
      some (some "SET #n0 = :v1, #n2 = #n2 + :v3", some "#n0 = :v4") := by decide +kernel
  cases h : (counters.updateRequest openCounter closing {}).run {} with
  | mk result s =>
    rw [h] at htexts
    cases result with
    | error e => cases htexts
    | ok r =>
      have hupdate : ∃ x, (counters.update openCounter closing {}).run {} = (.ok x, s) ∧ x.request = .updateItem r := by
        rw [update, Outcome.run_bind, h]
        exact ⟨_, rfl, rfl⟩
      obtain ⟨x, hx, hr⟩ := hupdate
      have hbuilds : counters.Builds (.updateItem r) := hr ▸ .update hx
      obtain ⟨hu, hc⟩ := Prod.mk.inj (Option.some.inj htexts)
      exact ⟨r, hbuilds, hu, hc, built_exactTokens hbuilds⟩

end Mapper

end ItemMapper
