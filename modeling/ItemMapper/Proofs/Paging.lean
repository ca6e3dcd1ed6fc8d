import ItemMapper.Proofs.KeyedStores

/-!
# Pages of a search

A query or a scan with a limit answers with one page of its items and, unless they are through, the key to go on behind.
In a sound table that key stands before exactly the items that are left. So the pages that follow one another come to an
end, and together they hold what the search without a limit finds.
-/

namespace ItemMapper

namespace MemoryTable

variable {t : MemoryTable} {x y last key : Item} {candidates others before after : List Item}

structure Listed (t : MemoryTable) (candidates : List Item) : Prop where
  wellKeyed : ∀ x ∈ candidates, x.WellKeyed
  complete : ∀ x ∈ candidates, t.Complete x
  distinct : candidates.Pairwise fun x y => t.sameKey x y = false

theorem Sound.listed (h : t.Sound) : t.Listed t.items := ⟨h.wellKeyed, h.complete, h.distinct⟩

namespace Listed

theorem sublist (h : t.Listed candidates) (hsub : others.Sublist candidates) : t.Listed others :=
  ⟨fun x hx => h.wellKeyed x (hsub.subset hx), fun x hx => h.complete x (hsub.subset hx), h.distinct.sublist hsub⟩

theorem reverse (h : t.Listed candidates) : t.Listed candidates.reverse := by
  refine ⟨fun x hx => h.wellKeyed x (List.mem_reverse.1 hx), fun x hx => h.complete x (List.mem_reverse.1 hx), ?_⟩
  rw [List.pairwise_reverse]
  refine h.distinct.imp_of_mem fun {x y} _ hy hxy => ?_
  by_contra hyx
  rw [sameKey_symm (h.wellKeyed y hy) (by simpa using hyx)] at hxy
  cases hxy

theorem key_ne_nil (h : t.Listed (before ++ last :: after)) (hafter : after ≠ []) (hkey : t.keyOf last = .ok key) :
    key ≠ [] := by
  rintro rfl
  obtain ⟨next, rest, rfl⟩ := List.exists_cons_of_ne_nil hafter
  have hdiffer : t.sameKey last next = false :=
    (List.pairwise_cons.1 (List.pairwise_append.1 h.distinct).2.1).1 next List.mem_cons_self
  have hnone : t.key = [] := by
    refine List.eq_nil_iff_forall_not_mem.2 fun name hname => ?_
    have hhas := h.complete last (by simp) name hname
    rw [Entries.has, ← get?_keyOf hkey hname] at hhas
    cases hhas
  rw [sameKey, hnone] at hdiffer
  cases hdiffer

theorem remaining_eq (h : t.Listed (before ++ last :: after)) (hafter : after ≠ []) (hkey : t.keyOf last = .ok key) :
    Serving.remaining t key (before ++ last :: after) = after := by
  have hne := h.key_ne_nil hafter hkey
  have hearlier : ∀ x ∈ before, t.sameKey x key = false := by
    intro x hx
    rw [sameKey_keyOf hkey]
    exact (List.pairwise_append.1 h.distinct).2.2 x hx last List.mem_cons_self
  have hself : t.sameKey last key = true := by
    rw [sameKey_keyOf hkey]
    exact sameKey_self (h.wellKeyed last (by simp))
  have hplace : (before ++ last :: after).findIdx? (fun x => t.sameKey x key) = some before.length := by
    have hnone : before.findIdx? (fun x => t.sameKey x key) = none := by
      rw [List.findIdx?_eq_none_iff]
      exact hearlier
    rw [List.findIdx?_append, hnone, List.findIdx?_cons, hself]
    simp
  have hsplit : before ++ last :: after = (before ++ [last]) ++ after := by simp
  rw [Serving.remaining, if_neg (by simpa using hne), hplace]
  simp only [hsplit]
  exact List.drop_left' (by simp)

end Listed

end MemoryTable

namespace Serving

open MemoryTable

variable {b : Bindings} {condition : Option String} {t : MemoryTable} {candidates found before rest : List Item}
  {r : PageQuery} {p : Page} {n : Nat} {s s' : List (String × MemoryTable)}

def Answers (b : Bindings) (condition : Option String) (items : List Item) : Prop :=
  ∀ x ∈ items, ∃ r, b.holds (some x) condition = .ok r

def meets (b : Bindings) (condition : Option String) (item : Item) : Bool :=
  (b.holds (some item) condition).toOption.getD false

theorem select_of_answers (h : Answers b condition candidates) :
    (select b condition candidates).run s = (.ok (candidates.filter (meets b condition)), s) := by
  induction candidates with
  | nil => rfl
  | cons x rest ih =>
    obtain ⟨⟨holds, hx⟩, hrest⟩ := List.forall_mem_cons.1 h
    have hmeets : meets b condition x = holds := by rw [meets, hx]; rfl
    rw [select, Outcome.run_bind, hx]
    change (select b condition rest >>= fun others => pure (if holds then x :: others else others)).run s = _
    rw [Outcome.run_bind, ih hrest, List.filter_cons, hmeets]
    rfl

theorem of_select (h : (select b condition candidates).run s = (.ok found, s')) :
    Answers b condition candidates ∧ found = candidates.filter (meets b condition) := by
  have hanswers : Answers b condition candidates := by
    induction candidates generalizing found s s' with
    | nil => exact fun x hx => absurd hx List.not_mem_nil
    | cons x rest ih =>
      rw [select] at h
      obtain ⟨holds, s₁, hx, h⟩ := Outcome.of_run_bind h
      obtain ⟨others, s₂, hrest, -⟩ := Outcome.of_run_bind h
      exact List.forall_mem_cons.2 ⟨⟨holds, of_ofExcept hx⟩, ih hrest⟩
  refine ⟨hanswers, ?_⟩
  rw [select_of_answers hanswers] at h
  cases h
  rfl

def shown (r : PageQuery) (scanned : List Item) : List Item :=
  if r.select = some .count then []
  else (scanned.filter (meets r.bindings r.filter)).map (MemoryExpression.project r.bindings r.projection)

def pageOf (r : PageQuery) (scanned : List Item) (lastKey : Item) : Page where
  items := shown r scanned
  count := counted (scanned.filter (meets r.bindings r.filter))
  scannedCount := counted scanned
  lastKey

theorem shown_append : shown r (before ++ rest) = shown r before ++ shown r rest := by
  rw [shown, shown, shown]
  split
  · rfl
  · rw [List.filter_append, List.map_append]

def lastKeyOf (t : MemoryTable) (rest scanned : List Item) : Serving Item :=
  match scanned.getLast? with
  | some last => if scanned.length < rest.length then keyOf t last else return []
  | none => return []

theorem page_eq : page t r candidates =
    (lastKeyOf t (remaining t r.start candidates) (limited r.limit (remaining t r.start candidates)) >>= fun lastKey =>
      select r.bindings r.filter (limited r.limit (remaining t r.start candidates)) >>= fun found => pure {
        items := if r.select = some .count then [] else found.map (MemoryExpression.project r.bindings r.projection)
        count := counted found
        scannedCount := counted (limited r.limit (remaining t r.start candidates))
        lastKey }) := by
  cases hlast : (limited r.limit (remaining t r.start candidates)).getLast? with
  | none =>
    simp only [page, lastKeyOf, hlast]
  | some last =>
    simp only [page, lastKeyOf, hlast]
    split <;> rfl

theorem lastKeyOf_self : lastKeyOf t rest rest = pure [] := by
  rw [lastKeyOf]
  split
  · rw [if_neg (Nat.lt_irrefl _)]
  · rfl

theorem scanned_unlimited (hlimit : r.limit = none) (hstart : r.start = []) :
    remaining t r.start candidates = candidates ∧ limited r.limit candidates = candidates := by
  rw [hlimit, hstart]
  exact ⟨rfl, rfl⟩

theorem page_unlimited (hlimit : r.limit = none) (hstart : r.start = []) (h : Answers r.bindings r.filter candidates) :
    (page t r candidates).run s = (.ok (pageOf r candidates []), s) := by
  have ⟨hall, hscanned⟩ : remaining t r.start candidates = candidates ∧ limited r.limit candidates = candidates :=
    scanned_unlimited hlimit hstart
  rw [page_eq, hall, hscanned, lastKeyOf_self, pure_bind, Outcome.run_bind, select_of_answers h]
  rfl

theorem of_page_unlimited (hlimit : r.limit = none) (hstart : r.start = [])
    (h : (page t r candidates).run s = (.ok p, s')) :
    Answers r.bindings r.filter candidates ∧ p = pageOf r candidates [] := by
  have ⟨hall, hscanned⟩ : remaining t r.start candidates = candidates ∧ limited r.limit candidates = candidates :=
    scanned_unlimited hlimit hstart
  have hanswers : Answers r.bindings r.filter candidates := by
    rw [page_eq, hall, hscanned, lastKeyOf_self, pure_bind] at h
    obtain ⟨found, s₁, hfound, -⟩ := Outcome.of_run_bind h
    exact (of_select hfound).1
  rw [page_unlimited hlimit hstart hanswers] at h
  cases h
  exact ⟨hanswers, rfl⟩

theorem page_last (hlimit : r.limit = some (n : Int)) (hrest : remaining t r.start candidates = rest)
    (hn : rest.length ≤ n) (hanswers : Answers r.bindings r.filter rest) :
    (page t r candidates).run s = (.ok (pageOf r rest []), s) := by
  have hscanned : limited r.limit rest = rest := by
    rw [hlimit, limited, if_pos (Int.natCast_nonneg n), Int.toNat_natCast, List.take_of_length_le hn]
  rw [page_eq, hrest, hscanned, lastKeyOf_self, pure_bind, Outcome.run_bind, select_of_answers hanswers]
  rfl

theorem page_next {last key : Item} (hlimit : r.limit = some (n : Int))
    (hrest : remaining t r.start candidates = before ++ last :: rest) (hn : (before ++ [last]).length = n)
    (hleft : rest ≠ []) (hkey : t.keyOf last = .ok key) (hanswers : Answers r.bindings r.filter (before ++ [last])) :
    (page t r candidates).run s = (.ok (pageOf r (before ++ [last]) key), s) := by
  have hsplit : before ++ last :: rest = (before ++ [last]) ++ rest := by simp
  have hscanned : limited r.limit (before ++ last :: rest) = before ++ [last] := by
    rw [hlimit, limited, if_pos (Int.natCast_nonneg n), Int.toNat_natCast, hsplit, List.take_left' hn]
  have hmore : (before ++ [last]).length < (before ++ last :: rest).length := by
    have hpos := List.length_pos_of_ne_nil hleft
    simp only [List.length_append, List.length_cons, List.length_nil]
    omega
  have hgo : lastKeyOf t (before ++ last :: rest) (before ++ [last]) = pure key := by
    rw [lastKeyOf, List.getLast?_concat]
    simp only [hmore, if_true, keyOf, hkey]
  rw [page_eq, hrest, hscanned, hgo, pure_bind, Outcome.run_bind, select_of_answers hanswers]
  rfl

end Serving

inductive Search where
  | query (r : Request.Query)
  | scan (r : Request.Scan)

structure SearchPage where
  items : List Item
  count : Int
  scannedCount : Int
  lastKey : Item

namespace SearchPage

def ofResponse? : Response → Option SearchPage
  | .query r => some ⟨r.items, r.count, r.scannedCount, r.lastKey⟩
  | .scan r => some ⟨r.items, r.count, r.scannedCount, r.lastKey⟩
  | _ => none

def of (p : Serving.Page) : SearchPage := ⟨p.items, p.count, p.scannedCount, p.lastKey⟩

/-- Pages that follow one another, as one without a last key. -/
def concat (pages : List SearchPage) : SearchPage where
  items := pages.flatMap items
  count := pages.foldr (fun page n => page.count + n) 0
  scannedCount := pages.foldr (fun page n => page.scannedCount + n) 0
  lastKey := []

def saturated (p : SearchPage) : SearchPage :=
  { p with count := min p.count Serving.greatestCount, scannedCount := min p.scannedCount Serving.greatestCount }

end SearchPage

namespace Search

open Serving MemoryTable

def request (limit : Option Int) (startKey : Item) : Search → Request
  | query r => .query { r with limit, startKey }
  | scan r => .scan { r with limit, startKey }

def ask (q : Search) (limit : Option Int) (start : Item) : StateM MemoryStore (Option SearchPage) := fun s =>
  let (answer, s) := (MemoryStore.send (q.request limit start)).run s
  (answer.toOption.bind SearchPage.ofResponse?, s)

/-- The pages from a start key on, each asked for behind the last key of the one before, up to the first without one. -/
inductive Pages (q : Search) (limit : Option Int) : MemoryStore → Item → List SearchPage → MemoryStore → Prop
  | last {s s' : MemoryStore} {start : Item} {page : SearchPage} (h : (q.ask limit start).run s = (some page, s'))
      (hlast : page.lastKey = []) : Pages q limit s start [page] s'
  | next {s between s' : MemoryStore} {start : Item} {page : SearchPage} {pages : List SearchPage}
      (h : (q.ask limit start).run s = (some page, between)) (hmore : page.lastKey ≠ [])
      (hrest : Pages q limit between page.lastKey pages s') : Pages q limit s start (page :: pages) s'

theorem Pages.unique {q : Search} {limit : Option Int} {s s₁ s₂ : MemoryStore} {start : Item}
    {pages more : List SearchPage} (h : q.Pages limit s start pages s₁) (h' : q.Pages limit s start more s₂) :
    pages = more ∧ s₁ = s₂ := by
  induction h generalizing more with
  | last h hlast =>
    cases h' with
    | last h' _ =>
      rw [h] at h'
      cases h'
      exact ⟨rfl, rfl⟩
    | next h' hmore _ =>
      rw [h] at h'
      cases h'
      exact absurd hlast hmore
  | next h hmore _ ih =>
    cases h' with
    | last h' hlast =>
      rw [h] at h'
      cases h'
      exact absurd hlast hmore
    | next h' _ hrest =>
      rw [h] at h'
      cases h'
      obtain ⟨rfl, rfl⟩ := ih hrest
      exact ⟨rfl, rfl⟩

def tableName : Search → String
  | query r => r.tableName
  | scan r => r.tableName

def candidates (t : MemoryTable) : Search → Serving (List Item)
  | query r =>
    match r.keyCondition with
    | none => refuse .noKeyCondition
    | some condition => do
      let found ← select ⟨r.names, r.values⟩ (some condition) t.items
      return if r.forward = some false then found.reverse else found
  | scan _ => return t.items

def pageQuery (limit : Option Int) (start : Item) : Search → PageQuery
  | query r => ⟨⟨r.names, r.values⟩, r.filter, r.projection, limit, start, r.select⟩
  | scan r => ⟨⟨r.names, r.values⟩, r.filter, r.projection, limit, start, r.select⟩

def response (p : Page) : Search → Response
  | query _ => .query { items := p.items, count := p.count, scannedCount := p.scannedCount, lastKey := p.lastKey }
  | scan _ => .scan { items := p.items, count := p.count, scannedCount := p.scannedCount, lastKey := p.lastKey }

variable {q : Search} {limit : Option Int} {s s' : MemoryStore} {start key : Item} {t : MemoryTable} {p : Page}
  {before rest whole : List Item} {answer : SearchPage} {n : Nat}

theorem respond_request : respond (q.request limit start) = (table q.tableName >>= fun t => q.candidates t >>=
    fun items => page t (q.pageQuery limit start) items >>= fun p => pure (q.response p)) := by
  cases q with
  | query r =>
    rw [request, respond, Serving.query, map_bind]
    refine bind_congr fun t => ?_
    cases hcondition : r.keyCondition with
    | none =>
      simp only [candidates, hcondition]
      rfl
    | some condition => simp [candidates, hcondition, pageQuery, response]
  | scan r =>
    rw [request, respond, Serving.scan, map_bind]
    simp [candidates, pageQuery, response, tableName]

theorem reads_candidates : Reads (q.candidates t) := by
  cases q with
  | query r =>
    rw [candidates]
    split
    · exact .refuse _
    · exact (reads_select _).bind fun _ => .pure _
  | scan r => exact .pure _

theorem candidates_sublist {tables tables' : List (String × MemoryTable)}
    (hrun : (q.candidates t).run tables = (.ok whole, tables')) :
    whole.Sublist t.items ∨ whole.reverse.Sublist t.items := by
  cases q with
  | query r =>
    rw [candidates] at hrun
    split at hrun
    · cases hrun
    · obtain ⟨found, s₁, hfound, hrun⟩ := Outcome.of_run_bind hrun
      obtain ⟨-, rfl⟩ := of_select hfound
      cases hrun
      split
      · rw [List.reverse_reverse]
        exact .inr List.filter_sublist
      · exact .inl List.filter_sublist
  | scan r =>
    cases hrun
    exact .inl (List.Sublist.refl _)

theorem candidates_listed (h : t.Sound) {tables tables' : List (String × MemoryTable)}
    (hrun : (q.candidates t).run tables = (.ok whole, tables')) : t.Listed whole := by
  rcases candidates_sublist hrun with hsub | hsub
  · exact h.listed.sublist hsub
  · rw [← List.reverse_reverse whole]
    exact (h.listed.sublist hsub).reverse

theorem candidates_length_le {tables tables' : List (String × MemoryTable)}
    (hrun : (q.candidates t).run tables = (.ok whole, tables')) : whole.length ≤ t.items.length := by
  rcases candidates_sublist hrun with hsub | hsub
  · exact hsub.length_le
  · rw [← List.length_reverse]
    exact hsub.length_le

theorem send_of_page (ht : Entries.get? q.tableName s.tables = some t)
    (hwhole : (q.candidates t).run s.tables = (.ok whole, s.tables))
    (hpage : (page t (q.pageQuery limit start) whole).run s.tables = (.ok p, s.tables)) :
    (MemoryStore.send (q.request limit start)).run s = (.ok (q.response p),
      { tables := s.tables, received := s.received ++ [(q.request limit start).operation] }) := by
  have hrespond : (respond (q.request limit start)).run s.tables = (.ok (q.response p), s.tables) := by
    rw [respond_request, Outcome.run_bind, table_of_get? ht]
    simp only [Outcome.run_bind, hwhole, hpage]
    rfl
  rw [MemoryStore.run_send, hrespond]
  rfl

theorem ask_of_page (ht : Entries.get? q.tableName s.tables = some t)
    (hwhole : (q.candidates t).run s.tables = (.ok whole, s.tables))
    (hpage : (page t (q.pageQuery limit start) whole).run s.tables = (.ok p, s.tables)) :
    ∃ s', (q.ask limit start).run s = (some (.of p), s') ∧ s'.tables = s.tables := by
  refine ⟨{ tables := s.tables, received := s.received ++ [(q.request limit start).operation] }, ?_, rfl⟩
  change (((MemoryStore.send (q.request limit start)).run s).1.toOption.bind SearchPage.ofResponse?,
    ((MemoryStore.send (q.request limit start)).run s).2) = _
  rw [send_of_page ht hwhole hpage]
  cases q <;> rfl

theorem of_ask (h : (q.ask limit start).run s = (some answer, s')) : ∃ t whole p,
    Entries.get? q.tableName s.tables = some t ∧ (q.candidates t).run s.tables = (.ok whole, s.tables) ∧
      (page t (q.pageQuery limit start) whole).run s.tables = (.ok p, s.tables) ∧ answer = .of p := by
  cases hsend : (MemoryStore.send (q.request limit start)).run s with
  | mk result after =>
    have hask : (q.ask limit start).run s = (result.toOption.bind SearchPage.ofResponse?, after) := by
      change (((MemoryStore.send (q.request limit start)).run s).1.toOption.bind SearchPage.ofResponse?,
        ((MemoryStore.send (q.request limit start)).run s).2) = _
      rw [hsend]
    rw [hask] at h
    cases result with
    | error e => cases h
    | ok response =>
      have hrun := MemoryStore.of_send_ok hsend
      rw [respond_request] at hrun
      obtain ⟨t, s₁, ht, hrun⟩ := Outcome.of_run_bind hrun
      obtain ⟨whole, s₂, hwhole, hrun⟩ := Outcome.of_run_bind hrun
      obtain ⟨p, s₃, hpage, hrun⟩ := Outcome.of_run_bind hrun
      obtain ⟨hresponse, -⟩ := Prod.mk.inj hrun
      obtain rfl := Except.ok.inj hresponse
      obtain rfl := reads_table.of_run ht
      obtain rfl := reads_candidates.of_run hwhole
      obtain rfl := (reads_page _ _).of_run hpage
      refine ⟨t, whole, p, of_table ht, hwhole, hpage, ?_⟩
      cases q <;> exact (Option.some.inj (Prod.mk.inj h).1).symm

theorem concat_cons {page : SearchPage} {pages : List SearchPage} : SearchPage.concat (page :: pages) =
    ⟨page.items ++ (SearchPage.concat pages).items, page.count + (SearchPage.concat pages).count,
      page.scannedCount + (SearchPage.concat pages).scannedCount, []⟩ := by
  simp [SearchPage.concat]

/-- Pages tell together of the items that have been looked at, and count them as far as 32 bits go. -/
structure Tells (r : PageQuery) (scanned : List Item) (pages : List SearchPage) : Prop where
  saturated : (SearchPage.concat pages).saturated = .of (pageOf r scanned [])
  exact : scanned.length ≤ greatestCount → SearchPage.concat pages = .of (pageOf r scanned [])

theorem Tells.last {r : PageQuery} : Tells r rest [.of (pageOf r rest [])] := by
  have hconcat : SearchPage.concat [.of (pageOf r rest [])] = .of (pageOf r rest []) := by
    simp [SearchPage.concat, SearchPage.of, pageOf]
  refine ⟨?_, fun _ => hconcat⟩
  rw [hconcat]
  simp only [SearchPage.saturated, SearchPage.of, pageOf, counted]
  congr 1 <;> omega

theorem Tells.next {r : PageQuery} {scanned : List Item} {pages : List SearchPage} (h : Tells r rest pages) :
    Tells r (scanned ++ rest) (.of (pageOf r scanned key) :: pages) := by
  obtain ⟨hsaturated, hexact⟩ := h
  simp only [SearchPage.saturated, SearchPage.of, pageOf, SearchPage.mk.injEq, counted] at hsaturated
  obtain ⟨hitems, hcount, hscanned, -⟩ := hsaturated
  have hpos : 0 ≤ greatestCount := by decide
  constructor
  · rw [concat_cons, hitems]
    simp only [SearchPage.saturated, SearchPage.of, pageOf, counted, shown_append, List.filter_append,
      List.length_append]
    congr 1 <;> omega
  · intro hlength
    rw [List.length_append] at hlength
    have hfew := (List.filter_sublist (p := meets r.bindings r.filter) (l := scanned)).length_le
    have hfew' := (List.filter_sublist (p := meets r.bindings r.filter) (l := rest)).length_le
    rw [concat_cons, hexact (by omega)]
    simp only [SearchPage.of, pageOf, counted, shown_append, List.filter_append, List.length_append]
    congr 1 <;> omega

theorem exists_cut {α : Type} {rest : List α} (hn : 0 < n) (hlength : n < rest.length) : ∃ front last after,
    rest = front ++ last :: after ∧ (front ++ [last]).length = n ∧ after ≠ [] := by
  refine ⟨rest.take (n - 1), rest[n - 1], rest.drop n, ?_, ?_, ?_⟩
  · conv_lhs => rw [← List.take_append_drop (n - 1) rest, List.drop_eq_getElem_cons (by omega)]
    rw [Nat.sub_add_cancel hn]
  · simp only [List.length_append, List.length_take, List.length_singleton]
    omega
  · exact List.ne_nil_of_length_pos (by rw [List.length_drop]; omega)

/-- From any key behind which some of the candidates are left, the pages come to an end and tell of all of them. -/
theorem exists_pages (hn : 0 < n) (ht : Entries.get? q.tableName s.tables = some t)
    (hwhole : (q.candidates t).run s.tables = (.ok whole, s.tables)) (hlisted : t.Listed whole)
    (hanswers : Answers (q.pageQuery none []).bindings (q.pageQuery none []).filter whole)
    (hsplit : whole = before ++ rest) (hrest : remaining t start whole = rest) :
    ∃ pages s', q.Pages (some n) s start pages s' ∧ Tells (q.pageQuery none []) rest pages := by
  induction hlength : rest.length using Nat.strongRecOn generalizing before rest start s with
  | ind length ih =>
    have hquery (start : Item) : q.pageQuery (some n) start = { q.pageQuery none [] with limit := some n, start } := by
      cases q <;> rfl
    have hanswersRest : Answers (q.pageQuery none []).bindings (q.pageQuery none []).filter rest :=
      fun x hx => hanswers x (hsplit ▸ List.mem_append_right before hx)
    by_cases hlast : rest.length ≤ n
    · have hpage : (page t (q.pageQuery (some n) start) whole).run s.tables =
          (.ok (pageOf (q.pageQuery none []) rest []), s.tables) := by
        rw [hquery]
        exact page_last rfl hrest hlast hanswersRest
      obtain ⟨s', hask, -⟩ := ask_of_page ht hwhole hpage
      exact ⟨_, s', .last hask rfl, .last⟩
    · -- the last of the first `n` items that are left gives the next start key
      obtain ⟨front, last, after, rfl, hn', hafter⟩ := exists_cut hn (Nat.lt_of_not_le hlast)
      have hbehind : whole = (before ++ front) ++ last :: after := by rw [hsplit, List.append_assoc]
      obtain ⟨key, hkey⟩ := exists_keyOf (hlisted.complete last (by rw [hbehind]; simp))
      have hne : key ≠ [] := (hbehind ▸ hlisted).key_ne_nil hafter hkey
      have hnext : remaining t key whole = after := by
        rw [hbehind]
        exact (hbehind ▸ hlisted).remaining_eq hafter hkey
      have hpage : (page t (q.pageQuery (some n) start) whole).run s.tables =
          (.ok (pageOf (q.pageQuery none []) (front ++ [last]) key), s.tables) := by
        rw [hquery]
        refine page_next rfl hrest hn' hafter hkey fun x hx => hanswersRest x ?_
        rw [List.append_cons]
        exact List.mem_append_left after hx
      obtain ⟨between, hask, htables⟩ := ask_of_page ht hwhole hpage
      have hshorter : after.length < length := by
        rw [← hlength, List.length_append, List.length_cons]
        omega
      obtain ⟨pages, s', hpages, htells⟩ := ih after.length hshorter (s := between) (by rw [htables]; exact ht)
        (by rw [htables]; exact hwhole) (hbehind.trans (List.append_cons (before ++ front) last after)) hnext rfl
      refine ⟨_ :: pages, s', .next hask hne hpages, ?_⟩
      rw [List.append_cons]
      exact htells.next

/-- In a store that requests have led to, the pages of a search with a positive limit come to an end, and together they
are what the search answers without a limit. Their counts add up to its counts, up to the greatest number of 32 bits;
below that, for a table of no more items, the sums are the same numbers. -/
theorem concat_pages {limit : Int} (hs : s.Reached) (hlimit : 1 ≤ limit)
    (hwhole : (q.ask none []).run s = (some answer, s')) : ∃ pages after, q.Pages (some limit) s [] pages after ∧
      (SearchPage.concat pages).saturated = answer ∧
      ((s.items q.tableName).length ≤ greatestCount → SearchPage.concat pages = answer) ∧
      ∀ more after', q.Pages (some limit) s [] more after' → more = pages ∧ after' = after := by
  obtain ⟨t, whole, p, ht, hcandidates, hpage, rfl⟩ := of_ask hwhole
  have hlisted := candidates_listed (hs.allSound _ t ht) hcandidates
  have hplain : (q.pageQuery none []).limit = none ∧ (q.pageQuery none []).start = [] := by
    cases q <;> exact ⟨rfl, rfl⟩
  obtain ⟨hanswers, rfl⟩ := of_page_unlimited hplain.1 hplain.2 hpage
  obtain ⟨n, rfl⟩ := Int.eq_ofNat_of_zero_le (show 0 ≤ limit by omega)
  have hn : 0 < n := by omega
  have hall : remaining t [] whole = whole := rfl
  obtain ⟨pages, after, hpages, htells⟩ :=
    exists_pages hn ht hcandidates hlisted hanswers (List.nil_append whole).symm hall
  refine ⟨pages, after, hpages, htells.saturated, fun hlength => htells.exact ?_, fun more after' hmore =>
    hmore.unique hpages⟩
  have hfew := candidates_length_le hcandidates
  rw [MemoryStore.items, ht] at hlength
  exact Int.le_trans (Int.ofNat_le.2 hfew) hlength

def event (id state : String) : Request.PutItem where
  tableName := "events"
  item := [("id", .s id), ("state", .s state)]

def events : MemoryStore :=
  [event "a" "open", event "b" "closed", event "c" "open"].foldl
    (fun s r => ((MemoryStore.send (.putItem r)).run s).2) (({} : MemoryStore).create "events" ["id"])

def openEvents : Search := .scan {
  tableName := "events"
  filter := some "#n0 = :v1"
  names := [("#n0", "state")]
  values := [(":v1", .s "open")] }

def openPage : SearchPage where
  items := [(event "a" "open").item, (event "c" "open").item]
  count := 2
  scannedCount := 3
  lastKey := []

theorem events_reached : events.Reached := by
  have hevent (id state : String) : (Request.putItem (event id state)).WellKeyed := rfl
  have hfirst := (MemoryStore.Reached.empty.create "events" ["id"]).send (hevent "a" "open")
  exact (hfirst.send (hevent "b" "closed")).send (hevent "c" "open")

theorem openEvents_concat_pages : ∃ after, (openEvents.ask none []).run events = (some openPage, after) ∧
    ∃ pages after', openEvents.Pages (some 1) events [] pages after' ∧ SearchPage.concat pages = openPage := by
  have hwhole : ∃ after, (openEvents.ask none []).run events = (some openPage, after) := ⟨_, rfl⟩
  obtain ⟨after, hwhole⟩ := hwhole
  obtain ⟨pages, after', hpages, -, hconcat, -⟩ := concat_pages events_reached (by decide : (1 : Int) ≤ 1) hwhole
  exact ⟨after, hwhole, pages, after', hpages, hconcat (by decide)⟩

end Search

end ItemMapper
