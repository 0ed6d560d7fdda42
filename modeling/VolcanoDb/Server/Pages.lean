import VolcanoDb.Server.Growth

/-! # Pages of an answer

A client can fetch the answer of a query in pages of one size, by limits and offsets.
The limit operator stops early and skips rows that it still pulls, but the pages leave
out no row and repeat none: up to the first one that is not full they are the answer.
Every page is an execution of its own, which would group in an order of its own.
-/

namespace VolcanoDb

theorem flatMap_range_windows {α : Type} (l : List α) (n m : ℕ) :
    ((List.range m).flatMap fun i => (l.drop (i * n)).take n) = l.take (m * n) := by
  induction m with
  | zero => simp
  | succ m ih =>
    rw [List.range_succ, List.flatMap_append, ih, List.flatMap_singleton, Nat.succ_mul,
      List.take_add]

section Pages

variable [BuildProfile] [Unicode] [SqlParser] [ComfyTable] {c : Collections}
  {cs : ℕ → Collections} {w : Server}
  {session : SessionState} {plan : LogicalPlan} {n m : ℕ} {texts : ℕ → String}

def LogicalPlan.page (plan : LogicalPlan) (n i : ℕ) : LogicalPlan :=
  .limit plan (some n) (some (i * n))

/-- Texts that query the pages of a plan up to an index. -/
def QueriesPages (w : Server) (plan : LogicalPlan) (n m : ℕ) (texts : ℕ → String) : Prop :=
  ∀ i ≤ m, ¬ IsControl (texts i) ∧
    bindStatement (texts i) w.db.catalog = .ok (.query (plan.page n i))

omit [Unicode] [SqlParser] [ComfyTable] in
/-- A page is handed out exactly if it is full or the plan hands out all its rows. -/
theorem stream_page {ctx : ExecutionContext} {catalog : Catalog} {i : ℕ} {page : List Tuple} :
    (plan.page n i).stream ctx catalog = .ok ⟨page, none⟩ ↔
      ∃ s, plan.stream ctx catalog = .ok s ∧ page = (s.rows.drop (i * n)).take n ∧
        (i * n + n ≤ s.rows.length ∨ s.stop = none) := by
  have hpage : (plan.page n i).stream ctx catalog =
      plan.stream ctx catalog >>= fun s => pure (s.window (some n) (some (i * n))) := rfl
  rw [hpage, Result.bind_eq_ok]
  apply exists_congr
  intro s
  apply and_congr_right
  intro _
  have hwindow : s.window (some n) (some (i * n)) = ⟨(s.rows.drop (i * n)).take n,
      if i * n + n ≤ s.rows.length then none else s.stop⟩ := by
    simp [Stream.window, takeLimit]
  rw [hwindow, Result.pure_eq_ok, Except.ok.injEq, Stream.mk.injEq]
  apply and_congr eq_comm
  by_cases hfull : i * n + n ≤ s.rows.length <;> simp [hfull]

/--
A query without `GROUP BY` that is answered is answered page by page. If its pages are
answered, the last of them with fewer rows than a page has, it is answered with the rows
of the pages one after the other.
-/
theorem pages_make_answer (hstd : ∀ i, SameStd c (cs i)) (hp : plan.Ungrouped) {sql : String}
    (hc : ¬ IsControl sql) (hb : bindStatement sql w.db.catalog = .ok (.query plan))
    (hpages : QueriesPages w plan n m texts) :
    (∀ reply, (@innerHandle _ _ c _ _ w.db session sql).1 = .ok reply → ∃ schema rows,
      reply = resultText schema rows ∧
        ∀ i ≤ m, (@innerHandle _ _ (cs i) _ _ w.db session (texts i)).1 =
          .ok (resultText schema ((rows.drop (i * n)).take n))) ∧
    ∀ replies : ℕ → String,
      (∀ i ≤ m, (@innerHandle _ _ (cs i) _ _ w.db session (texts i)).1 = .ok (replies i)) →
      ∃ schema, ∃ pages : ℕ → List Tuple,
        (∀ i ≤ m, replies i = resultText schema (pages i)) ∧
        ((pages m).length < n → (@innerHandle _ _ c _ _ w.db session sql).1 =
          .ok (resultText schema ((List.range (m + 1)).flatMap pages))) := by
  have hsame (i : ℕ) : @LogicalPlan.stream _ (cs i) (w.readContext session) w.db.catalog plan =
      @LogicalPlan.stream _ c (w.readContext session) w.db.catalog plan :=
    (LogicalPlan.stream_ungrouped (hstd i) hp).symm
  constructor
  · intro reply hreply
    obtain ⟨schema, rows, hschema, hrows, rfl⟩ := query_answered hc hb hreply
    refine ⟨schema, rows, rfl, fun i hi => ?_⟩
    obtain ⟨hci, hbi⟩ := hpages i hi
    have hrows' := (hsame i).trans hrows
    exact query_answers hci hbi hschema (stream_page.mpr ⟨_, hrows', rfl, .inr rfl⟩)
  · intro replies hreplies
    have hanswered (i : ℕ) (hi : i ≤ m) : ∃ schema s, plan.schema w.db.catalog = .ok schema ∧
        @LogicalPlan.stream _ c (w.readContext session) w.db.catalog plan = .ok s ∧
        (i * n + n ≤ s.rows.length ∨ s.stop = none) ∧
        replies i = resultText schema ((s.rows.drop (i * n)).take n) := by
      obtain ⟨schema, page, hschema, hpage, hreply⟩ :=
        query_answered (hpages i hi).1 (hpages i hi).2 (hreplies i hi)
      obtain ⟨s, hs, rfl, hend⟩ := stream_page.mp hpage
      exact ⟨schema, s, hschema, hsame i ▸ hs, hend, hreply⟩
    obtain ⟨schema, s, hschema, hs, hend, -⟩ := hanswered m le_rfl
    refine ⟨schema, fun i => (s.rows.drop (i * n)).take n, fun i hi => ?_, fun hshort => ?_⟩
    · obtain ⟨schema', s', hschema', hs', -, hreply⟩ := hanswered i hi
      obtain rfl := Except.ok.inj (hschema.symm.trans hschema')
      obtain rfl := Except.ok.inj (hs.symm.trans hs')
      exact hreply
    · have hlen : s.rows.length < m * n + n := by
        rw [List.length_take, List.length_drop] at hshort
        omega
      have hstop : s.stop = none := hend.resolve_left (by omega)
      rw [flatMap_range_windows, List.take_of_length_le (by rw [Nat.succ_mul]; omega)]
      apply query_answers hc hb hschema
      rw [hs, ← hstop]

end Pages

namespace Paging

open Reading

def pageText (i : ℕ) : String := s!"SELECT a FROM t LIMIT 1 OFFSET {i}"

def pageQuery (i : ℕ) : Sql.Query :=
  { query with
    limit := some (.value (.number "1"))
    offset := some (.value (.number (toString i))) }

scoped instance parser : SqlParser where
  parseSql sql :=
    if sql = pageText 0 then .ok [.query (pageQuery 0)]
    else if sql = pageText 1 then .ok [.query (pageQuery 1)]
    else if sql = pageText 2 then .ok [.query (pageQuery 2)]
    else Reading.parser.parseSql sql

theorem bound : bindStatement "SELECT a FROM t" third.db.catalog = .ok (.query plan) :=
  bindStatement_query_iff.mpr ⟨query, [], rfl, by decide +kernel⟩

theorem queriesPages : QueriesPages third plan 1 2 pageText := by
  intro i hi
  have hcases : i = 0 ∨ i = 1 ∨ i = 2 := by omega
  rcases hcases with rfl | rfl | rfl
  · exact ⟨by decide +kernel, bindStatement_query_iff.mpr
      ⟨pageQuery 0, [], rfl, by decide +kernel⟩⟩
  · exact ⟨by decide +kernel, bindStatement_query_iff.mpr
      ⟨pageQuery 1, [], rfl, by decide +kernel⟩⟩
  · exact ⟨by decide +kernel, bindStatement_query_iff.mpr
      ⟨pageQuery 2, [], rfl, by decide +kernel⟩⟩

end Paging

open Reading Paging in
theorem pages_make_answer_sample : ∃ schema rows,
    (@innerHandle _ _ insertionCollections _ _ third.db ⟨2, none, 0⟩ "SELECT a FROM t").1 =
      .ok (resultText schema rows) ∧
    ∀ i ≤ 2, (@innerHandle _ _ backwards _ _ third.db ⟨2, none, 0⟩ (pageText i)).1 =
      .ok (resultText schema ((rows.drop (i * 1)).take 1)) := by
  have hanswer : (@innerHandle _ _ insertionCollections _ _ third.db ⟨2, none, 0⟩
      "SELECT a FROM t").1 = .ok (resultText ⟨[⟨"a", .int⟩]⟩ [.new [.int 1], .new [.int 2]]) :=
    query_answers Reading.not_control bound rfl (by decide +kernel)
  have hp : plan.Ungrouped := trivial
  obtain ⟨schema, rows, hreply, hpages⟩ := (pages_make_answer (fun _ => sameStd_backwards) hp
    Reading.not_control bound queriesPages).1 _ hanswer
  exact ⟨schema, rows, hreply ▸ hanswer, hpages⟩

end VolcanoDb
