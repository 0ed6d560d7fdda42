import VolcanoDb.Server.Growth
import VolcanoDb.Server.Terminators

/-! # Runs and hash maps

Every execution of a statement has hash maps of its own. Nothing but answers depends on
their orders: two runs over the same events go through the same states, and there every
query without a window is answered with the same rows up to their order.
-/

namespace VolcanoDb

section Statements

variable [BuildProfile] [Unicode] [SqlParser] [ComfyTable] {c c' : Collections}
  {db : DatabaseState} {session : SessionState} {sql : String}

variable (c c' db session sql) in
theorem innerHandle_states_any_order : (@innerHandle _ _ c _ _ db session sql).2 =
    (@innerHandle _ _ c' _ _ db session sql).2 := by
  unfold innerHandle
  dsimp only
  split
  · rfl
  split
  · rfl
  split
  · rfl
  rcases bindStatement sql db.catalog with f | statement
  · rfl
  · cases statement <;> rfl

end Statements

namespace Server

variable [BuildProfile] [Unicode] [SqlParser] [ComfyTable] {c c' : Collections} {w : Server}

omit [BuildProfile] [SqlParser] [ComfyTable] in
theorem afterReply_of_up {sessionId : ℕ} {o : Outcome}
    (hup : (w.afterReply sessionId (replyTo o)).down = false) :
    w.afterReply sessionId (replyTo o) =
      { w with db := o.2.1, sessions := w.sessions.insert sessionId o.2.2 } := by
  rcases o with ⟨(e | message) | reply, db, session⟩
  · rfl
  · cases hup
  · rfl

/-- A step is the same in any order of the hash maps if the server stays up. -/
theorem step_any_order {e : Event} (hup : (@step _ _ _ c _ w e).down = false)
    (hup' : (@step _ _ _ c' _ w e).down = false) : @step _ _ _ c _ w e = @step _ _ _ c' _ w e := by
  cases e with
  | connect | disconnect => rfl
  | statement sessionId sql =>
    rcases hs : w.sessions.lookup sessionId with _ | session
    · simp only [step, hs]
    by_cases hd : w.down
    · simp only [step, hs, hd, if_true]
    simp only [step, hs, if_neg hd] at hup hup' ⊢
    by_cases hcommand : IsCommand sql
    · unfold handleStatement
      rcases hcommand with hcrash | hstatus
      · simp only [hcrash, if_true]
      · simp only [hstatus, if_true]
        split <;> rfl
    · rw [@handleStatement_eq_replyTo _ _ c _ _ _ hcommand] at hup ⊢
      rw [@handleStatement_eq_replyTo _ _ c' _ _ _ hcommand] at hup' ⊢
      rw [afterReply_of_up hup, afterReply_of_up hup', innerHandle_states_any_order c c']

theorem down_step [Collections] {e : Event} (hd : w.down = true) : (w.step e).down = true := by
  cases e with
  | connect | disconnect => exact hd
  | statement sessionId sql =>
    rcases hs : w.sessions.lookup sessionId with _ | session
    · simpa only [step, hs] using hd
    · simp only [step, hs, hd, if_true]

/-- The server after some events, each executed with collections of its own. -/
def afterAll (w : Server) (steps : List (Collections × Event)) : Server :=
  steps.foldl (fun w e => @step _ _ _ e.1 _ w e.2) w

theorem down_afterAll (hd : w.down = true) (steps : List (Collections × Event)) :
    (w.afterAll steps).down = true := by
  induction steps generalizing w with
  | nil => exact hd
  | cons e steps ih => exact ih (@down_step _ _ _ _ _ e.1 _ hd)

theorem afterAll_any_order {steps steps' : List (Collections × Event)}
    (hsame : List.Forall₂ (fun e e' => e.2 = e'.2) steps steps')
    (hup : (w.afterAll steps).down = false) (hup' : (w.afterAll steps').down = false) :
    w.afterAll steps = w.afterAll steps' := by
  induction hsame generalizing w with
  | nil => rfl
  | @cons e e' steps steps' he _ ih =>
    have hstep (e : Collections × Event) (steps : List (Collections × Event))
        (h : (w.afterAll (e :: steps)).down = false) :
        (@step _ _ _ e.1 _ w e.2).down = false := by
      rcases hd : (@step _ _ _ e.1 _ w e.2).down with _ | _
      · rfl
      · have hdown := down_afterAll hd steps
        exact absurd (h.symm.trans hdown) (by decide)
    obtain ⟨c, e⟩ := e
    obtain ⟨c', e'⟩ := e'
    obtain rfl : e = e' := he
    have heq : @step _ _ _ c _ w e = @step _ _ _ c' _ w e :=
      step_any_order (hstep ⟨c, e⟩ steps hup) (hstep ⟨c', e⟩ steps' hup')
    change (@step _ _ _ c _ w e).afterAll steps = (@step _ _ _ c' _ w e).afterAll steps'
    rw [← heq]
    exact ih hup (by rw [heq]; exact hup')

end Server

/--
The orders in which hash maps are iterated are seen in answers only. Two runs over the
same events that stay up end in the same state, and there every query without a window
is answered with the same rows in some order, unless a sort panics over them.
-/
theorem hash_order_only_arranges [BuildProfile] [Unicode] [SqlParser] [ComfyTable]
    {c c' : Collections} (hsort : @SortsByComparing c) (hsort' : @SortsByComparing c')
    (hiter : @IteratesKeys c) (hiter' : @IteratesKeys c') {w : Server}
    {steps steps' : List (Collections × Event)}
    (hsame : List.Forall₂ (fun e e' => e.2 = e'.2) steps steps')
    (hup : (w.afterAll steps).down = false) (hup' : (w.afterAll steps').down = false) :
    w.afterAll steps = w.afterAll steps' ∧
    ∀ session sql plan reply, ¬ IsControl sql →
      bindStatement sql (w.afterAll steps).db.catalog = .ok (.query plan) →
      (∀ child limit offset, plan ≠ .limit child limit offset) →
      (@innerHandle _ _ c _ _ (w.afterAll steps).db session sql).1 = .ok reply →
      (¬ plan.Unsorted ∧ ∃ message,
        (@innerHandle _ _ c' _ _ (w.afterAll steps').db session sql).1 =
          .error (.panic message)) ∨
      ∃ schema rows rows', reply = resultText schema rows ∧
        (@innerHandle _ _ c' _ _ (w.afterAll steps').db session sql).1 =
          .ok (resultText schema rows') ∧ rows.Perm rows' := by
  have hstates := Server.afterAll_any_order hsame hup hup'
  refine ⟨hstates, ?_⟩
  intro session sql plan reply hc hb hlimit hreply
  obtain ⟨q, _, _, hq⟩ := bindStatement_query_iff.mp hb
  rw [query_reply hc hb] at hreply
  rw [← hstates, query_reply hc hb]
  exact runQuery_any_order hsort hsort' hiter hiter' (bindQuery_unwindowed hq hlimit) hreply

namespace Grouping

open Reading

def groupedQuery : Sql.Query where
  body := .select {
    projection := [.unnamedExpr (.identifier { value := "a" })]
    from_ := [⟨.table [{ value := "t" }] none, []⟩]
    groupBy := .expressions [.identifier { value := "a" }] }

def groupedPlan : LogicalPlan :=
  .project (.agg (.scan "t" none) [.colRef "a"] []) [(.colRef "a", "a")]

scoped instance parser : SqlParser where
  parseSql sql :=
    if sql = "SELECT a FROM t GROUP BY a" then .ok [.query groupedQuery]
    else Reading.parser.parseSql sql

def committed : Server := first.afterAll [(insertionCollections, .statement 1 "COMMIT")]

theorem bound : bindStatement "SELECT a FROM t GROUP BY a" committed.db.catalog =
    .ok (.query groupedPlan) :=
  bindStatement_query_iff.mpr ⟨groupedQuery, [], rfl, by decide +kernel⟩

theorem answered : (@innerHandle _ _ insertionCollections _ _ committed.db ⟨2, none, 0⟩
    "SELECT a FROM t GROUP BY a").1 =
      .ok (resultText ⟨[⟨"a", .int⟩]⟩ [.new [.int 2], .new [.int 1]]) :=
  query_answers (by decide +kernel) bound rfl (by decide +kernel)

end Grouping

open Reading Grouping in
theorem hash_order_only_arranges_sample :
    committed = first.afterAll [(backwards, .statement 1 "COMMIT")] ∧
    ∃ schema rows rows',
      resultText ⟨[⟨"a", .int⟩]⟩ [.new [.int 2], .new [.int 1]] = resultText schema rows ∧
      (@innerHandle _ _ backwards _ _
        (first.afterAll [(backwards, .statement 1 "COMMIT")]).db ⟨2, none, 0⟩
        "SELECT a FROM t GROUP BY a").1 = .ok (resultText schema rows') ∧ rows.Perm rows' := by
  have hup : committed.down = false := by decide +kernel
  have hup' : (first.afterAll [(backwards, .statement 1 "COMMIT")]).down = false := by
    decide +kernel
  have hlimit : ∀ child limit offset, groupedPlan ≠ .limit child limit offset := by
    rintro child limit offset ⟨⟩
  obtain ⟨heq, hanswers⟩ := hash_order_only_arranges sortsByComparing_insertionCollections
    sameStd_backwards.sorts' (fun l => .refl l) (fun l => l.reverse_perm) (.cons rfl .nil) hup hup'
  have hanswer :=
    hanswers ⟨2, none, 0⟩ _ groupedPlan _ (by decide +kernel) bound hlimit answered
  exact ⟨heq, hanswer.resolve_left fun hsorted => hsorted.1 trivial⟩

end VolcanoDb
