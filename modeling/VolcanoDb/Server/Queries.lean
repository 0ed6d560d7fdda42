import VolcanoDb.Executor.Failures
import VolcanoDb.Executor.HashMaps
import VolcanoDb.Server.Arity

/-! # Statements as trees

What a parsed statement does, without its text: the binder and the handler from
the tree on. A query answers with the rows of the stream of its plan, or fails as
one of its stages does.
-/

namespace VolcanoDb

open Result (FailsWith)

section Trees

variable [Unicode]

def bindTree (catalog : Catalog) : Sql.Statement → Result SQLStatement
  | .createTable name columns => do
    let cols ← columns.mapM fun col => Column.mk col.name.value <$> bindDataType col.dataType
    pure (.createTable (Sql.ObjectName.text name) ⟨cols⟩)
  | .insert tableName _ source => do
    let query ← match source with
      | some query => pure query
      | none => err .missingSource
    match query.body with
    | .values rows _ => do
      let rows ← rows.mapM fun row => row.mapM mapSqlExpr
      pure (.insert (Sql.ObjectName.text tableName) rows)
    | _ => err .onlyValues
  | .query query => .query <$> bindQuery query catalog
  | .other debug => err (.unsupportedStatement debug)

variable [SqlParser]

theorem bindStatement_parsed {sql : String} {tree : Sql.Statement} {rest : List Sql.Statement}
    (hp : SqlParser.parseSql sql = .ok (tree :: rest)) (catalog : Catalog) :
    bindStatement sql catalog = bindTree catalog tree := by
  unfold bindStatement
  rw [hp]
  cases tree <;> rfl

variable [BuildProfile] [Collections] [ComfyTable]

omit [SqlParser] in
def executeTree (db : DatabaseState) (session : SessionState) (tree : Sql.Statement) : Outcome :=
  match bindTree db.catalog tree with
  | .error f => (.error f, db, session)
  | .ok statement => executeStatement db session statement

theorem innerHandle_parsed {sql : String} (hc : ¬ IsControl sql) {tree : Sql.Statement}
    {rest : List Sql.Statement} (hp : SqlParser.parseSql sql = .ok (tree :: rest))
    (db : DatabaseState) (session : SessionState) :
    innerHandle db session sql = executeTree db session tree := by
  rw [innerHandle_plain hc, bindStatement_parsed hp]
  rfl

end Trees

section Queries

variable [BuildProfile] [Collections] [ComfyTable] {ctx : ExecutionContext} {catalog : Catalog}
  {plan : LogicalPlan} {e : Executor}

omit [BuildProfile] [Collections] in
/-- The text of a result: a table of the rows, unless there are none, and their number. -/
def resultText (schema : Schema) (rows : List Tuple) : String :=
  let shown := rows.map fun t => t.values.map Value.display
  let table := if shown = [] then ""
    else s!"{ComfyTable.render (schema.columns.map Column.name) shown}\n"
  s!"{table}{shown.length} row(s) in set."

theorem runQuery_eq (hb : buildExecutor catalog plan = .ok e) :
    runQuery ctx catalog plan = (do
      let s ← plan.stream ctx catalog
      let schema ← plan.schema catalog
      let rows ← s.all
      pure (resultText schema rows)) := by
  have hstart : Executor.Starts ctx e (plan.stream ctx catalog) := Executor.starts_stream hb
  unfold runQuery
  rw [hb, Result.ok_bind]
  rcases hs : plan.stream ctx catalog with f | s <;> rw [hs] at hstart
  · have hf : (e.init ctx).1 = .error f := hstart
    rcases hi : e.init ctx with ⟨initialised, e'⟩
    rw [hi] at hf
    obtain rfl : initialised = .error f := hf
    rfl
  · obtain ⟨e', hi, hh⟩ := hstart
    obtain ⟨e'', hfold⟩ := PullSource.Produces.fold
      (fun rows (t : Tuple) => (pure (), rows ++ [t.values.map Value.display])) hh []
    simp only [Result.pure_eq_ok] at hfold
    rw [PullSource.foldUntil_snoc] at hfold
    simp only [hi, Result.ok_bind, Result.pure_eq_ok, hfold]
    rcases s with ⟨rows, _ | f⟩
    · rfl
    · rfl

theorem runQuery_eq_ok {reply : String} : runQuery ctx catalog plan = .ok reply ↔
    ∃ schema rows, plan.schema catalog = .ok schema ∧
      plan.stream ctx catalog = .ok ⟨rows, none⟩ ∧ reply = resultText schema rows := by
  constructor
  · intro h
    rcases hbuild : buildExecutor catalog plan with f | e
    · unfold runQuery at h
      rw [hbuild, Result.error_bind] at h
      cases h
    · rw [runQuery_eq hbuild] at h
      obtain ⟨s, hs, h⟩ := Result.bind_eq_ok.mp h
      obtain ⟨schema, hschema, h⟩ := Result.bind_eq_ok.mp h
      obtain ⟨rows, hall, h⟩ := Result.bind_eq_ok.mp h
      cases h
      exact ⟨schema, rows, hschema, Stream.all_eq_ok.mp hall ▸ hs, rfl⟩
  · rintro ⟨schema, rows, hschema, hs, rfl⟩
    obtain ⟨e, hbuild⟩ := Executor.exists_buildExecutor_of_stream hs
    rw [runQuery_eq hbuild, hs, hschema]
    rfl

omit [Collections] in
/--
A query that is answered is answered with the same rows in any order of the hash maps,
unless a sort panics over them.
-/
theorem runQuery_any_order {c c' : Collections} (hsort : @SortsByComparing c)
    (hsort' : @SortsByComparing c') (hiter : @IteratesKeys c) (hiter' : @IteratesKeys c')
    (hp : plan.Unwindowed) {reply : String}
    (h : @runQuery _ c _ ctx catalog plan = .ok reply) :
    (¬ plan.Unsorted ∧ ∃ message, @runQuery _ c' _ ctx catalog plan = .error (.panic message)) ∨
    ∃ schema rows rows', reply = resultText schema rows ∧
      @runQuery _ c' _ ctx catalog plan = .ok (resultText schema rows') ∧ rows.Perm rows' := by
  obtain ⟨schema, rows, hschema, hrows, rfl⟩ := (@runQuery_eq_ok _ c _ _ _ _ _).mp h
  rcases LogicalPlan.stream_any_order hsort hsort' hiter hiter' hp hrows with
    ⟨hsorted, message, hpanic⟩ | ⟨rows', hrows', hperm⟩
  · obtain ⟨e, hbuild⟩ := @Executor.exists_buildExecutor_of_stream _ _ c _ _ _ hrows
    refine .inl ⟨hsorted, message, ?_⟩
    rw [runQuery_eq hbuild, hpanic]
    rfl
  · have hanswer := (@runQuery_eq_ok _ c' _ ctx catalog plan _).mpr
      ⟨schema, rows', hschema, hrows', rfl⟩
    exact .inr ⟨schema, rows, rows', rfl, hanswer, hperm⟩

omit [Collections] in
theorem runQuery_ungrouped {c c' : Collections} (hstd : SameStd c c') (hp : plan.Ungrouped) :
    @runQuery _ c' _ ctx catalog plan = @runQuery _ c _ ctx catalog plan := by
  rcases hb : buildExecutor catalog plan with f | e
  · unfold runQuery
    rw [hb, Result.error_bind, Result.error_bind]
  · rw [@runQuery_eq _ c _ _ _ _ _ hb, @runQuery_eq _ c' _ _ _ _ _ hb,
      LogicalPlan.stream_ungrouped hstd hp]

/-- A query over stored tables misses only tables that the catalog does not have. -/
theorem runQuery_failsWith (hsort : SortsByComparing)
    (hstored : ∀ name schema, catalog.getSchema name = some schema →
      (ctx.tables.lookup name).isSome) :
    FailsWith (fun f => ∀ name ∈ f.unknownTable, name ∈ plan.scans ∧
      catalog.getSchema name = none) (runQuery ctx catalog plan) := by
  have hnone {f : Fault} (hf : f.unknownTable = none) : ∀ name ∈ f.unknownTable,
      name ∈ plan.scans ∧ catalog.getSchema name = none := by simp [hf]
  have hbuild := buildExecutor_failsWith catalog plan
  rcases hb : buildExecutor catalog plan with f | e
  · rw [hb] at hbuild
    unfold runQuery
    rw [hb]
    exact .error (hbuild f rfl)
  have hstorage : ∀ name ∈ plan.scans, ctx.tables.lookup name = none →
      ∀ n ∈ (Fault.error (.tableNotInStorage name)).unknownTable, n ∈ plan.scans ∧
        catalog.getSchema n = none := by
    rintro name hname ht _ ⟨⟩
    refine ⟨hname, ?_⟩
    rcases hget : catalog.getSchema name with _ | schema
    · rfl
    · have hsome := hstored name schema hget
      rw [ht] at hsome
      cases hsome
  obtain ⟨hinit, hstop⟩ := LogicalPlan.stream_failsWith hsort hb (fun (_ : True) f hf => hnone hf.1)
    hstorage (fun x s (_ : True) t => (x.eval_failsWith t s).imp fun f hf => hnone hf.1)
    (LogicalPlan.prepares_of_forall (fun _ _ => trivial) trivial plan)
  have hstop := hstop (LogicalPlan.handsOut_of_forall (fun _ _ => trivial) trivial plan)
  rw [runQuery_eq hb]
  exact hinit.bind fun s hs => (plan.schema_failsWith catalog).bind fun schema _ =>
    (hstop s hs).all.bind fun rows _ => .ok _

end Queries

section Answers

def Server.readContext (w : Server) (session : SessionState) : ExecutionContext :=
  queryContext w.db { session with crScn := w.db.txMgr.scn }

variable [BuildProfile] [Unicode] [SqlParser] [ComfyTable] {c : Collections} {w : Server}
  {session : SessionState} {sql : String} {plan : LogicalPlan}

theorem query_reply (hc : ¬ IsControl sql)
    (hb : bindStatement sql w.db.catalog = .ok (.query plan)) :
    (innerHandle w.db session sql).1 = runQuery (w.readContext session) w.db.catalog plan := by
  rw [innerHandle_plain hc, hb]
  rfl

theorem query_answered (hc : ¬ IsControl sql)
    (hb : bindStatement sql w.db.catalog = .ok (.query plan)) {reply : String}
    (h : (innerHandle w.db session sql).1 = .ok reply) :
    ∃ schema rows, plan.schema w.db.catalog = .ok schema ∧
      plan.stream (w.readContext session) w.db.catalog = .ok ⟨rows, none⟩ ∧
      reply = resultText schema rows := by
  rw [query_reply hc hb] at h
  exact runQuery_eq_ok.mp h

theorem query_answers (hc : ¬ IsControl sql)
    (hb : bindStatement sql w.db.catalog = .ok (.query plan)) {schema : Schema}
    (hschema : plan.schema w.db.catalog = .ok schema) {rows : List Tuple}
    (hs : plan.stream (w.readContext session) w.db.catalog = .ok ⟨rows, none⟩) :
    (innerHandle w.db session sql).1 = .ok (resultText schema rows) := by
  rw [query_reply hc hb]
  exact runQuery_eq_ok.mpr ⟨schema, rows, hschema, hs, rfl⟩

end Answers

end VolcanoDb
