import VolcanoDb.Executor.Failures
import VolcanoDb.Server.Isolation

/-! # Unknown columns

Some column references are looked up when the operators of a query are built,
some when its columns are typed after `init`, some for every tuple and some,
in a sort, without any consequence. A query that finds every column that its
operators can reach, or one that fails for a missing column before it has a row,
does so whatever the tables hold. Any other fails on a row of doubles in every
table and succeeds without rows, unless no row gets that far.
-/

namespace VolcanoDb

open Result (FailsWith)

/-- A database with a catalog, which stores every table of it. -/
structure HasCatalog (catalog : Catalog) (db : DatabaseState) : Prop where
  catalog_eq : db.catalog = catalog
  stored : ∀ name schema, catalog.getSchema name = some schema → (db.tables.lookup name).isSome

section Plans

variable [BuildProfile] {catalog : Catalog} {plan : LogicalPlan}

/--
What a plan does about its column references is known without the rows. It has no
table; its columns are typed and all references resolve that its operators reach;
they cannot be typed and `init` misses no column; or they cannot be typed for a
missing column and `init` does not fail in another way.
-/
inductive LogicalPlan.ResolvesEarly (catalog : Catalog) (plan : LogicalPlan) : Prop where
  | tableless : plan.scans = [] → ResolvesEarly catalog plan
  | typed {schema : Schema} : plan.schema catalog = .ok schema →
      plan.Prepares catalog Expr.Finds True → plan.HandsOut catalog Expr.Finds True →
      ResolvesEarly catalog plan
  | untyped {f : Fault} : plan.schema catalog = .error f → f.unknownColumn = none →
      plan.Prepares catalog Expr.Finds True → ResolvesEarly catalog plan
  | missed {f : Fault} : plan.schema catalog = .error f → f.unknownColumn ≠ none →
      plan.Prepares catalog Expr.OnlyMisses False → ResolvesEarly catalog plan

variable [Collections]

/-- A plan that scans no table does not depend on what the tables hold. -/
theorem LogicalPlan.stream_of_scans_eq_nil (h : plan.scans = []) (ctx ctx' : ExecutionContext) :
    plan.stream ctx catalog = plan.stream ctx' catalog := by
  induction plan with
  | dummyScan => rfl
  | scan tableName aliasName => cases h
  | filter child _ ih | project child _ ih | limit child _ _ ih | sort child _ ih
  | agg child _ _ ih =>
    simp only [LogicalPlan.stream, ih h]
  | join left right condition ihl ihr =>
    obtain ⟨hl, hr⟩ := List.append_eq_nil_iff.mp h
    simp only [LogicalPlan.stream, ihl hl, ihr hr]

theorem LogicalPlan.Prepares.finds {e : Executor} (hsort : SortsByComparing)
    (h : plan.Prepares catalog Expr.Finds True) (hb : buildExecutor catalog plan = .ok e)
    (ctx : ExecutionContext) :
    plan.Fails (·.unknownColumn = none) ctx catalog Expr.Finds True :=
  LogicalPlan.stream_failsWith hsort hb (fun _ _ hf => hf.2) (fun _ _ _ => rfl)
    (fun _ _ he t => he.eval t) h

variable [ComfyTable]

/-- A query that resolves early misses a column in all databases with the catalog or in none. -/
theorem LogicalPlan.ResolvesEarly.run {e : Executor} (hsort : SortsByComparing)
    (h : plan.ResolvesEarly catalog) (hb : buildExecutor catalog plan = .ok e)
    (hscans : ∀ name ∈ plan.scans, (catalog.getSchema name).isSome)
    {db db' : DatabaseState} (hdb : HasCatalog catalog db) (hdb' : HasCatalog catalog db')
    (session session' : SessionState) :
    MissesColumn (runQuery (queryContext db session) catalog plan) ↔
      MissesColumn (runQuery (queryContext db' session') catalog plan) := by
  cases h with
  | tableless hscans =>
    rw [runQuery_eq hb, runQuery_eq hb, LogicalPlan.stream_of_scans_eq_nil hscans]
  | typed hs hinit hout =>
    have hrun (ctx : ExecutionContext) : FindsColumns (runQuery ctx catalog plan) := by
      obtain ⟨hstream, hstop⟩ := hinit.finds hsort hb ctx
      rw [runQuery_eq hb, hs]
      exact hstream.bind fun s hs => (hstop hout s hs).all.bind fun _ _ => .ok _
    exact iff_of_false (hrun _).not_misses (hrun _).not_misses
  | untyped hs hf hinit =>
    have hrun (ctx : ExecutionContext) : FindsColumns (runQuery ctx catalog plan) := by
      rw [runQuery_eq hb, hs]
      exact (hinit.finds hsort hb ctx).init.bind fun _ _ => .error hf
    exact iff_of_false (hrun _).not_misses (hrun _).not_misses
  | @missed f hs hf hinit =>
    have hrun (db : DatabaseState) (session : SessionState) (hdb : HasCatalog catalog db) :
        MissesColumn (runQuery (queryContext db session) catalog plan) := by
      have hstorage (name : String) (hname : name ∈ plan.scans)
          (hnone : (queryContext db session).tables.lookup name = none) :
          (Fault.error (.tableNotInStorage name)).unknownColumn ≠ none := by
        obtain ⟨schema, hschema⟩ := Option.isSome_iff_exists.mp (hscans name hname)
        have hstored : (db.tables.lookup name).isSome := hdb.stored name schema hschema
        have hnone : db.tables.lookup name = none := hnone
        rw [hnone] at hstored
        cases hstored
      have hstream := (LogicalPlan.stream_failsWith hsort hb (fun h => h.elim) hstorage
        (fun _ _ he t => he.eval t) hinit).init
      rw [runQuery_eq hb, hs]
      rcases hinit : plan.stream (queryContext db session) catalog with f' | s
      · exact ⟨f', rfl, hstream f' hinit⟩
      · exact ⟨f, rfl, hf⟩
    exact iff_of_true (hrun db session hdb) (hrun db' session' hdb')

end Plans

section Statements

variable [BuildProfile] [Collections] [ComfyTable] [Unicode] [SqlParser] {catalog : Catalog}

/-- A statement misses a column in all databases with a catalog or in none. -/
def MissesAlike (catalog : Catalog) (sql : String) : Prop :=
  ∀ {db db' : DatabaseState} (session session' : SessionState), HasCatalog catalog db →
    HasCatalog catalog db' → (MissesColumn (innerHandle db session sql).1 ↔
      MissesColumn (innerHandle db' session' sql).1)

theorem innerHandle_query {sql : String} (hc : ¬ IsControl sql) {q : Sql.Query}
    {rest : List Sql.Statement} (hp : SqlParser.parseSql sql = .ok (.query q :: rest))
    {db : DatabaseState} (hdb : HasCatalog catalog db) (session : SessionState) :
    (innerHandle db session sql).1 = (do
      let plan ← bindQuery q catalog
      runQuery (queryContext db { session with crScn := db.txMgr.scn }) catalog plan) := by
  obtain ⟨rfl, -⟩ := hdb
  have htree : bindTree db.catalog (.query q) = .query <$> bindQuery q db.catalog := by
    rw [bindTree]
  rw [innerHandle_parsed hc hp, executeTree, htree]
  rcases bindQuery q db.catalog with f | plan
  · rfl
  · rw [Result.map_ok, Result.ok_bind]
    simp only [executeStatement]

end Statements

/-! ### A row of doubles against no rows -/

def Expr.Resolves (e : Expr) (schema : Schema) : Prop :=
  ∀ name ∈ e.references, schema.findColIdx name ≠ none

theorem Expr.Resolves.finds [BuildProfile] {e : Expr} {schema : Schema} (h : e.Resolves schema) :
    e.Finds schema := fun name hname => h name (Expr.lookups_subset hname)

theorem Expr.resolves_of_type {e : Expr} {schema : Schema} (hagg : hasAggFuncs e = false)
    {dt : DataType} (h : getExprType e schema = .ok dt) : e.Resolves schema := by
  induction e generalizing dt with
  | const v | star => exact List.forall_mem_nil _
  | colRef name =>
    intro n hn hnone
    obtain rfl := List.mem_singleton.mp hn
    simp only [getExprType, hnone] at h
    cases h
  | binaryOp op left right ihl ihr =>
    obtain ⟨hl, hr⟩ := Bool.or_eq_false_iff.mp hagg
    obtain ⟨lt, hlt, h⟩ := Result.bind_eq_ok.mp h
    obtain ⟨rt, hrt, -⟩ := Result.bind_eq_ok.mp h
    exact List.forall_mem_append.mpr ⟨ihl hl hlt, ihr hr hrt⟩
  | funcCall name arg =>
    unfold getExprType at h
    split at h
    case h_6 => cases h
    all_goals simp [hasAggFuncs, isAggregate] at hagg

theorem LogicalPlan.resolves_of_schema {catalog : Catalog} {child : LogicalPlan}
    {exprs : List (Expr × String)} (hagg : ∀ e ∈ exprs, hasAggFuncs e.1 = false) {schema : Schema}
    (h : (LogicalPlan.project child exprs).schema catalog = .ok schema) :
    ∃ s, child.schema catalog = .ok s ∧ ∀ e ∈ exprs, e.1.Resolves s := by
  obtain ⟨s, hs, h⟩ := Result.bind_eq_ok.mp h
  obtain ⟨columns, hcolumns, -⟩ := Result.bind_eq_ok.mp h
  refine ⟨s, hs, fun e he => ?_⟩
  obtain ⟨_, htype⟩ := Result.exists_of_mapM_eq_ok hcolumns he
  obtain ⟨dt, hdt, -⟩ := Result.map_eq_ok.mp htype
  exact Expr.resolves_of_type (hagg e he) hdt

/-- The tables of a catalog, each with rows that depend on its schema. -/
def Catalog.filled (catalog : Catalog) (rows : Schema → List Tuple) :
    FinMap String (List Tuple) :=
  ⟨catalog.tables.entries.map (.map id fun _ => rows), catalog.tables.nodupKeys.map₂ fun _ => rows⟩

theorem Catalog.lookup_filled (catalog : Catalog) (rows : Schema → List Tuple) (name : String) :
    (catalog.filled rows).lookup name = (catalog.getSchema name).map rows :=
  List.dlookup_map₂ name

def databaseOf (catalog : Catalog) (rows : Schema → List Tuple) : DatabaseState :=
  ⟨catalog, catalog.filled rows, .new ⟨[]⟩⟩

theorem hasCatalog_databaseOf (catalog : Catalog) (rows : Schema → List Tuple) :
    HasCatalog catalog (databaseOf catalog rows) := by
  refine ⟨rfl, fun name schema hs => ?_⟩
  rw [databaseOf, Catalog.lookup_filled, hs]
  rfl

def Fills (ctx : ExecutionContext) (catalog : Catalog) (rows : Schema → List Tuple) : Prop :=
  ∀ name, ctx.tables.lookup name = (catalog.getSchema name).map rows

section Probes

variable [BuildProfile] {catalog : Catalog} {plan : LogicalPlan}

/-- A plan of tables whose conditions are true on rows of doubles, and its schema. -/
inductive LogicalPlan.Met (catalog : Catalog) : LogicalPlan → Schema → Prop where
  | scan {name : String} {aliasName : Option String} {table : Schema} :
      catalog.getSchema name = some table →
      Met catalog (.scan name aliasName) (qualify (aliasName.getD name) table)
  | filter {child : LogicalPlan} {p : Expr} {s : Schema} : Met catalog child s →
      Value.isTruthy <$> p.eval (doubles s) s = .ok true → Met catalog (.filter child p) s
  | join {left right : LogicalPlan} {condition : Option Expr} {s s' : Schema} :
      Met catalog left s → Met catalog right s' →
      joinMatches condition ⟨s.columns ++ s'.columns⟩ (doubles ⟨s.columns ++ s'.columns⟩) =
        .ok true →
      Met catalog (.join left right condition) ⟨s.columns ++ s'.columns⟩

/-- A plan of tables whose conditions, except for the last one, are true on rows of doubles. -/
inductive LogicalPlan.Tried (catalog : Catalog) : LogicalPlan → Prop where
  | met {plan : LogicalPlan} {s : Schema} : Met catalog plan s → Tried catalog plan
  | filter {child : LogicalPlan} {p : Expr} {s : Schema} : Met catalog child s →
      Tried catalog (.filter child p)
  | join {left right : LogicalPlan} {p : Expr} {s s' : Schema} : Met catalog left s →
      Met catalog right s' → Tried catalog (.join left right (some p))

/-- A query over such tables; those of an aggregation meet all conditions. -/
inductive LogicalPlan.Probed (catalog : Catalog) : LogicalPlan → Prop where
  | project {child : LogicalPlan} {exprs : List (Expr × String)} : Tried catalog child →
      (∀ e ∈ exprs, hasAggFuncs e.1 = false) → Probed catalog (.project child exprs)
  | agg {child : LogicalPlan} {s : Schema} {groupBy : List Expr}
      {aggFuncs : List (String × Expr × String)} {exprs : List (Expr × String)} :
      Met catalog child s → KnownFunctions aggFuncs →
      (∀ e ∈ exprs, hasAggFuncs e.1 = false) →
      Probed catalog (.project (.agg child groupBy aggFuncs) exprs)
  | sort {child : LogicalPlan} {orderBy : List (Expr × Bool)} : Probed catalog child →
      Probed catalog (.sort child orderBy)
  | limit {child : LogicalPlan} {limitVal offset : Option ℕ} : limitVal ≠ some 0 →
      Probed catalog child → Probed catalog (.limit child limitVal offset)

namespace LogicalPlan

omit [BuildProfile] in
theorem doubles_append (s s' : Schema) :
    doubles ⟨s.columns ++ s'.columns⟩ = combine (doubles s) (doubles s') := by
  simp [doubles, combine, Tuple.new, List.replicate_append_replicate]

namespace Met

variable {s : Schema}

theorem schema (h : plan.Met catalog s) : plan.schema catalog = .ok s := by
  induction h with
  | scan hget => simp [LogicalPlan.schema, hget]
  | filter _ _ ih => exact ih
  | join _ _ _ ihl ihr => simp [LogicalPlan.schema, ihl, ihr]

theorem finds (h : plan.Met catalog s) :
    plan.Prepares catalog Expr.Finds True ∧ plan.HandsOut catalog Expr.Finds True := by
  have hfinds {e : Expr} {s : Schema} (he : Value.isTruthy <$> e.eval (doubles s) s = .ok true) :
      e.Finds s := by
    by_contra hmiss
    obtain ⟨f, hf, -⟩ := Expr.misses_of_not_finds hmiss
    rw [hf] at he
    cases he
  induction h with
  | scan => exact ⟨trivial, trivial⟩
  | @filter child p s hchild hp ih =>
    refine ⟨ih.1, ih.2, .inr fun s' hs' => ?_⟩
    obtain rfl := Except.ok.inj (hchild.schema.symm.trans hs')
    exact hfinds hp
  | @join left right condition s s' hl hr hcond ihl ihr =>
    refine ⟨⟨ihl.1, ihr.1, ihl.2, ihr.2⟩, ihl.2, .inr (.inr fun s'' hs'' e he => ?_)⟩
    have hs := (Met.join hl hr hcond).schema
    obtain rfl := Except.ok.inj (hs.symm.trans hs'')
    obtain rfl : condition = some e := he
    exact hfinds hcond

variable [Collections] {ctx : ExecutionContext}

theorem stream_doubles (h : plan.Met catalog s) (hctx : Fills ctx catalog fun s => [doubles s]) :
    plan.stream ctx catalog = .ok ⟨[doubles s], none⟩ := by
  induction h with
  | @scan name aliasName table hget =>
    have hvisible (t : Schema) : visibleRows ctx [doubles t] = [doubles t] := rfl
    have hdoubles : doubles (qualify (aliasName.getD name) table) = doubles table := by
      simp [doubles, qualify]
    simp [LogicalPlan.stream, hctx name, hget, hvisible, hdoubles]
  | filter hchild hp ih =>
    simp [LogicalPlan.stream, ih, hchild.schema, Stream.keepUntil, hp, Stream.cons]
  | @join left right condition s s' hl hr hcond ihl ihr =>
    have hs := (Met.join hl hr hcond).schema
    rw [doubles_append] at hcond ⊢
    simp [LogicalPlan.stream, ihl, ihr, hs, Stream.all, product, Stream.keepUntil, hcond,
      Stream.cons]

theorem stream_empty (h : plan.Met catalog s) (hctx : Fills ctx catalog fun _ => []) :
    plan.stream ctx catalog = .ok ⟨[], none⟩ := by
  induction h with
  | @scan name aliasName table hget => simp [LogicalPlan.stream, hctx name, hget, visibleRows]
  | filter hchild hp ih => simp [LogicalPlan.stream, ih, hchild.schema, Stream.keepUntil]
  | join hl hr hcond ihl ihr =>
    have hs := (Met.join hl hr hcond).schema
    simp [LogicalPlan.stream, ihl, ihr, hs, Stream.all, product, Stream.keepUntil]

end Met

namespace Tried

theorem prepares (h : plan.Tried catalog) : plan.Prepares catalog Expr.Finds True := by
  cases h with
  | met h => exact h.finds.1
  | filter h => exact h.finds.1
  | join hl hr => exact ⟨hl.finds.1, hr.finds.1, hl.finds.2, hr.finds.2⟩

variable [Collections] {ctx : ExecutionContext}

theorem handsOut_or_misses (h : plan.Tried catalog)
    (hctx : Fills ctx catalog fun s => [doubles s]) : plan.HandsOut catalog Expr.Finds True ∨
      ∃ f : Fault, f.unknownColumn ≠ none ∧ plan.stream ctx catalog = .ok ⟨[], some f⟩ := by
  cases h with
  | met h => exact .inl h.finds.2
  | @filter child p s h =>
    by_cases hp : p.Finds s
    · refine .inl ⟨h.finds.2, .inr fun s' hs' => ?_⟩
      obtain rfl := Except.ok.inj (h.schema.symm.trans hs')
      exact hp
    · obtain ⟨f, hf, hne⟩ := Expr.misses_of_not_finds hp
      refine .inr ⟨f, hne, ?_⟩
      simp [LogicalPlan.stream, h.stream_doubles hctx, h.schema, Stream.keepUntil, hf]
  | @join left right p s s' hl hr =>
    have hs : (LogicalPlan.join left right (some p)).schema catalog =
        .ok ⟨s.columns ++ s'.columns⟩ := by simp [LogicalPlan.schema, hl.schema, hr.schema]
    by_cases hp : p.Finds ⟨s.columns ++ s'.columns⟩
    · refine .inl ⟨hl.finds.2, .inr (.inr fun s'' hs'' e he => ?_)⟩
      obtain rfl := Except.ok.inj (hs.symm.trans hs'')
      obtain rfl := Option.some_inj.mp he
      exact hp
    · obtain ⟨f, hf, hne⟩ := Expr.misses_of_not_finds hp
      rw [doubles_append] at hf
      refine .inr ⟨f, hne, ?_⟩
      simp [LogicalPlan.stream, hl.stream_doubles hctx, hr.stream_doubles hctx, hs, Stream.all,
        product, Stream.keepUntil, joinMatches, hf]

theorem stream_empty (h : plan.Tried catalog) (hctx : Fills ctx catalog fun _ => []) :
    plan.stream ctx catalog = .ok ⟨[], none⟩ := by
  cases h with
  | met h => exact h.stream_empty hctx
  | filter h => simp [LogicalPlan.stream, h.stream_empty hctx, h.schema, Stream.keepUntil]
  | @join left right p s s' hl hr =>
    have hs : (LogicalPlan.join left right (some p)).schema catalog =
        .ok ⟨s.columns ++ s'.columns⟩ := by simp [LogicalPlan.schema, hl.schema, hr.schema]
    simp [LogicalPlan.stream, hl.stream_empty hctx, hr.stream_empty hctx, hs, Stream.all, product,
      Stream.keepUntil]

end Tried

end LogicalPlan

section Aggregations

variable {schema : Schema} {l l' groupBy : List Expr} {aggFuncs : List (String × Expr × String)}

theorem misses_of_not_reachedAll (h : ¬ ReachedAll Expr.Finds schema (l ++ l')) :
    MissesColumn (l.mapM fun e => e.eval (doubles schema) schema) ∨
      (∃ vals, (l.mapM fun e => e.eval (doubles schema) schema) = .ok vals) ∧
        ¬ ReachedAll Expr.Finds schema l' := by
  induction l with
  | nil => exact .inr ⟨⟨[], rfl⟩, h⟩
  | cons e l ih =>
    rw [List.mapM_cons]
    by_cases he : e.Finds schema
    · obtain ⟨hsome, hl⟩ := Classical.not_imp.mp fun hl => h ⟨he, hl⟩
      obtain ⟨a, ha⟩ := Option.isSome_iff_exists.mp hsome
      obtain ⟨v, hv, -⟩ := Expr.ok_of_forecast ha
      rw [hv, Result.ok_bind]
      rcases ih hl with hmiss | ⟨⟨vals, hvals⟩, hrest⟩
      · exact .inl (hmiss.bind _)
      · exact .inr ⟨⟨v :: vals, by rw [hvals]; rfl⟩, hrest⟩
    · exact .inl ((Expr.misses_of_not_finds he).bind _)

theorem update_new {name : String} {state : AggState} (h : AggState.new name = .ok state)
    (val : Value) : ∃ state', state.update val = .ok state' := by
  have hadd : i64Add 0 1 = .ok 1 := if_neg fun hne => hne.2 (by decide)
  unfold AggState.update
  split
  · exact ⟨_, rfl⟩
  · unfold AggState.new at h
    split at h <;> cases h
    · exact ⟨_, by simp only [hadd]; rfl⟩
    · exact ⟨_, rfl⟩
    · exact ⟨_, by simp only [hadd]; rfl⟩
    · exact ⟨_, rfl⟩
    · exact ⟨_, rfl⟩

theorem updateStates_misses {states : List AggState}
    (hnew : Groups.newStates aggFuncs = .ok states)
    (h : ¬ ReachedAll Expr.Finds schema (arguments aggFuncs)) :
    MissesColumn (updateStates schema (doubles schema) aggFuncs states).1 := by
  induction aggFuncs generalizing states with
  | nil => exact absurd trivial h
  | cons f aggFuncs ih =>
    obtain ⟨func, arg, name⟩ := f
    rw [Groups.newStates, List.mapM_cons] at hnew
    obtain ⟨state, hstate, hnew⟩ := Result.bind_eq_ok.mp hnew
    obtain ⟨states, hstates, ⟨⟩⟩ := Result.bind_eq_ok.mp hnew
    unfold updateStates
    unfold arguments at h
    dsimp only at h ⊢
    by_cases hstar : arg = .star
    · rw [if_pos hstar] at h
      obtain ⟨state', hstate'⟩ := update_new hstate (.int 1)
      simp only [hstar, if_true, Result.pure_eq_ok, Result.ok_bind, hstate']
      exact ih hstates h
    · rw [if_neg hstar] at h
      simp only [hstar, if_false]
      by_cases harg : arg.Finds schema
      · obtain ⟨hsome, hl⟩ := Classical.not_imp.mp fun hl => h ⟨harg, hl⟩
        obtain ⟨a, ha⟩ := Option.isSome_iff_exists.mp hsome
        obtain ⟨v, hv, -⟩ := Expr.ok_of_forecast ha
        obtain ⟨state', hstate'⟩ := update_new hstate v
        simp only [hv, Result.ok_bind, hstate']
        exact ih hstates hl
      · obtain ⟨f, hf, hne⟩ := Expr.misses_of_not_finds harg
        simp only [hf, Result.error_bind]
        exact ⟨f, rfl, hne⟩

theorem addTuple_misses (hknown : KnownFunctions aggFuncs)
    (h : ¬ ReachedAll Expr.Finds schema (groupBy ++ arguments aggFuncs)) :
    MissesColumn (Groups.empty.addTuple groupBy aggFuncs schema (doubles schema)).1 := by
  unfold Groups.addTuple
  rcases misses_of_not_reachedAll h with ⟨f, hf, hne⟩ | ⟨⟨vals, hvals⟩, hargs⟩
  · rw [hf]
    exact ⟨f, rfl, hne⟩
  · obtain ⟨states, hstates, -⟩ := hknown.newStates
    have hnone : Groups.empty.groups.lookup (makeGroupKey vals) = none := rfl
    simp only [hvals, Groups.statesOf, hnone, hstates]
    exact updateStates_misses hstates hargs

end Aggregations

namespace LogicalPlan

variable [Collections] {ctx : ExecutionContext}

theorem Met.agg_prepares_or_misses {s : Schema} (h : plan.Met catalog s) {groupBy : List Expr}
    {aggFuncs : List (String × Expr × String)} (hknown : KnownFunctions aggFuncs)
    (hctx : Fills ctx catalog fun s => [doubles s]) :
    (agg plan groupBy aggFuncs).Prepares catalog Expr.Finds True ∨
      MissesColumn ((agg plan groupBy aggFuncs).stream ctx catalog) := by
  by_cases hreach : ReachedAll Expr.Finds s (groupBy ++ arguments aggFuncs)
  · refine .inl ⟨h.finds.1, h.finds.2, .inl trivial, .inr ⟨.inl trivial, fun s' hs' => ?_⟩⟩
    obtain rfl := Except.ok.inj (h.schema.symm.trans hs')
    exact hreach
  · obtain ⟨f, hf, hne⟩ := addTuple_misses hknown hreach
    refine .inr ⟨f, ?_, hne⟩
    rcases hadd : Groups.empty.addTuple groupBy aggFuncs s (doubles s) with ⟨x, g⟩
    rw [hadd] at hf
    obtain rfl : x = .error f := hf
    simp [LogicalPlan.stream, h.stream_doubles hctx, h.schema, Stream.groups,
      PullSource.foldUntil, hadd]

omit [Collections] in
theorem reachedAll_of_schema {child : LogicalPlan} {exprs : List (Expr × String)}
    (hagg : ∀ e ∈ exprs, hasAggFuncs e.1 = false) {schema : Schema}
    (h : (project child exprs).schema catalog = .ok schema) : ∃ s, child.schema catalog = .ok s ∧
      ReachedAll Expr.Finds s (exprs.map Prod.fst) := by
  obtain ⟨s, hs, hres⟩ := resolves_of_schema hagg h
  refine ⟨s, hs, reachedAll_of_forall fun e he => ?_⟩
  obtain ⟨target, htarget, rfl⟩ := List.mem_map.mp he
  exact (hres target htarget).finds

namespace Probed

theorem finds_or_misses (h : plan.Probed catalog) {schema : Schema}
    (hs : plan.schema catalog = .ok schema) (hctx : Fills ctx catalog fun s => [doubles s]) :
    (plan.Prepares catalog Expr.Finds True ∧ plan.HandsOut catalog Expr.Finds True) ∨
      ∃ f : Fault, f.unknownColumn ≠ none ∧
        (plan.stream ctx catalog = .error f ∨ plan.stream ctx catalog = .ok ⟨[], some f⟩) := by
  induction h generalizing schema with
  | project hchild hagg =>
    obtain ⟨s, hs', hreached⟩ := reachedAll_of_schema hagg hs
    rcases hchild.handsOut_or_misses hctx with hout | ⟨f, hne, hstream⟩
    · refine .inl ⟨hchild.prepares, hout, .inr fun s' hs'' => ?_⟩
      obtain rfl := Except.ok.inj (hs'.symm.trans hs'')
      exact hreached
    · exact .inr ⟨f, hne, .inr (by simp [LogicalPlan.stream, hstream, hs', Stream.mapUntil])⟩
  | agg hchild hknown hagg =>
    obtain ⟨s, hs', hreached⟩ := reachedAll_of_schema hagg hs
    rcases hchild.agg_prepares_or_misses hknown hctx with hinit | ⟨f, hstream, hne⟩
    · refine .inl ⟨hinit, trivial, .inr fun s' hs'' => ?_⟩
      obtain rfl := Except.ok.inj (hs'.symm.trans hs'')
      exact hreached
    · exact .inr ⟨f, hne, .inl (by rw [LogicalPlan.stream, hstream, Result.error_bind])⟩
  | @sort child orderBy _ ih =>
    have hs' : child.schema catalog = .ok schema := hs
    rcases ih hs with ⟨hinit, hout⟩ | ⟨f, hne, hf | hf⟩
    · exact .inl ⟨⟨trivial, hinit, hout⟩, trivial⟩
    · exact .inr ⟨f, hne, .inl (by rw [LogicalPlan.stream, hf, Result.error_bind])⟩
    · exact .inr ⟨f, hne, .inl (by simp [LogicalPlan.stream, hf, hs', Stream.all])⟩
  | @limit child limitVal offset hpos _ ih =>
    rcases ih hs with ⟨hinit, hout⟩ | ⟨f, hne, hf | hf⟩
    · exact .inl ⟨hinit, .inr hout⟩
    · exact .inr ⟨f, hne, .inl (by rw [LogicalPlan.stream, hf, Result.error_bind])⟩
    · refine .inr ⟨f, hne, .inr ?_⟩
      rw [LogicalPlan.stream, hf, Result.ok_bind]
      rcases limitVal with _ | n
      · simp [Stream.window, takeLimit]
      · have hn : n ≠ 0 := fun h => hpos (congrArg some h)
        simp [Stream.window, takeLimit, hn]

theorem prepares_or_misses (h : plan.Probed catalog) {e : Executor}
    (hb : buildExecutor catalog plan = .ok e) {f : Fault} (hs : plan.schema catalog = .error f)
    (hctx : Fills ctx catalog fun s => [doubles s]) :
    plan.Prepares catalog Expr.Finds True ∨ MissesColumn (plan.stream ctx catalog) := by
  induction h generalizing e with
  | project hchild hagg => exact .inl hchild.prepares
  | agg hchild hknown hagg =>
    rcases hchild.agg_prepares_or_misses hknown hctx with hinit | hmiss
    · exact .inl hinit
    · exact .inr (hmiss.bind _)
  | @sort child orderBy _ _ =>
    simp only [buildExecutor, Result.bind_eq_ok] at hb
    obtain ⟨c, -, schema, hschema, -⟩ := hb
    have hs : child.schema catalog = .error f := hs
    rw [hschema] at hs
    cases hs
  | limit _ _ ih =>
    obtain ⟨c, hc, -⟩ := Result.bind_eq_ok.mp hb
    exact (ih hc hs).imp_right fun hmiss => hmiss.bind _

theorem stream_empty (h : plan.Probed catalog) (hsort : SortsByComparing) {e : Executor}
    (hb : buildExecutor catalog plan = .ok e) (hctx : Fills ctx catalog fun _ => []) :
    FindsColumns (plan.stream ctx catalog) ∧ ∀ schema, plan.schema catalog = .ok schema →
      ∀ s, plan.stream ctx catalog = .ok s → s.StopsWith (·.unknownColumn = none) := by
  induction h generalizing e with
  | @project child exprs hchild hagg =>
    simp only [buildExecutor, Result.bind_eq_ok] at hb
    obtain ⟨c, -, schema, hs, -⟩ := hb
    rw [LogicalPlan.stream, hchild.stream_empty hctx, Result.ok_bind, hs]
    refine ⟨.ok _, fun _ _ => ?_⟩
    rintro _ ⟨⟩
    exact Stream.StopsWith.none
  | @agg child s groupBy aggFuncs exprs hchild hknown hagg =>
    have hgroups : FindsColumns ((Stream.mk [] none).groups groupBy aggFuncs s) :=
      groups_failsWith (q := Expr.Finds) (fun (_ : True) _ hf => hf.2) (.inl trivial)
        Stream.StopsWith.none (.inl rfl) fun _ he t => he.eval t
    have hstream : (LogicalPlan.agg child groupBy aggFuncs).stream ctx catalog = (do
        let g ← (Stream.mk [] none).groups groupBy aggFuncs s
        pure (.mapUntil (groupRow g.groups g.groupKeys) none
          (Collections.iterOrder g.groups.keys))) := by
      rw [LogicalPlan.stream, hchild.stream_empty hctx, Result.ok_bind, hchild.schema,
        Result.ok_bind]
    simp only [buildExecutor, Result.bind_eq_ok] at hb
    obtain ⟨c, -, schema, hs, -⟩ := hb
    rw [LogicalPlan.stream, hstream, hs]
    refine ⟨(hgroups.bind fun _ _ => .ok _).bind fun _ _ => .ok _, fun typed htyped s hall => ?_⟩
    obtain ⟨s', hs', ⟨⟩⟩ := Result.bind_eq_ok.mp hall
    obtain ⟨g, -, ⟨⟩⟩ := Result.bind_eq_ok.mp hs'
    have hkeys : (Stream.mapUntil (groupRow g.groups g.groupKeys) none
        (Collections.iterOrder g.groups.keys)).StopsWith (·.unknownColumn = none) :=
      .mapUntil Stream.StopsWith.none fun key _ => by
        unfold groupRow
        split
        · exact .ok _
        · exact .error rfl
    obtain ⟨schema', hschema', hreached⟩ := reachedAll_of_schema hagg htyped
    obtain rfl := Except.ok.inj (hs.symm.trans hschema')
    exact .mapUntil hkeys fun t _ => (hreached.mapM fun e he => he.eval t).map _
  | @sort child orderBy hchild ih =>
    simp only [buildExecutor, Result.bind_eq_ok] at hb
    obtain ⟨c, hc, schema, hs, -⟩ := hb
    obtain ⟨hinit, hstop⟩ := ih hc
    have hstop := hstop schema hs
    rw [LogicalPlan.stream, hs]
    constructor
    · exact hinit.bind fun s hstream => (hstop s hstream).all.bind fun l _ =>
        (sortBy_failsWith hsort (fun _ => rfl) schema orderBy l).bind fun _ _ => .ok _
    · intro _ _ s hall
      obtain ⟨s, -, hall⟩ := Result.bind_eq_ok.mp hall
      rw [Result.ok_bind] at hall
      obtain ⟨l, -, hall⟩ := Result.bind_eq_ok.mp hall
      obtain ⟨sorted, -, ⟨⟩⟩ := Result.bind_eq_ok.mp hall
      exact Stream.StopsWith.none
  | @limit child limitVal offset _ _ ih =>
    obtain ⟨c, hc, -⟩ := Result.bind_eq_ok.mp hb
    obtain ⟨hinit, hstop⟩ := ih hc
    rw [LogicalPlan.stream]
    refine ⟨hinit.bind fun _ _ => .ok _, fun schema hs s hall => ?_⟩
    obtain ⟨s, hstream, ⟨⟩⟩ := Result.bind_eq_ok.mp hall
    exact (hstop schema hs s hstream).window limitVal offset

end Probed

end LogicalPlan

end Probes

section Theorem

variable [BuildProfile] [Collections] [ComfyTable] [Unicode] [SqlParser] {catalog : Catalog}

/-- A probed query resolves early if the rows do not decide whether it misses a column. -/
theorem LogicalPlan.Probed.resolvesEarly {plan : LogicalPlan} (h : plan.Probed catalog)
    (htyped : FindsColumns (plan.schema catalog)) (hsort : SortsByComparing) {e : Executor}
    (hb : buildExecutor catalog plan = .ok e) {sql : String} (hc : ¬ IsControl sql)
    {q : Sql.Query} {rest : List Sql.Statement}
    (hp : SqlParser.parseSql sql = .ok (.query q :: rest)) (hq : bindQuery q catalog = .ok plan)
    (halike : MissesAlike catalog sql) : plan.ResolvesEarly catalog := by
  -- a row of doubles in every table against no rows at all
  have hrun (rows : Schema → List Tuple) : ∃ ctx, Fills ctx catalog rows ∧
      (innerHandle (databaseOf catalog rows) (.new 0) sql).1 = (do
        let s ← plan.stream ctx catalog
        let schema ← plan.schema catalog
        let l ← s.all
        pure (resultText schema l)) := by
    refine ⟨queryContext (databaseOf catalog rows) { SessionState.new 0 with
      crScn := (databaseOf catalog rows).txMgr.scn }, catalog.lookup_filled rows, ?_⟩
    rw [innerHandle_query hc hp (hasCatalog_databaseOf catalog rows), hq, Result.ok_bind,
      runQuery_eq hb]
  obtain ⟨full, hfull, hrunFull⟩ := hrun fun s => [doubles s]
  obtain ⟨empty, hempty, hrunEmpty⟩ := hrun fun _ => []
  have hsame := halike (.new 0) (.new 0) (hasCatalog_databaseOf catalog fun s => [doubles s])
    (hasCatalog_databaseOf catalog fun _ => [])
  rw [hrunFull, hrunEmpty] at hsame
  obtain ⟨hinit, hstop⟩ := h.stream_empty hsort hb hempty
  rcases hs : plan.schema catalog with f | schema
  · have hf : f.unknownColumn = none := htyped f hs
    rcases h.prepares_or_misses hb hs hfull with hprepares | hmiss
    · exact .untyped hs hf hprepares
    · refine absurd (hsame.mp (hmiss.bind _)) (FindsColumns.not_misses ?_)
      rw [hs]
      exact hinit.bind fun _ _ => .error hf
  · rcases h.finds_or_misses hs hfull with ⟨hprepares, hout⟩ | ⟨f, hne, hstream⟩
    · exact .typed hs hprepares hout
    · refine absurd (hsame.mp ?_) (FindsColumns.not_misses ?_)
      · rcases hstream with hstream | hstream
        · rw [hstream]
          exact ⟨f, rfl, hne⟩
        · rw [hstream, hs]
          exact ⟨f, rfl, hne⟩
      · rw [hs]
        exact hinit.bind fun s hstream => (hstop schema hs s hstream).all.bind fun _ _ => .ok _

end Theorem

namespace UnknownColumn

/-! Queries from a table with the column `a`. -/

scoped instance profile : BuildProfile := Sample.profile

scoped instance unicode : Unicode := Sample.unicode

scoped instance comfyTable : ComfyTable := Sample.comfyTable

scoped instance collections : Collections := Sample.collections

def query (condition : Sql.Expr) : Sql.Query :=
  Sample.selectFrom { Sample.fromT with selection := some condition }

def isOne (name : String) : Sql.Expr := .binaryOp (Sample.column name) .eq (Sample.number "1")

def neverReached : Sql.Expr :=
  .binaryOp (.binaryOp (Sample.number "1") .divide (Sample.number "0")) .eq (Sample.column "b")

scoped instance parser : SqlParser where
  parseSql sql :=
    if sql = "SELECT a FROM t WHERE a = 1" then .ok [.query (query (isOne "a"))]
    else if sql = "SELECT a FROM t WHERE b = 1" then .ok [.query (query (isOne "b"))]
    else if sql = "SELECT a FROM t WHERE 1 / 0 = b" then .ok [.query (query neverReached)]
    else .error "sql parser error: Expected: an SQL statement"

def catalog : Catalog := Catalog.new.addTable "t" ⟨[⟨"a", .int⟩]⟩

def plan (condition : Expr) : LogicalPlan :=
  .project (.filter (.scan "t" none) condition) [(.colRef "a", "a")]

theorem resolvesEarly_plan {condition : Expr}
    (h : ∀ name ∈ condition.lookups ⟨[⟨"t.a", .int⟩]⟩,
      (⟨[⟨"t.a", .int⟩]⟩ : Schema).findColIdx name ≠ none) :
    (plan condition).ResolvesEarly catalog := by
  have hschema : (LogicalPlan.scan "t" none).schema catalog = .ok ⟨[⟨"t.a", .int⟩]⟩ := by
    decide +kernel
  have htyped : ∃ s, (plan condition).schema catalog = .ok s := by
    refine ⟨⟨[⟨"a", .int⟩]⟩, ?_⟩
    have hfilter : (LogicalPlan.filter (.scan "t" none) condition).schema catalog =
        .ok ⟨[⟨"t.a", .int⟩]⟩ := hschema
    rw [plan, LogicalPlan.schema, hfilter]
    decide +kernel
  obtain ⟨s, hs⟩ := htyped
  refine .typed hs trivial ⟨⟨trivial, .inr fun s hs => ?_⟩, .inr fun s hs => ⟨?_, fun _ => trivial⟩⟩
  · obtain rfl := Except.ok.inj (hschema.symm.trans hs)
    exact h
  · have hs : (LogicalPlan.scan "t" none).schema catalog = .ok s := hs
    obtain rfl := Except.ok.inj (hschema.symm.trans hs)
    unfold Expr.Finds
    decide +kernel

end UnknownColumn

end VolcanoDb
