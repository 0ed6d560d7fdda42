import VolcanoDb.Executor.Resolution
import VolcanoDb.Executor.Soundness
import VolcanoDb.Server.Atomicity

/-! # Statements in bounds

A statement over tables whose rows are as long as their schemas does not index a
row out of bounds: a bound query reads rows only through operators that have
schemas, and the other statements read no rows.
-/

namespace VolcanoDb

section Statements

theorem getExprType_safe (e : Expr) (schema : Schema) :
    Safe (fun _ => True) (getExprType e schema) := by
  induction e with
  | const v => cases v <;> trivial
  | colRef name =>
    unfold getExprType
    split
    · rename_i i hi
      rw [List.getElem?_eq_getElem (Schema.findColIdx_lt hi)]
      trivial
    · exact .err _ _
  | binaryOp op left right ihl ihr =>
    unfold getExprType
    refine ihl.bind fun lt _ => ihr.bind fun rt _ => ?_
    split
    case h_15 => exact .err _ _
    case h_11 | h_12 | h_13 | h_14 => cases lt <;> cases rt <;> first | trivial | exact .err _ _
    all_goals trivial
  | funcCall name arg ih =>
    unfold getExprType
    split
    case h_6 => exact .err _ _
    case h_2 | h_3 =>
      refine ih.bind fun argT _ => ?_
      cases argT <;> first | trivial | exact .err _ _
    case h_1 => trivial
    case h_4 | h_5 => exact ih
  | star => exact .err _ _

theorem aggColumnType_safe (func : String) (arg : Expr) (schema : Schema) :
    Safe (fun _ => True) (aggColumnType func arg schema) := by
  unfold aggColumnType
  split
  case h_6 => exact .err _ _
  case h_2 | h_3 =>
    refine (getExprType_safe arg schema).bind fun argT _ => ?_
    cases argT <;> first | trivial | exact .err _ _
  case h_1 => trivial
  case h_4 | h_5 => exact getExprType_safe arg schema

theorem mapM_safe {α β : Type} {f : α → Result β} (hf : ∀ a, Safe (fun _ => True) (f a))
    (l : List α) : Safe (fun _ => True) (l.mapM f) := by
  induction l with
  | nil => trivial
  | cons a l ih =>
    rw [List.mapM_cons]
    exact (hf a).bind fun b _ => ih.bind fun bs _ => trivial

theorem LogicalPlan.schema_safe (catalog : Catalog) (plan : LogicalPlan) :
    Safe (fun _ => True) (plan.schema catalog) := by
  induction plan with
  | dummyScan => trivial
  | scan tableName aliasName =>
    unfold LogicalPlan.schema
    split
    · trivial
    · exact .err _ _
  | filter child predicate ih => exact ih
  | limit child limitVal offset ih => exact ih
  | sort child orderBy ih => exact ih
  | project child exprs ih =>
    refine ih.bind fun childSchema _ => ?_
    refine (mapM_safe (fun e => ?_) exprs).bind fun columns _ => trivial
    exact (getExprType_safe e.1 childSchema).map fun _ _ => trivial
  | join left right condition ihl ihr => exact ihl.bind fun _ _ => ihr.bind fun _ _ => trivial
  | agg child groupBy aggFuncs ih =>
    refine ih.bind fun childSchema _ => ?_
    refine (mapM_safe (fun e => ?_) groupBy).bind fun keys _ => ?_
    · exact (getExprType_safe e childSchema).map fun _ _ => trivial
    refine (mapM_safe (fun f => ?_) aggFuncs).bind fun aggs _ => trivial
    exact (aggColumnType_safe f.1 f.2.1 childSchema).map fun _ _ => trivial

theorem buildExecutor_safe (catalog : Catalog) (plan : LogicalPlan) :
    Safe (fun _ => True) (buildExecutor catalog plan) := by
  induction plan with
  | dummyScan => trivial
  | scan tableName aliasName => trivial
  | filter child predicate ih =>
    exact ih.bind fun _ _ => (child.schema_safe catalog).bind fun _ _ => trivial
  | limit child limitVal offset ih => exact ih.bind fun _ _ => trivial
  | sort child orderBy ih =>
    exact ih.bind fun _ _ => (child.schema_safe catalog).bind fun _ _ => trivial
  | project child exprs ih =>
    exact ih.bind fun _ _ => (child.schema_safe catalog).bind fun _ _ => trivial
  | join left right condition ihl ihr =>
    refine ihl.bind fun _ _ => ihr.bind fun _ _ => ?_
    exact (LogicalPlan.schema_safe catalog (.join left right condition)).bind fun _ _ => trivial
  | agg child groupBy aggFuncs ih =>
    exact ih.bind fun _ _ => (child.schema_safe catalog).bind fun _ _ => trivial

/-- Plans with a projection below their sorts and limits. -/
def LogicalPlan.Projects : LogicalPlan → Prop
  | project _ _ => True
  | limit child _ _ | sort child _ => child.Projects
  | _ => False

theorem bindQuery_projects [Unicode] {q : Sql.Query} {catalog : Catalog} {plan : LogicalPlan}
    (h : bindQuery q catalog = .ok plan) : plan.Projects := by
  obtain ⟨select, source, schema, selection, targets, groupBy, sorted, limit, offset, -, -, -, -, -,
    -, hsorted, -, -, rfl⟩ := bindQuery_eq_ok h
  have hproject :
      (bindProjection (filterBy source selection) targets.flatten groupBy).Projects := by
    unfold bindProjection
    split <;> trivial
  have hsort : sorted.Projects := by
    unfold bindOrderBy at hsorted
    split at hsorted
    · cases hsorted; exact hproject
    · cases hsorted; exact hproject
    · obtain ⟨orderBy, -, hsorted⟩ := Result.bind_eq_ok.mp hsorted
      cases hsorted
      exact hproject
  split
  · exact hsort
  · exact hsort

theorem bindStatement_query [Unicode] [SqlParser] {sql : String} {catalog : Catalog}
    {plan : LogicalPlan} (h : bindStatement sql catalog = .ok (.query plan)) :
    ∃ q, bindQuery q catalog = .ok plan := by
  unfold bindStatement at h
  generalize SqlParser.parseSql sql = parsed at h
  rcases parsed with text | (_ | ⟨statement, _⟩)
  · cases h
  · cases h
  simp only [Result.pure_eq_ok, Result.ok_bind] at h
  cases statement with
  | createTable name columns =>
    obtain ⟨cols, -, h⟩ := Result.bind_eq_ok.mp h
    cases h
  | insert tableName columns source =>
    cases source with
    | none => cases h
    | some query =>
      dsimp only at h
      split at h
      · obtain ⟨rows, -, h⟩ := Result.bind_eq_ok.mp h
        cases h
      · cases h
  | query query =>
    obtain ⟨plan', hplan, h⟩ := Result.map_eq_ok.mp h
    cases h
    exact ⟨query, hplan⟩
  | other debug => cases h

variable [BuildProfile] [Collections] {d : Discipline} {ctx : ExecutionContext} {catalog : Catalog}
  {plan : LogicalPlan}

theorem LogicalPlan.Projects.init_safe (hsort : SortsByComparing) (hp : plan.Projects)
    (ht : TablesFit d ctx catalog plan) {e : Executor} (hb : buildExecutor catalog plan = .ok e) :
    Safe (fun _ => True) (e.init ctx).1 := by
  induction plan generalizing e with
  | project child exprs _ =>
    obtain ⟨c, hc, hb⟩ := Result.bind_eq_ok.mp hb
    obtain ⟨childSchema, hcs, hb⟩ := Result.bind_eq_ok.mp hb
    cases hb
    exact (Executor.init_fits hsort (buildExecutor_wellTyped hcs ht hc)).1
  | limit child limitVal offset ih =>
    obtain ⟨c, hc, hb⟩ := Result.bind_eq_ok.mp hb
    cases hb
    have hinit := ih hp ht hc
    unfold Executor.init
    rcases hi : c.init ctx with ⟨f | _, c'⟩ <;> rw [hi] at hinit
    · exact hinit
    · trivial
  | sort child orderBy _ =>
    obtain ⟨c, hc, hb'⟩ := Result.bind_eq_ok.mp hb
    obtain ⟨childSchema, hcs, -⟩ := Result.bind_eq_ok.mp hb'
    have hs : (LogicalPlan.sort child orderBy).schema catalog = .ok childSchema := hcs
    exact (Executor.init_fits hsort (buildExecutor_wellTyped hs ht hb)).1
  | dummyScan => cases hp
  | scan tableName aliasName => cases hp
  | filter child predicate _ => cases hp
  | join left right condition _ _ => cases hp
  | agg child groupBy aggFuncs _ => cases hp

omit [Collections] in
theorem Executor.fold_safe {schema : Schema} {e : Executor} (he : WellTyped d ctx e schema)
    {β : Type} {body : β → Tuple → Result Unit × β} (hbody : ∀ b t, (body b t).1 = pure ())
    (b : β) :
    Safe (fun _ => True) ((source ctx).fold body e b).1 := by
  obtain ⟨herr, -⟩ := (source ctx).fold_invariant (p := (WellTyped d ctx · schema))
    (q := Tuple.Fits d schema) (r := fun _ => True) (e := (· ≠ outOfBounds))
    (fun s hs => next_invariant hs)
    (fun b t _ _ => ⟨trivial, fun f hf => by rw [hbody b t] at hf; cases hf⟩) he (b := b) trivial
  rcases hr : ((source ctx).fold body e b).1 with f | _
  · exact herr f hr
  · trivial

/-- A query over fitting tables is in bounds. -/
theorem runQuery_safe [ComfyTable] (hsort : SortsByComparing) (hp : plan.Projects)
    (ht : TablesFit d ctx catalog plan) : Safe (fun _ => True) (runQuery ctx catalog plan) := by
  have hbuild : Safe (buildExecutor catalog plan = .ok ·) (buildExecutor catalog plan) :=
    (buildExecutor_safe catalog plan).of_ok fun _ he => he
  have hschema : Safe (plan.schema catalog = .ok ·) (plan.schema catalog) :=
    (plan.schema_safe catalog).of_ok fun _ hs => hs
  unfold runQuery
  refine hbuild.bind fun e hb => ?_
  have hinit := hp.init_safe hsort ht hb
  have hfits (schema : Schema) (hs : plan.schema catalog = .ok schema) :=
    (Executor.init_fits hsort (buildExecutor_wellTyped hs ht hb)).2
  rcases hi : e.init ctx with ⟨initialised, e'⟩
  rw [hi] at hinit
  rw [hi] at hfits
  dsimp only
  refine hinit.bind fun _ _ => hschema.bind fun schema hs => ?_
  exact (Executor.fold_safe (hfits schema hs) (fun _ _ => rfl) []).bind fun _ _ => trivial

omit [Collections] in
theorem Tuple.fits_untyped {t : Tuple} {schema : Schema} :
    t.Fits .untyped schema ↔ t.values.length = schema.columns.length := by
  rw [Tuple.Fits, List.forall₂_iff_get]
  constructor
  · rintro ⟨hlen, -⟩
    exact hlen.symm
  · intro hlen
    exact ⟨hlen.symm, fun _ _ _ => trivial⟩

omit [Collections] in
theorem evalValues_safe (i : ℕ) (row : List Expr) : Safe (fun _ => True) (evalValues i row) := by
  induction row generalizing i with
  | nil => trivial
  | cons expr row ih =>
    have hval : Safe (fun _ => True) (insertContext i (expr.eval (Tuple.new []) ⟨[]⟩)) := by
      have heval := eval_safe (Tuple.fits_untyped.mpr rfl : (Tuple.new []).Fits .untyped ⟨[]⟩) expr
      unfold insertContext
      split
      · exact .err _ _
      · exact heval.imp fun _ _ => trivial
    exact hval.bind fun _ _ => (ih (i + 1)).bind fun _ _ => trivial

omit [Collections] in
theorem insertRows_safe (schema : Schema) (txId : Option ℕ) (name : String) (db : DatabaseState)
    (table : List Tuple) (n : ℕ) (rows : List (List Expr)) :
    Safe (fun _ => True) (insertRows schema txId name db table n rows).1 := by
  induction rows generalizing db table n with
  | nil => trivial
  | cons row rows ih =>
    have hrow : Safe (fun _ => True) (evalRow schema row) := by
      unfold evalRow
      split
      · exact .err _ _
      · exact evalValues_safe 0 row
    unfold insertRows
    split
    · rename_i f hf
      rw [hf] at hrow
      exact hrow
    · exact ih _ _ _

theorem executeStatement_safe [Unicode] [SqlParser] [ComfyTable] (hsort : SortsByComparing)
    {db : DatabaseState} (harity : ArityHolds db.tables db.catalog) (session : SessionState)
    {sql : String} {statement : SQLStatement} (hb : bindStatement sql db.catalog = .ok statement) :
    Safe (fun _ => True) (executeStatement db session statement).1 := by
  cases statement with
  | createTable tableName schema =>
    unfold executeStatement handleCreateTable
    dsimp only
    split
    · exact .err _ _
    · trivial
  | insert tableName rows =>
    unfold executeStatement handleInsert
    dsimp only
    split
    · exact .err _ _
    · split
      · exact .err _ _
      · exact (insertRows_safe _ _ _ _ _ _ _).map fun _ _ => trivial
  | query plan =>
    obtain ⟨q, hq⟩ := bindStatement_query hb
    have hfit : TablesFit .untyped (queryContext db { session with crScn := db.txMgr.scn })
        db.catalog plan := fun name _ schema rows hs hr t ht =>
      Tuple.fits_untyped.mpr (harity name schema rows hs hr t ht)
    exact runQuery_safe hsort (bindQuery_projects hq) hfit

end Statements

end VolcanoDb
