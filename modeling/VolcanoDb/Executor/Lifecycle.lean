import VolcanoDb.Executor.Operators
import VolcanoDb.Lib.PullSource

/-! # Building and initialising operators

An operator tree is built from a plan, initialised from its leaves, pulled and
closed. Sorts, joins and aggregations materialise their inputs in `init`.
-/

namespace VolcanoDb

/--
The collections of the standard library as one execution of a statement meets them.
Every hash map is made with random keys of its own, so that two executions have
collections of their own: `iterOrder` is a parameter of each.
-/
class Collections where
  /-- `sort_by` of a vector of tuples; the comparator may panic. -/
  sortBy : (Tuple → Tuple → Result Ordering) → List Tuple → Result (List Tuple)
  /-- The order in which a hash map with these keys is iterated. -/
  iterOrder : {κ : Type} → List κ → List κ

section Comparator

variable [BuildProfile]

def orNull : Result Value → Result Value
  | .error (.error _) => pure .null
  | r => r

/-- The comparator of a sort: the first key on which the tuples differ decides. -/
def compareKeys (schema : Schema) (a b : Tuple) : List (Expr × Bool) → Result Ordering
  | [] => pure .eq
  | (expr, asc) :: orderBy => do
    let valA ← orNull (expr.eval a schema)
    let valB ← orNull (expr.eval b schema)
    match (valA.partialCmp valB).getD .eq with
    | .eq => compareKeys schema a b orderBy
    | ord => pure (if asc then ord else ord.swap)

end Comparator

section Groups

variable [BuildProfile]

def updateStates (schema : Schema) (tuple : Tuple) :
    List (String × Expr × String) → List AggState → Result Unit × List AggState
  | [], states => (pure (), states)
  | _ :: _, [] => (panicking "index out of bounds", [])
  | (_, argExpr, _) :: aggFuncs, state :: states =>
    let val := if argExpr = .star then pure (.int 1) else argExpr.eval tuple schema
    match val >>= state.update with
    | .error f => (.error f, state :: states)
    | .ok state =>
      let (result, states) := updateStates schema tuple aggFuncs states
      (result, state :: states)

structure Groups where
  groups : FinMap String (List AggState)
  groupKeys : FinMap String (List Value)
  childHasTuples : Bool
  deriving DecidableEq

namespace Groups

def empty : Groups := ⟨∅, ∅, false⟩

omit [BuildProfile] in
def newStates (aggFuncs : List (String × Expr × String)) : Result (List AggState) :=
  aggFuncs.mapM fun (func, _, _) => AggState.new func

omit [BuildProfile] in
def statesOf (g : Groups) (aggFuncs : List (String × Expr × String)) (key : String) :
    Result (List AggState) :=
  match g.groups.lookup key with
  | some states => pure states
  | none => newStates aggFuncs

def addTuple (groupBy : List Expr) (aggFuncs : List (String × Expr × String)) (schema : Schema)
    (g : Groups) (tuple : Tuple) : Result Unit × Groups :=
  match groupBy.mapM fun expr => expr.eval tuple schema with
  | .error f => (.error f, { g with childHasTuples := true })
  | .ok groupVals =>
    let key := makeGroupKey groupVals
    match g.statesOf aggFuncs key with
    | .error f => (.error f, { g with childHasTuples := true })
    | .ok states =>
      let (result, states) := updateStates schema tuple aggFuncs states
      (result, ⟨g.groups.insert key states, g.groupKeys.insert key groupVals, true⟩)

omit [BuildProfile] in
/-- The groups of an aggregation; without `GROUP BY` an empty input is one group. -/
def addGlobal (groupBy : List Expr) (aggFuncs : List (String × Expr × String)) (g : Groups) :
    Result Groups :=
  if g.childHasTuples = false ∧ groupBy = [] then do
    let states ← newStates aggFuncs
    pure ⟨g.groups.insert "" states, g.groupKeys.insert "" [], false⟩
  else pure g

end Groups

end Groups

namespace Executor

variable [BuildProfile]

def source (ctx : ExecutionContext) : PullSource Executor Tuple Fault where
  next := next ctx
  work := work ctx
  work_lt e t h := (next_progress ctx e).2 t h

/-- Prepare an operator and its children for `next`. -/
def init [Collections] (ctx : ExecutionContext) : Executor → Result Unit × Executor
  | dummyScan _ => (pure (), dummyScan false)
  | seqScan tableName _ => (pure (), seqScan tableName 0)
  | filter child predicate schema =>
    let (result, child) := child.init ctx
    (result, filter child predicate schema)
  | project child exprs childSchema =>
    let (result, child) := child.init ctx
    (result, project child exprs childSchema)
  | limit child limitVal offset cursor =>
    match child.init ctx with
    | (.error f, child) => (.error f, limit child limitVal offset cursor)
    | (.ok (), child) => (pure (), limit child limitVal offset 0)
  | sort child orderBy schema sortedTuples cursor =>
    match child.init ctx with
    | (.error f, child) => (.error f, sort child orderBy schema sortedTuples cursor)
    | (.ok (), child) =>
      match (source ctx).drain child with
      | (.error f, tuples, child) => (.error f, sort child orderBy schema tuples 0)
      | (.ok (), tuples, child) =>
        match Collections.sortBy (fun a b => compareKeys schema a b orderBy) tuples with
        | .error f => (.error f, sort child orderBy schema tuples 0)
        | .ok sortedTuples => (pure (), sort child orderBy schema sortedTuples 0)
  | join left right condition combinedSchema rightTuples leftTuple rightCursor =>
    let self left right rightTuples leftTuple rightCursor :=
      join left right condition combinedSchema rightTuples leftTuple rightCursor
    match left.init ctx with
    | (.error f, left) => (.error f, self left right rightTuples leftTuple rightCursor)
    | (.ok (), left) =>
      match right.init ctx with
      | (.error f, right) => (.error f, self left right rightTuples leftTuple rightCursor)
      | (.ok (), right) =>
        match (source ctx).drain right with
        | (.error f, rightTuples, right) => (.error f, self left right rightTuples leftTuple 0)
        | (.ok (), rightTuples, right) =>
          match next ctx left with
          | (.error f, left) => (.error f, self left right rightTuples leftTuple 0)
          | (.ok leftTuple, left) => (pure (), self left right rightTuples leftTuple 0)
  | hashAgg child groupBy aggFuncs childSchema groups groupKeys resultKeys cursor =>
    let self child (g : Groups) resultKeys :=
      hashAgg child groupBy aggFuncs childSchema g.groups g.groupKeys resultKeys
    match child.init ctx with
    | (.error f, child) => (.error f, self child ⟨groups, groupKeys, false⟩ resultKeys cursor)
    | (.ok (), child) =>
      match (source ctx).fold (Groups.addTuple groupBy aggFuncs childSchema) child .empty with
      | (.error f, g, child) => (.error f, self child g [] 0)
      | (.ok (), g, child) =>
        match g.addGlobal groupBy aggFuncs with
        | .error f => (.error f, self child g [] 0)
        | .ok g => (pure (), self child g (Collections.iterOrder g.groups.keys) 0)

omit [BuildProfile] in
def close : Executor → Executor
  | dummyScan done => dummyScan done
  | seqScan tableName cursor => seqScan tableName cursor
  | filter child predicate schema => filter child.close predicate schema
  | project child exprs childSchema => project child.close exprs childSchema
  | limit child limitVal offset cursor => limit child.close limitVal offset cursor
  | sort child orderBy schema _ cursor => sort child.close orderBy schema [] cursor
  | join left right condition combinedSchema _ _ rightCursor =>
    join left.close right.close condition combinedSchema [] none rightCursor
  | hashAgg child groupBy aggFuncs childSchema _ _ _ cursor =>
    hashAgg child.close groupBy aggFuncs childSchema ∅ ∅ [] cursor

end Executor

/-- The operator tree of a plan, before `init`. -/
def buildExecutor (catalog : Catalog) : LogicalPlan → Result Executor
  | .dummyScan => pure (.dummyScan false)
  | .scan tableName _ => pure (.seqScan tableName 0)
  | .filter child predicate => do
    let childExec ← buildExecutor catalog child
    let childSchema ← child.schema catalog
    pure (.filter childExec predicate childSchema)
  | .project child exprs => do
    let childExec ← buildExecutor catalog child
    let childSchema ← child.schema catalog
    pure (.project childExec (exprs.map Prod.fst) childSchema)
  | .limit child limit offset => do
    let childExec ← buildExecutor catalog child
    pure (.limit childExec limit offset 0)
  | .sort child orderBy => do
    let childExec ← buildExecutor catalog child
    let childSchema ← child.schema catalog
    pure (.sort childExec orderBy childSchema [] 0)
  | .join left right condition => do
    let leftExec ← buildExecutor catalog left
    let rightExec ← buildExecutor catalog right
    let combinedSchema ← (LogicalPlan.join left right condition).schema catalog
    pure (.join leftExec rightExec condition combinedSchema [] none 0)
  | .agg child groupBy aggFuncs => do
    let childExec ← buildExecutor catalog child
    let childSchema ← child.schema catalog
    pure (.hashAgg childExec groupBy aggFuncs childSchema ∅ ∅ [] 0)

/-- The rows of a query: build its operators, prepare them and pull to the end. -/
def executeQuery [BuildProfile] [Collections] (ctx : ExecutionContext) (catalog : Catalog)
    (plan : LogicalPlan) : Result (List Tuple) := do
  let physicalPlan ← buildExecutor catalog plan
  let (initialised, physicalPlan) := physicalPlan.init ctx
  initialised
  let (pulled, rows, _) := (Executor.source ctx).drain physicalPlan
  pulled
  pure rows

theorem exists_buildExecutor {catalog : Catalog} {plan : LogicalPlan} {schema : Schema}
    (hs : plan.schema catalog = .ok schema) : ∃ e, buildExecutor catalog plan = .ok e := by
  induction plan generalizing schema with
  | dummyScan | scan tableName aliasName => exact ⟨_, rfl⟩
  | filter child predicate ih =>
    obtain ⟨e, he⟩ := ih hs
    simp only [LogicalPlan.schema] at hs
    exact ⟨.filter e predicate schema, by simp [buildExecutor, he, hs]⟩
  | project child exprs ih =>
    obtain ⟨childSchema, hc, -⟩ := Result.bind_eq_ok.mp hs
    obtain ⟨e, he⟩ := ih hc
    exact ⟨.project e (exprs.map Prod.fst) childSchema, by simp [buildExecutor, he, hc]⟩
  | limit child limitVal offset ih =>
    obtain ⟨e, he⟩ := ih hs
    exact ⟨.limit e limitVal offset 0, by simp [buildExecutor, he]⟩
  | sort child orderBy ih =>
    obtain ⟨e, he⟩ := ih hs
    simp only [LogicalPlan.schema] at hs
    exact ⟨.sort e orderBy schema [] 0, by simp [buildExecutor, he, hs]⟩
  | join left right condition ihl ihr =>
    obtain ⟨leftS, hl, h⟩ := Result.bind_eq_ok.mp hs
    obtain ⟨rightS, hr, -⟩ := Result.bind_eq_ok.mp h
    obtain ⟨e, he⟩ := ihl hl
    obtain ⟨e', he'⟩ := ihr hr
    exact ⟨.join e e' condition schema [] none 0, by simp [buildExecutor, he, he', hs]⟩
  | agg child groupBy aggFuncs ih =>
    obtain ⟨childSchema, hc, -⟩ := Result.bind_eq_ok.mp hs
    obtain ⟨e, he⟩ := ih hc
    exact ⟨.hashAgg e groupBy aggFuncs childSchema ∅ ∅ [] 0, by simp [buildExecutor, he, hc]⟩

end VolcanoDb
