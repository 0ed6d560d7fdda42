import VolcanoDb.Executor.Grouping
import VolcanoDb.Executor.Refinement
import VolcanoDb.Planner.Bind

/-! # Clauses

The meaning of a query with every clause that it has: all items of `FROM` with
their joins, `HAVING`, both forms of `DISTINCT`, the placement of `NULL` in an
order, and any expression as a row count. It is given on the rows of the tables,
without plans. Values and operators on them mean what the engine makes of them; a
clause that has no translation leaves the query without a meaning. The binder reads
some of these clauses, and its plan is compared with the meaning of all.
-/

namespace VolcanoDb

/-- An argument of an aggregate over distinct values, in a mark that no name of a function has. -/
def distinctArg (arg : Expr) : Expr := .funcCall "distinct" arg

def distinctOf : Expr → Option Expr
  | .funcCall name arg => if name = "distinct" then some arg else none
  | _ => none

section Full

variable [Unicode]

def fullSqlExpr : Sql.Expr → Result Expr
  | .identifier ident => pure (.colRef ident.value)
  | .compoundIdentifier idents => pure (.colRef (".".intercalate (idents.map Sql.Ident.value)))
  | .value val => .const <$> mapLiteral val
  | .binaryOp left op right => do
    let op ← mapBinaryOperator op
    let left ← fullSqlExpr left
    let right ← fullSqlExpr right
    pure (.binaryOp op left right)
  | .function name args =>
    let funcName := Unicode.toLowercase (Sql.ObjectName.text name)
    if isAggregate funcName then
      match args with
      | .none => pure (.funcCall funcName .star)
      | .subquery => err .subqueryArgument
      | .list false [] => pure (.funcCall funcName .star)
      | .list false [.wildcard] => pure (.funcCall funcName .star)
      | .list false [.expr inner] => .funcCall funcName <$> fullSqlExpr inner
      | .list true [.expr inner] => (.funcCall funcName ∘ distinctArg) <$> fullSqlExpr inner
      | .list _ _ => err .unsupportedArgument
    else err (.unsupportedFunction funcName)
  | .other debug => err (.unsupportedExpression debug)

omit [Unicode] in
/-- An expression without what the binder does not read in a call. -/
def keptSqlExpr : Sql.Expr → Sql.Expr
  | .binaryOp left op right => .binaryOp (keptSqlExpr left) op (keptSqlExpr right)
  | .function name (.list _ []) => .function name (.list false [])
  | .function name (.list _ (.expr inner :: _)) =>
    .function name (.list false [.expr (keptSqlExpr inner)])
  | .function name (.list _ (arg :: _)) => .function name (.list false [arg])
  | e => e

def Unmarked : Expr → Prop
  | .binaryOp _ left right => Unmarked left ∧ Unmarked right
  | .funcCall name arg => isAggregate name ∧ Unmarked arg
  | _ => True

theorem full_kept {e : Sql.Expr} {expr : Expr} (h : mapSqlExpr e = .ok expr) :
    fullSqlExpr (keptSqlExpr e) = .ok expr ∧ Unmarked expr := by
  induction e using mapSqlExpr.induct generalizing expr with
  | case1 ident | case2 idents => cases h; exact ⟨rfl, trivial⟩
  | case3 val =>
    refine ⟨h, ?_⟩
    simp only [mapSqlExpr, Result.map_eq_ok] at h
    obtain ⟨v, -, rfl⟩ := h
    trivial
  | case4 left op right ihl ihr =>
    simp only [mapSqlExpr, Result.bind_eq_ok] at h
    obtain ⟨op', hop, l, hl, r, hr, h⟩ := h
    cases h
    obtain ⟨hfl, hul⟩ := ihl hl
    obtain ⟨hfr, hur⟩ := ihr hr
    exact ⟨by simp [keptSqlExpr, fullSqlExpr, hop, hfl, hfr], hul, hur⟩
  | case5 name funcName =>
    rename_i hagg
    have hagg : isAggregate (Unicode.toLowercase name.text) := hagg
    simp only [mapSqlExpr, hagg, if_true] at h
    cases h
    exact ⟨by simp [keptSqlExpr, fullSqlExpr, hagg], hagg, trivial⟩
  | case6 name funcName =>
    rename_i hagg
    have hagg : isAggregate (Unicode.toLowercase name.text) := hagg
    simp only [mapSqlExpr, hagg, if_true] at h
    cases h
  | case7 name funcName hagg =>
    have hagg : isAggregate (Unicode.toLowercase name.text) := hagg
    simp only [mapSqlExpr, hagg, if_true] at h
    cases h
    exact ⟨by simp [keptSqlExpr, fullSqlExpr, hagg], hagg, trivial⟩
  | case8 name funcName hagg distinct =>
    have hagg : isAggregate (Unicode.toLowercase name.text) := hagg
    simp only [mapSqlExpr, hagg, if_true] at h
    cases h
    exact ⟨by simp [keptSqlExpr, fullSqlExpr, hagg], hagg, trivial⟩
  | case9 name funcName hagg distinct inner args =>
    rename_i ih
    have hagg : isAggregate (Unicode.toLowercase name.text) := hagg
    simp only [mapSqlExpr, hagg, if_true, Result.map_eq_ok] at h
    obtain ⟨arg, harg, rfl⟩ := h
    obtain ⟨hf, hu⟩ := ih harg
    exact ⟨by simp [keptSqlExpr, fullSqlExpr, hagg, hf], hagg, hu⟩
  | case10 name funcName hagg distinct =>
    have hagg : isAggregate (Unicode.toLowercase name.text) := hagg
    simp only [mapSqlExpr, hagg, if_true] at h
    cases h
  | case11 name args funcName =>
    rename_i hagg
    have hagg : ¬ isAggregate (Unicode.toLowercase name.text) := hagg
    unfold mapSqlExpr at h
    dsimp only at h
    rw [if_neg hagg] at h
    cases h
  | case12 debug => cases h

end Full

/-! ### The clauses of a query -/

/-- The tables of a `FROM` clause, side by side. -/
inductive TableExpr where
  /-- No table: one row without columns. -/
  | unit
  | table (name : String) (aliasName : Option String)
  | join (left right : TableExpr) (condition : Option Expr)

namespace Expr

def calls : Expr → List (String × Expr)
  | funcCall name arg => if isAggregate name then [(name, arg)] else []
  | binaryOp _ left right => left.calls ++ right.calls
  | _ => []

def rewritten : Expr → Expr
  | funcCall name arg =>
    if isAggregate name then colRef (getExprName (funcCall name arg)) else funcCall name arg
  | binaryOp op left right => binaryOp op left.rewritten right.rewritten
  | e => e

end Expr

def addCall (aggFuncs : List (String × Expr × String)) (call : String × Expr) :
    List (String × Expr × String) :=
  let genName := getExprName (.funcCall call.1 call.2)
  if aggFuncs.any fun f => f.2.2 = genName then aggFuncs
  else aggFuncs ++ [(call.1, call.2, genName)]

def TableExpr.schema (catalog : Catalog) : TableExpr → Option Schema
  | unit => some ⟨[]⟩
  | table name aliasName => (catalog.getSchema name).map (qualify (aliasName.getD name))
  | join left right _ => do
    let leftS ← left.schema catalog
    let rightS ← right.schema catalog
    some ⟨leftS.columns ++ rightS.columns⟩

structure SortKey where
  expr : Expr
  asc : Bool
  nullsFirst : Option Bool

/-- What a query asks for, one field for each of its clauses. -/
structure Clauses where
  source : TableExpr
  selection : Option Expr
  targets : List (Expr × String)
  groupBy : List Expr
  having : Option Expr
  distinct : Bool
  orderBy : List SortKey
  limit : Option Expr
  offset : Option Expr

section Read

variable [Unicode]

omit [Unicode] in
def fullTable : Sql.TableFactor → Result TableExpr
  | .table name aliasName =>
    pure (.table (Sql.ObjectName.text name) (aliasName.map Sql.Ident.value))
  | .other debug => err (.unsupportedFactor debug)

/-- A table joined to those on its left, on its condition. -/
def fullJoin (left : TableExpr) (join : Sql.Join) : Result TableExpr := do
  let right ← fullTable join.relation
  match join.joinOperator with
  | .innerOn expr => do
    let condition ← fullSqlExpr expr
    pure (.join left right (some condition))
  | .crossJoin => pure (.join left right none)
  | .other debug => err (.unsupportedJoin debug)

def fullItem (item : Sql.TableWithJoins) : Result TableExpr := do
  let first ← fullTable item.relation
  item.joins.foldlM fullJoin first

/-- The cross product of all items of a `FROM` clause. -/
def fullFrom : List Sql.TableWithJoins → Result TableExpr
  | [] => pure .unit
  | item :: items => do
    let first ← fullItem item
    items.foldlM (fun left item => do
      let right ← fullItem item
      pure (.join left right none)) first

def fullSelectItem (schema : Schema) : Sql.SelectItem → Result (List (Expr × String))
  | .unnamedExpr expr => do
    let mapped ← fullSqlExpr expr
    pure [(mapped, getExprName mapped)]
  | .exprWithAlias expr aliasName => do
    let mapped ← fullSqlExpr expr
    pure [(mapped, aliasName.value)]
  | .wildcard => pure (schema.columns.map fun col => (.colRef col.name, col.name))
  | .other debug => err (.unsupportedItem debug)

def fullSortKey (e : Sql.OrderByExpr) : Result SortKey := do
  let expr ← fullSqlExpr e.expr
  pure ⟨expr, e.asc.getD true, e.nullsFirst⟩

omit [Unicode] in
def selectOf : Sql.SetExpr → Option Sql.Select
  | .select s => some s
  | .values _ _ | .other _ => none

omit [Unicode] in
def fullDistinct : Option Sql.Distinct → Option Bool
  | none => some false
  | some .distinct => some true
  | some (.on _) => none

def fullGroupBy : Sql.GroupBy → Option (List Expr)
  | .all => none
  | .expressions exprs => (exprs.mapM fullSqlExpr).toOption

/-- The clauses of a query, unless one of them has no translation. -/
def Sql.Query.clauses (catalog : Catalog) (q : Sql.Query) : Option Clauses := do
  guard (q.otherClauses = [])
  let select ← selectOf q.body
  let distinct ← fullDistinct select.distinct
  let source ← (fullFrom select.from_).toOption
  let schema ← source.schema catalog
  let selection ← select.selection.mapM fun e => (fullSqlExpr e).toOption
  let targets ← (select.projection.mapM (fullSelectItem schema)).toOption
  let groupBy ← fullGroupBy select.groupBy
  let having ← select.having.mapM fun e => (fullSqlExpr e).toOption
  let orderBy ← ((q.orderBy.getD []).mapM fullSortKey).toOption
  let limit ← q.limit.mapM fun e => (fullSqlExpr e).toOption
  let offset ← q.offset.mapM fun e => (fullSqlExpr e).toOption
  some ⟨source, selection, targets.flatten, groupBy, having, distinct, orderBy, limit, offset⟩

theorem Sql.Query.orderBy_of_clauses {catalog : Catalog} {q : Sql.Query} {c : Clauses}
    (h : q.clauses catalog = some c) : (q.orderBy.getD []).mapM fullSortKey = .ok c.orderBy := by
  simp only [clauses, Option.bind_eq_bind, Option.bind_eq_some_iff, Result.toOption_eq_some,
    Option.some_inj] at h
  obtain ⟨_, -, _, -, _, -, _, -, _, -, _, -, _, -, _, -, _, -, _, hkeys, _, -, _, -, rfl⟩ := h
  exact hkeys

def isIntLiteral (e : Sql.Expr) : Bool :=
  match mapSqlExpr e with
  | .ok (.const (.int _)) => true
  | _ => false

omit [Unicode] in
def Sql.SelectItem.kept : Sql.SelectItem → Sql.SelectItem
  | .unnamedExpr expr => .unnamedExpr (keptSqlExpr expr)
  | .exprWithAlias expr aliasName => .exprWithAlias (keptSqlExpr expr) aliasName
  | item => item

omit [Unicode] in
def Sql.Join.kept (join : Sql.Join) : Sql.Join where
  relation := join.relation
  joinOperator := match join.joinOperator with
    | .innerOn expr => .innerOn (keptSqlExpr expr)
    | operator => operator

omit [Unicode] in
def Sql.TableWithJoins.kept (item : Sql.TableWithJoins) : Sql.TableWithJoins :=
  ⟨item.relation, item.joins.map Sql.Join.kept⟩

omit [Unicode] in
def Sql.Select.kept (s : Sql.Select) : Sql.Select where
  projection := s.projection.map Sql.SelectItem.kept
  from_ := (s.from_.take 1).map Sql.TableWithJoins.kept
  selection := s.selection.map keptSqlExpr
  groupBy := match s.groupBy with
    | .all => .all
    | .expressions exprs => .expressions (exprs.map keptSqlExpr)

omit [Unicode] in
def Sql.OrderByExpr.kept (key : Sql.OrderByExpr) : Sql.OrderByExpr :=
  ⟨keptSqlExpr key.expr, key.asc, none⟩

/-- A query without the clauses that the binder does not read. -/
def Sql.Query.kept (q : Sql.Query) : Sql.Query where
  body := match q.body with
    | .select s => .select s.kept
    | body => body
  orderBy := q.orderBy.map (List.map Sql.OrderByExpr.kept)
  limit := q.limit.filter isIntLiteral
  offset := q.offset.filter isIntLiteral

theorem Clauses.orderBy_ne_nil {catalog : Catalog} {q : Sql.Query}
    {c : Clauses} (hc : q.kept.clauses catalog = some c)
    (hne : q.orderBy.getD [] ≠ []) : c.orderBy ≠ [] := by
  have hlen := (Result.forall₂_of_mapM_eq_ok (Sql.Query.orderBy_of_clauses hc)).length_eq
  rintro hnil
  rcases hkeys : q.orderBy with _ | keys
  · exact hne (by rw [hkeys]; rfl)
  · apply hne
    simpa [hnil, Sql.Query.kept, hkeys] using hlen

end Read

/-! ### Their meaning -/

/-- The first of every class of equal values. -/
def distinctValues : List Value → List Value
  | [] => []
  | v :: l => v :: (distinctValues l).filter fun w => !v.eq w

def sameRow (a b : Tuple) : Bool :=
  a.values.length = b.values.length ∧ (a.values.zip b.values).all fun p => p.1.eq p.2

def distinctRows : List Tuple → List Tuple
  | [] => []
  | t :: l => t :: (distinctRows l).filter fun u => !sameRow t u

/-- The order of two values of which one is `NULL`, where its place is given. -/
def nullOrder : Option Bool → Value → Value → Ordering
  | some first, .null, v => if v = .null then .eq else if first then .lt else .gt
  | some first, _, .null => if first then .gt else .lt
  | _, _, _ => .eq

section Meaning

variable [BuildProfile]

/-- An aggregate over the members of a group, each value once if it is marked so. -/
def aggregateOver (schema : Schema) (f : String × Expr × String) (rows : List Tuple) :
    Result AggState :=
  match distinctOf f.2.1 with
  | none => accumulate schema f rows
  | some arg => do
    let state ← AggState.new f.1
    let vals ← rows.mapM fun t => arg.eval t schema
    (distinctValues vals).foldlM AggState.update state

/-- The comparator of a sort whose keys may say where `NULL` is placed. -/
def compareSortKeys (schema : Schema) (a b : Tuple) : List SortKey → Result Ordering
  | [] => pure .eq
  | key :: keys => do
    let valA ← orNull (key.expr.eval a schema)
    let valB ← orNull (key.expr.eval b schema)
    match nullOrder key.nullsFirst valA valB with
    | .eq =>
      match (valA.partialCmp valB).getD .eq with
      | .eq => compareSortKeys schema a b keys
      | ord => pure (if key.asc then ord else ord.swap)
    | ord => pure ord

/--
The rows of tables side by side: the pairs of a row on the left and one on the right on
which the condition is true, in the order of the rows on the left. The right side is
read to its end first, and no row is found if the left side fails before its first one.
-/
def TableExpr.rows (ctx : ExecutionContext) (catalog : Catalog) : TableExpr → Option Stream
  | unit => some ⟨[Tuple.new []], none⟩
  | table name _ =>
    match ctx.tables.lookup name with
    | none => some ⟨[], some (.error (.tableNotInStorage name))⟩
    | some tuples => some ⟨visibleRows ctx tuples, none⟩
  | join left right condition => do
    let l ← left.rows ctx catalog
    let r ← right.rows ctx catalog
    let rightRows ← r.all.toOption
    let schema ← (join left right condition).schema catalog
    guard (l.rows ≠ [] ∨ l.stop = none)
    let pairs := l.rows.flatMap fun a => rightRows.map fun b => Tuple.new (a.values ++ b.values)
    let holds (t : Tuple) : Result Bool :=
      match condition with
      | none => pure true
      | some e => Value.isTruthy <$> e.eval t schema
    some (.keepUntil holds l.stop pairs)

/-- The columns of groups: those of the keys and of the calls, under their printed names. -/
def groupSchema (groupBy : List Expr) (calls : List (String × Expr × String)) (schema : Schema) :
    Option Schema := do
  let keys ← (groupBy.mapM fun e => Column.mk (getExprName e) <$> getExprType e schema).toOption
  let aggs ← (calls.mapM fun f =>
    Column.mk f.2.2 <$> aggColumnType f.1 ((distinctOf f.2.1).getD f.2.1) schema).toOption
  some ⟨keys ++ aggs⟩

/-- The value of a `LIMIT` or `OFFSET`; `NULL` is no bound, and nothing else is a count. -/
def rowCount : Option Expr → Option (Option ℕ)
  | none => some none
  | some (.const (.int i)) => some (some i.toUInt64.toNat)
  | some e =>
    match e.eval (Tuple.new []) ⟨[]⟩ with
    | .ok (.int i) => if 0 ≤ i.toInt then some (some i.toInt.toNat) else none
    | .ok .null => some none
    | _ => none

structure Input where
  stream : Stream
  schema : Schema
  targets : List (Expr × String)

namespace Input

def output (i : Input) (distinct : Bool) : Stream :=
  let s := Stream.mapUntil (projectRow i.schema (i.targets.map Prod.fst)) i.stream.stop
    i.stream.rows
  if distinct then ⟨distinctRows s.rows, s.stop⟩ else s

def outputSchema (i : Input) : Option Schema :=
  (Schema.mk <$> i.targets.mapM fun (expr, name) =>
    Column.mk name <$> getExprType expr i.schema).toOption

end Input

namespace Clauses

variable [Collections] (ctx : ExecutionContext) (catalog : Catalog)

omit [Collections] in
def filtered (c : Clauses) : Option Stream := do
  let s ← c.source.rows ctx catalog
  match c.selection with
  | none => some s
  | some predicate => do
    let schema ← c.source.schema catalog
    some (.keepUntil (fun t => Value.isTruthy <$> predicate.eval t schema) s.stop s.rows)

omit [BuildProfile] [Collections] in
def Grouped (c : Clauses) : Prop :=
  c.groupBy ≠ [] ∨ (c.targets.any fun t => hasAggFuncs t.1) ∨ c.having.isSome

omit [BuildProfile] [Collections] in
instance (c : Clauses) : Decidable c.Grouped := inferInstanceAs (Decidable (_ ∨ _ ∨ _))

omit [BuildProfile] [Collections] in
def calls (c : Clauses) : List (String × Expr × String) :=
  ((c.targets.flatMap fun t => t.1.calls) ++ (c.having.map Expr.calls).getD []).foldl addCall []

omit [BuildProfile] [Collections] in
def groupTargets (c : Clauses) : List (Expr × String) :=
  c.targets.map fun t => (t.1.rewritten, t.2)

/-- The rows that the targets read: those of `FROM` and `WHERE`, or their groups. -/
def input (c : Clauses) : Option Input := do
  let s ← c.filtered ctx catalog
  let schema ← c.source.schema catalog
  if c.Grouped then
    let rows ← s.all.toOption
    let l ← groupRows (aggregateOver schema) c.groupBy c.calls schema rows
    let groupS ← groupSchema c.groupBy c.calls schema
    let groups : Stream := match c.having with
      | none => ⟨l, none⟩
      | some having =>
        .keepUntil (fun t => Value.isTruthy <$> having.rewritten.eval t groupS) none l
    some ⟨groups, groupS, c.groupTargets⟩
  else some ⟨s, schema, c.targets⟩

/-- The rows in the order of `ORDER BY`, whose keys are read off the rows of the targets. -/
def ordered (c : Clauses) (i : Input) (s : Stream) : Option Stream :=
  match c.orderBy with
  | [] => some s
  | keys => do
    let schema ← i.outputSchema
    let l ← s.all.toOption
    let sorted ← (Collections.sortBy (fun a b => compareSortKeys schema a b keys) l).toOption
    some ⟨sorted, none⟩

/-- The rows of a query with all its clauses. -/
def meaning (c : Clauses) : Option (List Tuple) := do
  let i ← c.input ctx catalog
  let s ← c.ordered i (i.output c.distinct)
  let limit ← rowCount c.limit
  let offset ← rowCount c.offset
  (s.window limit offset).all.toOption

end Clauses

end Meaning

/-! ### What the binder makes of a query -/

def TableExpr.plan : TableExpr → LogicalPlan
  | unit => .dummyScan
  | table name aliasName => .scan name aliasName
  | join left right condition => .join left.plan right.plan condition

def sortPlan (plan : LogicalPlan) : List SortKey → LogicalPlan
  | [] => plan
  | keys => .sort plan (keys.map fun key => (key.expr, key.asc))

def literalCount : Option Expr → Option ℕ
  | some (.const (.int i)) => some i.toUInt64.toNat
  | _ => none

def IsCount : Option Expr → Prop
  | none | some (.const (.int _)) => True
  | _ => False

namespace Clauses

def filterPlan (c : Clauses) : LogicalPlan := filterBy c.source.plan c.selection

def plan (c : Clauses) : LogicalPlan :=
  let limit := literalCount c.limit
  let offset := literalCount c.offset
  let plan := sortPlan (bindProjection c.filterPlan c.targets c.groupBy) c.orderBy
  if limit.isSome ∨ offset.isSome then .limit plan limit offset else plan

structure Plain (c : Clauses) : Prop where
  targets : ∀ t ∈ c.targets, Unmarked t.1
  having : c.having = none
  distinct : c.distinct = false
  orderBy : ∀ key ∈ c.orderBy, key.nullsFirst = none
  limit : IsCount c.limit
  offset : IsCount c.offset

end Clauses

section Bound

theorem TableExpr.schema_plan {catalog : Catalog} (e : TableExpr) :
    (e.plan.schema catalog).toOption = e.schema catalog := by
  induction e with
  | unit => rfl
  | table name aliasName =>
    unfold plan LogicalPlan.schema schema
    rcases catalog.getSchema name with _ | s <;> rfl
  | join left right condition ihl ihr =>
    simp [plan, LogicalPlan.schema, schema, Result.toOption_bind, ihl, ihr]

theorem mapM_kept {α β γ : Type} {f : α → Result β} (g : α → Result γ) (kept : α → α)
    (conv : β → γ) {l : List α} {l' : List β} (h : l.mapM f = .ok l')
    (hg : ∀ a b, f a = .ok b → g (kept a) = .ok (conv b)) :
    (l.map kept).mapM g = .ok (l'.map conv) := by
  induction l generalizing l' with
  | nil => cases h; rfl
  | cons a l ih =>
    rw [List.mapM_cons] at h
    obtain ⟨b, hb, h⟩ := Result.bind_eq_ok.mp h
    obtain ⟨bs, hbs, h⟩ := Result.bind_eq_ok.mp h
    cases h
    simp [hg a b hb, ih hbs]

variable [Unicode]

omit [Unicode] in
theorem fullTable_eq {factor : Sql.TableFactor} {plan : LogicalPlan}
    (h : bindTableFactor factor = .ok plan) :
    ∃ e, fullTable factor = .ok e ∧ plan = e.plan := by
  cases factor <;> cases h
  exact ⟨_, rfl, rfl⟩

theorem fullFrom_kept {items : List Sql.TableWithJoins} {plan : LogicalPlan}
    (h : bindFrom items = .ok plan) :
    ∃ e, fullFrom ((items.take 1).map Sql.TableWithJoins.kept) = .ok e ∧ plan = e.plan := by
  rcases items with _ | ⟨⟨relation, joins⟩, items⟩
  · cases h
    exact ⟨.unit, rfl, rfl⟩
  obtain ⟨first, hfirst, hplan⟩ := Result.bind_eq_ok.mp h
  obtain ⟨e, he, rfl⟩ := fullTable_eq hfirst
  have hjoins : ∃ e', (joins.map Sql.Join.kept).foldlM fullJoin e = .ok e' ∧ plan = e'.plan := by
    clear he hfirst h
    induction joins generalizing e with
    | nil =>
      cases hplan
      exact ⟨e, rfl, rfl⟩
    | cons join joins ih =>
      obtain ⟨relation', operator⟩ := join
      obtain ⟨left, hleft, hplan⟩ := Result.bind_eq_ok.mp hplan
      obtain ⟨right, hright, hleft⟩ := Result.bind_eq_ok.mp hleft
      obtain ⟨r, hr, rfl⟩ := fullTable_eq hright
      rw [List.map_cons, List.foldlM_cons]
      cases operator with
      | innerOn expr =>
        obtain ⟨cond, hcond, hleft⟩ := Result.bind_eq_ok.mp hleft
        cases hleft
        obtain ⟨e', he', hplan⟩ := ih (.join e r (some cond)) hplan
        exact ⟨e', by simpa [fullJoin, Sql.Join.kept, hr, (full_kept hcond).1] using he', hplan⟩
      | crossJoin =>
        cases hleft
        obtain ⟨e', he', hplan⟩ := ih (.join e r none) hplan
        exact ⟨e', by simpa [fullJoin, Sql.Join.kept, hr] using he', hplan⟩
      | other debug => cases hleft
  obtain ⟨e', he', hplan⟩ := hjoins
  exact ⟨e', by simp [fullFrom, fullItem, Sql.TableWithJoins.kept, he, he'], hplan⟩

theorem fullSelectItem_kept {schema : Schema} {item : Sql.SelectItem}
    {targets : List (Expr × String)} (h : bindSelectItem schema item = .ok targets) :
    fullSelectItem schema item.kept = .ok targets ∧ ∀ t ∈ targets, Unmarked t.1 := by
  cases item with
  | unnamedExpr expr =>
    obtain ⟨mapped, hm, h⟩ := Result.bind_eq_ok.mp h
    cases h
    obtain ⟨hf, hu⟩ := full_kept hm
    exact ⟨by simp [Sql.SelectItem.kept, fullSelectItem, hf], by simpa using hu⟩
  | exprWithAlias expr aliasName =>
    obtain ⟨mapped, hm, h⟩ := Result.bind_eq_ok.mp h
    cases h
    obtain ⟨hf, hu⟩ := full_kept hm
    exact ⟨by simp [Sql.SelectItem.kept, fullSelectItem, hf], by simpa using hu⟩
  | wildcard =>
    cases h
    refine ⟨rfl, fun t ht => ?_⟩
    obtain ⟨col, -, rfl⟩ := List.mem_map.mp ht
    trivial
  | other debug => cases h

theorem fullSqlExpr_const {e : Sql.Expr} {val : Value} (h : mapSqlExpr e = .ok (.const val)) :
    fullSqlExpr e = .ok (.const val) := by
  cases e with
  | identifier | compoundIdentifier | other => cases h
  | value lit => exact h
  | binaryOp left op right =>
    simp only [mapSqlExpr, Result.bind_eq_ok] at h
    obtain ⟨_, -, _, -, _, -, h⟩ := h
    cases h
  | function name args =>
    obtain ⟨-, hu⟩ := full_kept h
    unfold mapSqlExpr at h
    dsimp only at h
    split at h
    · split at h
      all_goals first
        | cases h
        | (obtain ⟨_, -, h⟩ := Result.map_eq_ok.mp h; cases h)
    · cases h

theorem bindCount_kept {e : Option Sql.Expr} {count : Option ℕ} (h : bindCount e = .ok count) :
    ∃ kept, ((e.filter isIntLiteral).mapM fun e => (fullSqlExpr e).toOption) = some kept ∧
      IsCount kept ∧ literalCount kept = count := by
  cases e with
  | none =>
    cases h
    exact ⟨none, rfl, trivial, rfl⟩
  | some e =>
    obtain ⟨expr, he, h⟩ := Result.bind_eq_ok.mp h
    by_cases hlit : ∃ i, expr = .const (.int i)
    · obtain ⟨i, rfl⟩ := hlit
      cases h
      have hint : isIntLiteral e := by simp [isIntLiteral, he]
      refine ⟨some (.const (.int i)), ?_, trivial, rfl⟩
      simp [Option.filter, hint, fullSqlExpr_const he]
    · have hint : isIntLiteral e = false := by
        unfold isIntLiteral
        rw [he]
        split
        · rename_i i hi
          cases hi
          exact absurd ⟨i, rfl⟩ hlit
        · rfl
      have hcount : count = none := by
        split at h
        · exact absurd ⟨_, rfl⟩ hlit
        · cases h
          rfl
      exact ⟨none, by simp [Option.filter, hint], trivial, hcount.symm⟩

theorem bindOrderBy_kept {p plan : LogicalPlan} {keys : Option (List Sql.OrderByExpr)}
    (h : bindOrderBy p keys = .ok plan) :
    ∃ sortKeys, ((keys.map (List.map Sql.OrderByExpr.kept)).getD []).mapM fullSortKey =
        .ok sortKeys ∧
      (∀ key ∈ sortKeys, key.nullsFirst = none) ∧ plan = sortPlan p sortKeys := by
  match keys with
  | none | some [] =>
    cases h
    exact ⟨[], rfl, by simp, rfl⟩
  | some (e :: es) =>
    obtain ⟨orderBy, hob, h⟩ := Result.bind_eq_ok.mp h
    cases h
    have hkeys := mapM_kept fullSortKey Sql.OrderByExpr.kept
      (fun key => SortKey.mk key.1 key.2 none) hob fun e key he => by
        obtain ⟨expr, hexpr, he⟩ := Result.bind_eq_ok.mp he
        cases he
        simp [Sql.OrderByExpr.kept, fullSortKey, (full_kept hexpr).1]
    refine ⟨_, hkeys, fun key hkey => ?_, ?_⟩
    · obtain ⟨_, -, rfl⟩ := List.mem_map.mp hkey
      rfl
    rw [List.mapM_cons] at hob
    obtain ⟨key, -, hob⟩ := Result.bind_eq_ok.mp hob
    obtain ⟨rest, -, hob⟩ := Result.bind_eq_ok.mp hob
    cases hob
    simp [sortPlan, Function.comp_def]

theorem fullSelectItems_kept {schema : Schema} {items : List Sql.SelectItem}
    {targets : List (List (Expr × String))} (h : items.mapM (bindSelectItem schema) = .ok targets) :
    (items.map Sql.SelectItem.kept).mapM (fullSelectItem schema) = .ok targets ∧
      ∀ t ∈ targets.flatten, Unmarked t.1 := by
  refine ⟨?_, fun t ht => ?_⟩
  · simpa using mapM_kept _ _ id h fun item ts hi => (fullSelectItem_kept hi).1
  · obtain ⟨ts, hts, ht⟩ := List.mem_flatten.mp ht
    obtain ⟨item, -, hi⟩ := Result.exists_of_mem_mapM h hts
    exact (fullSelectItem_kept hi).2 t ht

/-- The clauses that the binder reads are all of the query that it binds. -/
theorem clauses_kept {q : Sql.Query} {catalog : Catalog} {plan : LogicalPlan}
    (h : bindQuery q catalog = .ok plan) :
    ∃ c, q.kept.clauses catalog = some c ∧ c.Plain ∧ plan = c.plan := by
  obtain ⟨select, source, schema, selection, targets, groupBy, sorted, limit, offset, hbody,
    hsource, hschema, hsel, htargets, hgb, hob, hlimit, hoffset, rfl⟩ := bindQuery_eq_ok h
  obtain ⟨hproj, hunmarked⟩ := fullSelectItems_kept htargets
  have hproj : select.kept.projection.mapM (fullSelectItem schema) = .ok targets := hproj
  obtain ⟨sortKeys, hkeys, hnulls, rfl⟩ := bindOrderBy_kept hob
  obtain ⟨keptLimit, hkl, hcl, rfl⟩ := bindCount_kept hlimit
  obtain ⟨keptOffset, hko, hco, rfl⟩ := bindCount_kept hoffset
  obtain ⟨e, he, rfl⟩ := fullFrom_kept hsource
  have hsource : fullFrom select.kept.from_ = .ok e := he
  have hschema : e.schema catalog = some schema := by
    rw [← e.schema_plan, hschema, Result.toOption_ok]
  have hsel : select.kept.selection.mapM (fun e => (fullSqlExpr e).toOption) = some selection := by
    change (select.selection.map keptSqlExpr).mapM _ = _
    rcases hs : select.selection with _ | e
    · rw [hs] at hsel
      cases hsel
      rfl
    · rw [hs] at hsel
      obtain ⟨expr, he, hsel⟩ := Result.map_eq_ok.mp hsel
      subst hsel
      simp [(full_kept he).1]
  refine ⟨⟨e, selection, targets.flatten, groupBy, none, false, sortKeys, keptLimit,
    keptOffset⟩, ?_, ⟨hunmarked, rfl, rfl, hnulls, hcl, hco⟩, rfl⟩
  rcases hg : select.groupBy with _ | exprs
  · rw [hg] at hgb
    cases hgb
  · rw [hg] at hgb
    have hgroup : (exprs.map keptSqlExpr).mapM fullSqlExpr = .ok groupBy := by
      simpa using mapM_kept _ _ id hgb fun e expr he => (full_kept he).1
    have hgroupBy : fullGroupBy select.kept.groupBy = some groupBy := by
      simp [Sql.Select.kept, hg, fullGroupBy, hgroup]
    have hdistinct : fullDistinct select.kept.distinct = some false := rfl
    have hhaving : select.kept.having = none := rfl
    simp [Sql.Query.clauses, Sql.Query.kept, hbody, selectOf, hdistinct, hsource, hschema, hproj,
      hgroupBy, hsel, hhaving, hkeys, hkl, hko]

end Bound

theorem distinctOf_eq_none {e : Expr} (h : Unmarked e) : distinctOf e = none := by
  cases e with
  | funcCall name arg =>
    have hname : name ≠ "distinct" := by
      rintro rfl
      exact absurd h.1 (by decide)
    exact if_neg hname
  | colRef | const | binaryOp | star => rfl

theorem extractAggregates_eq (e : Expr) (aggFuncs : List (String × Expr × String)) :
    extractAggregates e aggFuncs = (e.rewritten, e.calls.foldl addCall aggFuncs) := by
  induction e generalizing aggFuncs with
  | colRef name | const val | star => rfl
  | binaryOp op left right ihl ihr =>
    simp only [extractAggregates, ihl, ihr, Expr.rewritten, Expr.calls, List.foldl_append]
  | funcCall name arg =>
    unfold extractAggregates Expr.rewritten Expr.calls
    by_cases h : isAggregate name
    · simp only [h, if_true, List.foldl_cons, List.foldl_nil, addCall, getExprName]
      exact (apply_ite (Prod.mk _) _ _ _).symm
    · simp [h]

theorem extractTargets_eq (targets : List (Expr × String))
    (aggFuncs : List (String × Expr × String)) :
    extractTargets targets aggFuncs = (targets.map fun target => (target.1.rewritten, target.2),
      (targets.flatMap fun target => target.1.calls).foldl addCall aggFuncs) := by
  induction targets generalizing aggFuncs with
  | nil => rfl
  | cons target targets ih =>
    simp only [extractTargets, extractAggregates_eq, ih, List.map_cons, List.flatMap_cons,
      List.foldl_append]

theorem Unmarked.calls {e : Expr} (h : Unmarked e) : ∀ call ∈ e.calls, Unmarked call.2 := by
  induction e with
  | colRef | const | star => simp [Expr.calls]
  | binaryOp op left right ihl ihr =>
    exact fun call hcall => (List.mem_append.mp hcall).elim (ihl h.1 call) (ihr h.2 call)
  | funcCall name arg =>
    intro call hcall
    obtain rfl : call = (name, arg) := by simpa [Expr.calls, h.1] using hcall
    exact h.2

theorem mem_foldl_addCall {calls : List (String × Expr)} {aggFuncs : List (String × Expr × String)}
    {f : String × Expr × String} (hf : f ∈ calls.foldl addCall aggFuncs) :
    f ∈ aggFuncs ∨ (f.1, f.2.1) ∈ calls := by
  induction calls generalizing aggFuncs with
  | nil => exact .inl hf
  | cons call calls ih =>
    rcases ih hf with hf | hf
    · unfold addCall at hf
      dsimp only at hf
      split at hf
      · exact .inl hf
      · rcases List.mem_append.mp hf with hf | hf
        · exact .inl hf
        · rw [List.mem_singleton.mp hf]
          exact .inr List.mem_cons_self
    · exact .inr (List.mem_cons_of_mem _ hf)

namespace Clauses.Plain

variable {c : Clauses}

theorem extractTargets_eq (h : c.Plain) :
    extractTargets c.targets [] = (c.groupTargets, c.calls) := by
  rw [VolcanoDb.extractTargets_eq, calls, groupTargets, h.having, Option.map_none, Option.getD_none,
    List.append_nil]

theorem distinctOf_calls (h : c.Plain) : ∀ f ∈ c.calls, distinctOf f.2.1 = none := by
  intro f hf
  rw [calls, h.having, Option.map_none, Option.getD_none, List.append_nil] at hf
  rcases mem_foldl_addCall hf with hf | hf
  · cases hf
  · obtain ⟨t, ht, hcall⟩ := List.mem_flatMap.mp hf
    exact distinctOf_eq_none ((h.targets t ht).calls _ hcall)

theorem grouped_iff (h : c.Plain) :
    c.Grouped ↔ c.groupBy ≠ [] ∨ c.targets.any fun t => hasAggFuncs t.1 := by
  simp [Grouped, h.having]

end Clauses.Plain

theorem groupSchema_eq {groupBy : List Expr} {calls : List (String × Expr × String)}
    (h : ∀ f ∈ calls, distinctOf f.2.1 = none) {catalog : Catalog} {child : LogicalPlan}
    {schema : Schema} (hs : child.schema catalog = .ok schema) :
    ((LogicalPlan.agg child groupBy calls).schema catalog).toOption =
      groupSchema groupBy calls schema := by
  have haggs : (calls.mapM fun f =>
      Column.mk f.2.2 <$> aggColumnType f.1 ((distinctOf f.2.1).getD f.2.1) schema) =
      calls.mapM fun f => Column.mk f.2.2 <$> aggColumnType f.1 f.2.1 schema := by
    induction calls with
    | nil => rfl
    | cons f calls ih =>
      obtain ⟨hf, hcalls⟩ := List.forall_mem_cons.mp h
      simp only [List.mapM_cons, hf, ih hcalls, Option.getD_none]
  rw [groupSchema, haggs, LogicalPlan.schema, hs, Result.ok_bind, Result.toOption_bind]
  simp [Result.toOption_bind]

theorem schema_project {catalog : Catalog} {child : LogicalPlan} {i : Input}
    (h : child.schema catalog = .ok i.schema) :
    ((LogicalPlan.project child i.targets).schema catalog).toOption = i.outputSchema := by
  rw [LogicalPlan.schema, h, Input.outputSchema, Result.ok_bind]
  rcases i.targets.mapM _ with f | columns <;> rfl

section Agreement

variable [BuildProfile]

theorem compareSortKeys_eq (schema : Schema) (a b : Tuple) {keys : List SortKey}
    (h : ∀ key ∈ keys, key.nullsFirst = none) :
    compareSortKeys schema a b keys =
      compareKeys schema a b (keys.map fun key => (key.expr, key.asc)) := by
  induction keys with
  | nil => rfl
  | cons key keys ih =>
    obtain ⟨hkey, hkeys⟩ := List.forall_mem_cons.mp h
    rw [compareSortKeys, List.map_cons, compareKeys]
    refine bind_congr fun valA => bind_congr fun valB => ?_
    rw [hkey, ih hkeys]
    rfl

theorem rowCount_eq {e : Option Expr} (h : IsCount e) : rowCount e = some (literalCount e) := by
  match e, h with
  | none, _ => rfl
  | some (.const (.int i)), _ => rfl

theorem groupRows_congr [Collections] {groupBy : List Expr}
    {aggFuncs : List (String × Expr × String)} {schema : Schema} {rows : List Tuple}
    {aggregate aggregate' : String × Expr × String → List Tuple → Result AggState}
    (h : ∀ f ∈ aggFuncs, aggregate f = aggregate' f) :
    groupRows aggregate groupBy aggFuncs schema rows =
      groupRows aggregate' groupBy aggFuncs schema rows := by
  have hmap (rows : List Tuple) :
      (aggFuncs.mapM fun f => aggregate f rows) = aggFuncs.mapM fun f => aggregate' f rows := by
    induction aggFuncs with
    | nil => rfl
    | cons f aggFuncs ih =>
      obtain ⟨hf, hfuncs⟩ := List.forall_mem_cons.mp h
      simp only [List.mapM_cons, hf, ih hfuncs]
  simp only [groupRows, hmap]

variable [Collections] {ctx : ExecutionContext} {catalog : Catalog} {c : Clauses}

omit [BuildProfile] [Collections] in
theorem Stream.eq_of_not_first {s : Stream} (h : ¬ (s.rows ≠ [] ∨ s.stop = none)) :
    ∃ f, s = ⟨[], some f⟩ := by
  obtain ⟨rows, stop⟩ := s
  obtain ⟨hrows, hstop⟩ := not_or.mp h
  obtain rfl : rows = [] := not_not.mp hrows
  obtain ⟨f, rfl⟩ := Option.ne_none_iff_exists'.mp hstop
  exact ⟨f, rfl⟩

variable (ctx catalog) in
theorem TableExpr.stream_plan (e : TableExpr) :
    (e.plan.stream ctx catalog).toOption = e.rows ctx catalog := by
  induction e with
  | unit => rfl
  | table name aliasName =>
    unfold plan LogicalPlan.stream rows
    rcases ctx.tables.lookup name with _ | tuples <;> rfl
  | join left right condition ihl ihr =>
    have hschema : ((LogicalPlan.join left.plan right.plan condition).schema catalog).toOption =
        (join left right condition).schema catalog :=
      schema_plan (join left right condition)
    simp only [plan, LogicalPlan.stream, rows, Result.toOption_bind, ihl, ihr, hschema]
    apply bind_congr
    intro l
    apply bind_congr
    intro r
    apply bind_congr
    intro rightRows
    apply bind_congr
    intro schema
    by_cases hfirst : l.rows ≠ [] ∨ l.stop = none
    · rw [guard, if_pos hfirst]
      obtain ⟨rows, stop⟩ := l
      rcases rows with _ | ⟨t, rows⟩
      · obtain rfl : stop = none := hfirst.resolve_left (not_not.mpr rfl)
        rfl
      · rfl
    · rw [guard, if_neg hfirst]
      obtain ⟨f, rfl⟩ := Stream.eq_of_not_first hfirst
      rfl

variable (ctx catalog c) in
theorem Clauses.stream_filterPlan :
    (c.filterPlan.stream ctx catalog).toOption = c.filtered ctx catalog := by
  unfold filterPlan filtered
  rcases c.selection with _ | predicate
  · rw [filterBy, TableExpr.stream_plan]
    exact (bind_pure (m := Option) _).symm
  · simp only [filterBy, LogicalPlan.stream, Result.toOption_bind, TableExpr.stream_plan,
      TableExpr.schema_plan]
    rfl

omit [BuildProfile] [Collections] in
variable (catalog c) in
theorem Clauses.schema_filterPlan :
    (c.filterPlan.schema catalog).toOption = c.source.schema catalog := by
  rw [← c.source.schema_plan, filterPlan]
  rcases c.selection with _ | predicate <;> rfl

theorem Clauses.Plain.groupRows_eq (h : c.Plain) (schema : Schema) (rows : List Tuple) :
    groupRows (aggregateOver schema) c.groupBy c.calls schema rows =
      groupRows (accumulate schema) c.groupBy c.calls schema rows := by
  refine groupRows_congr fun f hf => ?_
  funext rows
  simp only [aggregateOver, h.distinctOf_calls f hf]

variable (ctx catalog) in
theorem Clauses.Plain.stream_bindProjection (h : c.Plain) (hiter : IteratesKeys) :
    ((bindProjection c.filterPlan c.targets c.groupBy).stream ctx catalog).toOption =
      (c.input ctx catalog).map fun i => i.output false := by
  unfold bindProjection Clauses.input
  by_cases hgrouped : c.Grouped
  · have hagg (s : Stream) (schema : Schema) :=
      toOption_aggregation c.groupBy c.calls schema hiter s
    simp only [Result.toOption_bind] at hagg
    simp only [h.grouped_iff.mp hgrouped, hgrouped, if_true, h.extractTargets_eq,
      LogicalPlan.stream, Result.toOption_bind, stream_filterPlan, schema_filterPlan,
      h.groupRows_eq, hagg, h.having]
    rcases hs : c.source.schema catalog with _ | schema
    · rcases c.filtered ctx catalog with _ | s <;> rfl
    · have hschema := hs
      rw [← c.schema_filterPlan catalog, Result.toOption_eq_some] at hschema
      simp [Option.bind_assoc, Input.output, groupSchema_eq h.distinctOf_calls hschema]
  · simp only [mt h.grouped_iff.mpr hgrouped, hgrouped, if_false, LogicalPlan.stream,
      Result.toOption_bind, stream_filterPlan, schema_filterPlan]
    simp [Input.output]

theorem Clauses.Plain.schema_bindProjection (h : c.Plain) {i : Input}
    (hi : c.input ctx catalog = some i) :
    ((bindProjection c.filterPlan c.targets c.groupBy).schema catalog).toOption =
      i.outputSchema := by
  simp only [Clauses.input, Option.bind_eq_bind, Option.bind_eq_some_iff] at hi
  obtain ⟨s, -, schema, hs, hi⟩ := hi
  rw [← c.schema_filterPlan catalog, Result.toOption_eq_some] at hs
  unfold bindProjection
  split at hi
  · rename_i hgrouped
    simp only [Option.bind_eq_some_iff, Option.some_inj] at hi
    obtain ⟨rows, -, l, -, groupS, hgroupS, rfl⟩ := hi
    rw [← groupSchema_eq h.distinctOf_calls hs, Result.toOption_eq_some] at hgroupS
    rw [if_pos (h.grouped_iff.mp hgrouped), h.extractTargets_eq]
    exact schema_project (i := ⟨_, groupS, c.groupTargets⟩) hgroupS
  · rename_i hgrouped
    cases hi
    rw [if_neg (mt h.grouped_iff.mpr hgrouped)]
    exact schema_project (i := ⟨s, schema, c.targets⟩) hs

variable (ctx catalog) in
theorem Clauses.Plain.stream_sortPlan (h : c.Plain) (hiter : IteratesKeys) :
    ((sortPlan (bindProjection c.filterPlan c.targets c.groupBy) c.orderBy).stream
      ctx catalog).toOption =
        (do
          let i ← c.input ctx catalog
          c.ordered i (i.output c.distinct)) := by
  have hstream := h.stream_bindProjection ctx catalog hiter
  rw [h.distinct]
  rcases hkeys : c.orderBy with _ | ⟨key, keys⟩
  · simp only [sortPlan, Clauses.ordered, hkeys, hstream]
    rcases c.input ctx catalog with _ | i <;> rfl
  · have hcompare (schema : Schema) (a b : Tuple) :=
      compareSortKeys_eq schema a b (hkeys ▸ h.orderBy)
    simp only [sortPlan, Clauses.ordered, hkeys, LogicalPlan.stream, Result.toOption_bind, hstream,
      hcompare]
    rcases hi : c.input ctx catalog with _ | i
    · simp
    · simp [h.schema_bindProjection hi]

variable (ctx catalog) in
/-- The plan that clauses are bound to answers with what they mean. -/
theorem Clauses.Plain.toOption_executeQuery (h : c.Plain) (hiter : IteratesKeys) :
    (executeQuery ctx catalog c.plan).toOption = c.meaning ctx catalog := by
  have hsorted := h.stream_sortPlan ctx catalog hiter
  rw [Executor.toOption_executeQuery]
  simp only [LogicalPlan.answer, Result.toOption_bind, Clauses.meaning, rowCount_eq h.limit,
    rowCount_eq h.offset, Clauses.plan]
  split
  · simp only [LogicalPlan.stream, Result.toOption_bind, hsorted]
    simp [Option.bind_assoc]
  · rename_i hnone
    have hlimit : literalCount c.limit = none := by simpa using fun h => hnone (.inl h)
    have hoffset : literalCount c.offset = none := by simpa using fun h => hnone (.inr h)
    simp only [hsorted, hlimit, hoffset]
    simp [Option.bind_assoc]

end Agreement

section Denotes

variable [BuildProfile] [Collections] [Unicode] {q : Sql.Query} {catalog : Catalog}
  {plan : LogicalPlan}

/-- A plan whose rows on every database are those that all clauses of a query ask for. -/
def Denotes (catalog : Catalog) (q : Sql.Query) (plan : LogicalPlan) : Prop :=
  ∃ c, q.clauses catalog = some c ∧
    ∀ ctx, (executeQuery ctx catalog plan).toOption = c.meaning ctx catalog

/-- The clauses that the binder does not read do not change what a query means. -/
def UnreadIdle (catalog : Catalog) (q : Sql.Query) : Prop :=
  ∃ c c', q.clauses catalog = some c ∧ q.kept.clauses catalog = some c' ∧
    ∀ ctx, c'.meaning ctx catalog = c.meaning ctx catalog

/--
The plan of a query that is bound denotes the query if and only if the clauses
that the binder does not read do not change what the query means.
-/
theorem bindQuery_denotes_iff (hiter : IteratesKeys) (h : bindQuery q catalog = .ok plan) :
    Denotes catalog q plan ↔ UnreadIdle catalog q := by
  obtain ⟨c', hc', hplain, rfl⟩ := clauses_kept h
  have hexec (ctx : ExecutionContext) := hplain.toOption_executeQuery ctx catalog hiter
  constructor
  · rintro ⟨c, hc, hm⟩
    exact ⟨c, c', hc, hc', fun ctx => (hexec ctx).symm.trans (hm ctx)⟩
  · rintro ⟨c, c'', hc, hc'', hm⟩
    obtain rfl := Option.some_inj.mp (hc'.symm.trans hc'')
    exact ⟨c, hc, fun ctx => (hexec ctx).trans (hm ctx)⟩

/-- A query that has no clause that the binder does not read is denoted by its plan. -/
theorem denotes_of_kept (hiter : IteratesKeys) (h : bindQuery q catalog = .ok plan)
    (hq : q.kept = q) : Denotes catalog q plan := by
  obtain ⟨c, hc, hplain, rfl⟩ := clauses_kept h
  exact ⟨c, hq ▸ hc, fun ctx => hplain.toOption_executeQuery ctx catalog hiter⟩

/-- A database on which the rows of the plan are not those that a query asks for. -/
def Differs (ctx : ExecutionContext) (catalog : Catalog) (q : Sql.Query) : Bool :=
  (bindQuery q catalog).toOption.any fun plan =>
    (executeQuery ctx catalog plan).toOption ≠
      (q.clauses catalog).bind fun c => c.meaning ctx catalog

theorem not_denotes {ctx : ExecutionContext} (h : Differs ctx catalog q) :
    ∃ plan, bindQuery q catalog = .ok plan ∧ ¬ Denotes catalog q plan := by
  obtain ⟨plan, hplan, hne⟩ := (Option.any_eq_true _ _).mp h
  refine ⟨plan, Result.toOption_eq_some.mp hplan, ?_⟩
  rintro ⟨c, hc, hm⟩
  rw [hc] at hne
  exact of_decide_eq_true hne (hm ctx)

end Denotes

namespace Sample

def pairCatalog : Catalog :=
  (Catalog.new.addTable "t" ⟨[⟨"a", .int⟩]⟩).addTable "u" ⟨[⟨"b", .int⟩]⟩

def pairContext : ExecutionContext where
  tables := AList.insert "u" [⟨[.int 3], none, 0⟩, ⟨[.int 4], none, 0⟩]
    (AList.insert "t" [⟨[.int 1], none, 0⟩, ⟨[.int 1], none, 0⟩] ∅)
  txMgr := TransactionManager.new ⟨[]⟩
  sessionTxId := none
  crScn := 0

def tableItem (name : String) : Sql.TableWithJoins := ⟨.table [⟨name, none⟩] none, []⟩

def column (name : String) : Sql.Expr := .identifier ⟨name, none⟩

def number (text : String) : Sql.Expr := .value (.number text)

def selectFrom (s : Sql.Select) : Sql.Query := { body := .select s }

def fromT : Sql.Select where
  projection := [.unnamedExpr (column "a")]
  from_ := [tableItem "t"]

def joinedTables : Sql.TableWithJoins :=
  ⟨.table [⟨"t", none⟩] none,
    [⟨.table [⟨"u", none⟩] none, .innerOn (.binaryOp (column "a") .lt (column "b"))⟩]⟩

/-- A query with a second table, with `HAVING`, with either `DISTINCT` and with `LIMIT 0 + 1`. -/
def unreadQueries : List Sql.Query :=
  [selectFrom { fromT with from_ := [tableItem "t", tableItem "u"] },
    selectFrom { fromT with
      groupBy := .expressions [column "a"]
      having := some (.value (.boolean false)) },
    selectFrom { fromT with distinct := some .distinct },
    selectFrom { fromT with
      projection :=
        [.unnamedExpr (.function [⟨"count", none⟩] (.list true [.expr (column "a")]))] },
    { selectFrom fromT with limit := some (.binaryOp (number "0") .plus (number "1")) }]

end Sample

open Sample in
theorem bindQuery_denotes_iff_sample :
    let _ : BuildProfile := ⟨true⟩
    let _ := insertionCollections
    let _ : Unicode := ⟨String.toUpper, String.toLower, fun _ => true⟩
    let q : Sql.Query := { selectFrom { fromT with from_ := [joinedTables] } with
      orderBy := some [⟨column "a", some false, none⟩]
      limit := some (number "1") }
    ∃ plan, bindQuery q pairCatalog = .ok plan ∧ Denotes pairCatalog q plan := by
  intro _ _ _ q
  refine ⟨_, rfl, (bindQuery_denotes_iff (fun l => .refl l) rfl).mpr ?_⟩
  exact ⟨_, _, rfl, rfl, fun _ => rfl⟩

open Sample in
/-- Each of these queries is bound, and the rows of its plan are not those it asks for. -/
theorem bindQuery_drops_clauses :
    let _ : BuildProfile := ⟨true⟩
    let _ := insertionCollections
    let _ : Unicode := ⟨String.toUpper, String.toLower, fun _ => true⟩
    ∀ q ∈ unreadQueries, ∃ plan, bindQuery q pairCatalog = .ok plan ∧
      ¬ Denotes pairCatalog q plan := by
  intro _ _ _
  have hall : ∀ q ∈ unreadQueries, Differs pairContext pairCatalog q := by decide +kernel
  exact fun q hq => not_denotes (hall q hq)

end VolcanoDb
