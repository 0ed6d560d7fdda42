import VolcanoDb.Planner.Plan
import VolcanoDb.Planner.Sql

/-! # Binding

Translation of syntax trees to logical plans, in the order of the clauses of a
query. Aggregate calls are moved into an aggregation operator and replaced by
references to the columns it generates.
-/

namespace VolcanoDb

def parseDigits (ds : List Char) : Option ℕ :=
  if ds ≠ [] ∧ ds.all Char.isDigit then
    some (ds.foldl (fun n c => 10 * n + (c.toNat - '0'.toNat)) 0)
  else none

def parseSign : List Char → Bool × List Char
  | '-' :: cs => (true, cs)
  | '+' :: cs => (false, cs)
  | cs => (false, cs)

def parseI64 (s : String) : Result Int64 :=
  let (neg, ds) := parseSign s.toList
  match parseDigits ds with
  | none =>
    err (.number (if s = "" then "cannot parse integer from empty string"
      else "invalid digit found in string"))
  | some n =>
    let i : ℤ := if neg then -n else n
    if i < -2 ^ 63 then err (.number "number too small to fit in target type")
    else if 2 ^ 63 ≤ i then err (.number "number too large to fit in target type")
    else pure (Int64.ofInt i)

def parseExponent : List Char → Option ℤ
  | [] => some 0
  | e :: cs =>
    if e = 'e' ∨ e = 'E' then
      let (neg, ds) := parseSign cs
      (parseDigits ds).map fun n => if neg then -n else n
    else none

def parseDecimal (cs : List Char) : Option (ℕ × ℤ) :=
  let whole := cs.takeWhile Char.isDigit
  let rest := cs.dropWhile Char.isDigit
  let (frac, tail) := match rest with
    | '.' :: r => (r.takeWhile Char.isDigit, r.dropWhile Char.isDigit)
    | r => ([], r)
  match parseDigits (whole ++ frac), parseExponent tail with
  | some n, some e => some (n, e - frac.length)
  | _, _ => none

def parseF64 (s : String) : Result F64 :=
  let (neg, cs) := parseSign s.toList
  match parseDecimal cs with
  | some (n, e) => pure (F64.ofDecimal neg n e)
  | none => err (.number "invalid float literal")

def isAggregate (name : String) : Bool :=
  name = "count" ∨ name = "sum" ∨ name = "avg" ∨ name = "min" ∨ name = "max"

def mapLiteral : Sql.Literal → Result Value
  | .number text =>
    if hasDot text then .float <$> parseF64 text else .int <$> parseI64 text
  | .singleQuotedString s | .doubleQuotedString s => pure (.varchar s)
  | .boolean b => pure (.bool b)
  | .null => pure .null
  | .other debug => err (.unsupportedLiteral debug)

def mapBinaryOperator : Sql.BinaryOperator → Result String
  | .plus => pure "+"
  | .minus => pure "-"
  | .multiply => pure "*"
  | .divide => pure "/"
  | .eq => pure "="
  | .notEq => pure "!="
  | .gt => pure ">"
  | .gtEq => pure ">="
  | .lt => pure "<"
  | .ltEq => pure "<="
  | .and => pure "and"
  | .or => pure "or"
  | .other debug => err (.unsupportedBinaryOperator debug)

section Bind

variable [Unicode]

def mapSqlExpr : Sql.Expr → Result Expr
  | .identifier ident => pure (.colRef ident.value)
  | .compoundIdentifier idents => pure (.colRef (".".intercalate (idents.map Sql.Ident.value)))
  | .value val => .const <$> mapLiteral val
  | .binaryOp left op right => do
    let op ← mapBinaryOperator op
    let left ← mapSqlExpr left
    let right ← mapSqlExpr right
    pure (.binaryOp op left right)
  | .function name args =>
    let funcName := Unicode.toLowercase (Sql.ObjectName.text name)
    if isAggregate funcName then
      match args with
      | .none => pure (.funcCall funcName .star)
      | .subquery => err .subqueryArgument
      | .list _ [] => pure (.funcCall funcName .star)
      | .list _ (.wildcard :: _) => pure (.funcCall funcName .star)
      | .list _ (.expr inner :: _) => .funcCall funcName <$> mapSqlExpr inner
      | .list _ (.other :: _) => err .unsupportedArgument
    else err (.unsupportedFunction funcName)
  | .other debug => err (.unsupportedExpression debug)

omit [Unicode] in
def bindTableFactor : Sql.TableFactor → Result LogicalPlan
  | .table name aliasName =>
    pure (.scan (Sql.ObjectName.text name) (aliasName.map Sql.Ident.value))
  | .other debug => err (.unsupportedFactor debug)

omit [Unicode] in
def hasAggFuncs : Expr → Bool
  | .funcCall name _ => isAggregate name
  | .binaryOp _ left right => hasAggFuncs left || hasAggFuncs right
  | _ => false

omit [Unicode] in
/-- Replace aggregate calls by their columns, adding the new ones to the list. -/
def extractAggregates : Expr → List (String × Expr × String) →
    Expr × List (String × Expr × String)
  | .funcCall name arg, aggFuncs =>
    if isAggregate name then
      let genName := s!"{name}({getExprName arg})"
      if aggFuncs.any fun f => f.2.2 = genName then (.colRef genName, aggFuncs)
      else (.colRef genName, aggFuncs ++ [(name, arg, genName)])
    else (.funcCall name arg, aggFuncs)
  | .binaryOp op left right, aggFuncs =>
    let (left, aggFuncs) := extractAggregates left aggFuncs
    let (right, aggFuncs) := extractAggregates right aggFuncs
    (.binaryOp op left right, aggFuncs)
  | e, aggFuncs => (e, aggFuncs)

omit [Unicode] in
def extractTargets : List (Expr × String) → List (String × Expr × String) →
    List (Expr × String) × List (String × Expr × String)
  | [], aggFuncs => ([], aggFuncs)
  | (expr, name) :: targets, aggFuncs =>
    let (expr, aggFuncs) := extractAggregates expr aggFuncs
    let (targets, aggFuncs) := extractTargets targets aggFuncs
    ((expr, name) :: targets, aggFuncs)

/-- Only the first item of the list is bound. -/
def bindFrom : List Sql.TableWithJoins → Result LogicalPlan
  | [] => pure .dummyScan
  | item :: _ => do
    let plan ← bindTableFactor item.relation
    item.joins.foldlM (fun plan join => do
      let right ← bindTableFactor join.relation
      match join.joinOperator with
      | .innerOn expr => do
        let cond ← mapSqlExpr expr
        pure (.join plan right (some cond))
      | .crossJoin => pure (.join plan right none)
      | .other debug => err (.unsupportedJoin debug)) plan

/-- The targets of one item; a wildcard is expanded to the names of all columns. -/
def bindSelectItem (schema : Schema) : Sql.SelectItem → Result (List (Expr × String))
  | .unnamedExpr expr => do
    let mapped ← mapSqlExpr expr
    pure [(mapped, getExprName mapped)]
  | .exprWithAlias expr aliasName => do
    let mapped ← mapSqlExpr expr
    pure [(mapped, aliasName.value)]
  | .wildcard => pure (schema.columns.map fun col => (.colRef col.name, col.name))
  | .other debug => err (.unsupportedItem debug)

def bindGroupBy : Sql.GroupBy → Result (List Expr)
  | .expressions exprs => exprs.mapM mapSqlExpr
  | .all => err .groupByAll

def bindOrderBy (plan : LogicalPlan) : Option (List Sql.OrderByExpr) → Result LogicalPlan
  | none | some [] => pure plan
  | some exprs => do
    let orderBy ← exprs.mapM fun (e : Sql.OrderByExpr) => do
      let expr ← mapSqlExpr e.expr
      pure (expr, e.asc.getD true)
    pure (.sort plan orderBy)

/-- A row count: an integer literal cast to `usize`, and nothing for any other expression. -/
def bindCount : Option Sql.Expr → Result (Option ℕ)
  | none => pure none
  | some expr => do
    match ← mapSqlExpr expr with
    | .const (.int i) => pure (some i.toUInt64.toNat)
    | _ => pure none

/-- The projection of a query, over an aggregation when it groups or aggregates. -/
def bindProjection (plan : LogicalPlan) (targets : List (Expr × String)) (groupBy : List Expr) :
    LogicalPlan :=
  if groupBy ≠ [] ∨ targets.any fun t => hasAggFuncs t.1 then
    let (rewritten, aggFuncs) := extractTargets targets []
    .project (.agg plan groupBy aggFuncs) rewritten
  else .project plan targets

def bindQuery (query : Sql.Query) (catalog : Catalog) : Result LogicalPlan := do
  let select ← match query.body with
    | .select s => pure s
    | .values _ debug => err (.unsupportedBody debug)
    | .other debug => err (.unsupportedBody debug)
  let plan ← bindFrom select.from_
  let schema ← plan.schema catalog
  let plan ← match select.selection with
    | some selection => LogicalPlan.filter plan <$> mapSqlExpr selection
    | none => pure plan
  let targets ← select.projection.mapM (bindSelectItem schema)
  let groupBy ← bindGroupBy select.groupBy
  let plan ← bindOrderBy (bindProjection plan targets.flatten groupBy) query.orderBy
  let limit ← bindCount query.limit
  let offset ← bindCount query.offset
  pure (if limit.isSome ∨ offset.isSome then .limit plan limit offset else plan)

omit [Unicode] in
def filterBy (plan : LogicalPlan) : Option Expr → LogicalPlan
  | none => plan
  | some predicate => .filter plan predicate

/-- The clauses of a query that is bound, and its plan. -/
theorem bindQuery_eq_ok {q : Sql.Query} {catalog : Catalog} {plan : LogicalPlan}
    (h : bindQuery q catalog = .ok plan) :
    ∃ select source schema selection targets groupBy sorted limit offset,
      q.body = .select select ∧
      bindFrom select.from_ = .ok source ∧
      source.schema catalog = .ok schema ∧
      select.selection.mapM mapSqlExpr = .ok selection ∧
      select.projection.mapM (bindSelectItem schema) = .ok targets ∧
      bindGroupBy select.groupBy = .ok groupBy ∧
      bindOrderBy (bindProjection (filterBy source selection) targets.flatten groupBy) q.orderBy =
        .ok sorted ∧
      bindCount q.limit = .ok limit ∧
      bindCount q.offset = .ok offset ∧
      plan = if limit.isSome ∨ offset.isSome then .limit sorted limit offset else sorted := by
  rcases hbody : q.body with select | ⟨rows, debug⟩ | debug
  · simp only [bindQuery, hbody, Result.pure_eq_ok, Result.ok_bind, Result.bind_eq_ok] at h
    obtain ⟨source, hsource, schema, hschema, h⟩ := h
    rcases hsel : select.selection with _ | selection
    · simp only [hsel, Result.bind_eq_ok] at h
      obtain ⟨targets, htargets, groupBy, hgroupBy, sorted, hsorted, limit, hlimit, offset, hoffset,
        h⟩ := h
      exact ⟨select, source, schema, none, targets, groupBy, sorted, limit, offset, rfl, hsource,
        hschema, by rw [hsel]; rfl, htargets, hgroupBy, hsorted, hlimit, hoffset, by cases h; rfl⟩
    · simp only [hsel, Result.bind_eq_ok, Result.map_eq_ok] at h
      obtain ⟨_, ⟨predicate, hpred, rfl⟩, targets, htargets, groupBy, hgroupBy, sorted, hsorted,
        limit, hlimit, offset, hoffset, h⟩ := h
      exact ⟨select, source, schema, some predicate, targets, groupBy, sorted, limit, offset, rfl,
        hsource, hschema, by simp [hsel, hpred], htargets, hgroupBy, hsorted, hlimit, hoffset,
        by cases h; rfl⟩
  · simp only [bindQuery, hbody] at h
    cases h
  · simp only [bindQuery, hbody] at h
    cases h

inductive SQLStatement where
  | createTable (tableName : String) (schema : Schema)
  | insert (tableName : String) (rows : List (List Expr))
  | query (plan : LogicalPlan)

omit [Unicode] in
def bindDataType : Sql.DataType → Result DataType
  | .int | .integer => pure .int
  | .float | .double | .doublePrecision | .real => pure .float
  | .varchar | .text | .string => pure .varchar
  | .boolean | .bool => pure .bool
  | .other debug => err (.unsupportedDataType debug)

/-- Only the first statement of a text is bound. -/
def bindStatement [SqlParser] (sql : String) (catalog : Catalog) : Result SQLStatement := do
  let ast ← match SqlParser.parseSql sql with
    | .ok ast => pure ast
    | .error text => err (.parse text)
  match ast with
  | [] => err .emptyQuery
  | .createTable name columns :: _ => do
    let cols ← columns.mapM fun col => Column.mk col.name.value <$> bindDataType col.dataType
    pure (.createTable (Sql.ObjectName.text name) ⟨cols⟩)
  | .insert tableName _ source :: _ => do
    let query ← match source with
      | some query => pure query
      | none => err .missingSource
    match query.body with
    | .values rows _ => do
      let rows ← rows.mapM fun row => row.mapM mapSqlExpr
      pure (.insert (Sql.ObjectName.text tableName) rows)
    | _ => err .onlyValues
  | .query query :: _ => .query <$> bindQuery query catalog
  | .other debug :: _ => err (.unsupportedStatement debug)

end Bind

end VolcanoDb
