import VolcanoDb.Planner.Expr

/-! # Logical plans

The operators of a bound query and the schema of their results. Scans qualify
the columns of a table by its alias, or by its name when there is none.
-/

namespace VolcanoDb

inductive LogicalPlan where
  | dummyScan
  | scan (tableName : String) (aliasName : Option String)
  | filter (child : LogicalPlan) (predicate : Expr)
  | project (child : LogicalPlan) (exprs : List (Expr × String))
  | limit (child : LogicalPlan) (limit offset : Option ℕ)
  | sort (child : LogicalPlan) (orderBy : List (Expr × Bool))
  | join (left right : LogicalPlan) (condition : Option Expr)
  /-- Aggregate functions carry their name, argument and generated column name. -/
  | agg (child : LogicalPlan) (groupBy : List Expr) (aggFuncs : List (String × Expr × String))
  deriving DecidableEq

def aggColumnType (funcName : String) (argExpr : Expr) (childSchema : Schema) : Result DataType :=
  match funcName with
  | "count" => pure .int
  | "sum" | "avg" => do
    let childType ← getExprType argExpr childSchema
    match childType with
    | .int => if funcName = "avg" then pure .float else pure .int
    | .float => pure .float
    | _ => err .nonNumericAggregateColumn
  | "min" | "max" => getExprType argExpr childSchema
  | _ => err (.unsupportedAggregate funcName)

/-- The columns of a table under a qualifier; dotted column names are kept. -/
def qualify (qualifier : String) (s : Schema) : Schema :=
  ⟨s.columns.map fun col =>
    ⟨if hasDot col.name then col.name else s!"{qualifier}.{col.name}", col.dataType⟩⟩

def LogicalPlan.schema (catalog : Catalog) : LogicalPlan → Result Schema
  | dummyScan => pure ⟨[]⟩
  | scan tableName aliasName =>
    match catalog.getSchema tableName with
    | some s => pure (qualify (aliasName.getD tableName) s)
    | none => err (.tableNotInCatalog tableName)
  | filter child _ => child.schema catalog
  | limit child _ _ => child.schema catalog
  | sort child _ => child.schema catalog
  | project child exprs => do
    let childSchema ← child.schema catalog
    let columns ← exprs.mapM fun (expr, name) =>
      Column.mk name <$> getExprType expr childSchema
    pure ⟨columns⟩
  | join left right _ => do
    let leftS ← left.schema catalog
    let rightS ← right.schema catalog
    pure ⟨leftS.columns ++ rightS.columns⟩
  | agg child groupBy aggFuncs => do
    let childSchema ← child.schema catalog
    let keys ← groupBy.mapM fun expr =>
      Column.mk (getExprName expr) <$> getExprType expr childSchema
    let aggs ← aggFuncs.mapM fun (funcName, argExpr, name) =>
      Column.mk name <$> aggColumnType funcName argExpr childSchema
    pure ⟨keys ++ aggs⟩

end VolcanoDb
