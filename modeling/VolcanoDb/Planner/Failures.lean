import VolcanoDb.Planner.Bind

/-! # Where failures come from

Kinds of failures, and the failures of evaluating, typing and binding: an
evaluation misses no table, and a column only where a reference of the
expression does not resolve; a translation from syntax misses neither.
-/

namespace VolcanoDb

/-- Every failure of a result is of a kind. -/
def Result.FailsWith {α : Type*} (p : Fault → Prop) (x : Result α) : Prop :=
  ∀ f, x = .error f → p f

namespace Result.FailsWith

universe u

variable {α β : Type u} {p q : Fault → Prop} {x : Result α}

theorem ok (a : α) : FailsWith p (.ok a : Result α) := by
  rintro f ⟨⟩

theorem error {f : Fault} (h : p f) : FailsWith p (.error f : Result α) := by
  rintro _ ⟨⟩
  exact h

theorem imp (hx : FailsWith p x) (h : ∀ f, p f → q f) : FailsWith q x := fun f hf => h f (hx f hf)

theorem bind {g : α → Result β} (hx : FailsWith p x) (hg : ∀ a, x = .ok a → FailsWith p (g a)) :
    FailsWith p (x >>= g) := by
  cases x with
  | error f => exact .error (hx f rfl)
  | ok a => exact hg a rfl

theorem map (hx : FailsWith p x) (g : α → β) : FailsWith p (g <$> x) := by
  cases x with
  | error f => exact .error (hx f rfl)
  | ok a => exact .ok _

theorem mapM {g : α → Result β} {l : List α} (h : ∀ a ∈ l, FailsWith p (g a)) :
    FailsWith p (l.mapM g) := by
  intro f hf
  obtain ⟨a, ha, hfa⟩ := Result.exists_of_mapM_eq_error hf
  exact h a ha f hfa

end Result.FailsWith

open Result (FailsWith)

def Fault.unknownTable : Fault → Option String
  | .error (.tableNotInCatalog name) => some name
  | .error (.tableNotInStorage name) => some name
  | .error (.tableNotFound name) => some name
  | .error (.storageMissing name) => some name
  | _ => none

def Fault.unknownColumn : Fault → Option String
  | .error (.columnNotFound name _) => some name
  | .error (.columnTypeNotFound name) => some name
  | _ => none

section Expressions

variable {p : Fault → Prop}

theorem failsWith_err {α : Type*} {e : DbError} (h : p (.error e)) :
    FailsWith p (err e : Result α) := .error h

def Expr.references : Expr → List String
  | .colRef name => [name]
  | .const _ | .star => []
  | .binaryOp _ left right => left.references ++ right.references
  | .funcCall _ arg => arg.references

/-- A failure that neither misses a table nor a column. -/
def Fault.Other (f : Fault) : Prop := f.unknownTable = none ∧ f.unknownColumn = none

theorem Fault.other_panic (message : String) : Fault.Other (.panic message) := ⟨rfl, rfl⟩

variable [BuildProfile]

theorem checkedInt_failsWith (message : String) (exact : ℤ) (wrapped : Int64) :
    FailsWith Fault.Other (checkedInt message exact wrapped) := by
  unfold checkedInt
  split
  · exact .error (Fault.other_panic message)
  · exact .ok _

omit [BuildProfile] in
theorem i64Div_failsWith (a b : Int64) : FailsWith Fault.Other (i64Div a b) := by
  unfold i64Div
  split
  · exact failsWith_err ⟨rfl, rfl⟩
  · split
    · exact .error (Fault.other_panic _)
    · exact .ok _

omit [BuildProfile] in
theorem arithmetic_failsWith {op : String} {onInt : Int64 → Int64 → Result Int64}
    (h : ∀ a b, FailsWith Fault.Other (onInt a b)) (onFloat : F64 → F64 → F64) (l r : Value) :
    FailsWith Fault.Other (arithmetic op onInt onFloat l r) := by
  unfold arithmetic
  split
  · exact (h _ _).map _
  case h_5 => exact failsWith_err ⟨rfl, rfl⟩
  all_goals exact .ok _

theorem evalBinaryOp_failsWith (op : String) (l r : Value) :
    FailsWith Fault.Other (evalBinaryOp op l r) := by
  unfold evalBinaryOp
  split
  case h_9 | h_10 | h_11 => exact arithmetic_failsWith (fun _ _ => checkedInt_failsWith _ _ _) _ l r
  case h_12 => exact arithmetic_failsWith i64Div_failsWith _ l r
  case h_15 => exact failsWith_err ⟨rfl, rfl⟩
  all_goals exact .ok _

/-- A failed evaluation misses no table, and a column only where a reference does not resolve. -/
theorem Expr.eval_failsWith (e : Expr) (t : Tuple) (schema : Schema) :
    FailsWith (fun f => f.unknownTable = none ∧
      ∀ name ∈ f.unknownColumn, name ∈ e.references ∧ schema.findColIdx name = none)
      (e.eval t schema) := by
  have hother {f : Fault} {refs : List String} (hf : f.Other) : f.unknownTable = none ∧
      ∀ name ∈ f.unknownColumn, name ∈ refs ∧ schema.findColIdx name = none :=
    ⟨hf.1, by simp [hf.2]⟩
  induction e with
  | star => exact failsWith_err (hother ⟨rfl, rfl⟩)
  | const v => exact .ok v
  | colRef name =>
    unfold Expr.eval
    split
    · split
      · exact .ok _
      · exact .error (hother (Fault.other_panic _))
    · rename_i hnone
      refine failsWith_err ⟨rfl, fun n hn => ?_⟩
      cases hn
      exact ⟨List.mem_singleton_self name, hnone⟩
  | binaryOp op left right ihl ihr =>
    unfold Expr.eval
    refine (ihl.imp fun f hf => ?_).bind fun l _ => (ihr.imp fun f hf => ?_).bind fun r _ =>
      (evalBinaryOp_failsWith op l r).imp fun f hf => hother hf
    · exact ⟨hf.1, fun n hn => ⟨List.mem_append_left _ (hf.2 n hn).1, (hf.2 n hn).2⟩⟩
    · exact ⟨hf.1, fun n hn => ⟨List.mem_append_right _ (hf.2 n hn).1, (hf.2 n hn).2⟩⟩
  | funcCall name arg => exact failsWith_err (hother ⟨rfl, rfl⟩)

end Expressions

section Types

theorem getExprType_failsWith_of {p : Fault → Prop}
    (hother : ∀ e : DbError, Fault.Other (.error e) → p (.error e)) {e : Expr} {schema : Schema}
    (hcol : ∀ name ∈ e.references, schema.findColIdx name = none →
      p (.error (.columnTypeNotFound name))) : FailsWith p (getExprType e schema) := by
  have herr {e : DbError} (he : Fault.Other (.error e)) : FailsWith p (err e : Result DataType) :=
    failsWith_err (hother _ he)
  induction e with
  | const v => cases v <;> exact .ok _
  | colRef name =>
    unfold getExprType
    split
    · rename_i i hi
      rw [List.getElem?_eq_getElem (Schema.findColIdx_lt hi)]
      exact .ok _
    · rename_i hnone
      exact failsWith_err (hcol name (List.mem_singleton_self name) hnone)
  | binaryOp op left right ihl ihr =>
    have hleft := ihl fun name hname => hcol name (List.mem_append_left _ hname)
    have hright := ihr fun name hname => hcol name (List.mem_append_right _ hname)
    unfold getExprType
    refine hleft.bind fun lt _ => hright.bind fun rt _ => ?_
    split
    case h_15 => exact herr ⟨rfl, rfl⟩
    case h_11 | h_12 | h_13 | h_14 =>
      split
      · exact .ok _
      · exact .ok _
      · exact .ok _
      · exact herr ⟨rfl, rfl⟩
    all_goals exact .ok _
  | funcCall name arg ih =>
    have harg := ih hcol
    unfold getExprType
    split
    case h_6 => exact herr ⟨rfl, rfl⟩
    case h_2 | h_3 =>
      refine harg.bind fun argT _ => ?_
      cases argT <;> first | exact .ok _ | exact herr ⟨rfl, rfl⟩
    case h_1 => exact .ok _
    case h_4 | h_5 => exact harg
  | star => exact herr ⟨rfl, rfl⟩

theorem aggColumnType_failsWith_of {p : Fault → Prop}
    (hother : ∀ e : DbError, Fault.Other (.error e) → p (.error e)) {arg : Expr} {schema : Schema}
    (hcol : ∀ name ∈ arg.references,
      schema.findColIdx name = none → p (.error (.columnTypeNotFound name))) (func : String) :
    FailsWith p (aggColumnType func arg schema) := by
  have herr {e : DbError} (he : Fault.Other (.error e)) : FailsWith p (err e : Result DataType) :=
    failsWith_err (hother _ he)
  have harg := getExprType_failsWith_of hother hcol
  unfold aggColumnType
  split
  case h_6 => exact herr ⟨rfl, rfl⟩
  case h_2 | h_3 =>
    refine harg.bind fun argT _ => ?_
    cases argT <;> first | exact .ok _ | exact herr ⟨rfl, rfl⟩
  case h_1 => exact .ok _
  case h_4 | h_5 => exact harg

theorem getExprType_failsWith (e : Expr) (schema : Schema) :
    FailsWith (fun f => f.unknownTable = none) (getExprType e schema) :=
  getExprType_failsWith_of (fun _ h => h.1) fun _ _ _ => rfl

theorem aggColumnType_failsWith (func : String) (arg : Expr) (schema : Schema) :
    FailsWith (fun f => f.unknownTable = none) (aggColumnType func arg schema) :=
  aggColumnType_failsWith_of (fun _ h => h.1) (fun _ _ _ => rfl) func

end Types

section Binding

variable {p : Fault → Prop} (hother : ∀ e : DbError, Fault.Other (.error e) → p (.error e))

include hother

theorem mapLiteral_failsWith_of (v : Sql.Literal) : FailsWith p (mapLiteral v) := by
  have hf64 (text : String) : FailsWith p (parseF64 text) := by
    unfold parseF64
    dsimp only
    split
    · exact .ok _
    · exact failsWith_err (hother _ ⟨rfl, rfl⟩)
  have hi64 (text : String) : FailsWith p (parseI64 text) := by
    unfold parseI64
    dsimp only
    split
    · exact failsWith_err (hother _ ⟨rfl, rfl⟩)
    · rename_i n _
      generalize (if (parseSign text.toList).1 = true then -(n : ℤ) else n) = i
      split
      · exact failsWith_err (hother _ ⟨rfl, rfl⟩)
      · split
        · exact failsWith_err (hother _ ⟨rfl, rfl⟩)
        · exact .ok _
  cases v with
  | number text =>
    simp only [mapLiteral]
    split
    · exact (hf64 text).map _
    · exact (hi64 text).map _
  | singleQuotedString | doubleQuotedString | boolean | null => exact .ok _
  | other debug => exact failsWith_err (hother _ ⟨rfl, rfl⟩)

variable [Unicode]

theorem mapSqlExpr_failsWith_of (e : Sql.Expr) : FailsWith p (mapSqlExpr e) := by
  induction e using mapSqlExpr.induct with
  | case1 ident => exact .ok _
  | case2 idents => exact .ok _
  | case3 val => exact (mapLiteral_failsWith_of hother val).map _
  | case4 left op right ihl ihr =>
    unfold mapSqlExpr
    refine FailsWith.bind ?_ fun _ _ => ihl.bind fun _ _ => ihr.bind fun _ _ => .ok _
    cases op with
    | other debug => exact failsWith_err (hother _ ⟨rfl, rfl⟩)
    | _ => exact .ok _
  | case9 name funcName hagg distinct inner args ih =>
    unfold mapSqlExpr
    dsimp only
    rw [if_pos hagg]
    exact ih.map _
  | case11 name args funcName hagg =>
    unfold mapSqlExpr
    dsimp only
    rw [if_neg hagg]
    exact failsWith_err (hother _ ⟨rfl, rfl⟩)
  | case12 debug => exact failsWith_err (hother _ ⟨rfl, rfl⟩)
  | case5 name funcName hagg | case7 name funcName hagg | case8 name funcName hagg =>
    unfold mapSqlExpr
    dsimp only
    rw [if_pos hagg]
    exact .ok _
  | case6 name funcName hagg | case10 name funcName hagg =>
    unfold mapSqlExpr
    dsimp only
    rw [if_pos hagg]
    exact failsWith_err (hother _ ⟨rfl, rfl⟩)

omit [Unicode] in
theorem bindTableFactor_failsWith_of (factor : Sql.TableFactor) :
    FailsWith p (bindTableFactor factor) := by
  cases factor with
  | table name aliasName => exact .ok _
  | other debug => exact failsWith_err (hother _ ⟨rfl, rfl⟩)

theorem bindFrom_failsWith_of (items : List Sql.TableWithJoins) :
    FailsWith p (bindFrom items) := by
  cases items with
  | nil => exact .ok _
  | cons item items =>
    refine (bindTableFactor_failsWith_of hother item.relation).bind fun plan hplan => ?_
    clear hplan
    generalize item.joins = joins
    induction joins generalizing plan with
    | nil => exact .ok _
    | cons join joins ih =>
      rw [List.foldlM_cons]
      refine FailsWith.bind ?_ fun plan _ => ih plan
      refine (bindTableFactor_failsWith_of hother join.relation).bind fun right _ => ?_
      cases join.joinOperator with
      | innerOn expr => exact (mapSqlExpr_failsWith_of hother expr).bind fun _ _ => .ok _
      | crossJoin => exact .ok _
      | other debug => exact failsWith_err (hother _ ⟨rfl, rfl⟩)

theorem bindCount_failsWith_of (count : Option Sql.Expr) : FailsWith p (bindCount count) := by
  cases count with
  | none => exact .ok _
  | some e =>
    refine (mapSqlExpr_failsWith_of hother e).bind fun mapped _ => ?_
    split <;> exact .ok _

theorem bindSelectItem_failsWith_of (schema : Schema) (item : Sql.SelectItem) :
    FailsWith p (bindSelectItem schema item) := by
  cases item with
  | unnamedExpr e => exact (mapSqlExpr_failsWith_of hother e).bind fun _ _ => .ok _
  | exprWithAlias e aliasName => exact (mapSqlExpr_failsWith_of hother e).bind fun _ _ => .ok _
  | wildcard => exact .ok _
  | other debug => exact failsWith_err (hother _ ⟨rfl, rfl⟩)

theorem bindGroupBy_failsWith_of (groupBy : Sql.GroupBy) : FailsWith p (bindGroupBy groupBy) := by
  cases groupBy with
  | all => exact failsWith_err (hother _ ⟨rfl, rfl⟩)
  | expressions exprs => exact FailsWith.mapM fun e _ => mapSqlExpr_failsWith_of hother e

theorem bindOrderBy_failsWith_of (plan : LogicalPlan) (orderBy : Option (List Sql.OrderByExpr)) :
    FailsWith p (bindOrderBy plan orderBy) := by
  unfold bindOrderBy
  split
  · exact .ok _
  · exact .ok _
  · refine FailsWith.bind (FailsWith.mapM fun e _ => ?_) fun orderBy _ => .ok _
    exact (mapSqlExpr_failsWith_of hother e.expr).bind fun _ _ => .ok _

/-- A query fails to be bound like its parts, or when its tables cannot be typed. -/
theorem bindQuery_failsWith_of {catalog : Catalog}
    (hschema : ∀ source : LogicalPlan, FailsWith p (source.schema catalog)) (q : Sql.Query) :
    FailsWith p (bindQuery q catalog) := by
  rcases hbody : q.body with select | ⟨rows, debug⟩ | debug
  · simp only [bindQuery, hbody, Result.pure_eq_ok, Result.ok_bind]
    refine (bindFrom_failsWith_of hother select.from_).bind fun source _ =>
      (hschema source).bind fun schema _ => ?_
    have hrest (plan : LogicalPlan) := (FailsWith.mapM fun item (_ : item ∈ select.projection) =>
      bindSelectItem_failsWith_of hother schema item).bind fun targets _ =>
        (bindGroupBy_failsWith_of hother select.groupBy).bind fun groupBy _ =>
          (bindOrderBy_failsWith_of hother (bindProjection plan targets.flatten groupBy)
            q.orderBy).bind fun sorted _ =>
              (bindCount_failsWith_of hother q.limit).bind fun limit _ =>
                (bindCount_failsWith_of hother q.offset).bind fun offset _ =>
                  FailsWith.ok (if limit.isSome ∨ offset.isSome then .limit sorted limit offset
                    else sorted)
    cases select.selection with
    | none => exact hrest source
    | some selection =>
      exact ((mapSqlExpr_failsWith_of hother selection).map _).bind fun plan _ => hrest plan
  · simp only [bindQuery, hbody]
    exact failsWith_err (hother _ ⟨rfl, rfl⟩)
  · simp only [bindQuery, hbody]
    exact failsWith_err (hother _ ⟨rfl, rfl⟩)

omit hother

theorem mapSqlExpr_failsWith (e : Sql.Expr) : FailsWith Fault.Other (mapSqlExpr e) :=
  mapSqlExpr_failsWith_of (fun _ h => h) e

end Binding

end VolcanoDb
