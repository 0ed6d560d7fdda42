import VolcanoDb.Fault

/-! # Syntax trees of the SQL parser

The trees that `sqlparser` produces for the PostgreSQL dialect, as far as the
binder distinguishes them. Every construct it rejects whatever it contains is
an `other` leaf that carries its `Debug` text. The parser itself is a parameter.
-/

namespace VolcanoDb

namespace Sql

structure Ident where
  value : String
  quoteStyle : Option Char := none
  deriving DecidableEq

/--
The characters of a quoted name as `sqlparser` prints them: a quote is doubled
unless it is already written twice or follows a backslash.
-/
def escapeQuoted (q : Char) : Char → List Char → List Char
  | _, [] => []
  | previous, [c] => if c = q ∧ previous ≠ '\\' then [q, q] else [c]
  | previous, c :: d :: cs =>
    if c = q then
      if previous = '\\' then c :: escapeQuoted q previous (d :: cs)
      else if d = q then q :: q :: escapeQuoted q q cs
      else q :: q :: escapeQuoted q q (d :: cs)
    else c :: escapeQuoted q c (d :: cs)

/-- An identifier as it is printed. -/
def Ident.text (i : Ident) : String :=
  match i.quoteStyle with
  | none => i.value
  | some '[' => s!"[{i.value}]"
  | some q => String.ofList (q :: escapeQuoted q '\x00' i.value.toList ++ [q])

abbrev ObjectName := List Ident

def ObjectName.text (n : ObjectName) : String := ".".intercalate (n.map Ident.text)

inductive DataType where
  | int
  | integer
  | float
  | double
  | doublePrecision
  | real
  | varchar
  | text
  | string
  | boolean
  | bool
  | other (debug : String)
  deriving DecidableEq

inductive Literal where
  | number (text : String)
  | singleQuotedString (s : String)
  | doubleQuotedString (s : String)
  | boolean (b : Bool)
  | null
  | other (debug : String)
  deriving DecidableEq

inductive BinaryOperator where
  | plus
  | minus
  | multiply
  | divide
  | eq
  | notEq
  | gt
  | gtEq
  | lt
  | ltEq
  | and
  | or
  | other (debug : String)
  deriving DecidableEq

inductive FunctionArg (E : Type) where
  | wildcard
  | expr (e : E)
  | other

inductive FunctionArguments (E : Type) where
  | none
  | subquery
  /-- The arguments in parentheses, after `DISTINCT` when the flag is set. -/
  | list (distinct : Bool) (args : List (FunctionArg E))

inductive Expr where
  | identifier (ident : Ident)
  | compoundIdentifier (idents : List Ident)
  | value (val : Literal)
  | binaryOp (left : Expr) (op : BinaryOperator) (right : Expr)
  | function (name : ObjectName) (args : FunctionArguments Expr)
  | other (debug : String)

inductive JoinOperator where
  | innerOn (expr : Expr)
  | crossJoin
  | other (debug : String)

inductive TableFactor where
  | table (name : ObjectName) (aliasName : Option Ident)
  | other (debug : String)

structure Join where
  relation : TableFactor
  joinOperator : JoinOperator

structure TableWithJoins where
  relation : TableFactor
  joins : List Join := []

inductive SelectItem where
  | unnamedExpr (expr : Expr)
  | exprWithAlias (expr : Expr) (aliasName : Ident)
  | wildcard
  | other (debug : String)

inductive GroupBy where
  | all
  | expressions (exprs : List Expr)

inductive Distinct where
  | distinct
  | on (exprs : List Expr)

structure Select where
  distinct : Option Distinct := none
  projection : List SelectItem
  from_ : List TableWithJoins := []
  selection : Option Expr := none
  groupBy : GroupBy := .expressions []
  having : Option Expr := none

structure OrderByExpr where
  expr : Expr
  asc : Option Bool := none
  nullsFirst : Option Bool := none

inductive SetExpr where
  | select (s : Select)
  | values (rows : List (List Expr)) (debug : String := "")
  | other (debug : String)

structure Query where
  body : SetExpr
  orderBy : Option (List OrderByExpr) := none
  limit : Option Expr := none
  offset : Option Expr := none
  /-- What else the query says (`WITH`, `FETCH`, `FOR UPDATE`, `FILTER`, `OVER` and so on). -/
  otherClauses : List String := []

structure ColumnDef where
  name : Ident
  dataType : DataType

inductive Statement where
  | createTable (name : ObjectName) (columns : List ColumnDef)
  | insert (tableName : ObjectName) (columns : List Ident) (source : Option Query)
  | query (q : Query)
  | other (debug : String)

end Sql

/-- The SQL parser: the statements of a text, or the text of its error. -/
class SqlParser where
  parseSql : String → Except String (List Sql.Statement)

end VolcanoDb
