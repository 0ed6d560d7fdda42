import VolcanoDb.Storage.Value
import VolcanoDb.Storage.Catalog

/-! # Expressions

Evaluation of bound expressions against one tuple and its schema, their static
types and the names generated for them. Integer arithmetic is that of the
machine: an overflow panics or wraps around with the build profile.
-/

namespace VolcanoDb

/-- Whether the compiler inserts overflow checks, as it does in debug builds. -/
class BuildProfile where
  overflowChecks : Bool

inductive Expr where
  | colRef (name : String)
  | const (val : Value)
  | binaryOp (op : String) (left right : Expr)
  | funcCall (name : String) (arg : Expr)
  | star
  deriving DecidableEq

def getExprName : Expr → String
  | .const val => val.display
  | .colRef name => name
  | .binaryOp op left right => s!"({getExprName left} {op} {getExprName right})"
  | .funcCall name arg => s!"{name}({getExprName arg})"
  | .star => "*"

section Eval

variable [BuildProfile]

/-- The wrapped result of an integer operation, unless it is inexact and checked. -/
def checkedInt (message : String) (exact : ℤ) (wrapped : Int64) : Result Int64 :=
  if BuildProfile.overflowChecks ∧ wrapped.toInt ≠ exact then panicking message else pure wrapped

def i64Add (a b : Int64) : Result Int64 :=
  checkedInt "attempt to add with overflow" (a.toInt + b.toInt) (a + b)

def i64Sub (a b : Int64) : Result Int64 :=
  checkedInt "attempt to subtract with overflow" (a.toInt - b.toInt) (a - b)

def i64Mul (a b : Int64) : Result Int64 :=
  checkedInt "attempt to multiply with overflow" (a.toInt * b.toInt) (a * b)

omit [BuildProfile] in
/-- Truncated division; the only overflow panics in every build profile. -/
def i64Div (a b : Int64) : Result Int64 :=
  if b = 0 then err .divisionByZero
  else if a = Int64.minValue ∧ b = -1 then panicking "attempt to divide with overflow"
  else pure (a / b)

omit [BuildProfile] in
/-- An arithmetic operator on two numbers; a double on either side makes both doubles. -/
def arithmetic (op : String) (onInt : Int64 → Int64 → Result Int64) (onFloat : F64 → F64 → F64) :
    Value → Value → Result Value
  | .int a, .int b => Value.int <$> onInt a b
  | .float a, .float b => pure (.float (onFloat a b))
  | .int a, .float b => pure (.float (onFloat (Value.asF64 a) b))
  | .float a, .int b => pure (.float (onFloat a (Value.asF64 b)))
  | _, _ => err (.invalidTypes op)

def evalBinaryOp (op : String) (left right : Value) : Result Value :=
  match op with
  | "=" | "==" => pure (.bool (left.eq right))
  | "!=" | "<>" => pure (.bool !(left.eq right))
  | ">" => pure (.bool (left.gt right))
  | ">=" => pure (.bool (left.ge right))
  | "<" => pure (.bool (left.lt right))
  | "<=" => pure (.bool (left.le right))
  | "+" => arithmetic "+" i64Add F64.add left right
  | "-" => arithmetic "-" i64Sub F64.sub left right
  | "*" => arithmetic "*" i64Mul F64.mul left right
  | "/" => arithmetic "/" i64Div F64.div left right
  | "and" => pure (.bool (left.isTruthy && right.isTruthy))
  | "or" => pure (.bool (left.isTruthy || right.isTruthy))
  | _ => err (.unsupportedOperator op)

/-- Evaluate an expression; both operands of every operator are evaluated. -/
def Expr.eval : Expr → Tuple → Schema → Result Value
  | .star, _, _ => err .evalStar
  | .const val, _, _ => pure val
  | .colRef name, tuple, schema =>
    match schema.findColIdx name with
    | some idx =>
      match tuple.values[idx]? with
      | some val => pure val
      | none => panicking "index out of bounds"
    | none => err (.columnNotFound name (schema.columns.map Column.name))
  | .binaryOp op left right, tuple, schema => do
    let lVal ← left.eval tuple schema
    let rVal ← right.eval tuple schema
    evalBinaryOp op lVal rVal
  | .funcCall name arg, _, _ => err (.aggregateOutside name (getExprName arg))

end Eval

def getExprType : Expr → Schema → Result DataType
  | .const val, _ =>
    match val with
    | .int _ => pure .int
    | .float _ => pure .float
    | .varchar _ => pure .varchar
    | .bool _ => pure .bool
    | .null => pure .varchar
  | .colRef name, schema =>
    match schema.findColIdx name with
    | some idx =>
      match schema.columns[idx]? with
      | some col => pure col.dataType
      | none => panicking "index out of bounds"
    | none => err (.columnTypeNotFound name)
  | .binaryOp op left right, schema => do
    let lt ← getExprType left schema
    let rt ← getExprType right schema
    match op with
    | "=" | "==" | "!=" | "<>" | ">" | ">=" | "<" | "<=" | "and" | "or" => pure .bool
    | "+" | "-" | "*" | "/" =>
      match lt, rt with
      | .float, _ | _, .float => pure .float
      | .int, .int => pure .int
      | _, _ => err .nonNumericArithmetic
    | _ => err (.unsupportedOperator op)
  | .funcCall name arg, schema =>
    match name with
    | "count" => pure .int
    | "sum" | "avg" => do
      let argT ← getExprType arg schema
      match argT with
      | .int => if name = "avg" then pure .float else pure .int
      | .float => pure .float
      | _ => err (.nonNumericAggregate argT.debug)
    | "min" | "max" => getExprType arg schema
    | _ => err (.unsupportedAggregate name)
  | .star, _ => err .starType

end VolcanoDb
