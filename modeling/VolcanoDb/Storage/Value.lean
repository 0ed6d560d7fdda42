import VolcanoDb.Lib.Binary64
import VolcanoDb.Fault

/-! # Values and tuples

The cells of a row, with the engine's own equality and order: a comparison of
an integer with a double converts the integer, and incomparable types are
neither equal nor ordered. A tuple carries the transaction that wrote it.
-/

namespace VolcanoDb

inductive Value where
  | null
  | int (i : Int64)
  | float (f : F64)
  | varchar (s : String)
  | bool (b : Bool)
  deriving DecidableEq

namespace Value

def isFinite : Value → Bool
  | float (.finite ..) => true
  | float _ => false
  | _ => true

def isTruthy : Value → Bool
  | bool b => b
  | null => false
  | _ => true

/-- The text of a value in a result table and in generated column names. -/
def display : Value → String
  | null => "NULL"
  | int i => toString i.toInt
  | float f => f.toDecimal
  | varchar s => s
  | bool b => if b then "true" else "false"

def asF64 (i : Int64) : F64 := F64.ofInt i.toInt

def eq : Value → Value → Bool
  | null, null => true
  | int a, int b => a = b
  | float a, float b => a.eq b
  | int a, float b => (asF64 a).eq b
  | float a, int b => a.eq (asF64 b)
  | varchar a, varchar b => a = b
  | bool a, bool b => a = b
  | _, _ => false

theorem eq_symm {a b : Value} (h : a.eq b) : b.eq a := by
  cases a <;> cases b <;> simp_all [eq, F64.eq_symm]

theorem eq_comm (a b : Value) : a.eq b = b.eq a := Bool.eq_iff_iff.mpr ⟨eq_symm, eq_symm⟩

def partialCmp : Value → Value → Option Ordering
  | null, null => some .eq
  | int a, int b => some (compare a.toInt b.toInt)
  | float a, float b => a.partialCmp b
  | int a, float b => (asF64 a).partialCmp b
  | float a, int b => a.partialCmp (asF64 b)
  | varchar a, varchar b => some (compare a b)
  | bool a, bool b => some (compare a b)
  | _, _ => none

def lt (a b : Value) : Bool := a.partialCmp b = some .lt
def le (a b : Value) : Bool := a.partialCmp b = some .lt ∨ a.partialCmp b = some .eq
def gt (a b : Value) : Bool := a.partialCmp b = some .gt
def ge (a b : Value) : Bool := a.partialCmp b = some .gt ∨ a.partialCmp b = some .eq

end Value

/-- A row: the cells, the transaction that wrote it and the clock at that time. -/
structure Tuple where
  values : List Value
  /-- `none` for rows written outside any transaction, which everyone sees. -/
  txId : Option ℕ
  scn : ℕ
  deriving DecidableEq

namespace Tuple

def new (values : List Value) : Tuple := ⟨values, none, 0⟩

def newWithMeta (values : List Value) (txId : Option ℕ) (scn : ℕ) : Tuple := ⟨values, txId, scn⟩

end Tuple

end VolcanoDb
