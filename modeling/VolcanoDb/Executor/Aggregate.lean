import VolcanoDb.Planner.Expr

/-! # Aggregate accumulators

One accumulator for each aggregate function. `NULL` is both the initial sum,
minimum or maximum and the input that every function ignores.
-/

namespace VolcanoDb

inductive AggState where
  | count (count : Int64)
  | sum (sum : Value)
  | avg (sum : Value) (count : Int64)
  | min (min : Value)
  | max (max : Value)
  deriving DecidableEq

namespace AggState

def new (funcName : String) : Result AggState :=
  match funcName with
  | "count" => pure (.count 0)
  | "sum" => pure (.sum .null)
  | "avg" => pure (.avg .null 0)
  | "min" => pure (.min .null)
  | "max" => pure (.max .null)
  | _ => panicking "Unknown aggregate function"

section Update

variable [BuildProfile]

/-- Add a non-null value to a running sum; values that are not numbers change nothing. -/
def addTo (sum val : Value) : Result Value :=
  match sum, val with
  | .null, _ => pure val
  | .int s, .int v => .int <$> i64Add s v
  | .int s, .float v => pure (.float ((Value.asF64 s).add v))
  | .float s, .float v => pure (.float (s.add v))
  | .float s, .int v => pure (.float (s.add (Value.asF64 v)))
  | _, _ => pure sum

def update (state : AggState) (val : Value) : Result AggState :=
  if val.eq .null then pure state
  else match state with
    | .count n => .count <$> i64Add n 1
    | .sum s => .sum <$> addTo s val
    | .avg s n => do
      let n ← i64Add n 1
      let s ← addTo s val
      pure (.avg s n)
    | .min .null => pure (.min val)
    | .min m => pure (.min (if val.lt m then val else m))
    | .max .null => pure (.max val)
    | .max m => pure (.max (if val.gt m then val else m))

end Update

def finalize : AggState → Value
  | .count n => .int n
  | .sum s => s
  | .avg s n =>
    if n = 0 then .null
    else match s with
      | .int i => .float ((Value.asF64 i).div (Value.asF64 n))
      | .float f => .float (f.div (Value.asF64 n))
      | _ => .null
  | .min m => m
  | .max m => m

end AggState

/-- The text under which a vector of group values is hashed. -/
def makeGroupKey (vals : List Value) : String :=
  ",".intercalate (vals.map fun
    | .null => "null"
    | .int i => s!"i:{i.toInt}"
    | .float f => s!"f:{f.toDecimal}"
    | .varchar s => s!"s:{s}"
    | .bool b => s!"b:{(Value.bool b).display}")

end VolcanoDb
