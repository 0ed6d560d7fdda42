import Mathlib.Data.List.Basic
import VolcanoDb.Lib.Binary64

/-! # JSON values

JSON values between a program's data and a text: the access to the fields of
objects as derived decoders make it, and what a writer and a reader of texts
promise about one value.
-/

/-- A JSON value; its numbers are integers and finite doubles. -/
inductive Json where
  | null
  | bool (b : Bool)
  | int (i : ℤ)
  | float (x : F64)
  | str (s : String)
  | arr (items : List Json)
  | obj (fields : List (String × Json))

namespace Json

/-- The number of a double; one that is not finite is written as `null`. -/
def ofF64 : F64 → Json
  | x@(.finite ..) => float x
  | _ => null

def asNat : Json → Option ℕ
  | int (.ofNat n) => some n
  | _ => none

def asStr : Json → Option String
  | str s => some s
  | _ => none

def asArr : Json → Option (List Json)
  | arr items => some items
  | _ => none

def field (fields : List (String × Json)) (name : String) : Option Json :=
  match fields.filter (·.1 = name) with
  | [(_, j)] => some j
  | _ => none

/-- The values of the fields of a structure, by name or, in an array, by position. -/
def structFields (names : List String) : Json → Option (List Json)
  | obj fields => names.mapM (field fields)
  | arr items => if items.length = names.length then some items else none
  | _ => none

/-- The tag of an internally tagged value, and the rest of the value. -/
def untag (tag : String) : Json → Option (String × Json)
  | obj fields => do
    let name ← (field fields tag).bind asStr
    some (name, obj (fields.filter (·.1 ≠ tag)))
  | arr (str name :: items) => some (name, arr items)
  | _ => none

end Json

/-- A writer and a reader of JSON texts. -/
class JsonText where
  print : Json → String
  parse : String → Option Json

/-- What a writer and a reader promise about the text of an object. -/
structure JsonText.Faithful [JsonText] (j : Json) : Prop where
  reads : parse (print j) = some j
  /-- Control characters are escaped. -/
  escapes : ∀ c ∈ (print j).toList, 32 ≤ c.toNat
  opens : (print j).toList.head? = some '{'
