import VolcanoDb.Lib.FinMap
import Mathlib.Data.List.Basic

/-! # Catalog

Schemas are lists of named, typed columns. A column is looked up by name, and
the first match wins: a dotted name must match exactly, and an undotted name
matches the last component of a column's name.
-/

namespace VolcanoDb

inductive DataType where
  | int
  | float
  | varchar
  | bool
  deriving DecidableEq

def DataType.debug : DataType → String
  | int => "Int"
  | float => "Float"
  | varchar => "Varchar"
  | bool => "Bool"

structure Column where
  name : String
  dataType : DataType
  deriving DecidableEq

structure Schema where
  columns : List Column
  deriving DecidableEq

def hasDot (name : String) : Bool := '.' ∈ name.toList

def baseName (name : String) : String :=
  String.ofList (name.toList.reverse.takeWhile (· ≠ '.')).reverse

/-- Whether a reference fits a column: exactly if it has a dot, else by the last component. -/
def NameFits (name colName : String) : Prop :=
  if hasDot name then colName = name else baseName colName = name

instance (name colName : String) : Decidable (NameFits name colName) :=
  inferInstanceAs (Decidable (if hasDot name then colName = name else baseName colName = name))

/-- The position of the first column that a name denotes. -/
def Schema.findColIdx (s : Schema) (name : String) : Option ℕ :=
  if hasDot name then s.columns.findIdx? (·.name = name)
  else s.columns.findIdx? fun col => baseName col.name = name

theorem Schema.findColIdx_eq (s : Schema) (name : String) :
    s.findColIdx name = s.columns.findIdx? fun col => NameFits name col.name := by
  unfold findColIdx NameFits
  split <;> rfl

theorem Schema.findColIdx_of_find? {s : Schema} {α : Type} {f : α → String} {l : List α} {a : α}
    {name : String} (hnames : s.columns.map Column.name = l.map f)
    (h : l.find? (fun a => NameFits name (f a)) = some a) :
    ∃ i, s.findColIdx name = some i ∧ l[i]? = some a := by
  obtain ⟨hfits, i, hi, rfl, hbefore⟩ := List.find?_eq_some_iff_getElem.mp h
  have hcols : s.findColIdx name = l.findIdx? fun a => NameFits name (f a) := by
    have hmap := congrArg (List.findIdx? fun colName => decide (NameFits name colName)) hnames
    rw [List.findIdx?_map, List.findIdx?_map] at hmap
    exact (s.findColIdx_eq name).trans hmap
  refine ⟨i, hcols.trans (List.findIdx?_eq_some_iff_getElem.mpr ⟨hi, hfits, fun j hj => ?_⟩),
    List.getElem?_eq_getElem hi⟩
  simpa using hbefore j hj

theorem Schema.findColIdx_lt {s : Schema} {name : String} {i : ℕ}
    (h : s.findColIdx name = some i) : i < s.columns.length := by
  unfold findColIdx at h
  split at h
  · exact (List.findIdx?_eq_some_iff_findIdx_eq.mp h).1
  · exact (List.findIdx?_eq_some_iff_findIdx_eq.mp h).1

structure Catalog where
  tables : FinMap String Schema
  deriving DecidableEq

namespace Catalog

def new : Catalog := ⟨∅⟩

def addTable (c : Catalog) (name : String) (schema : Schema) : Catalog :=
  ⟨c.tables.insert name schema⟩

def getSchema (c : Catalog) (name : String) : Option Schema := c.tables.lookup name

@[simp] theorem getSchema_new (name : String) : new.getSchema name = none := rfl

@[simp] theorem getSchema_addTable (c : Catalog) (name name' : String) (schema : Schema) :
    (c.addTable name schema).getSchema name' =
      if name' = name then some schema else c.getSchema name' :=
  FinMap.lookup_insert_eq ..

end Catalog

end VolcanoDb
