import Mathlib.Data.List.AList

/-! # Finite maps

A finite map with one value type is a non-dependent association list without
duplicate keys. Lookups after each update are given by one equation; the order
of the entries carries no meaning, and no equality of maps depends on it.
-/

abbrev FinMap (κ ν : Type*) := AList fun _ : κ => ν

namespace FinMap

variable {κ ν : Type*} [DecidableEq κ]

theorem lookup_insert_eq (m : FinMap κ ν) (k k' : κ) (v : ν) :
    AList.lookup k' (AList.insert k v m) = if k' = k then some v else AList.lookup k' m := by
  split
  · subst k'; exact AList.lookup_insert m
  · rename_i h; exact AList.lookup_insert_ne h

theorem lookup_erase_eq (m : FinMap κ ν) (k k' : κ) :
    AList.lookup k' (AList.erase k m) = if k' = k then none else AList.lookup k' m := by
  split
  · subst k'; exact AList.lookup_erase k m
  · rename_i h; exact AList.lookup_erase_ne h

/-- Store a value at a key that has none; a key that has one keeps it. -/
def orInsert (m : FinMap κ ν) (k : κ) (v : ν) : FinMap κ ν :=
  match m.lookup k with
  | some _ => m
  | none => m.insert k v

theorem lookup_orInsert (m : FinMap κ ν) (k k' : κ) (v : ν) :
    AList.lookup k' (orInsert m k v) =
      if k' = k then some ((AList.lookup k m).getD v) else AList.lookup k' m := by
  unfold orInsert
  split
  · rename_i w hw
    split
    · subst k'; simp [hw]
    · rfl
  · rename_i hn; simp [lookup_insert_eq, hn]

def mapValues (f : ν → ν) (m : FinMap κ ν) : FinMap κ ν :=
  ⟨m.entries.map (.map id fun _ => f), m.nodupKeys.map₂ fun _ => f⟩

omit [DecidableEq κ] in
@[simp] theorem mapValues_entries (f : ν → ν) (m : FinMap κ ν) :
    (mapValues f m).entries = m.entries.map (.map id fun _ => f) := rfl

@[simp] theorem lookup_mapValues (f : ν → ν) (m : FinMap κ ν) (k : κ) :
    AList.lookup k (mapValues f m) = (AList.lookup k m).map f :=
  List.dlookup_map₂ k

end FinMap
