import Mathlib.Data.String.Basic
import Mathlib.Order.Compare
import VolcanoDb.Lib.Rounding
import VolcanoDb.Storage.Value

/-! # The laws of value comparison

An integer is compared with a double through its nearest double, which keeps the order of
the integers but not their differences: two integers may equal one double. This is the only
way in which equality fails to be transitive.
-/

namespace VolcanoDb.Value

def units? : Value → Option ℤ
  | int i => some (asF64 i).units
  | float f => some f.units
  | _ => none

theorem natAbs_toInt_le (i : Int64) : i.toInt.natAbs ≤ 2 ^ 63 := by
  have hge := i.le_toInt
  have hlt := i.toInt_lt
  omega

theorem asF64_finite (i : Int64) : ∃ s m k hc, asF64 i = .finite s m k hc := by
  obtain ⟨s, m, k, hc, hfinite, -⟩ := F64.ofInt_nearest (natAbs_toInt_le i)
  exact ⟨s, m, k, hc, hfinite⟩

theorem asF64_mono {i j : Int64} (h : i.toInt ≤ j.toInt) : (asF64 i).units ≤ (asF64 j).units :=
  F64.units_ofInt_mono (natAbs_toInt_le i) (natAbs_toInt_le j) h

section Numbers

variable {a b c : Value} {x y z : ℤ}

theorem partialCmp_units (ha : a.isFinite) (hb : b.isFinite) (hx : a.units? = some x)
    (hy : b.units? = some y) (hmixed : ∀ i j, a = int i → b ≠ int j) :
    a.partialCmp b = some (compare x y) := by
  cases a with
  | null | varchar | bool => cases hx
  | int i =>
    obtain ⟨s, m, k, hc, hi⟩ := asF64_finite i
    cases b with
    | null | varchar | bool => cases hy
    | int j => exact absurd rfl (hmixed i j rfl)
    | float g =>
      cases hx
      cases hy
      cases g with
      | nan | inf => cases hb
      | finite => rw [partialCmp, hi]; rfl
  | float f =>
    cases f with
    | nan | inf => cases ha
    | finite =>
      cases hx
      cases b with
      | null | varchar | bool => cases hy
      | int j =>
        obtain ⟨s, m, k, hc, hj⟩ := asF64_finite j
        cases hy
        rw [partialCmp, hj]
        rfl
      | float g =>
        cases hy
        cases g with
        | nan | inf => cases hb
        | finite => rfl

theorem exists_units (hx : a.units? = some x) {o : Ordering} (h : a.partialCmp b = some o) :
    ∃ y, b.units? = some y := by
  cases a with
  | null | varchar | bool => cases hx
  | int | float =>
    cases b with
    | null | varchar | bool => cases h
    | int | float => exact ⟨_, rfl⟩

/-- Two numbers are two integers, or compared as doubles. -/
theorem partialCmp_numbers (ha : a.isFinite) (hb : b.isFinite) (hx : a.units? = some x)
    (hy : b.units? = some y) :
    (∃ i j, a = int i ∧ b = int j) ∨ a.partialCmp b = some (compare x y) := by
  by_cases hints : ∃ i j, a = int i ∧ b = int j
  · exact .inl hints
  · refine .inr (partialCmp_units ha hb hx hy ?_)
    rintro i j rfl rfl
    exact hints ⟨i, j, rfl, rfl⟩

theorem lt_int_iff {i j : Int64} : (int i).lt (int j) ↔ i.toInt < j.toInt := by
  simp [lt, partialCmp, compare_lt_iff_lt]

theorem units_le_of_lt (ha : a.isFinite) (hb : b.isFinite) (hx : a.units? = some x)
    (hy : b.units? = some y) (h : a.lt b) :
    x < y ∨ (x ≤ y ∧ ∃ i j, a = int i ∧ b = int j) := by
  rcases partialCmp_numbers ha hb hx hy with ⟨i, j, rfl, rfl⟩ | hcmp
  · cases hx
    cases hy
    exact .inr ⟨asF64_mono (lt_int_iff.mp h).le, i, j, rfl, rfl⟩
  · rw [lt, hcmp, decide_eq_true_eq, Option.some_inj, compare_lt_iff_lt] at h
    exact .inl h

theorem lt_of_units (ha : a.isFinite) (hb : b.isFinite) (hx : a.units? = some x)
    (hy : b.units? = some y) (h : x < y) : a.lt b := by
  rcases partialCmp_numbers ha hb hx hy with ⟨i, j, rfl, rfl⟩ | hcmp
  · cases hx
    cases hy
    rw [lt_int_iff]
    by_contra hle
    exact absurd (asF64_mono (not_lt.mp hle)) (not_le.mpr h)
  · rw [lt, hcmp, decide_eq_true_eq, Option.some_inj, compare_lt_iff_lt]
    exact h

theorem lt_trans_numbers (ha : a.isFinite) (hb : b.isFinite) (hc : c.isFinite)
    (hx : a.units? = some x) (hab : a.lt b) (hbc : b.lt c) : a.lt c := by
  obtain ⟨y, hy⟩ := exists_units hx (decide_eq_true_eq.mp hab)
  obtain ⟨z, hz⟩ := exists_units hy (decide_eq_true_eq.mp hbc)
  rcases units_le_of_lt ha hb hx hy hab with hxy | ⟨hxy, i, j, rfl, rfl⟩
  · apply lt_of_units ha hc hx hz
    rcases units_le_of_lt hb hc hy hz hbc with hyz | ⟨hyz, -⟩
    · exact hxy.trans hyz
    · exact hxy.trans_le hyz
  · rcases units_le_of_lt hb hc hy hz hbc with hyz | ⟨-, _, k, -, rfl⟩
    · exact lt_of_units ha hc hx hz (hxy.trans_lt hyz)
    · exact lt_int_iff.mpr ((lt_int_iff.mp hab).trans (lt_int_iff.mp hbc))

end Numbers

section Laws

variable {a b c : Value}

theorem eq_iff_partialCmp (a b : Value) : a.partialCmp b = some .eq ↔ a.eq b := by
  have htext (s t : String) : compare s t = .eq ↔ s = t := by
    have hlaw : Std.LawfulEqCmp fun s t : String => compare s t := inferInstance
    exact ⟨hlaw.eq_of_compare, fun h => h ▸ Std.ReflCmp.compare_self⟩
  have hbool (p q : Bool) : compare p q = .eq ↔ p = q := by
    cases p <;> cases q <;> decide
  cases a <;> cases b <;>
    simp [partialCmp, eq, F64.eq, htext, hbool, Int64.toInt_inj]

theorem eq_refl (ha : a.isFinite) : a.eq a := by
  cases a with
  | null => rfl
  | int | varchar | bool => simp [eq]
  | float f =>
    cases f with
    | nan | inf => cases ha
    | finite =>
      rw [eq, F64.eq_iff]
      refine ⟨?_, ?_, rfl, rfl⟩ <;> rintro ⟨⟩

theorem partialCmp_swap_numbers {x y : ℤ} (ha : a.isFinite) (hb : b.isFinite)
    (hx : a.units? = some x) (hy : b.units? = some y) :
    b.partialCmp a = (a.partialCmp b).map Ordering.swap := by
  have hint : Std.OrientedCmp (compareOn Int64.toInt) := inferInstance
  have hunits : Std.OrientedCmp fun x y : ℤ => compare x y := inferInstance
  rcases partialCmp_numbers ha hb hx hy with ⟨i, j, rfl, rfl⟩ | hcmp
  · exact congrArg some hint.eq_swap
  · rcases partialCmp_numbers hb ha hy hx with ⟨j, i, rfl, rfl⟩ | hcmp'
    · exact congrArg some hint.eq_swap
    · rw [hcmp, hcmp']
      exact congrArg some hunits.eq_swap

theorem partialCmp_swap (ha : a.isFinite) (hb : b.isFinite) :
    b.partialCmp a = (a.partialCmp b).map Ordering.swap := by
  cases a with
  | null => cases b <;> rfl
  | int | float =>
    cases b with
    | null | varchar | bool => rfl
    | int | float => exact partialCmp_swap_numbers ha hb rfl rfl
  | varchar s =>
    cases b with
    | varchar t =>
      have hstring : Std.OrientedCmp fun s t : String => compare s t := inferInstance
      exact congrArg some hstring.eq_swap
    | _ => rfl
  | bool p =>
    cases b with
    | bool q => cases p <;> cases q <;> rfl
    | _ => rfl

theorem lt_trans (ha : a.isFinite) (hb : b.isFinite) (hc : c.isFinite) (hab : a.lt b)
    (hbc : b.lt c) : a.lt c := by
  cases a with
  | int | float => exact lt_trans_numbers ha hb hc rfl hab hbc
  | null => cases b <;> cases hab
  | varchar s =>
    cases b with
    | varchar t =>
      cases c with
      | varchar u =>
        have hstring : Std.TransCmp fun s t : String => compare s t := inferInstance
        have hst : compare s t = .lt := by simpa [lt, partialCmp] using hab
        have htu : compare t u = .lt := by simpa [lt, partialCmp] using hbc
        simpa [lt, partialCmp] using hstring.lt_trans hst htu
      | _ => cases hbc
    | _ => cases hab
  | bool p =>
    cases b with
    | bool q =>
      cases c with
      | bool r =>
        revert hab hbc
        cases p <;> cases q <;> cases r <;> decide
      | _ => cases hbc
    | _ => cases hab

/-- Two different integers that are compared with one double. -/
def Lossy (a b c : Value) : Prop := ∃ i f j, a = int i ∧ b = float f ∧ c = int j ∧ i ≠ j

theorem eq_int_iff {i j : Int64} : (int i).eq (int j) ↔ i = j := decide_eq_true_iff

theorem units_eq_of_eq {x y : ℤ} (ha : a.isFinite) (hb : b.isFinite) (hx : a.units? = some x)
    (hy : b.units? = some y) (h : a.eq b) : x = y := by
  rcases partialCmp_numbers ha hb hx hy with ⟨i, j, rfl, rfl⟩ | hcmp
  · obtain rfl := eq_int_iff.mp h
    exact Option.some_inj.mp (hx.symm.trans hy)
  · rw [← eq_iff_partialCmp, hcmp, Option.some_inj] at h
    exact compare_eq_iff_eq.mp h

theorem eq_trans_numbers {x : ℤ} (ha : a.isFinite) (hb : b.isFinite) (hc : c.isFinite)
    (hx : a.units? = some x) (hab : a.eq b) (hbc : b.eq c) : a.eq c ↔ ¬ Lossy a b c := by
  obtain ⟨y, hy⟩ := exists_units hx ((eq_iff_partialCmp a b).mpr hab)
  obtain ⟨z, hz⟩ := exists_units hy ((eq_iff_partialCmp b c).mpr hbc)
  have hxz : x = z := (units_eq_of_eq ha hb hx hy hab).trans (units_eq_of_eq hb hc hy hz hbc)
  rcases partialCmp_numbers ha hc hx hz with ⟨i, j, rfl, rfl⟩ | hcmp
  · rw [eq_int_iff]
    cases b with
    | null | varchar | bool => cases hy
    | int k =>
      refine iff_of_true ((eq_int_iff.mp hab).trans (eq_int_iff.mp hbc)) ?_
      rintro ⟨_, _, _, -, hfloat, -⟩
      cases hfloat
    | float f =>
      constructor
      · rintro rfl ⟨_, _, _, hi, -, hj, hne⟩
        exact hne ((int.inj hi).symm.trans (int.inj hj))
      · intro hlossy
        by_contra hne
        exact hlossy ⟨i, f, j, rfl, rfl, rfl, hne⟩
  · have heq : a.eq c := by
      rw [← eq_iff_partialCmp, hcmp, hxz]
      exact congrArg some (compare_eq_iff_eq.mpr rfl)
    refine iff_of_true heq ?_
    rintro ⟨i, f, j, rfl, -, rfl, hne⟩
    exact hne (eq_int_iff.mp heq)

theorem eq_trans_iff (ha : a.isFinite) (hb : b.isFinite) (hc : c.isFinite) (hab : a.eq b)
    (hbc : b.eq c) : a.eq c ↔ ¬ Lossy a b c := by
  have hother (hnum : a.units? = none) : ¬ Lossy a b c := by
    rintro ⟨i, -, -, rfl, -⟩
    cases hnum
  cases a with
  | int | float => exact eq_trans_numbers ha hb hc rfl hab hbc
  | null =>
    cases b with
    | null => exact iff_of_true hbc (hother rfl)
    | _ => cases hab
  | varchar s =>
    cases b with
    | varchar t =>
      obtain rfl : s = t := decide_eq_true_iff.mp hab
      exact iff_of_true hbc (hother rfl)
    | _ => cases hab
  | bool p =>
    cases b with
    | bool q =>
      obtain rfl : p = q := decide_eq_true_iff.mp hab
      exact iff_of_true hbc (hother rfl)
    | _ => cases hab

/-- What the comparison of three values obeys. -/
structure Laws (a b c : Value) : Prop where
  refl : a.eq a
  symm : a.eq b → b.eq a
  equal_iff : a.partialCmp b = some .eq ↔ a.eq b
  swap : b.partialCmp a = (a.partialCmp b).map Ordering.swap
  lt_trans : a.lt b → b.lt c → a.lt c
  eq_trans_iff : a.eq b → b.eq c → (a.eq c ↔ ¬ Lossy a b c)

/--
Equality is reflexive and symmetric and agrees with the comparison, which is reversed with
its arguments; `<` is transitive, and equality is so except through a double between two
different integers.
-/
theorem comparison_laws (ha : a.isFinite) (hb : b.isFinite) (hc : c.isFinite) : Laws a b c where
  refl := eq_refl ha
  symm := eq_symm
  equal_iff := eq_iff_partialCmp a b
  swap := partialCmp_swap ha hb
  lt_trans := lt_trans ha hb hc
  eq_trans_iff := eq_trans_iff ha hb hc

theorem comparison_laws_five : Laws (int 5) (float (F64.ofInt 5)) (int 6) :=
  comparison_laws (by decide +kernel) (by decide +kernel) (by decide +kernel)

/-- The integers `2 ^ 53` and `2 ^ 53 + 1` equal one double. -/
theorem eq_not_transitive :
    let a := int (2 ^ 53)
    let b := float (F64.ofInt (2 ^ 53))
    let c := int (2 ^ 53 + 1)
    a.isFinite ∧ b.isFinite ∧ c.isFinite ∧ a.eq b ∧ b.eq c ∧ ¬ a.eq c ∧
      a.partialCmp b = some .eq ∧ b.partialCmp c = some .eq ∧ a.partialCmp c = some .lt := by
  decide +kernel

end Laws

end VolcanoDb.Value
