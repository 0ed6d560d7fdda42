import Mathlib.Algebra.BigOperators.Group.List.Basic
import Mathlib.Algebra.Order.Group.Int
import Mathlib.Algebra.Order.Monoid.Unbundled.Basic
import Mathlib.Algebra.Ring.Int.Defs
import Mathlib.Data.List.Infix
import Mathlib.Data.List.ReduceOption
import Mathlib.Data.List.Induction
import Mathlib.Order.Lattice

/-! # Accumulation in any order

What a fold over a list keeps does not depend on the order of the list: the
element with the least key, and the sum. The sums on the way do; in every order
they lie between the sum of the negative and the sum of the positive elements.
-/

namespace Accumulation

section Least

variable {α κ : Type*} [LinearOrder κ] (key : α → κ)

def keepLeast : Option α → α → Option α
  | none, a => some a
  | some m, a => some (if key a < key m then a else m)

/-- The first element with the least key. -/
def least? (l : List α) : Option α := l.foldl (keepLeast key) none

variable {key} {l l' : List α}

theorem least?_concat (l : List α) (a : α) :
    least? key (l ++ [a]) = keepLeast key (least? key l) a := by
  simp [least?]

theorem least?_eq_none : least? key l = none ↔ l = [] := by
  induction l using List.reverseRecOn with
  | nil => simp [least?]
  | append_singleton l a ih =>
    rw [least?_concat]
    cases least? key l <;> simp [keepLeast]

theorem least?_spec {m : α} (h : least? key l = some m) : m ∈ l ∧ ∀ a ∈ l, key m ≤ key a := by
  induction l using List.reverseRecOn generalizing m with
  | nil => cases h
  | append_singleton l a ih =>
    rw [least?_concat] at h
    rcases hl : least? key l with _ | n <;> rw [hl] at h
    · cases h
      rw [least?_eq_none.mp hl]
      simp
    · obtain ⟨hn, hle⟩ := ih hl
      obtain rfl := Option.some_inj.mp h
      simp only [List.mem_append, List.mem_singleton]
      split
      · rename_i hlt
        refine ⟨.inr rfl, ?_⟩
        rintro b (hb | rfl)
        · exact hlt.le.trans (hle b hb)
        · exact le_rfl
      · rename_i hnot
        refine ⟨.inl hn, ?_⟩
        rintro b (hb | rfl)
        · exact hle b hb
        · exact not_lt.mp hnot

theorem least?_eq_some_iff (hkey : Function.Injective key) {m : α} :
    least? key l = some m ↔ m ∈ l ∧ ∀ a ∈ l, key m ≤ key a := by
  constructor
  · exact least?_spec
  · rintro ⟨hm, hle⟩
    rcases hl : least? key l with _ | n
    · rw [least?_eq_none.mp hl] at hm
      cases hm
    · obtain ⟨hn, hle'⟩ := least?_spec hl
      exact congrArg some (hkey (le_antisymm (hle' m hm) (hle n hn)))

theorem least?_perm (hkey : Function.Injective key) (h : l.Perm l') :
    least? key l = least? key l' := by
  ext m
  simp only [least?_eq_some_iff hkey, h.mem_iff]

end Least

section Sums

variable {α : Type*} (w : α → ℤ) {l p : List α}

def positiveSum (l : List α) : ℤ := ((l.filter (0 ≤ w ·)).map w).sum

def negativeSum (l : List α) : ℤ := ((l.filter (w · < 0)).map w).sum

variable {w}

theorem sum_of_sublist (h : p.Sublist l) :
    negativeSum w l ≤ (p.map w).sum ∧ (p.map w).sum ≤ positiveSum w l := by
  induction h with
  | slnil => simp [negativeSum, positiveSum]
  | cons a _ ih | cons_cons a _ ih =>
    simp only [negativeSum, positiveSum, List.filter_cons, List.map_cons, List.sum_cons] at ih ⊢
    rcases le_or_gt 0 (w a) with ha | ha
    · simp only [ha, not_lt.mpr ha, decide_true, decide_false, if_true, List.map_cons,
        List.sum_cons]
      grind
    · simp only [ha, not_le.mpr ha, decide_true, decide_false, if_true, List.map_cons,
        List.sum_cons]
      grind

/--
The sums on the way stay within bounds in every order of a list exactly if the
sums of its negative and of its positive elements do.
-/
theorem prefix_sums_iff (lo hi : ℤ) :
    (∀ l', l.Perm l' → ∀ p, p <+: l' → lo ≤ (p.map w).sum ∧ (p.map w).sum ≤ hi) ↔
      lo ≤ negativeSum w l ∧ positiveSum w l ≤ hi := by
  constructor
  · intro h
    have hneg := (List.filter_append_perm (w · < 0) l).symm
    have hpos := (List.filter_append_perm (0 ≤ w ·) l).symm
    exact ⟨(h _ hneg _ (List.prefix_append _ _)).1, (h _ hpos _ (List.prefix_append _ _)).2⟩
  · rintro ⟨hlo, hhi⟩ l' hl p hp
    obtain ⟨q, hq, hsub⟩ := List.exists_perm_sublist hp.sublist hl.symm
    obtain ⟨hge, hle⟩ := sum_of_sublist (w := w) hsub
    rw [← (hq.map w).sum_eq]
    exact ⟨hlo.trans hge, hle.trans hhi⟩

end Sums

section Optional

variable {α : Type*}

theorem perm_reduceOption (l : List (Option α)) :
    l.Perm (l.reduceOption.map some ++ l.filter Option.isNone) := by
  induction l with
  | nil => exact .nil
  | cons o l ih =>
    rcases o with _ | a
    · exact (ih.cons none).trans List.perm_middle.symm
    · exact ih.cons (some a)

theorem exists_perm_reduceOption {l : List (Option α)} {as : List α}
    (h : l.reduceOption.Perm as) : ∃ l', l.Perm l' ∧ l'.reduceOption = as := by
  refine ⟨as.map some ++ l.filter Option.isNone, ?_, ?_⟩
  · exact (perm_reduceOption l).trans ((h.map some).append_right _)
  · have hnone : (l.filter Option.isNone).reduceOption = [] := by
      simp [List.reduceOption, List.filterMap_filter]
    rw [List.reduceOption_append, hnone, List.append_nil]
    simp [List.reduceOption, List.filterMap_map]

end Optional

end Accumulation
