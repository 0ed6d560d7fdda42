import Mathlib.Data.List.Basic

/-! # Positions in a list

The positions of the elements with a property, and what becomes of them when
elements are removed. Removing what stands at them, last one first, removes
exactly the elements with the property; the positions of other elements stay
valid as long as nothing before them is removed.
-/

namespace Positions

variable {α : Type*} (p q : α → Bool)

/-- Remove what stands at some positions, last one first. -/
def eraseAll (l : List α) (is : List ℕ) : List α := is.reverse.foldl List.eraseIdx l

theorem findIdxs_cons (a : α) (l : List α) :
    (a :: l).findIdxs p = (if p a then [0] else []) ++ (l.findIdxs p).map (· + 1) := by
  rw [List.findIdxs_cons, List.findIdxs_start]
  split <;> rfl

theorem findIdxs_snoc (l : List α) (a : α) :
    (l ++ [a]).findIdxs p = l.findIdxs p ++ if p a then [l.length] else [] := by
  rw [List.findIdxs_append, List.findIdxs_singleton, Nat.zero_add]

theorem foldl_eraseIdx_succ (a : α) (l : List α) (is : List ℕ) :
    (is.map (· + 1)).foldl List.eraseIdx (a :: l) = a :: is.foldl List.eraseIdx l := by
  induction is generalizing l with
  | nil => rfl
  | cons i is ih => exact ih (l.eraseIdx i)

theorem eraseAll_cons (a : α) (l : List α) (is js : List ℕ) :
    eraseAll (a :: l) (js ++ is.map (· + 1)) = eraseAll (a :: eraseAll l is) js := by
  simp only [eraseAll, List.reverse_append, List.foldl_append, ← List.map_reverse,
    foldl_eraseIdx_succ]

/-- What stands at the positions of a property are the elements with it. -/
theorem eraseAll_findIdxs (l : List α) : eraseAll l (l.findIdxs p) = l.filter fun a => !p a := by
  induction l with
  | nil => rfl
  | cons a l ih =>
    rw [findIdxs_cons, eraseAll_cons, ih]
    cases ha : p a with
    | true => simp [eraseAll, ha]
    | false => simp [eraseAll, ha]

variable {p q}

theorem findIdxs_filter {l : List α} (hpq : ∀ a ∈ l, p a → q a = false)
    (h : l.Pairwise fun a b => p a → q b = false) :
    (l.filter fun a => !p a).findIdxs q = l.findIdxs q := by
  induction l with
  | nil => rfl
  | cons a l ih =>
    obtain ⟨ha, hl⟩ := List.forall_mem_cons.mp hpq
    obtain ⟨hfst, hrest⟩ := List.pairwise_cons.mp h
    cases hp : p a with
    | true =>
      have hnone : ∀ b ∈ a :: l, q b = false :=
        List.forall_mem_cons.mpr ⟨ha hp, fun b hb => hfst b hb hp⟩
      rw [List.findIdxs_eq_nil_iff.mpr hnone]
      exact List.findIdxs_eq_nil_iff.mpr fun b hb => hnone b (List.mem_filter.mp hb).1
    | false =>
      have hkeep : (a :: l).filter (fun a => !p a) = a :: l.filter fun a => !p a := by simp [hp]
      rw [hkeep, findIdxs_cons, findIdxs_cons, ih hl hrest]

end Positions
