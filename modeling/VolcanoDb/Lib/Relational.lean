import Mathlib.Data.List.Flatten
import Mathlib.Data.List.Perm.Subperm

/-! # Relations that queries respect

Relations between lists that selections, maps and products of related lists keep: to
be a part of a list in order, a part in any order, a permutation, or to contain it.
-/

namespace Relational

universe u

/-- A reflexive relation that row-by-row operators and products keep. -/
structure Respects (R : {α : Type u} → List α → List α → Prop) : Prop where
  refl {α : Type u} (l : List α) : R l l
  filterMap {α β : Type u} (f : α → Option β) {l l' : List α} :
    R l l' → R (l.filterMap f) (l'.filterMap f)
  product {α β γ : Type u} (f : α → β → γ) {l l' : List α} {r r' : List β} : R l l' → R r r' →
    R (l.flatMap fun a => r.map (f a)) (l'.flatMap fun a => r'.map (f a))

/-- A relation that does not see how lists are arranged. -/
def Unordered (R : {α : Type u} → List α → List α → Prop) : Prop :=
  ∀ {α : Type u} {l l' s s' : List α}, s.Perm l → s'.Perm l' → R l l' → R s s'

theorem respects_sublist : Respects fun l l' => l.Sublist l' where
  refl := List.Sublist.refl
  filterMap f _ _ h := h.filterMap f
  product f _ l' r _ hl hr :=
    (hl.flatMap fun a => r.map (f a)).trans <| .flatMap_right l' fun a _ => hr.map (f a)

theorem respects_perm : Respects fun l l' => l.Perm l' where
  refl := List.Perm.refl
  filterMap f _ _ h := h.filterMap f
  product f _ _ _ _ hl hr := hl.flatMap fun a _ => hr.map (f a)

theorem unordered_perm : Unordered fun l l' => l.Perm l' := by
  intro α l l' s s' hs hs' h
  exact hs.trans (h.trans hs'.symm)

theorem respects_subperm : Respects fun l l' => l.Subperm l' where
  refl := List.Subperm.refl
  filterMap := by
    rintro α β f l l' ⟨s, hs, hl⟩
    exact ⟨s.filterMap f, hs.filterMap f, hl.filterMap f⟩
  product := by
    rintro α β γ f l l' r r' ⟨s, hs, hl⟩ ⟨t, ht, hr⟩
    exact ⟨_, respects_perm.product f hs ht, respects_sublist.product f hl hr⟩

theorem unordered_subperm : Unordered fun l l' => l.Subperm l' := by
  intro α l l' s s' hs hs' h
  exact hs.subperm.trans (h.trans hs'.symm.subperm)

theorem respects_superset : Respects fun l l' => l' ⊆ l where
  refl := List.Subset.refl
  filterMap f _ _ h := List.filterMap_subset f h
  product := by
    intro α β γ f l l' r r' hl hr c hc
    simp only [List.mem_flatMap, List.mem_map] at hc ⊢
    obtain ⟨a, ha, b, hb, rfl⟩ := hc
    exact ⟨a, hl ha, b, hr hb, rfl⟩

end Relational
