import Mathlib.Data.List.Perm.Basic
import Mathlib.Data.List.Sort

/-! # Stable sorting

A stable sort permutes a list into order and keeps equivalent elements in the
order they had. On a list that the relation totally preorders there is exactly
one such permutation, and insertion sort computes it.
-/

namespace StableSort

variable {α : Type*} {le : α → α → Prop}

/-- The relation is total and transitive among the elements of a list. -/
structure PreorderOn (le : α → α → Prop) (l : List α) : Prop where
  total : ∀ a ∈ l, ∀ b ∈ l, le a b ∨ le b a
  trans : ∀ a ∈ l, ∀ b ∈ l, ∀ c ∈ l, le a b → le b c → le a c

theorem PreorderOn.refl {l : List α} (h : PreorderOn le l) {a : α} (ha : a ∈ l) : le a a :=
  (h.total a ha a ha).elim id id

theorem PreorderOn.mono {l l' : List α} (h : PreorderOn le l) (hs : l' ⊆ l) : PreorderOn le l' where
  total a ha b hb := h.total a (hs ha) b (hs hb)
  trans a ha b hb c hc := h.trans a (hs ha) b (hs hb) c (hs hc)

theorem PreorderOn.congr {le' : α → α → Prop} {l : List α} (h : PreorderOn le l)
    (hle : ∀ a ∈ l, ∀ b ∈ l, le a b ↔ le' a b) : PreorderOn le' l where
  total a ha b hb := (h.total a ha b hb).imp (hle a ha b hb).mp (hle b hb a ha).mp
  trans a ha b hb c hc hab hbc := (hle a ha c hc).mp <|
    h.trans a ha b hb c hc ((hle a ha b hb).mpr hab) ((hle b hb c hc).mpr hbc)

/-- A comparator that describes a total preorder among the elements of a list. -/
structure OrdersOn (cmp : α → α → Ordering) (l : List α) : Prop where
  swap : ∀ a ∈ l, ∀ b ∈ l, cmp b a = (cmp a b).swap
  trans : ∀ a ∈ l, ∀ b ∈ l, ∀ c ∈ l, (cmp a b).isLE → (cmp b c).isLE → (cmp a c).isLE

instance (cmp : α → α → Ordering) (l : List α) : Decidable (OrdersOn cmp l) :=
  decidable_of_iff ((∀ a ∈ l, ∀ b ∈ l, cmp b a = (cmp a b).swap) ∧
    ∀ a ∈ l, ∀ b ∈ l, ∀ c ∈ l, (cmp a b).isLE → (cmp b c).isLE → (cmp a c).isLE)
    ⟨fun h => ⟨h.1, h.2⟩, fun h => ⟨h.swap, h.trans⟩⟩

theorem OrdersOn.preorderOn {cmp : α → α → Ordering} {l : List α} (h : OrdersOn cmp l) :
    PreorderOn (fun a b => (cmp a b).isLE) l where
  total a ha b hb := by rw [h.swap a ha b hb]; cases cmp a b <;> simp
  trans := h.trans

theorem OrdersOn.transfer {β : Type*} {r : α → β → Prop} {cmp : α → α → Ordering}
    {cmp' : β → β → Ordering} {l : List α} {l' : List β} (h : OrdersOn cmp l)
    (hr : ∀ y ∈ l', ∃ x ∈ l, r x y)
    (hc : ∀ x ∈ l, ∀ x' ∈ l, ∀ y y', r x y → r x' y' → cmp' y y' = cmp x x') :
    OrdersOn cmp' l' where
  swap y hy z hz := by
    obtain ⟨x, hx, hxy⟩ := hr y hy
    obtain ⟨w, hw, hwz⟩ := hr z hz
    rw [hc x hx w hw y z hxy hwz, hc w hw x hx z y hwz hxy, h.swap x hx w hw]
  trans y hy z hz u hu := by
    obtain ⟨x, hx, hxy⟩ := hr y hy
    obtain ⟨w, hw, hwz⟩ := hr z hz
    obtain ⟨v, hv, hvu⟩ := hr u hu
    rw [hc x hx w hw y z hxy hwz, hc w hw v hv z u hwz hvu, hc x hx v hv y u hxy hvu]
    exact h.trans x hx w hw v hv

theorem OrdersOn.congr {cmp cmp' : α → α → Ordering} {l : List α} (h : OrdersOn cmp l)
    (hc : ∀ a ∈ l, ∀ b ∈ l, cmp' a b = cmp a b) : OrdersOn cmp' l :=
  h.transfer (r := Eq) (fun a ha => ⟨a, ha, rfl⟩) fun a ha b hb _ _ hac hbd =>
    hac ▸ hbd ▸ hc a ha b hb

theorem OrdersOn.comap {β : Type*} {f : β → α} {cmp : α → α → Ordering} {l : List β}
    (h : OrdersOn cmp (l.map f)) : OrdersOn (fun a b => cmp (f a) (f b)) l :=
  h.transfer (r := fun x b => f b = x) (fun b hb => ⟨f b, List.mem_map_of_mem hb, rfl⟩)
    fun _ _ _ _ _ _ ha hb => ha ▸ hb ▸ rfl

theorem OrdersOn.opposite {cmp : α → α → Ordering} {l : List α} (h : OrdersOn cmp l) :
    OrdersOn (fun a b => (cmp a b).swap) l where
  swap a ha b hb := by rw [h.swap a ha b hb]
  trans a ha b hb c hc hab hbc := by
    rw [← h.swap a ha b hb] at hab
    rw [← h.swap b hb c hc] at hbc
    rw [← h.swap a ha c hc]
    exact h.trans c hc b hb a ha hbc hab

theorem OrdersOn.then {cmp cmp' : α → α → Ordering} {l : List α} (h : OrdersOn cmp l)
    (h' : OrdersOn cmp' l) : OrdersOn (fun a b => (cmp a b).then (cmp' a b)) l where
  swap a ha b hb := by
    rw [h.swap a ha b hb, h'.swap a ha b hb, Ordering.swap_then]
  trans a ha b hb c hc hab hbc := by
    have hle {o o' : Ordering} : (o.then o').isLE ↔ o = .lt ∨ o = .eq ∧ o'.isLE := by
      cases o <;> cases o' <;> decide
    have hab' : (cmp a b).isLE := by rcases hle.mp hab with h | ⟨h, -⟩ <;> rw [h] <;> rfl
    have hbc' : (cmp b c).isLE := by rcases hle.mp hbc with h | ⟨h, -⟩ <;> rw [h] <;> rfl
    have hac := h.trans a ha b hb c hc hab' hbc'
    rw [hle]
    rcases heq : cmp a c with _ | _ | _
    · exact .inl rfl
    · -- equivalent ends of a chain make all of it equivalent
      have hca : (cmp c a).isLE := by rw [h.swap a ha c hc, heq]; rfl
      have hba := h.trans b hb c hc a ha hbc' hca
      have hcb := h.trans c hc a ha b hb hca hab'
      rw [h.swap a ha b hb] at hba
      rw [h.swap b hb c hc] at hcb
      rcases hle.mp hab with hlt | ⟨-, hab⟩
      · simp [hlt] at hba
      · rcases hle.mp hbc with hlt | ⟨-, hbc⟩
        · simp [hlt] at hcb
        · exact .inr ⟨rfl, h'.trans a ha b hb c hc hab hbc⟩
    · simp [heq] at hac

theorem pairwise_of_forall₂ {β : Type*} {r : β → α → Prop} {le' : β → β → Prop} {s : List β}
    {l : List α} (hr : List.Forall₂ r s l) (hl : l.Pairwise le)
    (h : ∀ a ∈ s, ∀ b ∈ s, ∀ x y, r a x → r b y → le x y → le' a b) : s.Pairwise le' := by
  induction hr with
  | nil => exact .nil
  | @cons a x s l hax hr ih =>
    obtain ⟨hx, hl⟩ := List.pairwise_cons.mp hl
    refine List.pairwise_cons.mpr ⟨fun b hb => ?_, ih hl fun a ha b hb =>
      h a (List.mem_cons_of_mem _ ha) b (List.mem_cons_of_mem _ hb)⟩
    obtain ⟨n, hn, rfl⟩ := List.getElem_of_mem hb
    have hn' : n < l.length := hr.length_eq ▸ hn
    exact h a List.mem_cons_self _ (List.mem_cons_of_mem _ hb) x l[n] hax (hr.get hn hn')
      (hx _ (List.getElem_mem hn'))

variable [DecidableRel le]

variable (le) in
def equiv (a b : α) : Bool := le a b ∧ le b a

variable (le) in
/-- The second list is the first one in order, with equivalent elements in the same order. -/
structure IsStableSort (l l' : List α) : Prop where
  perm : l'.Perm l
  sorted : l'.Pairwise le
  stable : ∀ a ∈ l, l'.filter (equiv le a) = l.filter (equiv le a)

theorem IsStableSort.congr {le' : α → α → Prop} [DecidableRel le'] {l l' : List α}
    (h : ∀ a ∈ l, ∀ b ∈ l, le a b ↔ le' a b) (hs : IsStableSort le l l') :
    IsStableSort le' l l' where
  perm := hs.perm
  sorted := hs.sorted.imp_of_mem fun ha hb hab =>
    (h _ (hs.perm.mem_iff.mp ha) _ (hs.perm.mem_iff.mp hb)).mp hab
  stable a ha := by
    have hequiv (b : α) (hb : b ∈ l) : equiv le a b = equiv le' a b := by
      simp only [equiv, h a ha b hb, h b hb a ha]
    rw [← List.filter_congr hequiv, ← hs.stable a ha]
    exact List.filter_congr fun b hb => (hequiv b (hs.perm.mem_iff.mp hb)).symm

theorem IsStableSort.exists_sorted {β : Type*} {r : β → α → Prop} {le' : β → β → Prop}
    {s : List β} {l l' : List α} (hs : IsStableSort le l l') (hr : List.Forall₂ r s l)
    (h : ∀ a ∈ s, ∀ b ∈ s, ∀ x y, r a x → r b y → le x y → le' a b) :
    ∃ s', s'.Perm s ∧ s'.Pairwise le' ∧ List.Forall₂ r s' l' := by
  obtain ⟨s', hr', hp⟩ := List.perm_comp_forall₂ hs.perm hr.flip
  refine ⟨s', hp, ?_, hr'.flip⟩
  exact pairwise_of_forall₂ hr'.flip hs.sorted fun a ha b hb =>
    h a (hp.mem_iff.mp ha) b (hp.mem_iff.mp hb)

theorem eq_of_sorted {l₁ l₂ : List α} (h : PreorderOn le l₁) (hp : l₁.Perm l₂)
    (h₁ : l₁.Pairwise le) (h₂ : l₂.Pairwise le)
    (hf : ∀ a ∈ l₁, l₁.filter (equiv le a) = l₂.filter (equiv le a)) : l₁ = l₂ := by
  induction l₁ generalizing l₂ with
  | nil => exact hp.nil_eq
  | cons a t₁ ih =>
    obtain _ | ⟨b, t₂⟩ := l₂
    · exact absurd hp.symm.nil_eq (List.cons_ne_nil _ _).symm
    have ha : a ∈ a :: t₁ := List.mem_cons_self
    have hb : b ∈ a :: t₁ := hp.mem_iff.mpr List.mem_cons_self
    have hab : le a b := by
      rcases List.mem_cons.mp hb with rfl | hb'
      · exact h.refl ha
      · exact (List.pairwise_cons.mp h₁).1 b hb'
    have hba : le b a := by
      rcases List.mem_cons.mp (hp.mem_iff.mp ha) with rfl | ha'
      · exact h.refl ha
      · exact (List.pairwise_cons.mp h₂).1 a ha'
    have hhead := hf a ha
    rw [List.filter_cons_of_pos (by simp [equiv, h.refl ha]),
      List.filter_cons_of_pos (by simp [equiv, hab, hba])] at hhead
    obtain ⟨rfl, htail⟩ := List.cons_eq_cons.mp hhead
    congr 1
    refine ih (h.mono (List.subset_cons_self _ _)) hp.cons_inv (List.pairwise_cons.mp h₁).2
      (List.pairwise_cons.mp h₂).2 fun c hc => ?_
    have hfc := hf c (List.mem_cons_of_mem _ hc)
    by_cases hca : equiv le c a
    · rw [List.filter_cons_of_pos hca, List.filter_cons_of_pos hca] at hfc
      exact (List.cons_eq_cons.mp hfc).2
    · rwa [List.filter_cons_of_neg hca, List.filter_cons_of_neg hca] at hfc

/-- A totally preordered list has only one stable sort. -/
theorem IsStableSort.unique {l l₁ l₂ : List α} (h : PreorderOn le l) (h₁ : IsStableSort le l l₁)
    (h₂ : IsStableSort le l l₂) : l₁ = l₂ := by
  refine eq_of_sorted (h.mono h₁.perm.subset) (h₁.perm.trans h₂.perm.symm) h₁.sorted h₂.sorted ?_
  intro a ha
  have hal := h₁.perm.mem_iff.mp ha
  rw [h₁.stable a hal, h₂.stable a hal]

theorem sorted_orderedInsert {a : α} {l : List α} (h : PreorderOn le (a :: l))
    (hs : l.Pairwise le) : (l.orderedInsert le a).Pairwise le := by
  induction l with
  | nil => simp
  | cons b l ih =>
    obtain ⟨hb, hl⟩ := List.pairwise_cons.mp hs
    rw [List.orderedInsert_cons]
    split
    · rename_i hab
      refine List.pairwise_cons.mpr ⟨fun c hc => ?_, hs⟩
      rcases List.mem_cons.mp hc with rfl | hcl
      · exact hab
      · exact h.trans a (by simp) b (by simp) c (by simp [hcl]) hab (hb c hcl)
    · rename_i hab
      refine List.pairwise_cons.mpr ⟨fun c hc => ?_, ih (h.mono (by grind)) hl⟩
      rcases List.mem_cons.mp ((List.perm_orderedInsert le a l).mem_iff.mp hc) with rfl | hcl
      · exact (h.total c (by simp) b (by simp)).resolve_left hab
      · exact hb c hcl

theorem filter_orderedInsert {a c : α} {l : List α} (h : PreorderOn le (c :: a :: l)) :
    (l.orderedInsert le a).filter (equiv le c) = (a :: l).filter (equiv le c) := by
  induction l with
  | nil => rfl
  | cons b l ih =>
    rw [List.orderedInsert_cons]
    split
    · rfl
    · rename_i hab
      have hl := ih (h.mono (by grind))
      by_cases hcb : equiv le c b
      · have hca : ¬ equiv le c a := by
          intro hca
          simp only [equiv, decide_eq_true_eq] at hca hcb
          exact hab (h.trans a (by simp) c (by simp) b (by simp) hca.2 hcb.1)
        rw [List.filter_cons_of_neg hca] at hl ⊢
        rw [List.filter_cons_of_pos hcb, List.filter_cons_of_pos hcb, hl]
      · rw [List.filter_cons_of_neg hcb, hl, List.filter_cons, List.filter_cons,
          List.filter_cons_of_neg hcb]

theorem filter_insertionSort {c : α} {l : List α} (h : PreorderOn le (c :: l)) :
    (l.insertionSort le).filter (equiv le c) = l.filter (equiv le c) := by
  induction l with
  | nil => rfl
  | cons a l ih =>
    have hsub : c :: a :: l.insertionSort le ⊆ c :: a :: l :=
      List.cons_subset_cons _ (List.cons_subset_cons _ (List.perm_insertionSort le l).subset)
    rw [List.insertionSort_cons, filter_orderedInsert (h.mono hsub), List.filter_cons,
      List.filter_cons, ih (h.mono (by grind))]

theorem sorted_insertionSort {l : List α} (h : PreorderOn le l) :
    (l.insertionSort le).Pairwise le := by
  induction l with
  | nil => exact .nil
  | cons a l ih =>
    have hsub : a :: l.insertionSort le ⊆ a :: l :=
      List.cons_subset_cons _ (List.perm_insertionSort le l).subset
    exact sorted_orderedInsert (h.mono hsub) (ih (h.mono (List.subset_cons_self _ _)))

/-- Insertion sort is stable. -/
theorem isStableSort_insertionSort {l : List α} (h : PreorderOn le l) :
    IsStableSort le l (l.insertionSort le) where
  perm := List.perm_insertionSort le l
  sorted := sorted_insertionSort h
  stable _ ha := filter_insertionSort (h.mono (List.cons_subset.mpr ⟨ha, List.Subset.refl _⟩))

end StableSort
