import VolcanoDb.Lib.StableSort

/-! # Keys of mixed sorts

A key orders the elements of each sort and ties elements of different sorts.
Comparing by keys one after the other is a strict weak order on a list exactly if
no three elements run in a circle: where a key puts one before another and ties
both with a third of another sort, later keys must put the third on one side.
-/

namespace StableSort

variable {α κ : Type*}

/-- A comparator whose strict and whose equivalence relation are transitive on a list. -/
structure StrictWeakOn (cmp : α → α → Ordering) (l : List α) : Prop where
  swap : ∀ a ∈ l, ∀ b ∈ l, cmp b a = (cmp a b).swap
  lt_trans : ∀ a ∈ l, ∀ b ∈ l, ∀ c ∈ l, cmp a b = .lt → cmp b c = .lt → cmp a c = .lt
  eq_trans : ∀ a ∈ l, ∀ b ∈ l, ∀ c ∈ l, cmp a b = .eq → cmp b c = .eq → cmp a c = .eq

theorem strictWeakOn_iff {cmp : α → α → Ordering} {l : List α} :
    StrictWeakOn cmp l ↔ OrdersOn cmp l := by
  constructor
  · intro h
    refine ⟨h.swap, fun a ha b hb c hc hab hbc => ?_⟩
    by_contra hac
    have hca : cmp c a = .lt := by
      rw [h.swap a ha c hc]
      cases hac' : cmp a c <;> simp_all
    rcases hab' : cmp a b with _ | _ | _
    · have hcb := h.lt_trans c hc a ha b hb hca hab'
      rw [h.swap c hc b hb, hcb] at hbc
      cases hbc
    · rcases hbc' : cmp b c with _ | _ | _
      · have hba := h.lt_trans b hb c hc a ha hbc' hca
        rw [h.swap a ha b hb, hab'] at hba
        cases hba
      · have hac' := h.eq_trans a ha b hb c hc hab' hbc'
        rw [h.swap c hc a ha, hca] at hac'
        cases hac'
      · rw [hbc'] at hbc
        cases hbc
    · rw [hab'] at hab
      cases hab
  · intro h
    have hlt {a b : α} (ha : a ∈ l) (hb : b ∈ l) (hba : ¬ (cmp b a).isLE) : cmp a b = .lt := by
      rw [h.swap b hb a ha]
      cases hba' : cmp b a <;> simp_all
    refine ⟨h.swap, fun a ha b hb c hc hab hbc => ?_, fun a ha b hb c hc hab hbc => ?_⟩
    · apply hlt ha hc
      intro hca
      have hba := h.trans b hb c hc a ha (by rw [hbc]; rfl) hca
      rw [h.swap a ha b hb, hab] at hba
      cases hba
    · have hac := h.trans a ha b hb c hc (by rw [hab]; rfl) (by rw [hbc]; rfl)
      have hcb : cmp c b = .eq := by rw [h.swap b hb c hc, hbc]; rfl
      have hba : cmp b a = .eq := by rw [h.swap a ha b hb, hab]; rfl
      have hca := h.trans c hc b hb a ha (by rw [hcb]; rfl) (by rw [hba]; rfl)
      rw [h.swap a ha c hc] at hca
      cases hac' : cmp a c <;> simp_all

theorem OrdersOn.mono {cmp : α → α → Ordering} {l l' : List α} (h : OrdersOn cmp l)
    (hs : l' ⊆ l) : OrdersOn cmp l' where
  swap a ha b hb := h.swap a (hs ha) b (hs hb)
  trans a ha b hb c hc := h.trans a (hs ha) b (hs hb) c (hs hc)

/-- A comparator and the sorts of the elements. -/
structure SortedKey (α κ : Type*) where
  cmp : α → α → Ordering
  sort : α → κ

namespace SortedKey

/-- A key orders the elements of each sort, and ties those of different sorts. -/
structure Lawful (k : SortedKey α κ) (l : List α) : Prop where
  swap : ∀ a ∈ l, ∀ b ∈ l, k.cmp b a = (k.cmp a b).swap
  trans : ∀ a ∈ l, ∀ b ∈ l, ∀ c ∈ l, k.sort a = k.sort b → k.sort b = k.sort c →
    (k.cmp a b).isLE → (k.cmp b c).isLE → (k.cmp a c).isLE
  tie : ∀ a ∈ l, ∀ b ∈ l, k.sort a ≠ k.sort b → k.cmp a b = .eq

variable {k : SortedKey α κ} {ks : List (SortedKey α κ)} {l : List α}

theorem Lawful.mono {l' : List α} (h : k.Lawful l) (hs : l' ⊆ l) : k.Lawful l' where
  swap a ha b hb := h.swap a (hs ha) b (hs hb)
  trans a ha b hb c hc := h.trans a (hs ha) b (hs hb) c (hs hc)
  tie a ha b hb := h.tie a (hs ha) b (hs hb)

def lexCmp : List (SortedKey α κ) → α → α → Ordering
  | [], _, _ => .eq
  | k :: ks, a, b => (k.cmp a b).then (lexCmp ks a b)

/-- The first key on which two elements differ puts one before the other. -/
def Precedes : List (SortedKey α κ) → α → α → Prop
  | [], _, _ => False
  | k :: ks, a, b => k.cmp a b = .lt ∨ (k.cmp a b = .eq ∧ Precedes ks a b)

/--
The first key on which three elements do not all tie does not close a circle: if
it puts the first before the second, and the third has another sort, then later
keys put the third behind the first or before the second.
-/
def Separable : List (SortedKey α κ) → α → α → α → Prop
  | [], _, _, _ => True
  | k :: ks, a, b, c =>
    (k.cmp a b = .lt → k.sort c ≠ k.sort a → Precedes ks a c ∨ Precedes ks c b) ∧
    (k.cmp a b = .eq → k.cmp b c = .eq → k.cmp a c = .eq → Separable ks a b c)

theorem precedes_iff {a b : α} : Precedes ks a b ↔ lexCmp ks a b = .lt := by
  induction ks with
  | nil => simp [Precedes, lexCmp]
  | cons k ks ih =>
    rw [Precedes, lexCmp, ih]
    cases k.cmp a b <;> simp

theorem lexCmp_of_tie {a b : α} (h : k.cmp a b = .eq) : lexCmp (k :: ks) a b = lexCmp ks a b := by
  rw [lexCmp, h, Ordering.eq_then]

theorem lexCmp_swap (h : ∀ k ∈ ks, k.Lawful l) {a b : α} (ha : a ∈ l) (hb : b ∈ l) :
    lexCmp ks b a = (lexCmp ks a b).swap := by
  induction ks with
  | nil => rfl
  | cons k ks ih =>
    obtain ⟨hk, hks⟩ := List.forall_mem_cons.mp h
    rw [lexCmp, lexCmp, hk.swap a ha b hb, ih hks, Ordering.swap_then]

theorem Lawful.self (h : k.Lawful l) {a : α} (ha : a ∈ l) : k.cmp a a = .eq := by
  have hswap := h.swap a ha a ha
  cases hcmp : k.cmp a a <;> simp_all

theorem Lawful.ties (h : k.Lawful l) {a b c : α} (ha : a ∈ l) (hb : b ∈ l) (hc : c ∈ l)
    (hab : k.cmp a b = .eq) (hbc : k.cmp b c = .eq) (hac : k.cmp a c = .eq) :
    ∀ x ∈ [a, b, c], ∀ y ∈ [a, b, c], k.cmp x y = .eq := by
  have hswap {x y : α} (hx : x ∈ l) (hy : y ∈ l) (hxy : k.cmp x y = .eq) : k.cmp y x = .eq := by
    rw [h.swap x hx y hy, hxy]
    rfl
  simp only [List.forall_mem_cons, List.not_mem_nil, false_implies, implies_true, and_true]
  exact ⟨⟨h.self ha, hab, hac⟩, ⟨hswap ha hb hab, h.self hb, hbc⟩, hswap ha hc hac, hswap hb hc hbc,
    h.self hc⟩

theorem ordersOn_iff_of_ties (h : ∀ a ∈ l, ∀ b ∈ l, k.cmp a b = .eq) :
    OrdersOn (lexCmp (k :: ks)) l ↔ OrdersOn (lexCmp ks) l :=
  ⟨fun ho => ho.congr fun a ha b hb => (lexCmp_of_tie (h a ha b hb)).symm,
    fun ho => ho.congr fun a ha b hb => lexCmp_of_tie (h a ha b hb)⟩

theorem separable_of_sort_eq (h : ∀ k ∈ ks, ∀ a ∈ l, ∀ b ∈ l, k.sort a = k.sort b) :
    ∀ a ∈ l, ∀ b ∈ l, ∀ c ∈ l, Separable ks a b c := by
  intro a ha b hb c hc
  induction ks with
  | nil => trivial
  | cons k ks ih =>
    obtain ⟨hk, hks⟩ := List.forall_mem_cons.mp h
    exact ⟨fun _ hne => absurd (hk c hc a ha) hne, fun _ _ _ => ih hks⟩

theorem separable_of_ordersOn (h : ∀ k ∈ ks, k.Lawful l) (ho : OrdersOn (lexCmp ks) l) :
    ∀ a ∈ l, ∀ b ∈ l, ∀ c ∈ l, Separable ks a b c := by
  induction ks generalizing l with
  | nil => exact fun _ _ _ _ _ _ => trivial
  | cons k ks ih =>
    intro a ha b hb c hc
    have hk := h k List.mem_cons_self
    constructor
    · intro hab hsort
      have hsame : k.sort a = k.sort b := by
        by_contra hne
        rw [hk.tie a ha b hb hne] at hab
        cases hab
      have hac : lexCmp (k :: ks) a c = lexCmp ks a c :=
        lexCmp_of_tie (hk.tie a ha c hc hsort.symm)
      have hcb : lexCmp (k :: ks) c b = lexCmp ks c b :=
        lexCmp_of_tie (hk.tie c hc b hb (hsame ▸ hsort))
      rw [precedes_iff, precedes_iff, ← hac, ← hcb]
      by_contra hnot
      obtain ⟨hac, hcb⟩ := not_or.mp hnot
      have hle {x y : α} (hx : x ∈ l) (hy : y ∈ l) (hxy : lexCmp (k :: ks) x y ≠ .lt) :
          (lexCmp (k :: ks) y x).isLE := by
        rw [ho.swap x hx y hy]
        cases hcmp : lexCmp (k :: ks) x y <;> simp_all
      have hba := ho.trans b hb c hc a ha (hle hc hb hcb) (hle ha hc hac)
      rw [lexCmp, hk.swap a ha b hb, hab] at hba
      cases hba
    · intro hab hbc hac
      have hsub : [a, b, c] ⊆ l := by simp [ha, hb, hc]
      have htie := hk.ties ha hb hc hab hbc hac
      refine ih (fun k hk => (h k (List.mem_cons_of_mem _ hk)).mono hsub)
        ((ordersOn_iff_of_ties htie).mp (ho.mono hsub)) a ?_ b ?_ c ?_ <;> simp

theorem not_circle_of_key (hk : k.Lawful l) (h : ∀ k ∈ ks, k.Lawful l)
    (hs : ∀ a ∈ l, ∀ b ∈ l, ∀ c ∈ l, Separable (k :: ks) a b c) {a b c : α} (ha : a ∈ l)
    (hb : b ∈ l) (hc : c ∈ l) (hab : k.cmp a b = .lt) (hbc : (lexCmp (k :: ks) b c).isLE)
    (hca : (lexCmp (k :: ks) c a).isLE) : False := by
  have hle {x y : α} (hxy : (lexCmp (k :: ks) x y).isLE) : (k.cmp x y).isLE := by
    rw [lexCmp] at hxy
    cases hcmp : k.cmp x y <;> simp_all
  have hsame : k.sort a = k.sort b := by
    by_contra hne
    rw [hk.tie a ha b hb hne] at hab
    cases hab
  by_cases hsort : k.sort c = k.sort a
  · have hba := hk.trans b hb c hc a ha (hsame.symm.trans hsort.symm) hsort (hle hbc) (hle hca)
    rw [hk.swap a ha b hb, hab] at hba
    cases hba
  · have hall : ∀ k' ∈ k :: ks, k'.Lawful l := List.forall_mem_cons.mpr ⟨hk, h⟩
    have hac : lexCmp (k :: ks) a c = lexCmp ks a c :=
      lexCmp_of_tie (hk.tie a ha c hc (Ne.symm hsort))
    have hcb : lexCmp (k :: ks) c b = lexCmp ks c b :=
      lexCmp_of_tie (hk.tie c hc b hb (hsame ▸ hsort))
    rcases (hs a ha b hb c hc).1 hab hsort with hp | hp
    · rw [precedes_iff, ← hac] at hp
      rw [lexCmp_swap hall ha hc, hp] at hca
      cases hca
    · rw [precedes_iff, ← hcb] at hp
      rw [lexCmp_swap hall hc hb, hp] at hbc
      cases hbc

/-- Keys compare in a strict weak order exactly if they separate every three elements. -/
theorem ordersOn_lexCmp_iff (h : ∀ k ∈ ks, k.Lawful l) :
    OrdersOn (lexCmp ks) l ↔ ∀ a ∈ l, ∀ b ∈ l, ∀ c ∈ l, Separable ks a b c := by
  refine ⟨separable_of_ordersOn h, fun hs => ⟨fun a ha b hb => lexCmp_swap h ha hb, ?_⟩⟩
  induction ks generalizing l with
  | nil => exact fun _ _ _ _ _ _ _ _ => rfl
  | cons k ks ih =>
    intro a ha b hb c hc hab hbc
    obtain ⟨hk, hks⟩ := List.forall_mem_cons.mp h
    by_contra hac
    have hca : lexCmp (k :: ks) c a = .lt := by
      rw [lexCmp_swap h ha hc]
      cases hcmp : lexCmp (k :: ks) a c <;> simp_all
    have hca' : (lexCmp (k :: ks) c a).isLE := by rw [hca]; rfl
    -- the key ties all three, or one of the steps of the circle is strict on it
    rcases hkab : k.cmp a b with _ | _ | _
    · exact not_circle_of_key hk hks hs ha hb hc hkab hbc hca'
    · rcases hkbc : k.cmp b c with _ | _ | _
      · exact not_circle_of_key hk hks hs hb hc ha hkbc hca' hab
      · rcases hkca : k.cmp c a with _ | _ | _
        · exact not_circle_of_key hk hks hs hc ha hb hkca hab hbc
        · have hkac : k.cmp a c = .eq := by rw [hk.swap c hc a ha, hkca]; rfl
          have hsub : [a, b, c] ⊆ l := by simp [ha, hb, hc]
          have htie := hk.ties ha hb hc hkab hkbc hkac
          have hrest : ∀ x ∈ [a, b, c], ∀ y ∈ [a, b, c], ∀ z ∈ [a, b, c], Separable ks x y z :=
            fun x hx y hy z hz => (hs x (hsub hx) y (hsub hy) z (hsub hz)).2 (htie x hx y hy)
              (htie y hy z hz) (htie x hx z hz)
          rw [lexCmp_of_tie hkab] at hab
          rw [lexCmp_of_tie hkbc] at hbc
          rw [lexCmp_of_tie hkac] at hac
          exact hac (ih (fun k hk => (hks k hk).mono hsub) hrest a (by simp) b (by simp) c
            (by simp) hab hbc)
        · rw [lexCmp, hkca] at hca
          cases hca
      · rw [lexCmp, hkbc] at hbc
        cases hbc
    · rw [lexCmp, hkab] at hab
      cases hab

end SortedKey

end StableSort
