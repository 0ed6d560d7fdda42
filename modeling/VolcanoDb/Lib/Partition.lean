import Mathlib.Data.List.Pairwise
import Mathlib.Data.List.Perm.Basic

/-! # Partitions of a list

Groups partition a list by a relation if each of its elements is in one of them,
in the order of the list, and two elements are related exactly if they are in the
same group. Elements grouped under their keys are partitioned exactly if equal
keys and the relation agree on any two of them.
-/

variable {α κ : Type*}

/-- The groups of a list are the classes of a relation between its elements. -/
structure PartitionsBy (r : α → α → Prop) (l : List α) (groups : List (List α)) : Prop where
  perm : groups.flatten.Perm l
  sublist : ∀ s ∈ groups, s.Sublist l
  within : ∀ s ∈ groups, s.Pairwise r
  across : groups.Pairwise fun s s' => ∀ a ∈ s, ∀ b ∈ s', ¬ r a b

section Keys

variable [DecidableEq κ]

def withKey (key : α → Option κ) (l : List α) (k : κ) : List α := l.filter fun a => key a = some k

variable {key : α → Option κ} {l : List α} {keys : List κ}

theorem mem_withKey {k : κ} {a : α} : a ∈ withKey key l k ↔ a ∈ l ∧ key a = some k := by
  simp [withKey]

theorem withKey_filter_ne {k k' : κ} (h : k' ≠ k) :
    withKey key (l.filter fun a => key a ≠ some k) k' = withKey key l k' := by
  unfold withKey
  rw [List.filter_filter]
  apply List.filter_congr
  intro a _
  by_cases ha : key a = some k'
  · simp [ha, h]
  · simp [ha]

theorem flatten_withKey_perm (hnodup : keys.Nodup) (hkeys : ∀ a ∈ l, ∃ k ∈ keys, key a = some k) :
    (keys.map (withKey key l)).flatten.Perm l := by
  induction keys generalizing l with
  | nil =>
    have hnil : l = [] := List.eq_nil_iff_forall_not_mem.mpr fun a ha => by
      obtain ⟨k, hk, -⟩ := hkeys a ha
      cases hk
    simp [hnil]
  | cons k keys ih =>
    obtain ⟨hk, hnodup⟩ := List.nodup_cons.mp hnodup
    let rest := l.filter fun a => key a ≠ some k
    have hrest : (keys.map (withKey key rest)).flatten.Perm rest := by
      apply ih hnodup
      intro a ha
      obtain ⟨hal, hne⟩ := List.mem_filter.mp ha
      obtain ⟨k', hk', hak'⟩ := hkeys a hal
      rcases List.mem_cons.mp hk' with rfl | hk'
      · simp [hak'] at hne
      · exact ⟨k', hk', hak'⟩
    have hmap : keys.map (withKey key rest) = keys.map (withKey key l) :=
      List.map_congr_left fun k' hk' => withKey_filter_ne fun h => hk (h ▸ hk')
    have hsplit : (withKey key l k ++ rest).Perm l := by
      simpa [withKey, rest] using List.filter_append_perm (fun a => key a = some k) l
    rw [List.map_cons, List.flatten_cons, ← hmap]
    exact (hrest.append_left _).trans hsplit

theorem pairwise_forall_iff {ι : Type*} {r : ι → α → α → Prop} :
    (l.Pairwise fun a b => ∀ i, r i a b) ↔ ∀ i, l.Pairwise (r i) := by
  simp only [List.pairwise_iff_getElem]
  exact ⟨fun h i m n hm hn hmn => h m n hm hn hmn i, fun h m n hm hn hmn i => h i m n hm hn hmn⟩

/-- Grouping under keys partitions by a relation exactly if it agrees with equality of keys. -/
theorem partitionsBy_withKey_iff {r : α → α → Prop} [Std.Symm r] (hnodup : keys.Nodup)
    (hkeys : ∀ a ∈ l, ∃ k ∈ keys, key a = some k) :
    PartitionsBy r l (keys.map (withKey key l)) ↔
      l.Pairwise fun a b => key a = key b ↔ r a b := by
  constructor
  · intro h
    have hacross {k k' : κ} (hk : k ∈ keys) (hk' : k' ∈ keys) (hne : k ≠ k') :
        ∀ a ∈ withKey key l k, ∀ b ∈ withKey key l k', ¬ r a b := by
      have hp := List.pairwise_map.mp h.across
      have hsymm : Std.Symm fun k k' => ∀ a ∈ withKey key l k, ∀ b ∈ withKey key l k', ¬ r a b :=
        ⟨fun _ _ h a ha b hb hab => h b hb a ha (Std.Symm.symm _ _ hab)⟩
      exact hp.forall hk hk' hne
    have hwithin : l.Pairwise fun a b =>
        ∀ k, k ∈ keys → key a = some k → key b = some k → r a b := by
      apply pairwise_forall_iff.mpr
      intro k
      by_cases hk : k ∈ keys
      · apply (List.pairwise_filter.mp (h.within _ (List.mem_map_of_mem hk))).imp
        intro a b hab _ ha hb
        exact hab (by simpa using ha) (by simpa using hb)
      · exact List.pairwise_of_forall fun a b hk' => absurd hk' hk
    apply hwithin.imp_of_mem
    intro a b ha hb hab
    constructor
    · intro heq
      obtain ⟨k, hk, hka⟩ := hkeys a ha
      exact hab k hk hka (heq ▸ hka)
    · intro hr
      obtain ⟨k, hk, hka⟩ := hkeys a ha
      obtain ⟨k', hk', hkb⟩ := hkeys b hb
      by_contra hne
      have hkk : k ≠ k' := by
        rintro rfl
        exact hne (hka.trans hkb.symm)
      exact hacross hk hk' hkk a (mem_withKey.mpr ⟨ha, hka⟩) b (mem_withKey.mpr ⟨hb, hkb⟩) hr
  · intro h
    refine ⟨flatten_withKey_perm hnodup hkeys, List.forall_mem_map.mpr fun k _ =>
      List.filter_sublist, List.forall_mem_map.mpr fun k _ => ?_, List.pairwise_map.mpr ?_⟩
    · apply List.pairwise_filter.mpr
      apply h.imp
      intro a b hab ha hb
      apply hab.mp
      rw [of_decide_eq_true ha, of_decide_eq_true hb]
    · apply hnodup.imp
      intro k k' hne a ha b hb hr
      obtain ⟨hal, hka⟩ := mem_withKey.mp ha
      obtain ⟨hbl, hkb⟩ := mem_withKey.mp hb
      have hkeyne : key a ≠ key b := fun heq => hne (Option.some_inj.mp (hka ▸ hkb ▸ heq))
      have hsymm : Std.Symm fun a b => key a = key b ↔ r a b :=
        ⟨fun a b h => eq_comm.trans (h.trans ⟨Std.Symm.symm _ _, Std.Symm.symm _ _⟩)⟩
      exact hkeyne ((h.forall hal hbl fun heq => hkeyne (congrArg key heq)).mpr hr)

end Keys
