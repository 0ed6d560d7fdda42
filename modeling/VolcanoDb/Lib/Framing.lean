import Mathlib.Data.List.Basic

/-! # Length-prefixed frames

A length code writes a number in a fixed number of symbols and reads it back up
to a modulus. A frame is a list behind the code of its length. A sequence of
frames reads back as it is exactly if every length is below the modulus.
-/

/-- A code of fixed width for the numbers below a modulus. -/
structure LengthCode (β : Type*) where
  width : ℕ
  modulus : ℕ
  header : ℕ → List β
  value : List β → ℕ
  modulus_pos : 0 < modulus
  length_header : ∀ n, (header n).length = width
  value_header : ∀ n, value (header n) = n % modulus

namespace LengthCode

variable {β : Type*} (c : LengthCode β)

def frame (l : List β) : List β := c.header l.length ++ l

/-- Take a frame from the front of a list: as much as its header announces, and the rest. -/
def unframe (bs : List β) : Option (List β × List β) :=
  if c.width ≤ bs.length then
    let n := c.value (bs.take c.width)
    let bs := bs.drop c.width
    if n ≤ bs.length then some (bs.take n, bs.drop n) else none
  else none

def unframes : ℕ → List β → Option (List (List β) × List β)
  | 0, bs => some ([], bs)
  | k + 1, bs => do
    let (l, bs) ← c.unframe bs
    let (ls, bs) ← unframes k bs
    some (l :: ls, bs)

variable {c}

theorem unframe_frame (l rest : List β) :
    c.unframe (c.frame l ++ rest) =
      some (l.take (l.length % c.modulus), l.drop (l.length % c.modulus) ++ rest) := by
  have hwidth := c.length_header l.length
  have hle : l.length % c.modulus ≤ l.length := Nat.mod_le _ _
  have htake : (c.header l.length ++ (l ++ rest)).take c.width = c.header l.length := by
    rw [← hwidth, List.take_left]
  have hdrop : (c.header l.length ++ (l ++ rest)).drop c.width = l ++ rest := by
    rw [← hwidth, List.drop_left]
  rw [unframe, frame, List.append_assoc, htake, hdrop, c.value_header, if_pos (by simp; omega),
    if_pos (by simp; omega), List.take_append_of_le_length hle, List.drop_append_of_le_length hle]

theorem length_lt_of_unframe {l rest rest' : List β}
    (h : c.unframe (c.frame l ++ rest) = some (l, rest')) : l.length < c.modulus := by
  rw [unframe_frame] at h
  have htake := congrArg List.length (Prod.mk.inj (Option.some.inj h)).1
  rw [List.length_take, Nat.min_eq_left (Nat.mod_le _ _)] at htake
  exact htake ▸ Nat.mod_lt _ c.modulus_pos

theorem unframe_frame_of_lt {l : List β} (h : l.length < c.modulus) (rest : List β) :
    c.unframe (c.frame l ++ rest) = some (l, rest) := by
  rw [unframe_frame, Nat.mod_eq_of_lt h, List.take_length, List.drop_length, List.nil_append]

/-- What a reader takes from the front of a list, and the rest. -/
theorem unframe_eq_some_iff {bs l rest : List β} :
    c.unframe bs = some (l, rest) ↔
      ∃ h, h.length = c.width ∧ c.value h = l.length ∧ bs = h ++ l ++ rest := by
  constructor
  · intro h
    unfold unframe at h
    dsimp only at h
    split at h
    · rename_i hwidth
      split at h
      · rename_i hlen
        obtain ⟨rfl, rfl⟩ := Prod.mk.inj (Option.some.inj h)
        refine ⟨bs.take c.width, List.length_take_of_le hwidth, ?_, ?_⟩
        · rw [List.length_take_of_le hlen]
        · rw [List.append_assoc, List.take_append_drop, List.take_append_drop]
      · cases h
    · cases h
  · rintro ⟨h, hwidth, hvalue, rfl⟩
    have htake : (h ++ (l ++ rest)).take c.width = h := by rw [← hwidth, List.take_left]
    have hdrop : (h ++ (l ++ rest)).drop c.width = l ++ rest := by rw [← hwidth, List.drop_left]
    rw [List.append_assoc, unframe, htake, hdrop, hvalue, if_pos (by simp; omega),
      if_pos (by simp), List.take_left, List.drop_left]

theorem eq_frame_of_unframe (hheader : ∀ h, h.length = c.width → c.header (c.value h) = h)
    {bs l rest : List β} (h : c.unframe bs = some (l, rest)) : bs = c.frame l ++ rest := by
  obtain ⟨header, hwidth, hvalue, rfl⟩ := unframe_eq_some_iff.mp h
  rw [frame, ← hvalue, hheader header hwidth]

theorem unframe_strict_prefix {l p : List β} (hlen : l.length < c.modulus) (hp : p <+: c.frame l)
    (hne : p ≠ c.frame l) : c.unframe p = none := by
  obtain ⟨q, hq⟩ := hp
  rcases hread : c.unframe p with _ | ⟨l', rest⟩
  · rfl
  · obtain ⟨header, hwidth, hvalue, rfl⟩ := unframe_eq_some_iff.mp hread
    have hwhole : c.unframe (c.frame l) = some (l', rest ++ q) :=
      unframe_eq_some_iff.mpr ⟨header, hwidth, hvalue, by rw [← hq, List.append_assoc]⟩
    have hframe := unframe_frame_of_lt hlen []
    rw [List.append_nil, hwhole] at hframe
    have hrest := (Prod.mk.inj (Option.some.inj hframe)).2
    rw [(List.append_eq_nil_iff.mp hrest).2, List.append_nil] at hq
    exact absurd hq hne

/-- Frames are read back as they are exactly if all lengths are below the modulus. -/
theorem unframes_frames_iff {ls : List (List β)} {rest : List β} :
    c.unframes ls.length (ls.flatMap c.frame ++ rest) = some (ls, rest) ↔
      ∀ l ∈ ls, l.length < c.modulus := by
  induction ls with
  | nil => simp [unframes]
  | cons l ls ih =>
    rw [List.length_cons, List.flatMap_cons, List.append_assoc, unframes, List.forall_mem_cons]
    simp only [Option.bind_eq_bind, Option.bind_eq_some_iff, Option.some_inj, Prod.exists,
      Prod.mk.injEq, List.cons.injEq]
    constructor
    · rintro ⟨l', bs, hl, ls', bs', hls, ⟨hl', hls'⟩, hrest⟩
      subst hl' hls' hrest
      have hlt := length_lt_of_unframe hl
      rw [unframe_frame_of_lt hlt] at hl
      cases hl
      exact ⟨hlt, ih.mp hls⟩
    · rintro ⟨hlt, hls⟩
      exact ⟨l, _, unframe_frame_of_lt hlt _, ls, rest, ih.mpr hls, ⟨rfl, rfl⟩, rfl⟩

end LengthCode
