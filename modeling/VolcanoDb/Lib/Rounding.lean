import Mathlib.Tactic.Positivity
import Mathlib.Tactic.Ring
import VolcanoDb.Lib.Binary64

/-! # Rounding to the nearest double

The significand is the nearest one for the exponent of the number. Doubles of larger
exponents are multiples of the same unit, and doubles of smaller ones lie below the number
by more, so that no double is nearer. Nearest numbers keep the order.
-/

namespace F64

open Binary64

/-- The nearest integer to a fraction, the even one of two. -/
def roundDiv (num d : ℕ) : ℕ :=
  if 2 * (num % d) < d ∨ (2 * (num % d) = d ∧ num / d % 2 = 0) then num / d else num / d + 1

theorem roundDiv_nearest {d : ℕ} (hd : 0 < d) (num n : ℕ) :
    ((roundDiv num d * d : ℕ) - num : ℤ).natAbs ≤ ((n * d : ℕ) - num : ℤ).natAbs := by
  have hsplit := Nat.div_add_mod' num d
  have hlt := Nat.mod_lt num hd
  have hbelow (h : n ≤ num / d) : n * d ≤ num / d * d := Nat.mul_le_mul_right d h
  have habove (h : num / d + 1 ≤ n) : (num / d + 1) * d ≤ n * d := Nat.mul_le_mul_right d h
  have hsucc : (num / d + 1) * d = num / d * d + d := Nat.succ_mul _ _
  unfold roundDiv
  rcases Nat.lt_or_ge (num / d) n with h | h
  · have habove := habove h
    split
    · omega
    · rw [hsucc]
      omega
  · have hbelow := hbelow h
    split
    · omega
    · rw [hsucc]
      omega

/-- The exponent at which a number has a significand of 53 bits, or the smallest one. -/
def exponent (num den : ℕ) : ℕ := (num / den).log2 - 52

theorem round_eq (neg : Bool) (num den : ℕ) :
    round neg num den =
      let k := exponent num den
      let m := roundDiv num (den * 2 ^ k)
      if m = 2 ^ 53 then pack neg (2 ^ 52) (k + 1) else pack neg m k := rfl

section Round

variable (neg : Bool) (num den : ℕ)

theorem quotient_lt : num / (den * 2 ^ exponent num den) < 2 ^ 53 := by
  rw [← Nat.div_div_eq_div_mul, Nat.div_lt_iff_lt_mul (Nat.two_pow_pos _), ← pow_add]
  have hlog : (num / den).log2 + 1 ≤ 53 + exponent num den := by
    unfold exponent
    omega
  exact Nat.lt_of_lt_of_le Nat.lt_log2_self (Nat.pow_le_pow_right (by decide) hlog)

theorem le_quotient (h : exponent num den ≠ 0) :
    2 ^ 52 ≤ num / (den * 2 ^ exponent num den) := by
  rw [← Nat.div_div_eq_div_mul, Nat.le_div_iff_mul_le (Nat.two_pow_pos _), ← pow_add]
  have hlog : 52 + exponent num den = (num / den).log2 := by
    unfold exponent at h ⊢
    omega
  have hne : num / den ≠ 0 := by
    intro hzero
    simp [exponent, hzero] at h
  rw [hlog]
  exact Nat.log2_self_le hne

theorem round_finite (hk : exponent num den < 2045) :
    ∃ m k hc, round neg num den = finite neg m k hc ∧
      m * 2 ^ k = roundDiv num (den * 2 ^ exponent num den) * 2 ^ exponent num den := by
  have hlt := quotient_lt num den
  have hle := le_quotient num den
  have hround : roundDiv num (den * 2 ^ exponent num den) =
        num / (den * 2 ^ exponent num den) ∨
      roundDiv num (den * 2 ^ exponent num den) =
        num / (den * 2 ^ exponent num den) + 1 := by
    unfold roundDiv
    split <;> simp
  rw [round_eq]
  dsimp only
  generalize roundDiv num (den * 2 ^ exponent num den) = m at hround ⊢
  generalize num / (den * 2 ^ exponent num den) = q at hlt hle hround
  generalize exponent num den = k at hk hle ⊢
  by_cases hm : m = 2 ^ 53
  · have hc : Canonical (2 ^ 52) (k + 1) := ⟨by decide, by omega, .inl le_rfl⟩
    refine ⟨2 ^ 52, k + 1, hc, ?_, ?_⟩
    · rw [if_pos hm, pack, dif_pos hc]
    · rw [hm]
      ring
  · have hc : Canonical m k := by
      refine ⟨by omega, by omega, ?_⟩
      by_cases hk0 : k = 0
      · exact .inr hk0
      · have := hle hk0
        exact .inl (by omega)
    refine ⟨m, k, hc, ?_, rfl⟩
    rw [if_neg hm, pack, dif_pos hc]

/-- No double is nearer to a fraction than the one it is rounded to. -/
theorem round_nearest (hden : 0 < den) (hk : exponent num den < 2045) :
    ∃ m k hc, round neg num den = finite neg m k hc ∧ ∀ m' k', Canonical m' k' →
      ((m * 2 ^ k * den : ℕ) - num : ℤ).natAbs ≤ ((m' * 2 ^ k' * den : ℕ) - num : ℤ).natAbs := by
  obtain ⟨m, k, hc, hround, hunits⟩ := round_finite neg num den hk
  refine ⟨m, k, hc, hround, fun m' k' hc' => ?_⟩
  have hd : 0 < den * 2 ^ exponent num den := Nat.mul_pos hden (Nat.two_pow_pos _)
  have hgrid : m * 2 ^ k * den =
      roundDiv num (den * 2 ^ exponent num den) * (den * 2 ^ exponent num den) := by
    rw [hunits]
    ring
  rw [hgrid]
  rcases Nat.lt_or_ge k' (exponent num den) with hlt | hge
  · -- a double of a smaller exponent lies below a multiple that is below the number
    have hle := (Nat.le_div_iff_mul_le hd).mp (le_quotient num den (by omega))
    have hnear := roundDiv_nearest hd num (2 ^ 52)
    have hsmall : m' * 2 ^ k' * den ≤ 2 ^ 52 * (den * 2 ^ exponent num den) := by
      have hpow : 2 ^ k' * 2 ≤ 2 ^ exponent num den := by
        rw [← pow_succ]
        exact Nat.pow_le_pow_right (by decide) hlt
      calc m' * 2 ^ k' * den ≤ 2 ^ 53 * 2 ^ k' * den := by
            exact Nat.mul_le_mul_right _ (Nat.mul_le_mul_right _ hc'.1.le)
        _ = 2 ^ 52 * (2 ^ k' * 2) * den := by ring
        _ ≤ 2 ^ 52 * 2 ^ exponent num den * den := by
            exact Nat.mul_le_mul_right _ (Nat.mul_le_mul_left _ hpow)
        _ = 2 ^ 52 * (den * 2 ^ exponent num den) := by ring
    omega
  · have hmultiple : m' * 2 ^ k' * den =
        m' * 2 ^ (k' - exponent num den) * (den * 2 ^ exponent num den) := by
      have hpow : 2 ^ k' = 2 ^ (k' - exponent num den) * 2 ^ exponent num den := by
        rw [← pow_add, Nat.sub_add_cancel hge]
      rw [hpow]
      ring
    rw [hmultiple]
    exact roundDiv_nearest hd num _

end Round

section Integers

theorem unitInv_pos : 0 < unitInv := by
  unfold unitInv
  positivity

theorem log2_mul_two_pow_le {n a b : ℕ} (hn : n ≤ 2 ^ a) : (n * 2 ^ b).log2 ≤ a + b := by
  rcases Nat.eq_zero_or_pos (n * 2 ^ b) with hzero | hpos
  · rw [hzero]
    exact Nat.zero_le _
  · have hle : n * 2 ^ b ≤ 2 ^ (a + b) := by
      rw [pow_add]
      exact Nat.mul_le_mul_right _ hn
    have hlt := hle.trans_lt (Nat.pow_lt_pow_succ (n := a + b) Nat.one_lt_two)
    exact Nat.lt_succ_iff.mp ((Nat.log2_lt hpos.ne').mpr hlt)

theorem exponent_ofInt {n : ℕ} (hn : n ≤ 2 ^ 63) : exponent (n * unitInv) 1 < 2045 := by
  have hlog : (n * unitInv).log2 ≤ 63 + 1074 := log2_mul_two_pow_le hn
  rw [exponent, Nat.div_one]
  omega

theorem ofInt_nearest {i : ℤ} (hi : i.natAbs ≤ 2 ^ 63) :
    ∃ s m k hc, ofInt i = finite s m k hc ∧ ∀ s' m' k' hc',
      ((finite s m k hc).units - i * unitInv).natAbs ≤
        ((finite s' m' k' hc').units - i * unitInv).natAbs := by
  obtain ⟨m, k, hc, hround, hnear⟩ :=
    round_nearest (decide (i < 0)) (i.natAbs * unitInv) 1 Nat.one_pos (exponent_ofInt hi)
  refine ⟨_, m, k, hc, hround, fun s' m' k' hc' => ?_⟩
  have hzero := hnear 0 0 ⟨by decide, by decide, .inr rfl⟩
  have hnear := hnear m' k' hc'
  simp only [mul_one, Nat.zero_mul] at hzero hnear
  simp only [units]
  rcases lt_or_ge i 0 with hneg | hpos
  · have habs : i * unitInv = -((i.natAbs * unitInv : ℕ) : ℤ) := by
      rw [Nat.cast_mul, Int.ofNat_natAbs_of_nonpos hneg.le, neg_mul, neg_neg]
    rw [habs]
    simp only [hneg, decide_true, if_true]
    split <;> omega
  · have habs : i * unitInv = ((i.natAbs * unitInv : ℕ) : ℤ) := by
      rw [Nat.cast_mul, Int.natAbs_of_nonneg hpos]
    rw [habs]
    simp only [not_lt.mpr hpos, decide_false, if_false, Bool.false_eq_true]
    split <;> omega

theorem nearest_mono {a b p q : ℤ} (hp : (p - a).natAbs ≤ (q - a).natAbs)
    (hq : (q - b).natAbs ≤ (p - b).natAbs) (h : a < b) : p ≤ q := by
  omega

theorem units_ofInt_mono {i j : ℤ} (hi : i.natAbs ≤ 2 ^ 63) (hj : j.natAbs ≤ 2 ^ 63)
    (h : i ≤ j) : (ofInt i).units ≤ (ofInt j).units := by
  rcases h.eq_or_lt with rfl | hlt
  · rfl
  · obtain ⟨s, m, k, hc, hofInt, hnear⟩ := ofInt_nearest hi
    obtain ⟨s', m', k', hc', hofInt', hnear'⟩ := ofInt_nearest hj
    rw [hofInt, hofInt']
    apply nearest_mono (hnear s' m' k' hc') (hnear' s m k hc)
    exact Int.mul_lt_mul_of_pos_right hlt (Int.natCast_pos.mpr unitInv_pos)

end Integers

end F64
