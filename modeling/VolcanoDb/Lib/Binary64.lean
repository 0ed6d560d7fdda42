import Mathlib.Algebra.Group.Int.Defs
import Mathlib.Algebra.Group.Nat.Defs
import Mathlib.Data.Nat.Log

/-! # Binary64 numbers

IEEE 754 double precision with the sign, a 53-bit significand and an exponent
counted from the smallest subnormal. Every finite number is a whole number of
units of `2 ^ (-1074)`, so that sums and comparisons are integer operations
followed by one rounding to nearest, ties to even. All payloads of NaN are
identified.
-/

namespace Binary64

/-- The pairs of significand and exponent that a word stores, one for each magnitude. -/
def Canonical (m k : ℕ) : Prop :=
  m < 2 ^ 53 ∧ k ≤ 2045 ∧ (2 ^ 52 ≤ m ∨ k = 0)

instance (m k : ℕ) : Decidable (Canonical m k) := inferInstanceAs (Decidable (_ ∧ _ ∧ _))

end Binary64

open Binary64 in
/-- A double; the magnitude of a finite one is `m * 2 ^ k` units of `2 ^ (-1074)`. -/
inductive F64 where
  | nan
  | inf (neg : Bool)
  | finite (neg : Bool) (m k : ℕ) (h : Canonical m k)
  deriving DecidableEq

namespace F64

open Binary64

def unitInv : ℕ := 2 ^ 1074

/-- The signed number of units of a finite double, and zero for the others. -/
def units : F64 → ℤ
  | finite neg m k _ => if neg then -(m * 2 ^ k : ℕ) else (m * 2 ^ k : ℕ)
  | _ => 0

def sign : F64 → Bool
  | nan => false
  | inf neg => neg
  | finite neg _ _ _ => neg

def isZero : F64 → Bool
  | finite _ 0 _ _ => true
  | _ => false

/-- A finite double, or the infinity of its sign when the exponent overflows. -/
def pack (neg : Bool) (m k : ℕ) : F64 :=
  if h : Canonical m k then finite neg m k h else inf neg

def zero (neg : Bool) : F64 := pack neg 0 0

/-- The nearest double to `num / den` units, ties to the even significand. -/
def round (neg : Bool) (num den : ℕ) : F64 :=
  let k := (num / den).log2 - 52
  let d := den * 2 ^ k
  let q := num / d
  let r := num % d
  let m := if 2 * r < d ∨ (2 * r = d ∧ q % 2 = 0) then q else q + 1
  if m = 2 ^ 53 then pack neg (2 ^ 52) (k + 1) else pack neg m k

/-- The nearest double to an integer. -/
def ofInt (i : ℤ) : F64 := round (decide (i < 0)) (i.natAbs * unitInv) 1

def neg : F64 → F64
  | nan => nan
  | inf s => inf !s
  | finite s m k h => finite (!s) m k h

def add : F64 → F64 → F64
  | nan, _ | _, nan => nan
  | inf s, inf t => if s = t then inf s else nan
  | inf s, _ => inf s
  | _, inf t => inf t
  | x@(finite s ..), y@(finite t ..) =>
    let sum := x.units + y.units
    if sum = 0 then zero (s && t) else round (decide (sum < 0)) sum.natAbs 1

def sub (x y : F64) : F64 := add x (neg y)

def mul : F64 → F64 → F64
  | nan, _ | _, nan => nan
  | x, y =>
    let s := xor x.sign y.sign
    match x, y with
    | inf _, y => if y.isZero then nan else inf s
    | x, inf _ => if x.isZero then nan else inf s
    | x, y => round s (x.units.natAbs * y.units.natAbs) unitInv

def div : F64 → F64 → F64
  | nan, _ | _, nan => nan
  | x, y =>
    let s := xor x.sign y.sign
    match x, y with
    | inf _, inf _ => nan
    | inf _, _ => inf s
    | _, inf _ => zero s
    | x, y =>
      if y.isZero then (if x.isZero then nan else inf s)
      else round s (x.units.natAbs * unitInv) y.units.natAbs

/-- The order of doubles; NaN is incomparable and the two zeros are equal. -/
def partialCmp : F64 → F64 → Option Ordering
  | nan, _ | _, nan => none
  | inf s, inf t => some (compare t s)
  | inf s, _ => some (if s then .lt else .gt)
  | _, inf t => some (if t then .gt else .lt)
  | x, y => some (compare x.units y.units)

def tier : F64 → ℤ
  | inf neg => if neg then -1 else 1
  | _ => 0

/-- Doubles other than NaN are ordered by their tiers, and then by their units. -/
theorem partialCmp_eq {x y : F64} (hx : x ≠ nan) (hy : y ≠ nan) :
    x.partialCmp y = some (compareLex (compareOn tier) (compareOn units) x y) := by
  cases x with
  | nan => exact absurd rfl hx
  | inf s =>
    cases y with
    | nan => exact absurd rfl hy
    | inf t => cases s <;> cases t <;> rfl
    | finite => cases s <;> rfl
  | finite =>
    cases y with
    | nan => exact absurd rfl hy
    | inf t => cases t <;> rfl
    | finite => rfl

def eq (x y : F64) : Bool := x.partialCmp y = some .eq

/-- The double nearest to `digits * 10 ^ exp`. -/
def ofDecimal (neg : Bool) (digits : ℕ) (exp : ℤ) : F64 :=
  match exp with
  | .ofNat n => round neg (digits * 10 ^ n * unitInv) 1
  | .negSucc n => round neg (digits * unitInv) (10 ^ (n + 1))

def decimalExponent (num den : ℕ) : ℤ :=
  if den ≤ num then (Nat.toDigits 10 (num / den)).length
  else 1 - ((Nat.toDigits 10 (den / num)).length : ℤ)

def stripZeros : ℕ → ℕ × ℤ → ℕ × ℤ
  | 0, d => d
  | fuel + 1, (digits, exp) =>
    if digits % 10 = 0 ∧ digits ≠ 0 then stripZeros fuel (digits / 10, exp + 1) else (digits, exp)

/--
The shortest digits and exponent whose nearest double is the given number, and
among those of that length the closest ones, the greater of two.
-/
def shortest (m k : ℕ) : ℕ × ℤ :=
  let num := m * 2 ^ k
  let s := decimalExponent num unitInv
  let self := pack false m k
  let at? (n : ℕ) : Option (ℕ × ℤ) :=
    let e := s - n
    -- `num / unitInv` in units of `10 ^ e`
    let (a, b) := match e with
      | .ofNat j => (num, unitInv * 10 ^ j)
      | .negSucc j => (num * 10 ^ (j + 1), unitInv)
    let lo := a / b
    let loOk := ofDecimal false lo e = self
    let hiOk := ofDecimal false (lo + 1) e = self
    if loOk ∧ (2 * (a % b) < b ∨ ¬ hiOk) then some (lo, e)
    else if hiOk then some (lo + 1, e) else none
  stripZeros 17 (((List.range 17).findSome? fun n => at? (n + 1)).getD (0, 0))

def positional (digits : ℕ) (exp : ℤ) : String :=
  let ds := Nat.toDigits 10 digits
  match exp with
  | .ofNat n => String.ofList (ds ++ List.replicate n '0')
  | .negSucc n =>
    let frac := n + 1
    if frac < ds.length then
      String.ofList (ds.take (ds.length - frac) ++ '.' :: ds.drop (ds.length - frac))
    else String.ofList ('0' :: '.' :: List.replicate (frac - ds.length) '0' ++ ds)

/-- The shortest decimal text that reads back as the number. -/
def toDecimal : F64 → String
  | nan => "NaN"
  | inf s => if s then "-inf" else "inf"
  | finite s m k _ =>
    let digits := if m = 0 then "0" else positional (shortest m k).1 (shortest m k).2
    if s then "-" ++ digits else digits

theorem eq_iff {x y : F64} :
    x.eq y ↔ x ≠ nan ∧ y ≠ nan ∧ x.tier = y.tier ∧ x.units = y.units := by
  by_cases hx : x = nan
  · subst hx
    simp [eq, partialCmp]
  by_cases hy : y = nan
  · subst hy
    cases x <;> simp [eq, partialCmp]
  rw [eq, partialCmp_eq hx hy]
  simp [hx, hy, compareLex_eq_eq, compareOn]

theorem eq_symm {x y : F64} (h : x.eq y) : y.eq x := by
  obtain ⟨hx, hy, htier, hunits⟩ := eq_iff.mp h
  exact eq_iff.mpr ⟨hy, hx, htier.symm, hunits.symm⟩

theorem canonical_inj {m k m' k' : ℕ} (h : Canonical m k) (h' : Canonical m' k')
    (heq : m * 2 ^ k = m' * 2 ^ k') : m = m' ∧ k = k' := by
  obtain ⟨hm, -, hk⟩ := h
  obtain ⟨hm', -, hk'⟩ := h'
  have hle {m k m' k' : ℕ} (hm : m < 2 ^ 53) (hk' : 2 ^ 52 ≤ m' ∨ k' = 0)
      (heq : m * 2 ^ k = m' * 2 ^ k') : k' ≤ k := by
    by_contra hlt
    have hpow : 2 ^ k' = 2 ^ (k' - k - 1) * 2 * 2 ^ k := by
      rw [← pow_succ, ← pow_add]
      congr 1
      omega
    rw [hpow, ← mul_assoc] at heq
    have heq := Nat.eq_of_mul_eq_mul_right (Nat.two_pow_pos k) heq
    have hpos : 1 ≤ 2 ^ (k' - k - 1) := Nat.one_le_two_pow
    have hbig : m' * 2 ≤ m := heq ▸ Nat.mul_le_mul_left m' (by omega)
    omega
  have hkk : k = k' := Nat.le_antisymm (hle hm' hk heq.symm) (hle hm hk' heq)
  subst hkk
  exact ⟨Nat.eq_of_mul_eq_mul_right (Nat.two_pow_pos k) heq, rfl⟩

theorem natAbs_units (s : Bool) (m k : ℕ) (h : Canonical m k) :
    (finite s m k h).units.natAbs = m * 2 ^ k := by
  cases s <;> simp [units, Int.natAbs_mul, Int.natAbs_pow]

theorem eq_or_zeros {x y : F64} (h : x.eq y) :
    x = y ∨ ∃ s k hc, x = finite s 0 k hc ∧ y = finite (!s) 0 k hc := by
  obtain ⟨hx, hy, htier, hunits⟩ := eq_iff.mp h
  cases x with
  | nan => exact absurd rfl hx
  | inf s =>
    cases y with
    | nan => exact absurd rfl hy
    | inf s' => cases s <;> cases s' <;> simp_all [tier]
    | finite => cases s <;> simp [tier] at htier
  | finite s m k hc =>
    cases y with
    | nan => exact absurd rfl hy
    | inf s' => cases s' <;> simp [tier] at htier
    | finite s' m' k' hc' =>
      obtain ⟨rfl, rfl⟩ : m = m' ∧ k = k' := by
        apply canonical_inj hc hc'
        rw [← natAbs_units s m k hc, ← natAbs_units s' m' k' hc', hunits]
      rcases Nat.eq_zero_or_pos m with rfl | hm
      · by_cases hs : s' = s
        · exact .inl (hs ▸ rfl)
        · have hs : s' = !s := by cases s <;> cases s' <;> simp_all
          exact .inr ⟨s, k, hc, rfl, hs ▸ rfl⟩
      · have hpos : 0 < m * 2 ^ k := Nat.mul_pos hm (Nat.two_pow_pos k)
        have hne : ((m * 2 ^ k : ℕ) : ℤ) ≠ -((m * 2 ^ k : ℕ) : ℤ) := by omega
        rcases s with _ | _ <;> rcases s' with _ | _
        · exact .inl rfl
        · exact absurd hunits hne
        · exact absurd hunits.symm hne
        · exact .inl rfl

end F64
