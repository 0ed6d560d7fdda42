/-! # Three-valued logic

Truth values that may be unknown, with the connectives of Kleene. A two-valued
reading approximates a truth value if it agrees with it where it is known; it
exceeds one that is unknown if it takes it for true.
-/

namespace Kleene

abbrev Truth := Option Bool

def and : Truth → Truth → Truth
  | some false, _ | _, some false => some false
  | some true, some true => some true
  | _, _ => none

def or : Truth → Truth → Truth
  | some true, _ | _, some true => some true
  | some false, some false => some false
  | _, _ => none

/-- A two-valued reading that agrees with a known truth value. -/
def Approximates (u : Truth) (b : Bool) : Prop := ∀ c, u = some c → b = c

/-- A two-valued reading that takes an unknown truth value for true. -/
def Exceeds (u : Truth) (b : Bool) : Prop := u = none ∧ b = true

variable {u v : Truth} {b c : Bool}

theorem approximates_some : Approximates (some c) c := by
  rintro d ⟨⟩
  rfl

theorem approximates_none : Approximates none b := by
  rintro d ⟨⟩

theorem Approximates.and (hu : Approximates u b) (hv : Approximates v c) :
    Approximates (and u v) (b && c) := by
  rcases u with _ | _ | _ <;> rcases v with _ | _ | _ <;>
    simp_all [Approximates, Kleene.and]

theorem Approximates.or (hu : Approximates u b) (hv : Approximates v c) :
    Approximates (or u v) (b || c) := by
  rcases u with _ | _ | _ <;> rcases v with _ | _ | _ <;>
    simp_all [Approximates, Kleene.or]

theorem exceeds_and (hu : Approximates u b) (hv : Approximates v c) :
    Exceeds (and u v) (b && c) ↔ (u = some true ∨ Exceeds u b) ∧ (v = some true ∨ Exceeds v c) ∧
      (Exceeds u b ∨ Exceeds v c) := by
  rcases u with _ | _ | _ <;> rcases v with _ | _ | _ <;>
    simp_all [Approximates, Exceeds, Kleene.and]

theorem exceeds_or (hu : Approximates u b) (hv : Approximates v c) :
    Exceeds (or u v) (b || c) ↔ (Exceeds u b ∨ Exceeds v c) ∧ u ≠ some true ∧ v ≠ some true := by
  rcases u with _ | _ | _ <;> rcases v with _ | _ | _ <;>
    simp_all [Approximates, Exceeds, Kleene.or]

/-- An approximation is right about truth unless it exceeds. -/
theorem Approximates.right_iff (h : Approximates u b) :
    (b = true ↔ u = some true) ↔ ¬ Exceeds u b := by
  rcases u with _ | _ | _ <;> simp_all [Approximates, Exceeds]

end Kleene
