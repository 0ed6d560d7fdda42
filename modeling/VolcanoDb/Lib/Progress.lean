import Mathlib.Order.Basic
import VolcanoDb.Lib.PullSource

/-! # Progress

The steps of a loop that either leave its state as it is or raise a measure of it. Such a
loop ends where it began exactly if all of its steps are of the first kind.
-/

universe u

variable {α β : Type u} {ε μ : Type*}

/-- A condition on the elements of a list, up to the first one that stops it. -/
def UpTo (stops p : α → Prop) : List α → Prop
  | [] => True
  | a :: l => p a ∧ (stops a ∨ UpTo stops p l)

namespace PullSource

variable [Preorder μ] {body : β → α → Except ε Unit × β} {idle stops : β → α → Prop}
  {measure : β → μ} {l : List α}

/-- An element whose step is idle and leaves the state, or raises the measure. -/
def Progresses (body : β → α → Except ε Unit × β) (idle : β → α → Prop) (measure : β → μ)
    (a : α) : Prop :=
  ∀ b, (idle b a ∧ (body b a).2 = b) ∨ ¬ idle b a ∧ measure b < measure (body b a).2

theorem Progresses.le_step {a : α} (h : Progresses body idle measure a) (b : β) :
    measure b ≤ measure (body b a).2 := by
  rcases h b with ⟨-, hsame⟩ | ⟨-, hlt⟩
  · rw [hsame]
  · exact hlt.le

theorem le_foldUntil (h : ∀ a ∈ l, Progresses body idle measure a) (b : β) :
    measure b ≤ measure (foldUntil body l b).2 := by
  induction l generalizing b with
  | nil => exact le_rfl
  | cons a l ih =>
    obtain ⟨ha, hl⟩ := List.forall_mem_cons.mp h
    have hstep := ha.le_step b
    unfold foldUntil
    rcases hbody : body b a with ⟨f | _, b'⟩ <;> rw [hbody] at hstep
    · exact hstep
    · exact hstep.trans (ih hl b')

/-- What a step raises is never undone. -/
theorem foldUntil_eq_self_iff (h : ∀ a ∈ l, Progresses body idle measure a)
    (hstops : ∀ a ∈ l, ∀ b, stops b a ↔ (body b a).1 ≠ .ok ()) (b : β) :
    (foldUntil body l b).2 = b ↔ UpTo (stops b) (idle b) l := by
  induction l with
  | nil => exact iff_of_true rfl trivial
  | cons a l ih =>
    obtain ⟨ha, hl⟩ := List.forall_mem_cons.mp h
    obtain ⟨hstop, hstops⟩ := List.forall_mem_cons.mp hstops
    rcases ha b with ⟨hidle, hsame⟩ | ⟨hidle, hlt⟩
    · simp only [UpTo, hidle, true_and, hstop]
      unfold foldUntil
      rcases hbody : body b a with ⟨f | _, b'⟩ <;> rw [hbody] at hsame
      · exact iff_of_true hsame (.inl (by simp))
      · obtain rfl : b' = b := hsame
        simpa using ih hl hstops
    · refine iff_of_false (fun heq => ?_) fun hup => hidle hup.1
      unfold foldUntil at heq
      rcases hbody : body b a with ⟨f | _, b'⟩ <;> rw [hbody] at heq hlt
      · exact hlt.ne (congrArg measure heq).symm
      · have hle := le_foldUntil hl b'
        have heq : (foldUntil body l b').2 = b := heq
        rw [heq] at hle
        exact (hlt.trans_le hle).false

end PullSource
