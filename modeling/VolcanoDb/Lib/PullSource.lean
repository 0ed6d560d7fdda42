import Mathlib.Logic.Function.Iterate
import Mathlib.Data.List.Basic

/-! # Pull sources

A pull source hands out its items one at a time. Every item uses up some of the
work that remains, so that a loop over all items ends. `Produces` lists the
items of a source up to its failure, or to a regular end at which it stays;
`Yields` is the case of a regular end.
-/

/-- A stateful source of items with a bound on the items that remain. -/
structure PullSource (σ α ε : Type*) where
  next : σ → Except ε (Option α) × σ
  work : σ → ℕ
  work_lt : ∀ s a, (next s).1 = .ok (some a) → work (next s).2 < work s

namespace PullSource

universe u

variable {σ α β : Type u} {ε : Type*} (src : PullSource σ α ε)

/--
The loop `while let Some(a) = next()? { body }` with a bound on its iterations.
A failure of the source or of the body ends the loop and keeps what was done.
-/
def foldWithin (body : β → α → Except ε Unit × β) :
    ℕ → σ → β → Option (Except ε Unit × β × σ)
  | 0, _, _ => none
  | n + 1, s, b =>
    match src.next s with
    | (.error f, s) => some (.error f, b, s)
    | (.ok none, s) => some (.ok (), b, s)
    | (.ok (some a), s) =>
      match body b a with
      | (.error f, b) => some (.error f, b, s)
      | (.ok (), b) => foldWithin body n s b

variable {src}

theorem foldWithin_isSome {body : β → α → Except ε Unit × β} {n : ℕ} {s : σ} {b : β}
    (h : src.work s < n) : (src.foldWithin body n s b).isSome := by
  induction n generalizing s b with
  | zero => omega
  | succ n ih =>
    simp only [foldWithin]
    split
    · rfl
    · rfl
    · rename_i a s' hs
      have hlt := src.work_lt s a (by rw [hs])
      rw [hs] at hlt
      split
      · rfl
      · exact ih (by dsimp only at hlt; omega)

theorem foldWithin_mono {body : β → α → Except ε Unit × β} {n m : ℕ} (hnm : n ≤ m) {s : σ} {b : β}
    {r : Except ε Unit × β × σ} (h : src.foldWithin body n s b = some r) :
    src.foldWithin body m s b = some r := by
  induction n generalizing m s b with
  | zero => simp [foldWithin] at h
  | succ n ih =>
    obtain ⟨m, rfl⟩ := Nat.exists_eq_add_of_le' (Nat.lt_of_lt_of_le (Nat.succ_pos n) hnm)
    simp only [foldWithin] at h ⊢
    split at h
    · exact h
    · exact h
    · split at h
      · exact h
      · exact ih (Nat.le_of_succ_le_succ hnm) h

variable (src)

def fold (body : β → α → Except ε Unit × β) (s : σ) (b : β) :
    Except ε Unit × β × σ :=
  (src.foldWithin body (src.work s + 1) s b).get (foldWithin_isSome (Nat.lt_succ_self _))

def drain (s : σ) : Except ε Unit × List α × σ := src.fold (fun l a => (.ok (), l ++ [a])) s []

def nth (s : σ) (n : ℕ) : Except ε (Option α) := (src.next ((fun s => (src.next s).2)^[n] s)).1

/-- A source that has no item now and will never have one again. -/
def Ended (s : σ) : Prop := ∀ n, src.nth s n = .ok none

/-- A source that hands out the items of a list in order and then ends for good. -/
inductive Yields : List α → σ → Prop where
  | ended {s : σ} : src.Ended s → Yields [] s
  | item {s s' : σ} {a : α} {l : List α} :
      src.next s = (.ok (some a), s') → Yields l s' → Yields (a :: l) s

/-- A source that hands out the items of a list, and then fails or ends for good. -/
inductive Produces : List α → Option ε → σ → Prop where
  | ended {s : σ} : src.Ended s → Produces [] none s
  | failed {s : σ} {f : ε} : (src.next s).1 = .error f → Produces [] (some f) s
  | item {s s' : σ} {a : α} {l : List α} {stop : Option ε} :
      src.next s = (.ok (some a), s') → Produces l stop s' → Produces (a :: l) stop s

/-- How a loop over a source ends when its body never fails. -/
def ending : Option ε → Except ε Unit
  | none => .ok ()
  | some f => .error f

/-- Run a body on the elements of a list, up to its first failure. -/
def foldUntil (body : β → α → Except ε Unit × β) : List α → β → Except ε Unit × β
  | [], b => (.ok (), b)
  | a :: l, b =>
    match body b a with
    | (.error f, b) => (.error f, b)
    | (.ok (), b) => foldUntil body l b

variable {src}

theorem foldWithin_eq {body : β → α → Except ε Unit × β} {n : ℕ} {s : σ} {b : β}
    (h : src.work s < n) :
    src.foldWithin body n s b = some (src.fold body s b) :=
  foldWithin_mono h (Option.some_get _).symm

theorem fold_eq (body : β → α → Except ε Unit × β) (s : σ) (b : β) :
    src.fold body s b =
      match src.next s with
      | (.error f, s) => (.error f, b, s)
      | (.ok none, s) => (.ok (), b, s)
      | (.ok (some a), s) =>
        match body b a with
        | (.error f, b) => (.error f, b, s)
        | (.ok (), b) => src.fold body s b := by
  have h : some (src.fold body s b) = src.foldWithin body (src.work s + 1) s b :=
    (foldWithin_eq (Nat.lt_succ_self _)).symm
  rw [← Option.some_inj, h, foldWithin]
  rcases hs : src.next s with ⟨f | _ | a, s'⟩
  · rfl
  · rfl
  · have hlt := src.work_lt s a (by rw [hs])
    rw [hs] at hlt
    dsimp only at hlt ⊢
    rcases hb : body b a with ⟨f | _, b'⟩
    · rfl
    · exact foldWithin_eq hlt

theorem Ended.next {s : σ} (h : src.Ended s) : (src.next s).1 = .ok none := h 0

theorem Ended.tail {s : σ} (h : src.Ended s) : src.Ended (src.next s).2 := fun n => h (n + 1)

theorem Ended.of_invariant {p : σ → Prop}
    (h : ∀ s, p s → (src.next s).1 = .ok none ∧ p (src.next s).2) {s : σ} (hs : p s) :
    src.Ended s := by
  intro n
  induction n generalizing s with
  | zero => exact (h s hs).1
  | succ n ih => exact ih (h s hs).2

theorem yields_iff {s : σ} {l : List α} : src.Yields l s ↔ src.Produces l none s := by
  constructor
  · intro h
    induction h with
    | ended he => exact .ended he
    | item hn _ ih => exact .item hn ih
  · generalize hstop : (none : Option ε) = stop
    intro h
    induction h with
    | ended he => exact .ended he
    | failed => cases hstop
    | item hn _ ih => exact .item hn (ih hstop)

theorem Produces.congr {s s' : σ} {l : List α} {stop : Option ε} (h : src.next s = src.next s')
    (hl : src.Produces l stop s') : src.Produces l stop s := by
  cases hl with
  | ended he =>
    apply Produces.ended
    intro n
    cases n with
    | zero => exact (congrArg Prod.fst h).trans (he 0)
    | succ n => rw [nth, Function.iterate_succ_apply, h]; exact he (n + 1)
  | failed hf => exact .failed ((congrArg Prod.fst h).trans hf)
  | item hn hl => exact .item (h.trans hn) hl

theorem Yields.nth {s : σ} {l : List α} (h : src.Yields l s) (n : ℕ) :
    src.nth s n = .ok l[n]? := by
  induction h generalizing n with
  | ended he => simpa using he n
  | @item s s' a l hn _ ih =>
    cases n with
    | zero => exact congrArg Prod.fst hn
    | succ n => rw [PullSource.nth, Function.iterate_succ_apply, hn]; exact ih n

/-- A loop runs its body on the items in order, up to the failure of the body or the source. -/
theorem Produces.fold (body : β → α → Except ε Unit × β) {s : σ} {l : List α} {stop : Option ε}
    (h : src.Produces l stop s) (b : β) :
    ∃ s', src.fold body s b = match foldUntil body l b with
      | (.error f, b) => (.error f, b, s')
      | (.ok (), b) => (ending stop, b, s') := by
  induction h generalizing b with
  | @ended s he =>
    refine ⟨(src.next s).2, ?_⟩
    have hs : src.next s = (.ok none, (src.next s).2) := Prod.ext he.next rfl
    rw [fold_eq, hs]
    rfl
  | @failed s f hf =>
    refine ⟨(src.next s).2, ?_⟩
    have hs : src.next s = (.error f, (src.next s).2) := Prod.ext hf rfl
    rw [fold_eq, hs]
    rfl
  | @item s s₁ a l stop hn _ ih =>
    rcases hb : body b a with ⟨f | _, b'⟩
    · exact ⟨s₁, by rw [fold_eq, hn]; simp only [foldUntil, hb]⟩
    · obtain ⟨s', hs'⟩ := ih b'
      exact ⟨s', by rw [fold_eq, hn]; simp only [foldUntil, hb, hs']⟩

/--
What `next` keeps of the source, and the body of its own state, holds after the
loop, whether or not it fails; every failure comes from one of the two.
-/
theorem fold_invariant {body : β → α → Except ε Unit × β} {p : σ → Prop} {q : α → Prop}
    {r : β → Prop} {e : ε → Prop}
    (hnext : ∀ s, p s → p (src.next s).2 ∧ (∀ f, (src.next s).1 = .error f → e f) ∧
      ∀ a, (src.next s).1 = .ok (some a) → q a)
    (hbody : ∀ b a, r b → q a → r (body b a).2 ∧ ∀ f, (body b a).1 = .error f → e f)
    {s : σ} {b : β} (hs : p s) (hb : r b) :
    (∀ f, (src.fold body s b).1 = .error f → e f) ∧ r (src.fold body s b).2.1 ∧
      p (src.fold body s b).2.2 := by
  induction hw : src.work s using Nat.strongRecOn generalizing s b with
  | _ n ih =>
    subst hw
    obtain ⟨hp, herr, hitem⟩ := hnext s hs
    rw [fold_eq]
    rcases hn : src.next s with ⟨f | _ | a, s'⟩ <;> rw [hn] at hp herr hitem <;> dsimp only
    · exact ⟨fun g hg => herr g (congrArg _ (Except.error.inj hg)), hb, hp⟩
    · refine ⟨?_, hb, hp⟩
      rintro _ ⟨⟩
    · have hlt := src.work_lt s a (by rw [hn])
      obtain ⟨hr, hfail⟩ := hbody b a hb (hitem a rfl)
      rcases hba : body b a with ⟨f | _, b'⟩ <;> rw [hba] at hr hfail <;> dsimp only
      · exact ⟨fun g hg => hfail g (congrArg _ (Except.error.inj hg)), hr, hp⟩
      · exact ih _ (by rwa [hn] at hlt) hp hr rfl

theorem foldUntil_concat (body : β → α → Except ε Unit × β) (l : List α) (a : α) (b : β) :
    foldUntil body (l ++ [a]) b = match foldUntil body l b with
      | (.error f, b) => (.error f, b)
      | (.ok (), b) => body b a := by
  induction l generalizing b with
  | nil =>
    simp only [List.nil_append, foldUntil]
    rcases body b a with ⟨f | _, b'⟩ <;> rfl
  | cons a' l ih =>
    simp only [List.cons_append, foldUntil]
    rcases body b a' with ⟨f | _, b'⟩
    · rfl
    · exact ih b'

theorem foldUntil_snoc (g : α → β) (l : List α) (acc : List β) :
    foldUntil (ε := ε) (fun l a => (.ok (), l ++ [g a])) l acc = (.ok (), acc ++ l.map g) := by
  induction l generalizing acc with
  | nil => simp [foldUntil]
  | cons a l ih => simp [foldUntil, ih]

theorem Produces.drain {s : σ} {l : List α} {stop : Option ε} (h : src.Produces l stop s) :
    ∃ s', src.drain s = (ending stop, l, s') := by
  obtain ⟨s', hs'⟩ := h.fold (fun l a => (.ok (), l ++ [id a])) []
  rw [foldUntil_snoc, List.nil_append, List.map_id] at hs'
  exact ⟨s', hs'⟩

end PullSource
