import Mathlib.Data.List.Induction

/-! # Transactional histories

A history is a sequence of begins, writes, commits and aborts of transactions
with identifiers. In a legal history every identifier is begun at most once and
used only until it is finished. A durable part of a history drops events of
transactions that are still open.
-/

/-- An event of a transactional store; a write without an owner is not part of a transaction. -/
inductive TxEvent (ι α : Type*) where
  | begin (i : ι)
  | write (owner : Option ι) (a : α)
  | commit (i : ι)
  | abort (i : ι)
  deriving DecidableEq

namespace TxEvent

variable {ι α : Type*}

def owner : TxEvent ι α → Option ι
  | begin i => some i
  | write o _ => o
  | commit i => some i
  | abort i => some i

def inTx (e : TxEvent ι α) : Bool := e.owner.isSome

end TxEvent

namespace History

open TxEvent

variable {ι α : Type*}

/-- A transaction that has begun and neither committed nor aborted. -/
structure Open (h : List (TxEvent ι α)) (i : ι) : Prop where
  begun : .begin i ∈ h
  not_commit : .commit i ∉ h
  not_abort : .abort i ∉ h

/-- An event that may follow a history. -/
def Allowed (h : List (TxEvent ι α)) : TxEvent ι α → Prop
  | .begin i => ∀ e ∈ h, e.owner ≠ some i
  | .write none _ => True
  | .write (some i) _ => Open h i
  | .commit i => Open h i
  | .abort i => Open h i

inductive Legal : List (TxEvent ι α) → Prop where
  | nil : Legal []
  | snoc {h : List (TxEvent ι α)} {e : TxEvent ι α} : Legal h → Allowed h e → Legal (h ++ [e])

variable {h f g b : List (TxEvent ι α)} {e : TxEvent ι α} {i : ι}

theorem Legal.of_snoc (hl : Legal (h ++ [e])) : Legal h ∧ Allowed h e := by
  generalize hk : h ++ [e] = k at hl
  cases hl with
  | nil => simp at hk
  | snoc hl ha =>
    obtain ⟨rfl, rfl⟩ := List.append_singleton_inj.mp hk
    exact ⟨hl, ha⟩

theorem Legal.of_append (hl : Legal (h ++ g)) : Legal h := by
  induction g using List.reverseRecOn with
  | nil => simpa using hl
  | append_singleton g e ih => exact ih (Legal.of_snoc (by simpa using hl)).1

theorem Legal.allowed (hl : Legal (h ++ e :: g)) : Allowed h e := by
  have hsnoc : Legal (h ++ [e]) := by
    rw [List.append_cons] at hl
    exact hl.of_append
  exact hsnoc.of_snoc.2

theorem Allowed.open_of_owner (ha : Allowed h e) (ho : e.owner = some i) :
    e = .begin i ∨ Open h i := by
  cases e with
  | begin j => exact .inl (by rw [Option.some.inj ho])
  | write o a =>
    obtain rfl : o = some i := ho
    exact .inr ha
  | commit j => exact .inr (Option.some.inj ho ▸ ha)
  | abort j => exact .inr (Option.some.inj ho ▸ ha)

theorem Legal.begun (hl : Legal h) (he : e ∈ h) (ho : e.owner = some i) : .begin i ∈ h := by
  induction hl with
  | nil => cases he
  | snoc _ ha ih =>
    rw [List.mem_append, List.mem_singleton] at he ⊢
    rcases he with he | rfl
    · exact .inl (ih he)
    · rcases ha.open_of_owner ho with rfl | hopen
      · exact .inr rfl
      · exact .inl hopen.begun

theorem Legal.ended (hl : Legal h) (i : ι) :
    h.Pairwise fun e e' => e = .commit i ∨ e = .abort i → e'.owner ≠ some i := by
  induction hl with
  | nil => exact .nil
  | snoc _ ha ih =>
    refine List.pairwise_append.mpr ⟨ih, List.pairwise_singleton _ _, ?_⟩
    intro e he e' he' hend ho
    obtain rfl := List.mem_singleton.mp he'
    rcases ha.open_of_owner ho with rfl | hopen
    · exact ha e he (by rcases hend with rfl | rfl <;> rfl)
    · rcases hend with rfl | rfl
      · exact hopen.not_commit he
      · exact hopen.not_abort he

theorem Legal.after_commit (hl : Legal (h ++ .commit i :: g)) : ∀ e ∈ g, e.owner ≠ some i := by
  intro e he
  exact (List.pairwise_cons.mp (List.pairwise_append.mp (hl.ended i)).2.1).1 e he (.inl rfl)

theorem Legal.mem_of_commit (hl : Legal (h ++ .commit i :: g)) (he : e ∈ h ++ .commit i :: g)
    (ho : e.owner = some i) (hne : e ≠ .commit i) : e ∈ h := by
  rcases List.mem_append.mp he with he | he
  · exact he
  · rcases List.mem_cons.mp he with rfl | he
    · exact absurd rfl hne
    · exact absurd ho (hl.after_commit e he)

theorem Legal.not_abort (hl : Legal h) (hc : .commit i ∈ h) : .abort i ∉ h := by
  induction hl with
  | nil => cases hc
  | @snoc h e _ ha ih =>
    rw [List.mem_append, List.mem_singleton] at hc ⊢
    rintro (hab | rfl)
    · rcases hc with hc | rfl
      · exact ih hc hab
      · exact (show Open h i from ha).not_abort hab
    · rcases hc with hc | hc
      · exact (show Open h i from ha).not_commit hc
      · cases hc

theorem mem_filter_inTx (ho : e.owner = some i) : e ∈ h.filter inTx ↔ e ∈ h := by
  simp [inTx, ho]

theorem open_filter_inTx : Open (h.filter inTx) i ↔ Open h i := by
  have hb := mem_filter_inTx (h := h) (e := .begin i) rfl
  have hc := mem_filter_inTx (h := h) (e := .commit i) rfl
  have ha := mem_filter_inTx (h := h) (e := .abort i) rfl
  exact ⟨fun ho => ⟨hb.mp ho.begun, mt hc.mpr ho.not_commit, mt ha.mpr ho.not_abort⟩,
    fun ho => ⟨hb.mpr ho.begun, mt hc.mp ho.not_commit, mt ha.mp ho.not_abort⟩⟩

/-- The events of transactions form a legal history of their own. -/
theorem Legal.filter_inTx (hl : Legal h) : Legal (h.filter inTx) := by
  induction hl with
  | nil => exact .nil
  | @snoc h e _ ha ih =>
    rw [List.filter_append, List.filter_cons, List.filter_nil]
    split
    · apply Legal.snoc ih
      cases e with
      | begin j => exact fun e he => ha e (List.mem_filter.mp he).1
      | write o a => cases o with
        | none => trivial
        | some j => exact open_filter_inTx.mpr ha
      | commit j => exact open_filter_inTx.mpr ha
      | abort j => exact open_filter_inTx.mpr ha
    · rwa [List.append_nil]

section Grammar

variable [DecidableEq ι]

/-- The events of one transaction: a begin, writes and at most one end. -/
inductive Grammar (i : ι) : List (TxEvent ι α) → Prop where
  | absent : Grammar i []
  | opened (as : List α) : Grammar i (.begin i :: as.map (.write (some i)))
  | committed (as : List α) : Grammar i (.begin i :: as.map (.write (some i)) ++ [.commit i])
  | aborted (as : List α) : Grammar i (.begin i :: as.map (.write (some i)) ++ [.abort i])

def eventsOf (h : List (TxEvent ι α)) (i : ι) : List (TxEvent ι α) :=
  h.filter fun e => e.owner = some i

theorem mem_eventsOf : e ∈ eventsOf h i ↔ e ∈ h ∧ e.owner = some i := by
  simp [eventsOf]

theorem eventsOf_snoc : eventsOf (h ++ [e]) i =
    if e.owner = some i then eventsOf h i ++ [e] else eventsOf h i := by
  simp only [eventsOf, List.filter_append, List.filter_cons, List.filter_nil, decide_eq_true_eq]
  split <;> simp

theorem Grammar.of_open (hg : Grammar i (eventsOf h i)) (ho : Open h i) :
    ∃ as : List α, eventsOf h i = .begin i :: as.map (.write (some i)) := by
  have hb : .begin i ∈ eventsOf h i := mem_eventsOf.mpr ⟨ho.begun, rfl⟩
  generalize hk : eventsOf h i = k at hg hb
  cases hg with
  | absent => cases hb
  | opened as => exact ⟨as, rfl⟩
  | committed as =>
    exact absurd (mem_eventsOf.mp (hk ▸ by simp : .commit i ∈ eventsOf h i)).1 ho.not_commit
  | aborted as =>
    exact absurd (mem_eventsOf.mp (hk ▸ by simp : .abort i ∈ eventsOf h i)).1 ho.not_abort

theorem Legal.grammar (hl : Legal h) (i : ι) : Grammar i (eventsOf h i) := by
  induction hl with
  | nil => exact .absent
  | @snoc h e _ ha ih =>
    rw [eventsOf_snoc]
    split
    · rename_i ho
      rcases ha.open_of_owner ho with rfl | hopen
      · have hnil : eventsOf h i = [] :=
          List.filter_eq_nil_iff.mpr fun e he => by simpa using ha e he
        rw [hnil]
        exact .opened []
      · obtain ⟨as, has⟩ := ih.of_open hopen
        rw [has]
        cases e with
        | begin j =>
          obtain rfl := Option.some.inj ho
          exact absurd rfl (ha _ hopen.begun)
        | write o a =>
          obtain rfl : o = some i := ho
          simpa using Grammar.opened (i := i) (as ++ [a])
        | commit j =>
          obtain rfl := Option.some.inj ho
          exact .committed as
        | abort j =>
          obtain rfl := Option.some.inj ho
          exact .aborted as
    · exact ih

end Grammar

end History
