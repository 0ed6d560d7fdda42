import Mathlib.Data.List.Perm.Basic
import VolcanoDb.Lib.History

/-! # Snapshots of a history

What a reader of a transactional store is shown under Read Committed: the writes
of no one, its own, and those of the transactions that have committed. Snapshots
only grow, hold a transaction wholly or not at all, and those of readers without
a transaction are what the transactions leave behind one after the other.
-/

namespace History

open TxEvent

variable {ι α : Type*} {h g : List (TxEvent ι α)} {e : TxEvent ι α} {i : ι}
  {reader owner : Option ι}

def writes (h : List (TxEvent ι α)) : List (Option ι × α) :=
  h.filterMap fun
    | .write o a => some (o, a)
    | _ => none

@[simp] theorem writes_nil : writes ([] : List (TxEvent ι α)) = [] := rfl

@[simp] theorem writes_append : writes (h ++ g) = writes h ++ writes g := List.filterMap_append

theorem mem_writes {a : α} : (owner, a) ∈ writes h ↔ .write owner a ∈ h := by
  simp only [writes, List.mem_filterMap]
  constructor
  · rintro ⟨e, he, hw⟩
    cases e with
    | write o b => cases hw; exact he
    | begin | commit | abort => cases hw
  · intro he
    exact ⟨_, he, rfl⟩

/-- Whether a reader, in a transaction or in none, is shown what an owner has written. -/
def Shown (h : List (TxEvent ι α)) (reader : Option ι) : Option ι → Prop
  | none => True
  | some i => some i = reader ∨ .commit i ∈ h

theorem Shown.append (hs : Shown h reader owner) (g : List (TxEvent ι α)) :
    Shown (h ++ g) reader owner := by
  cases owner with
  | none => trivial
  | some i => exact hs.imp_right (List.mem_append_left g)

theorem shown_append_iff (hg : ∀ i, .commit i ∉ g) :
    Shown (h ++ g) reader owner ↔ Shown h reader owner := by
  cases owner with
  | none => rfl
  | some i => simp [Shown, hg i]

theorem shown_commit_iff :
    Shown (h ++ [.commit i]) reader owner ↔ Shown h reader owner ∨ owner = some i := by
  cases owner with
  | none => simp [Shown]
  | some j => simp [Shown, or_assoc]

theorem not_shown_of_open (ho : Open h i) (hr : reader ≠ some i) : ¬ Shown h reader (some i) := by
  rintro (hown | hc)
  · exact hr hown.symm
  · exact ho.not_commit hc

/-- Whether the transaction of an owner has not been aborted. -/
def Kept (h : List (TxEvent ι α)) : Option ι → Prop
  | none => True
  | some i => .abort i ∉ h

theorem kept_append_iff : Kept (h ++ g) owner ↔ Kept h owner ∧ Kept g owner := by
  cases owner with
  | none => simp [Kept]
  | some i => simp [Kept]

theorem Shown.kept (hl : Legal h) (hr : ∀ i, reader = some i → Open h i)
    (hs : Shown h reader owner) : Kept h owner := by
  cases owner with
  | none => trivial
  | some i =>
    rcases hs with hown | hc
    · exact (hr i hown.symm).not_abort
    · exact hl.not_abort hc

theorem Legal.not_committed (hl : Legal (h ++ g)) (he : e ∈ g) (ho : e.owner = some i) :
    .commit i ∉ h := by
  intro hc
  obtain ⟨h₁, h₂, rfl⟩ := List.append_of_mem hc
  rw [List.append_assoc, List.cons_append] at hl
  exact hl.after_commit e (List.mem_append_right _ he) ho

/-- Events after which a reader is shown the same: others write, and nothing commits. -/
def Unseen (reader : Option ι) (g : List (TxEvent ι α)) : Prop :=
  ∀ e ∈ g, (∀ i, e ≠ .commit i) ∧ ∀ owner a, e = .write owner a → owner ≠ none ∧ owner ≠ reader

theorem Unseen.shown_iff (hu : Unseen reader g) :
    Shown (h ++ g) reader owner ↔ Shown h reader owner :=
  shown_append_iff fun i hi => (hu _ hi).1 i rfl

theorem Unseen.not_shown_write {a : α} (hl : Legal (h ++ g)) (hu : Unseen reader g)
    (he : .write owner a ∈ g) : ¬ Shown h reader owner := by
  obtain ⟨hnone, hreader⟩ := (hu _ he).2 owner a rfl
  cases owner with
  | none => exact absurd rfl hnone
  | some i =>
    rintro (hown | hc)
    · exact hreader hown
    · exact hl.not_committed he rfl hc

theorem not_shown_abort (hl : Legal (h ++ g)) (hr : ∀ i, reader = some i → Open (h ++ g) i)
    (he : .abort i ∈ g) : ¬ Shown h reader (some i) := by
  rintro (hown | hc)
  · exact (hr i hown.symm).not_abort (List.mem_append_right _ he)
  · exact hl.not_committed he rfl hc

section Snapshot

variable [DecidableEq ι] [DecidableEq α]

instance Shown.decidable (h : List (TxEvent ι α)) (reader : Option ι) :
    ∀ owner, Decidable (Shown h reader owner)
  | none => .isTrue trivial
  | some i => inferInstanceAs (Decidable (some i = reader ∨ .commit i ∈ h))

instance Kept.decidable (h : List (TxEvent ι α)) : ∀ owner, Decidable (Kept h owner)
  | none => .isTrue trivial
  | some i => inferInstanceAs (Decidable (.abort i ∉ h))

/-- The writes that a reader is shown, in order. -/
def snapshot (h : List (TxEvent ι α)) (reader : Option ι) : List (Option ι × α) :=
  (writes h).filter fun w => Shown h reader w.1

theorem mem_snapshot {w : Option ι × α} :
    w ∈ snapshot h reader ↔ w ∈ writes h ∧ Shown h reader w.1 := by
  simp [snapshot]

/-- What a reader has been shown stays, in order, unless its own transaction fails. -/
theorem snapshot_sublist {reader' : Option ι}
    (hr : ∀ i, reader = some i → reader' = some i ∨ .commit i ∈ h ++ g) :
    (snapshot h reader).Sublist (snapshot (h ++ g) reader') := by
  have hmono : ((writes h).filter fun w => Shown h reader w.1).Sublist
      ((writes h).filter fun w => Shown (h ++ g) reader' w.1) := by
    apply List.monotone_filter_right
    rintro ⟨o, a⟩ hw
    have hshown : Shown h reader o := of_decide_eq_true hw
    apply decide_eq_true
    cases o with
    | none => trivial
    | some i =>
      rcases hshown with hown | hc
      · exact (hr i hown.symm).imp_left Eq.symm
      · exact .inr (List.mem_append_left g hc)
  refine hmono.trans ?_
  rw [snapshot, writes_append, List.filter_append]
  exact List.sublist_append_left _ _

/-- A reader is shown everything that a transaction has written so far, or nothing. -/
theorem snapshot_whole (h : List (TxEvent ι α)) (reader : Option ι) (i : ι) :
    (snapshot h reader).filter (fun w => w.1 = some i) = (writes h).filter (fun w => w.1 = some i) ∨
      ∀ w ∈ snapshot h reader, w.1 ≠ some i := by
  by_cases hs : Shown h reader (some i)
  · left
    rw [snapshot, List.filter_filter]
    apply List.filter_congr
    rintro ⟨o, a⟩ -
    by_cases ho : o = some i
    · simp [ho, hs]
    · simp [ho]
  · right
    rintro w hw ho
    have hshown := (mem_snapshot.mp hw).2
    rw [ho] at hshown
    exact hs hshown

theorem snapshot_write {a : α} : snapshot (h ++ [.write owner a]) reader =
    snapshot h reader ++ if Shown h reader owner then [(owner, a)] else [] := by
  have hshown (o : Option ι) :
      Shown (h ++ [.write owner a]) reader o ↔ Shown h reader o := shown_append_iff (by simp)
  simp only [snapshot, hshown, writes_append, List.filter_append]
  congr 1
  by_cases hs : Shown h reader owner <;> simp [writes, hs]

theorem snapshot_silent (hc : ∀ i, e ≠ .commit i) (hw : ∀ o a, e ≠ .write o a) :
    snapshot (h ++ [e]) reader = snapshot h reader := by
  have hshown (o : Option ι) : Shown (h ++ [e]) reader o ↔ Shown h reader o :=
    shown_append_iff (by simpa [eq_comm] using hc)
  have hnil : writes [e] = [] := by
    cases e with
    | write o a => exact absurd rfl (hw o a)
    | begin | commit | abort => rfl
  simp only [snapshot, hshown, writes_append, hnil, List.append_nil]

theorem snapshot_commit (ho : Open h i) (hr : reader ≠ some i) :
    (snapshot (h ++ [.commit i]) reader).Perm
      (snapshot h reader ++ (writes h).filter fun w => w.1 = some i) := by
  have hwrites : writes [(.commit i : TxEvent ι α)] = [] := rfl
  have hsplit := List.filter_append_perm (fun w => decide (w.1 ≠ some i))
    (snapshot (h ++ [.commit i]) reader)
  have hold : (snapshot (h ++ [.commit i]) reader).filter (fun w => w.1 ≠ some i) =
      snapshot h reader := by
    rw [snapshot, snapshot, writes_append, hwrites, List.append_nil, List.filter_filter]
    apply List.filter_congr
    rintro ⟨o, a⟩ -
    by_cases hi : o = some i
    · simp [hi, not_shown_of_open ho hr]
    · simp [hi, shown_commit_iff]
  have hnew : (snapshot (h ++ [.commit i]) reader).filter (fun w => !decide (w.1 ≠ some i)) =
      (writes h).filter fun w => w.1 = some i := by
    rw [snapshot, writes_append, hwrites, List.append_nil, List.filter_filter]
    apply List.filter_congr
    rintro ⟨o, a⟩ -
    by_cases hi : o = some i <;> simp [hi, shown_commit_iff]
  rw [hold, hnew] at hsplit
  exact hsplit.symm

end Snapshot

section Serial

/-- A history in which committed transactions and writes of no one follow each other. -/
inductive Serial : List (TxEvent ι α) → Prop where
  | nil : Serial []
  | write {h : List (TxEvent ι α)} (a : α) : Serial h → Serial (h ++ [.write none a])
  | transaction {h : List (TxEvent ι α)} (i : ι) (as : List α) : Serial h →
      Serial (h ++ (.begin i :: as.map (.write (some i)) ++ [.commit i]))

theorem Serial.shown {a : α} (hs : Serial h) (reader : Option ι) (hw : .write owner a ∈ h) :
    Shown h reader owner := by
  induction hs with
  | nil => cases hw
  | @write h b hs ih =>
    rcases List.mem_append.mp hw with hw | hw
    · exact (ih hw).append _
    · obtain ⟨rfl, -⟩ := TxEvent.write.inj (List.mem_singleton.mp hw)
      trivial
  | @transaction h i as hs ih =>
    rcases List.mem_append.mp hw with hw | hw
    · exact (ih hw).append _
    · obtain ⟨b, -, hb⟩ : ∃ b ∈ as, (.write (some i) b : TxEvent ι α) = .write owner a := by
        simpa using hw
      obtain ⟨rfl, -⟩ := TxEvent.write.inj hb
      exact .inr (by simp)

theorem Serial.snapshot_eq [DecidableEq ι] [DecidableEq α] (hs : Serial h) (reader : Option ι) :
    snapshot h reader = writes h := by
  apply List.filter_eq_self.mpr
  rintro ⟨o, a⟩ hw
  exact decide_eq_true (hs.shown reader (mem_writes.mp hw))

variable [DecidableEq ι]

def block (h : List (TxEvent ι α)) : TxEvent ι α → List (TxEvent ι α)
  | .write none a => [.write none a]
  | .commit i => eventsOf h i ++ [.commit i]
  | _ => []

/-- The blocks of the events of a history, given what precedes them. -/
def blocks (h : List (TxEvent ι α)) : List (TxEvent ι α) → List (TxEvent ι α)
  | [] => []
  | e :: g => block h e ++ blocks (h ++ [e]) g

/-- The committed transactions of a history, one after the other, in the order of the commits. -/
def serial (h : List (TxEvent ι α)) : List (TxEvent ι α) := blocks [] h

theorem blocks_append (f h g : List (TxEvent ι α)) :
    blocks f (h ++ g) = blocks f h ++ blocks (f ++ h) g := by
  induction h generalizing f with
  | nil => simp [blocks]
  | cons e h ih => simp [blocks, ih]

theorem serial_snoc (h : List (TxEvent ι α)) (e : TxEvent ι α) :
    serial (h ++ [e]) = serial h ++ block h e := by
  simp [serial, blocks_append, blocks]

theorem Legal.serial (hl : Legal h) : Serial (serial h) := by
  induction hl with
  | nil => exact .nil
  | @snoc h e hl ha ih =>
    rw [serial_snoc]
    cases e with
    | begin j => simpa [block] using ih
    | write o a =>
      cases o with
      | none => exact ih.write a
      | some j => simpa [block] using ih
    | commit j =>
      obtain ⟨as, has⟩ := (hl.grammar j).of_open ha
      rw [block, has]
      exact ih.transaction j as
    | abort j => simpa [block] using ih

omit [DecidableEq ι] in
def commits (h : List (TxEvent ι α)) : List ι :=
  h.filterMap fun
    | .commit i => some i
    | _ => none

theorem commits_serial (hl : Legal h) : commits (History.serial h) = commits h := by
  induction hl with
  | nil => rfl
  | @snoc h e hl ha ih =>
    rw [serial_snoc, commits, commits, List.filterMap_append, List.filterMap_append]
    congr 1
    cases e with
    | begin j => rfl
    | write o a => cases o <;> rfl
    | commit j =>
      obtain ⟨as, has⟩ := (hl.grammar j).of_open ha
      simp [block, has]
    | abort j => rfl

theorem writes_eventsOf (h : List (TxEvent ι α)) (i : ι) :
    writes (eventsOf h i) = (writes h).filter fun w => w.1 = some i := by
  induction h with
  | nil => rfl
  | cons e h ih =>
    have hcons (e : TxEvent ι α) (h : List (TxEvent ι α)) :
        writes (e :: h) = writes [e] ++ writes h := writes_append (h := [e])
    have hsplit : eventsOf (e :: h) i = (if e.owner = some i then [e] else []) ++ eventsOf h i := by
      simp only [eventsOf, List.filter_cons, decide_eq_true_eq]
      split <;> rfl
    rw [hsplit, writes_append, hcons, List.filter_append, ih]
    congr 1
    cases e with
    | write o a => by_cases ho : o = some i <;> simp [writes, owner, ho]
    | begin j | commit j | abort j => split <;> rfl

variable [DecidableEq α]

/-- Readers without a transaction are shown what the serial history writes. -/
theorem snapshot_perm_serial (hl : Legal h) :
    (snapshot h none).Perm (writes (History.serial h)) := by
  induction hl with
  | nil => exact .refl _
  | @snoc h e hl ha ih =>
    rw [serial_snoc, writes_append]
    cases e with
    | begin j =>
      rw [snapshot_silent (by simp) (by simp)]
      simpa [block] using ih
    | write o a =>
      rw [snapshot_write]
      refine ih.append ?_
      cases o with
      | none => exact .refl _
      | some j =>
        rw [if_neg (not_shown_of_open ha (by simp))]
        exact .refl _
    | commit j =>
      refine (snapshot_commit ha (by simp)).trans (ih.append ?_)
      rw [block, writes_append, writes_eventsOf]
      simp [writes]
    | abort j =>
      rw [snapshot_silent (by simp) (by simp)]
      simpa [block] using ih

end Serial

end History
