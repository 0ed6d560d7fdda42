import VolcanoDb.Lib.Durability
import VolcanoDb.Transaction.Recovery

/-! # What recovery rebuilds

The redo records as events of a history, and the tables, statuses and commit
SCNs that the replay of a log leaves behind.
-/

namespace VolcanoDb

open History Text

/-- The events of the transactions of the server: rows are written to named tables. -/
abbrev DbEvent := TxEvent ℕ (String × List Value)

/-- The event that a redo record records. -/
def RedoRecord.event : RedoRecord → DbEvent
  | begin txId _ => .begin txId
  | insert txId _ tableName values _ => .write (some txId) (tableName, values)
  | commit txId _ => .commit txId
  | rollback txId _ => .abort txId

@[simp] theorem RedoRecord.owner_event (rec : RedoRecord) : rec.event.owner = some rec.txId := by
  cases rec <;> rfl

def Tuple.tagged (t : Tuple) : Option ℕ × List Value := (t.txId, t.values)

def rowsTo (name : String) (ws : List (ℕ × String × List Value)) : List (Option ℕ × List Value) :=
  (ws.filter fun w => w.2.1 = name).map fun w => (some w.1, w.2.2)

theorem rowsTo_sublist (name : String) {ws ws' : List (ℕ × String × List Value)}
    (h : ws.Sublist ws') : (rowsTo name ws).Sublist (rowsTo name ws') :=
  (h.filter _).map _

namespace Replay

def rowOf (name : String) : RedoRecord → Option Tuple
  | .insert txId scn tableName values _ =>
    if tableName = name then some (Tuple.newWithMeta values (some txId) scn) else none
  | _ => none

theorem lookup_tables (recs : List RedoRecord) (r : Replay) (name : String) :
    ((recs.foldl record r).tables.lookup name).getD [] =
      (r.tables.lookup name).getD [] ++ recs.filterMap (rowOf name) := by
  induction recs generalizing r with
  | nil => simp
  | cons rec recs ih =>
    rw [List.foldl_cons, ih]
    cases rec with
    | begin | commit | rollback => rfl
    | insert txId scn tableName values rowIdx =>
      by_cases hn : tableName = name
      · subst hn; simp [record, rowOf]
      · simp [record, rowOf, hn, Ne.symm hn]

theorem mem_committed (recs : List RedoRecord) (r : Replay) (i : ℕ) :
    i ∈ (recs.foldl record r).committed ↔
      i ∈ r.committed ∨ .commit i ∈ recs.map RedoRecord.event := by
  induction recs generalizing r with
  | nil => simp
  | cons rec recs ih =>
    rw [List.foldl_cons, ih]
    cases rec <;> simp [record, RedoRecord.event, or_assoc, or_left_comm]

theorem mem_rolledBack (recs : List RedoRecord) (r : Replay) (i : ℕ) :
    i ∈ (recs.foldl record r).rolledBack ↔
      i ∈ r.rolledBack ∨ .abort i ∈ recs.map RedoRecord.event := by
  induction recs generalizing r with
  | nil => simp
  | cons rec recs ih =>
    rw [List.foldl_cons, ih]
    cases rec <;> simp [record, RedoRecord.event, or_assoc, or_left_comm]

theorem maxScn_mono (recs : List RedoRecord) (r : Replay) :
    r.maxScn ≤ (recs.foldl record r).maxScn := by
  induction recs generalizing r with
  | nil => exact le_rfl
  | cons rec recs ih =>
    apply le_trans _ (ih (r.record rec))
    cases rec <;> exact le_max_left _ _

theorem scn_le_maxScn {recs : List RedoRecord} {rec : RedoRecord} (h : rec ∈ recs) (r : Replay) :
    rec.scn ≤ (recs.foldl record r).maxScn := by
  induction recs generalizing r with
  | nil => cases h
  | cons rec' recs ih =>
    rcases List.mem_cons.mp h with rfl | h
    · apply le_trans _ (maxScn_mono recs (r.record rec))
      cases rec <;> exact le_max_right _ _
    · exact ih h _

theorem txMgr_eq (recs : List RedoRecord) (r : Replay) :
    ∃ statuses commitScns, (recs.foldl record r).txMgr =
      { r.txMgr with statuses := statuses, commitScns := commitScns } := by
  induction recs generalizing r with
  | nil => exact ⟨_, _, rfl⟩
  | cons rec recs ih =>
    obtain ⟨statuses, commitScns, h⟩ := ih (r.record rec)
    rw [List.foldl_cons, h]
    cases rec <;> exact ⟨_, _, rfl⟩

def Commits (r : Replay) (i : ℕ) : Prop :=
  r.txMgr.statuses.lookup i = some .committed ∧
    ∃ n, r.txMgr.commitScns.lookup i = some n ∧ n ≤ r.maxScn

theorem Commits.record {r : Replay} {i : ℕ} (hc : r.Commits i) {rec : RedoRecord}
    (hb : rec.event ≠ .begin i) (ha : rec.event ≠ .abort i) : (r.record rec).Commits i := by
  obtain ⟨hst, n, hn, hle⟩ := hc
  cases rec with
  | begin txId scn =>
    have hne : i ≠ txId := by rintro rfl; exact hb rfl
    exact ⟨by simp [Replay.record, hne, hst], n, hn, le_max_of_le_left hle⟩
  | insert => exact ⟨hst, n, hn, le_max_of_le_left hle⟩
  | commit txId scn =>
    simp only [Commits, Replay.record, FinMap.lookup_insert_eq]
    split
    · exact ⟨rfl, scn, rfl, le_max_right _ _⟩
    · exact ⟨hst, n, hn, le_max_of_le_left hle⟩
  | rollback txId scn =>
    have hne : i ≠ txId := by rintro rfl; exact ha rfl
    exact ⟨by simp [Replay.record, hne, hst], n, hn, le_max_of_le_left hle⟩

theorem Commits.foldl {recs : List RedoRecord} {r : Replay} {i : ℕ} (hc : r.Commits i)
    (hb : .begin i ∉ recs.map RedoRecord.event) (ha : .abort i ∉ recs.map RedoRecord.event) :
    (recs.foldl Replay.record r).Commits i := by
  induction recs generalizing r with
  | nil => exact hc
  | cons rec recs ih =>
    rw [List.map_cons, List.mem_cons, not_or] at hb ha
    exact ih (hc.record (Ne.symm hb.1) (Ne.symm ha.1)) hb.2 ha.2

theorem commits_of_lastCommit {recs : List RedoRecord} {i : ℕ}
    (hl : LastCommit (recs.map RedoRecord.event) i) (r : Replay) :
    (recs.foldl record r).Commits i := by
  obtain ⟨b₁, b₂, heq, hb, ha⟩ := hl
  obtain ⟨recs₁, _, rfl, -, hrecs⟩ := List.map_eq_append_iff.mp heq
  obtain ⟨rec, recs₂, rfl, hrec, rfl⟩ := List.map_eq_cons_iff.mp hrecs
  obtain ⟨scn, rfl⟩ : ∃ scn, rec = .commit i scn := by
    cases rec <;> simp_all [RedoRecord.event]
  rw [List.foldl_append, List.foldl_cons]
  apply Commits.foldl _ hb ha
  exact ⟨by simp [record], scn, by simp [record], le_max_right _ _⟩

theorem tagged_rows (p : ℕ → Prop) [DecidablePred p] (name : String) (recs : List RedoRecord) :
    ((recs.filterMap (rowOf name)).filter fun t => t.txId.elim true fun i => p i).map
        Tuple.tagged =
      rowsTo name (writesOf p (recs.map RedoRecord.event)) := by
  induction recs with
  | nil => rfl
  | cons rec recs ih =>
    cases rec with
    | begin | commit | rollback => exact ih
    | insert txId scn tableName values rowIdx =>
      by_cases hn : tableName = name
      · by_cases hp : p txId
        · simpa [rowOf, RedoRecord.event, writesOf, ownedWrite, rowsTo, hn, hp, Tuple.newWithMeta,
            Tuple.tagged] using ih
        · simpa [rowOf, RedoRecord.event, writesOf, ownedWrite, rowsTo, hn, hp, Tuple.newWithMeta]
            using ih
      · by_cases hp : p txId
        · simpa [rowOf, RedoRecord.event, writesOf, ownedWrite, rowsTo, hn, hp] using ih
        · simpa [rowOf, RedoRecord.event, writesOf, ownedWrite, rowsTo, hn, hp] using ih

theorem finish_rows (recs : List RedoRecord) (txMgr : TransactionManager) (name : String) :
    (((recs.foldl record ⟨∅, txMgr, ∅, ∅, 0⟩).finish.1.lookup name).getD []).map Tuple.tagged =
      rowsTo name (winners (recs.map RedoRecord.event)) := by
  have hkeep : keep (recs.foldl record ⟨∅, txMgr, ∅, ∅, 0⟩) =
      fun t => t.txId.elim true fun i => decide (.commit i ∈ recs.map RedoRecord.event ∧
        .abort i ∉ recs.map RedoRecord.event) := by
    funext t
    rcases ht : t.txId with _ | i <;> simp [keep, ht, mem_committed, mem_rolledBack]
  have hrows := lookup_tables recs ⟨∅, txMgr, ∅, ∅, 0⟩ name
  simp only [AList.lookup_empty, Option.getD_none, List.nil_append] at hrows
  rw [winners, ← tagged_rows, finish, hkeep, ← hrows, FinMap.lookup_mapValues]
  rcases AList.lookup name (List.foldl record ⟨∅, txMgr, ∅, ∅, 0⟩ recs).tables with _ | rows <;> rfl

end Replay

/-- The tables and the manager that recovery rebuilds from a readable file. -/
def rebuilt (file : RedoFile) : FinMap String (List Tuple) × TransactionManager :=
  if file.written = [] then (∅, .new file)
  else (file.written.foldl Replay.record ⟨∅, .new file, ∅, ∅, 0⟩).finish

section Rebuilt

variable {file : RedoFile}

theorem recover_eq [SerdeJson] (h : ∀ rec ∈ file.written, RoundTrips rec) :
    recover ∅ (.new file) (some file.bytes) = .ok (rebuilt file) := by
  have hparse : parseLines (lines file.bytes) = pure file.written := parseLines_bytes h
  rw [recover, hparse]
  simp only [Result.pure_eq_ok, Result.ok_bind, rebuilt]
  split <;> rfl

theorem rebuilt_txMgr (file : RedoFile) : ∃ scn statuses commitScns,
    (rebuilt file).2 =
      { TransactionManager.new file with
        scn := scn, statuses := statuses, commitScns := commitScns } := by
  unfold rebuilt
  split
  · exact ⟨_, _, _, rfl⟩
  · obtain ⟨statuses, commitScns, h⟩ := Replay.txMgr_eq file.written ⟨∅, .new file, ∅, ∅, 0⟩
    exact ⟨_, statuses, commitScns, by rw [Replay.finish, h]⟩

theorem scn_lt_rebuilt {rec : RedoRecord} (h : rec ∈ file.written) :
    rec.scn < (rebuilt file).2.scn := by
  rw [rebuilt, if_neg (List.ne_nil_of_mem h)]
  exact Nat.lt_succ_of_le (Replay.scn_le_maxScn h _)

/-- Recovery rebuilds the rows of the transactions that the log shows as winners. -/
theorem rebuilt_rows (file : RedoFile) (name : String) :
    (((rebuilt file).1.lookup name).getD []).map Tuple.tagged =
      rowsTo name (winners (file.written.map RedoRecord.event)) := by
  unfold rebuilt
  split
  · rename_i h; simp [h, rowsTo, winners, writesOf]
  · exact Replay.finish_rows file.written _ name

/-- A transaction whose commit is the last word about it is visible to everyone after recovery. -/
theorem rebuilt_visible {i : ℕ} (hl : LastCommit (file.written.map RedoRecord.event) i) :
    (rebuilt file).2.statuses.lookup i = some .committed ∧
      ∃ n, (rebuilt file).2.commitScns.lookup i = some n ∧ n ≤ (rebuilt file).2.scn := by
  have hne : file.written ≠ [] := by
    intro hnil
    obtain ⟨b₁, b₂, heq, -⟩ := hl
    simp [hnil] at heq
  rw [rebuilt, if_neg hne]
  obtain ⟨hst, n, hn, hle⟩ := Replay.commits_of_lastCommit hl ⟨∅, .new file, ∅, ∅, 0⟩
  exact ⟨hst, n, hn, Nat.le_succ_of_le hle⟩

end Rebuilt

end VolcanoDb
