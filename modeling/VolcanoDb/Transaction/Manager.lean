import VolcanoDb.Storage.Value
import VolcanoDb.Lib.FinMap

/-! # Transaction manager

The logical clock, the status table, the undo segments and the redo buffer that
LGWR appends to `redo.log`. The counters are natural numbers; they are those of
the server as long as fewer than `2 ^ 64` transactions have run.
-/

namespace VolcanoDb

def u64Max : ℕ := 2 ^ 64 - 1

/-- What a rollback replays, last record first. -/
inductive UndoRecord where
  | insert (tableName : String) (rowIdx : ℕ)
  deriving DecidableEq

/-- What recovery replays, written to `redo.log` as one JSON line each. -/
inductive RedoRecord where
  | begin (txId scn : ℕ)
  | insert (txId scn : ℕ) (tableName : String) (values : List Value) (rowIdx : ℕ)
  | commit (txId scn : ℕ)
  | rollback (txId scn : ℕ)
  deriving DecidableEq

namespace RedoRecord

def txId : RedoRecord → ℕ
  | begin txId _ => txId
  | insert txId _ _ _ _ => txId
  | commit txId _ => txId
  | rollback txId _ => txId

def scn : RedoRecord → ℕ
  | begin _ scn => scn
  | insert _ scn _ _ _ => scn
  | commit _ scn => scn
  | rollback _ scn => scn

end RedoRecord

inductive TxStatus where
  | active
  | committed
  | rolledBack
  deriving DecidableEq

/-- The file behind `redo_file`, as the records written to it since it was created. -/
structure RedoFile where
  written : List RedoRecord
  deriving DecidableEq

/-- Append a record with `writeln!`; the write succeeds. -/
def RedoFile.writeln (file : RedoFile) (rec : RedoRecord) : RedoFile := ⟨file.written ++ [rec]⟩

structure TransactionManager where
  scn : ℕ
  statuses : FinMap ℕ TxStatus
  /-- The commit SCN of every committed transaction. -/
  commitScns : FinMap ℕ ℕ
  undoSegments : FinMap ℕ (List UndoRecord)
  redoBuffer : List RedoRecord
  nextTxId : ℕ
  redoFile : RedoFile
  deriving DecidableEq

namespace TransactionManager

def new (redoFile : RedoFile) : TransactionManager where
  scn := 0
  statuses := ∅
  commitScns := ∅
  undoSegments := ∅
  redoBuffer := []
  nextTxId := 1
  redoFile := redoFile

def begin (tm : TransactionManager) : ℕ × TransactionManager :=
  let txId := tm.nextTxId
  (txId, { tm with
    nextTxId := txId + 1
    statuses := tm.statuses.insert txId .active
    undoSegments := tm.undoSegments.insert txId []
    redoBuffer := tm.redoBuffer ++ [.begin txId tm.scn] })

def recordInsert (tm : TransactionManager) (txId : ℕ) (tableName : String) (values : List Value)
    (rowIdx : ℕ) : TransactionManager :=
  let segment := (tm.undoSegments.lookup txId).getD []
  { tm with
    undoSegments := tm.undoSegments.insert txId (segment ++ [.insert tableName rowIdx])
    redoBuffer := tm.redoBuffer ++ [.insert txId tm.scn tableName values rowIdx] }

def lgwrFlush (tm : TransactionManager) : TransactionManager :=
  if tm.redoBuffer = [] then tm
  else { tm with
    redoFile := tm.redoBuffer.foldl RedoFile.writeln tm.redoFile
    redoBuffer := [] }

def commit (tm : TransactionManager) (txId : ℕ) : TransactionManager :=
  let scn := tm.scn + 1
  lgwrFlush { tm with
    scn := scn
    statuses := tm.statuses.insert txId .committed
    commitScns := tm.commitScns.insert txId scn
    redoBuffer := tm.redoBuffer ++ [.commit txId scn] }

def rollback (tm : TransactionManager) (txId : ℕ) : TransactionManager :=
  lgwrFlush { tm with
    statuses := tm.statuses.insert txId .rolledBack
    redoBuffer := tm.redoBuffer ++ [.rollback txId tm.scn] }

/-- Whether a row is visible to a session's statement under Read Committed. -/
def isVisible (tm : TransactionManager) (rowTxId sessionTxId : Option ℕ) (crScn : ℕ) : Bool :=
  match rowTxId with
  | none => true
  | some rowTx =>
    if some rowTx = sessionTxId then true
    else match tm.statuses.lookup rowTx with
      | some .committed => (tm.commitScns.lookup rowTx).getD u64Max ≤ crScn
      | _ => false

/-- Everyone sees the rows of a transaction that has committed by then. -/
theorem isVisible_of_committed {tm : TransactionManager} {i n crScn : ℕ}
    (hst : tm.statuses.lookup i = some .committed) (hn : tm.commitScns.lookup i = some n)
    (hle : n ≤ crScn) (sessionTxId : Option ℕ) : tm.isVisible (some i) sessionTxId crScn := by
  unfold isVisible
  dsimp only
  split
  · rfl
  · simp [hst, hn, hle]

theorem foldl_writeln (recs : List RedoRecord) (file : RedoFile) :
    recs.foldl RedoFile.writeln file = ⟨file.written ++ recs⟩ := by
  induction recs generalizing file with
  | nil => simp
  | cons rec recs ih => simp [ih, RedoFile.writeln]

theorem lgwrFlush_eq (tm : TransactionManager) :
    tm.lgwrFlush =
      { tm with redoFile := ⟨tm.redoFile.written ++ tm.redoBuffer⟩, redoBuffer := [] } := by
  unfold lgwrFlush
  split
  · rename_i h
    cases tm
    simp_all
  · rw [foldl_writeln]

def log (tm : TransactionManager) : List RedoRecord := tm.redoFile.written ++ tm.redoBuffer

variable (tm : TransactionManager) (txId rowIdx : ℕ) (name : String) (vals : List Value)

@[simp] theorem new_log (file : RedoFile) : (new file).log = file.written := by simp [log, new]

@[simp] theorem begin_log : tm.begin.2.log = tm.log ++ [.begin tm.nextTxId tm.scn] := by
  simp [log, begin]

@[simp] theorem recordInsert_log :
    (tm.recordInsert txId name vals rowIdx).log =
      tm.log ++ [.insert txId tm.scn name vals rowIdx] := by
  simp [log, recordInsert]

theorem commit_eq : tm.commit txId =
    { tm with
      scn := tm.scn + 1
      statuses := tm.statuses.insert txId .committed
      commitScns := tm.commitScns.insert txId (tm.scn + 1)
      redoBuffer := []
      redoFile := ⟨tm.log ++ [.commit txId (tm.scn + 1)]⟩ } := by
  simp [commit, lgwrFlush_eq, log]

theorem rollback_eq : tm.rollback txId =
    { tm with
      statuses := tm.statuses.insert txId .rolledBack
      redoBuffer := []
      redoFile := ⟨tm.log ++ [.rollback txId tm.scn]⟩ } := by
  simp [rollback, lgwrFlush_eq, log]

@[simp] theorem commit_log : (tm.commit txId).log = tm.log ++ [.commit txId (tm.scn + 1)] := by
  simp [commit_eq, log]

@[simp] theorem rollback_log : (tm.rollback txId).log = tm.log ++ [.rollback txId tm.scn] := by
  simp [rollback_eq, log]

end TransactionManager

end VolcanoDb
