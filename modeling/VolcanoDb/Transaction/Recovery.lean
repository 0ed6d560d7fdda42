import Mathlib.Data.Finset.Basic
import VolcanoDb.Lib.Text
import VolcanoDb.Transaction.Manager

/-! # Instance recovery

The redo log is read line by line and replayed forward; then the rows of every
transaction without a commit record, or with a rollback record, are removed.
-/

namespace VolcanoDb

open Text

/-- The JSON encoder and decoder that serde derives for redo records. -/
class SerdeJson where
  toJson : RedoRecord → Option String
  fromJson : String → Option RedoRecord

section File

variable [SerdeJson]

def redoLine (rec : RedoRecord) : List UInt8 :=
  utf8 ((SerdeJson.toJson rec).getD "null") ++ [10]

def RedoFile.bytes (file : RedoFile) : List UInt8 := file.written.flatMap redoLine

/-- The records of the lines; blank and unparsable lines are skipped. -/
def parseLines : List (List UInt8) → Result (List RedoRecord)
  | [] => pure []
  | line :: rest =>
    match fromUtf8 line with
    | none => err .invalidUtf8
    | some s =>
      if isBlank s then parseLines rest
      else match SerdeJson.fromJson s with
        | some rec => (rec :: ·) <$> parseLines rest
        | none => parseLines rest

/-- A record whose line is one line of text that reads back as the record. -/
def RoundTrips (rec : RedoRecord) : Prop :=
  ∃ s, SerdeJson.toJson rec = some s ∧ 10 ∉ utf8 s ∧ (utf8 s).getLast? ≠ some 13 ∧
    isBlank s = false ∧ SerdeJson.fromJson s = some rec

theorem parseLines_bytes {recs : List RedoRecord} (h : ∀ rec ∈ recs, RoundTrips rec) :
    parseLines (lines (RedoFile.bytes ⟨recs⟩)) = pure recs := by
  induction recs with
  | nil => rfl
  | cons rec recs ih =>
    obtain ⟨s, hs, hn, hr, hb, hp⟩ := h rec List.mem_cons_self
    have hl : RedoFile.bytes ⟨rec :: recs⟩ = utf8 s ++ 10 :: RedoFile.bytes ⟨recs⟩ := by
      simp [RedoFile.bytes, redoLine, hs]
    rw [hl, lines_append hn hr]
    simp [parseLines, hb, hp, ih fun rec hm => h rec (List.mem_cons_of_mem _ hm)]

end File

/-- The state of the roll-forward pass. -/
structure Replay where
  tables : FinMap String (List Tuple)
  txMgr : TransactionManager
  committed : Finset ℕ
  rolledBack : Finset ℕ
  maxScn : ℕ

namespace Replay

/-- Replay one record; rows are appended and their recorded position is ignored. -/
def record (r : Replay) : RedoRecord → Replay
  | .begin txId scn => { r with
      txMgr := { r.txMgr with statuses := r.txMgr.statuses.insert txId .active }
      maxScn := max r.maxScn scn }
  | .insert txId scn tableName values _ =>
    let rows := (r.tables.lookup tableName).getD []
    { r with
      tables := r.tables.insert tableName (rows ++ [Tuple.newWithMeta values (some txId) scn])
      maxScn := max r.maxScn scn }
  | .commit txId scn => { r with
      committed := insert txId r.committed
      txMgr := { r.txMgr with
        statuses := r.txMgr.statuses.insert txId .committed
        commitScns := r.txMgr.commitScns.insert txId scn }
      maxScn := max r.maxScn scn }
  | .rollback txId scn => { r with
      rolledBack := insert txId r.rolledBack
      txMgr := { r.txMgr with statuses := r.txMgr.statuses.insert txId .rolledBack }
      maxScn := max r.maxScn scn }

/-- Whether the roll-back pass keeps a row. -/
def keep (r : Replay) (t : Tuple) : Bool :=
  match t.txId with
  | none => true
  | some rowTx => rowTx ∈ r.committed ∧ rowTx ∉ r.rolledBack

/-- Advance the clock past the log and remove the rows of losers. -/
def finish (r : Replay) : FinMap String (List Tuple) × TransactionManager :=
  (FinMap.mapValues (List.filter r.keep) r.tables, { r.txMgr with scn := r.maxScn + 1 })

end Replay

/-- Recover tables and transaction state from the redo file, if there is one. -/
def recover [SerdeJson] (tables : FinMap String (List Tuple)) (txMgr : TransactionManager)
    (file : Option (List UInt8)) : Result (FinMap String (List Tuple) × TransactionManager) :=
  match file with
  | none => pure (tables, txMgr)
  | some bytes => do
    let records ← parseLines (lines bytes)
    if records = [] then pure (tables, txMgr)
    else pure (records.foldl Replay.record ⟨tables, txMgr, ∅, ∅, 0⟩).finish

end VolcanoDb
