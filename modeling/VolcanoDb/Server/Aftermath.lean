import VolcanoDb.Server.RedoText

/-! # What a crash and a disconnect leave behind

Only the records of transactions are logged, and only a commit or a rollback
ends a transaction. So a restart finds no schema and no row that was written
outside a transaction, and a transaction whose session is gone stays active.
-/

namespace VolcanoDb

open History Text

def Replay.forward (file : RedoFile) (recs : List RedoRecord) : Replay :=
  recs.foldl record ⟨∅, .new file, ∅, ∅, 0⟩

theorem Replay.foldl_statuses (recs : List RedoRecord) (r : Replay) (i : ℕ) :
    (recs.foldl record r).txMgr.statuses.lookup i =
      statusIn (recs.map RedoRecord.event) i (r.txMgr.statuses.lookup i) := by
  induction recs generalizing r with
  | nil => rfl
  | cons rec recs ih =>
    rw [List.foldl_cons, ih, List.map_cons, statusIn, statusIn, List.foldl_cons]
    congr 1
    cases rec <;>
      simp [record, RedoRecord.event, statusAfter, FinMap.lookup_insert_eq, eq_comm]

/-- A history leaves a transaction active exactly if it leaves it unfinished. -/
theorem statusIn_eq_active {h : List DbEvent} {i : ℕ} :
    statusIn h i none = some .active ↔ Unfinished h i := by
  induction h using List.reverseRecOn with
  | nil => exact iff_of_false nofun not_unfinished_nil
  | append_singleton h e ih =>
    rw [statusIn_snoc, unfinished_snoc, statusAfter, ← ih]
    by_cases hb : e = .begin i
    · simp [hb]
    by_cases hc : e = .commit i
    · simp [hc]
    by_cases ha : e = .abort i
    · simp [ha]
    simp [hb, hc, ha]

section Recovered

variable [SerdeJson] {file : RedoFile} {b : Server}

/-- A process that has recovered from the records that it reads of a file. -/
structure Recovered (file : RedoFile) (recs : List RedoRecord) (b : Server) : Prop where
  parsed : parseLines (lines file.bytes) = .ok recs
  catalog : b.db.catalog = .new
  sessions : b.sessions = ∅
  statuses : b.db.txMgr.statuses = (Replay.forward file recs).txMgr.statuses
  rows (name : String) :
    b.world.rows name = ((Replay.forward file recs).finish.1.lookup name).getD []

theorem Server.start_recovered (h : Server.start file = .ok b) :
    ∃ recs, Recovered file recs b := by
  obtain ⟨⟨tables, txMgr⟩, hrec, hb⟩ := Result.bind_eq_ok.mp h
  cases hb
  unfold instanceRecovery at hrec
  split at hrec
  · obtain ⟨recs, hparse, hrec⟩ := Result.bind_eq_ok.mp hrec
    split at hrec
    · rename_i hnil
      cases hrec
      exact ⟨[], hnil ▸ hparse, rfl, rfl, rfl, fun _ => rfl⟩
    · cases hrec
      exact ⟨recs, hparse, rfl, rfl, rfl, fun _ => rfl⟩
  · rename_i hempty
    cases hrec
    refine ⟨[], ?_, rfl, rfl, rfl, fun _ => rfl⟩
    rw [not_not.mp hempty]
    rfl

namespace Recovered

variable {recs : List RedoRecord}

theorem opens (hrec : Recovered file recs b) (id : ℕ) : b.world.opens id = none := by
  simp [Server.world, hrec.sessions]

theorem lookup_statuses (hrec : Recovered file recs b) (i : ℕ) :
    b.db.txMgr.statuses.lookup i = statusIn (recs.map RedoRecord.event) i none := by
  rw [hrec.statuses, Replay.forward, Replay.foldl_statuses]
  rfl

theorem txId_ne_none (hrec : Recovered file recs b) {name : String} {t : Tuple}
    (ht : t ∈ b.world.rows name) : t.txId ≠ none := by
  rw [hrec.rows] at ht
  have hm : t.tagged ∈ rowsTo name (winners (recs.map RedoRecord.event)) :=
    Replay.finish_rows recs _ name ▸ List.mem_map_of_mem ht
  obtain ⟨row, -, htag⟩ := List.mem_map.mp hm
  intro hnone
  have howner : some row.1 = t.txId := congrArg Prod.fst htag
  rw [hnone] at howner
  cases howner

end Recovered

end Recovered

section Restart

variable [BuildProfile] [Unicode] [SqlParser] [ComfyTable] [SerdeJson]
  {w b : Server} {h : List DbEvent}

/--
The log of a lifetime holds the events of its transactions and nothing else. A
recovery from the file finds no schema and no row written outside a transaction,
only the rows of the committed transactions.
-/
theorem only_transactions_recovered (hr : Runs free Server.fresh w h)
    (hb : Server.start w.db.txMgr.redoFile = .ok b) :
    w.db.txMgr.log.map RedoRecord.event = h.filter TxEvent.inTx ∧
      (∀ name, b.db.catalog.getSchema name = none) ∧
      (∀ name, ∀ t ∈ b.world.rows name, t.txId ≠ none) ∧
      ((∀ rec ∈ w.db.txMgr.redoFile.written, RoundTrips rec) →
        ∀ name, (b.world.rows name).map Tuple.tagged = rowsTo name (committedWrites h)) := by
  have hr₁ : Reached free w.world h := hr.reached
  obtain ⟨recs, hrec⟩ := Server.start_recovered hb
  refine ⟨hr₁.log, fun name => ?_, fun name t ht => hrec.txId_ne_none ht, fun hrt => ?_⟩
  · rw [hrec.catalog]
    rfl
  · obtain rfl := Except.ok.inj (hb.symm.trans (Server.start_eq hrt))
    exact hr₁.restarted_rows

end Restart

namespace Script

def unlogged : List Event := [.connect, .statement 1 "CREATE TABLE t (a INT)",
  .statement 1 "INSERT INTO t VALUES (1)", .statement 1 "BEGIN", .statement 1 "COMMIT"]

end Script

open Script in
theorem only_transactions_recovered_sample :
    let w := Server.fresh.after accent
    let b := Server.restarted w.1.db.txMgr.redoFile
    w.1.db.txMgr.log.map RedoRecord.event = w.2.filter TxEvent.inTx ∧
      (∀ name, b.db.catalog.getSchema name = none) ∧
      (∀ name, ∀ t ∈ b.world.rows name, t.txId ≠ none) ∧
      ∀ name, (b.world.rows name).map Tuple.tagged = rowsTo name (committedWrites w.2) := by
  have hrt : ∀ rec ∈ (Server.fresh.after accent).1.db.txMgr.redoFile.written, RoundTrips rec :=
    fun rec hrec => (accent_records rec hrec).1
  obtain ⟨hlog, hcatalog, htx, hrows⟩ :=
    only_transactions_recovered (Runs.after Server.fresh accent) (Server.start_eq hrt)
  exact ⟨hlog, hcatalog, htx, hrows hrt⟩

open Script in
/-- Both changes are acknowledged, and after a crash neither the table nor the row is there. -/
theorem unlogged_changes_lost :
    let w₀ := Server.fresh.step .connect
    let w₁ := w₀.step (.statement 1 "CREATE TABLE t (a INT)")
    let w := (Server.fresh.after unlogged).1
    (handleStatement w₀.db (.new 1) "CREATE TABLE t (a INT)").1 =
        .text "Table 't' created successfully." ∧
      (handleStatement w₁.db (.new 1) "INSERT INTO t VALUES (1)").1 = .text "Inserted 1 row(s)." ∧
      w.world.rows "t" = [⟨[.int 1], none, 0⟩] ∧
      ∃ b, Server.start w.db.txMgr.redoFile = .ok b ∧ b.db.catalog.getSchema "t" = none ∧
        b.world.rows "t" = [] := by
  have hfile : ∀ rec ∈ (Server.fresh.after unlogged).1.db.txMgr.redoFile.written,
      rec ∈ records ∧ rec.isFinite := by decide +kernel
  have hstart := Server.start_eq fun rec hrec => (readable hfile rec hrec).1
  have hrows : (Server.restarted (Server.fresh.after unlogged).1.db.txMgr.redoFile).world.rows "t" =
      [] := by decide +kernel
  exact ⟨by decide +kernel, by decide +kernel, by decide +kernel, _, hstart, rfl, hrows⟩

section Owners

variable [BuildProfile] [Unicode] [SqlParser] [ComfyTable] [SerdeJson]
  {w b : Server} {h : List DbEvent}

/--
The transaction of a connected session is active and is no other session's. A
transaction is active as long as neither the records read at the start nor the
run since have finished it, whether it has a session or not.
-/
theorem active_iff_unfinished {file : RedoFile} (hb : Server.start file = .ok b)
    (hr : Runs free b w h) :
    (∀ id s i, w.sessions.lookup id = some s → s.currentTxId = some i →
      w.db.txMgr.statuses.lookup i = some .active) ∧
    (∀ id id' s s' i, w.sessions.lookup id = some s → w.sessions.lookup id' = some s' →
      s.currentTxId = some i → s'.currentTxId = some i → id = id') ∧
    ∃ recs, parseLines (lines file.bytes) = .ok recs ∧ ∀ i,
      w.db.txMgr.statuses.lookup i = some .active ↔
        Unfinished (recs.map RedoRecord.event ++ h) i := by
  obtain ⟨recs, hrec⟩ := Server.start_recovered hb
  have hr₁ : Reaches free b.world w.world h := hr.reached
  have htracks := Tracks.of_reaches hrec.opens hr₁
  have hstatus (i : ℕ) : w.db.txMgr.statuses.lookup i =
      statusIn h i (b.db.txMgr.statuses.lookup i) := hr₁.statuses i
  refine ⟨fun id s i hs hi => ?_, fun id id' s s' i hs hs' hi hi' => ?_, recs, hrec.parsed,
    fun i => ?_⟩
  · rw [hstatus]
    exact statusIn_open htracks.legal _ (htracks.opened id i (Reached.opens_of_session hs hi))
  · exact htracks.owner_unique id id' i (Reached.opens_of_session hs hi)
      (Reached.opens_of_session hs' hi')
  · rw [hstatus, hrec.lookup_statuses, ← statusIn_eq_active, statusIn, statusIn, statusIn,
      List.foldl_append]

end Owners

theorem Sample.second_start :
    Server.start (Server.fresh.after Sample.firstLife).1.db.txMgr.redoFile = .ok Sample.second := by
  have hfile : ∀ rec ∈ (Server.fresh.after Sample.firstLife).1.db.txMgr.redoFile.written,
      rec ∈ Sample.records := by decide +kernel
  exact Server.start_eq fun rec hrec => Sample.roundTrips rec (hfile rec hrec)

open Sample in
theorem active_iff_unfinished_sample :
    let w := second.after secondLife
    (∀ id s i, w.1.sessions.lookup id = some s → s.currentTxId = some i →
      w.1.db.txMgr.statuses.lookup i = some .active) ∧
    (∀ id id' s s' i, w.1.sessions.lookup id = some s → w.1.sessions.lookup id' = some s' →
      s.currentTxId = some i → s'.currentTxId = some i → id = id') ∧
    ∃ recs, parseLines (lines (Server.fresh.after firstLife).1.db.txMgr.redoFile.bytes) = .ok recs ∧
      ∀ i, w.1.db.txMgr.statuses.lookup i = some .active ↔
        Unfinished (recs.map RedoRecord.event ++ w.2) i :=
  active_iff_unfinished second_start (Runs.after second secondLife)

open Sample in
/-- A session leaves an active transaction behind, and so does a crash. -/
theorem active_without_session :
    let w := (Server.fresh.after [.connect, .statement 1 "BEGIN", .disconnect 1]).1
    (w.db.txMgr.statuses.lookup 1 = some .active ∧ w.sessions = ∅) ∧
      Server.start (Server.fresh.after firstLife).1.db.txMgr.redoFile = .ok second ∧
      second.db.txMgr.statuses.lookup 1 = some .active ∧ second.sessions = ∅ :=
  ⟨⟨by decide +kernel, AList.ext (by decide +kernel)⟩, second_start, by decide +kernel, rfl⟩

end VolcanoDb
