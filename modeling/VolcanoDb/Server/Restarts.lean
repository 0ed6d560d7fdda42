import VolcanoDb.Server.Lifetime

/-! # Crashes and restarts

A crash ends a lifetime after any statement; only the redo file is left. The
next process recovers from it. What the file holds of a lifetime is a durable
part of its history.
-/

namespace VolcanoDb

open History

section Start

variable {file : RedoFile}

/-- The process that recovers from a readable redo file. -/
def Server.restarted (file : RedoFile) : Server :=
  ⟨⟨.new, (rebuilt file).1, (rebuilt file).2⟩, ∅, 1, false⟩

@[simp] theorem Server.restarted_opens (id : ℕ) :
    (Server.restarted file).world.opens id = none := rfl

@[simp] theorem Server.restarted_redoFile :
    (Server.restarted file).world.db.txMgr.redoFile = file := by
  obtain ⟨scn, statuses, commitScns, h⟩ := rebuilt_txMgr file
  exact congrArg TransactionManager.redoFile h

@[simp] theorem Server.restarted_redoBuffer :
    (Server.restarted file).world.db.txMgr.redoBuffer = [] := by
  obtain ⟨scn, statuses, commitScns, h⟩ := rebuilt_txMgr file
  exact congrArg TransactionManager.redoBuffer h

@[simp] theorem Server.restarted_log :
    (Server.restarted file).world.db.txMgr.log = file.written := by
  rw [TransactionManager.log, restarted_redoFile, restarted_redoBuffer, List.append_nil]

variable [SerdeJson]

theorem redoLine_ne_nil (rec : RedoRecord) : redoLine rec ≠ [] := by simp [redoLine]

theorem Server.start_eq (hrt : ∀ rec ∈ file.written, RoundTrips rec) :
    Server.start file = .ok (.restarted file) := by
  have hrec : instanceRecovery file = .ok (rebuilt file) := by
    unfold instanceRecovery
    split
    · exact recover_eq hrt
    · rename_i hbytes
      have hnil : file.written = [] := by
        rcases hw : file.written with _ | ⟨rec, recs⟩
        · rfl
        · simp [RedoFile.bytes, hw, redoLine_ne_nil] at hbytes
      simp [rebuilt, hnil]
  rw [Server.start, hrec]
  rfl

end Start

/-- The file of a lifetime holds what it held at the start and a durable part of the history. -/
theorem Reaches.durable {G : World → DbEvent → Prop} {w₀ w : World} {h : List DbEvent}
    (hr : Reaches G w₀ w h) (ho : ∀ id, w₀.opens id = none) (hb : w₀.db.txMgr.redoBuffer = []) :
    ∃ f, w.db.txMgr.redoFile.written.map RedoRecord.event =
      w₀.db.txMgr.redoFile.written.map RedoRecord.event ++ f ∧ Durable h f := by
  obtain ⟨recs, hrecs⟩ := hr.file
  refine ⟨recs.map RedoRecord.event, by rw [← hrecs, List.map_append],
    w.db.txMgr.redoBuffer.map RedoRecord.event, ?_, ?_⟩
  · have hlog := hr.log
    simp only [TransactionManager.log, hb, ← hrecs, List.append_nil, List.map_append,
      List.append_assoc] at hlog
    exact (List.append_cancel_left hlog).symm
  · intro e he i hi
    obtain ⟨r, hrb, rfl⟩ := List.mem_map.mp he
    rw [RedoRecord.owner_event] at hi
    obtain rfl := Option.some.inj hi
    exact hr.buffer_open ho hb r hrb

namespace Reached

variable {G : World → DbEvent → Prop} {w : World} {h : List DbEvent}

theorem durable (hr : Reached G w h) :
    Durable h (w.db.txMgr.redoFile.written.map RedoRecord.event) := by
  obtain ⟨f, hf, hd⟩ := Reaches.durable hr (fun _ => rfl) rfl
  have hevents : w.db.txMgr.redoFile.written.map RedoRecord.event = f := hf
  exact hevents ▸ hd

theorem restarted_rows (hr : Reached G w h) (name : String) :
    ((Server.restarted w.db.txMgr.redoFile).world.rows name).map Tuple.tagged =
      rowsTo name (committedWrites h) := by
  have hlegal := hr.durable.legal hr.tracks.legal
  calc ((Server.restarted w.db.txMgr.redoFile).world.rows name).map Tuple.tagged
      = rowsTo name (winners (w.db.txMgr.redoFile.written.map RedoRecord.event)) :=
        rebuilt_rows _ name
    _ = rowsTo name (committedWrites (w.db.txMgr.redoFile.written.map RedoRecord.event)) := by
        rw [hlegal.winners_eq]
    _ = rowsTo name (committedWrites h) := by rw [hr.durable.committedWrites_eq]

end Reached

/-- The clock stamps the records of the log in order, and commits strictly so. -/
structure Clocked (tm : TransactionManager) : Prop where
  ordered : tm.log.Pairwise fun r r' => r.scn ≤ r'.scn
  commits : tm.log.Pairwise fun r r' => ∀ i j, r.event = .commit i → r'.event = .commit j →
    r.scn < r'.scn
  le_scn : ∀ r ∈ tm.log, r.scn ≤ tm.scn

theorem Clocked.act {w w' : World} {es : List DbEvent} (hc : Clocked w.db.txMgr)
    (ha : Act w es w') : Clocked w'.db.txMgr := by
  obtain ⟨rec, hlog, -, hle, hrec⟩ := ha.logged
  constructor
  · rw [hlog, List.pairwise_append]
    refine ⟨hc.ordered, by cases rec <;> simp, fun r hr r' hr' => ?_⟩
    rw [(hrec r' (by simpa using hr')).1]
    exact (hc.le_scn r hr).trans hle
  · rw [hlog, List.pairwise_append]
    refine ⟨hc.commits, by cases rec <;> simp, fun r hr r' hr' i j _ hj => ?_⟩
    obtain ⟨hscn, hlt⟩ := hrec r' (by simpa using hr')
    rw [hscn]
    exact (hc.le_scn r hr).trans_lt (hlt j hj)
  · intro r hr
    rcases List.mem_append.mp (hlog ▸ hr) with hr | hr
    · exact (hc.le_scn r hr).trans hle
    · exact (hrec r (by simpa using hr)).1.le

theorem Clocked.reaches {G : World → DbEvent → Prop} {w₀ w : World} {h : List DbEvent}
    (hc : Clocked w₀.db.txMgr) (hr : Reaches G w₀ w h) : Clocked w.db.txMgr := by
  induction hr with
  | refl => exact hc
  | act _ ha _ ih => exact ih.act ha

/-- A restart loses the buffer and sets the clock past the file. -/
theorem Clocked.restarted {tm : TransactionManager} (hc : Clocked tm) :
    Clocked (Server.restarted tm.redoFile).db.txMgr := by
  have hlog : (Server.restarted tm.redoFile).db.txMgr.log = tm.redoFile.written :=
    Server.restarted_log
  have hsub : tm.redoFile.written.Sublist tm.log := List.sublist_append_left ..
  constructor
  · exact hlog ▸ hc.ordered.sublist hsub
  · exact hlog ▸ hc.commits.sublist hsub
  · intro r hr
    exact (scn_lt_rebuilt (hlog ▸ hr)).le

section Lives

variable [BuildProfile] [Unicode] [SqlParser] [ComfyTable] [SerdeJson]

/--
The processes that start one after the other on the same redo file, with the
histories of the lifetimes before them. Every lifetime is a run whose events meet
a condition; it ends with a crash, and what it wrote reads back.
-/
inductive Lives (G : World → DbEvent → Prop) : Server → List (List DbEvent) → Prop where
  | first : Lives G Server.fresh []
  | again {b w b' : Server} {past : List (List DbEvent)} {h : List DbEvent} :
      Lives G b past → Runs G b w h → (∀ rec ∈ w.db.txMgr.redoFile.written, RoundTrips rec) →
      Server.start w.db.txMgr.redoFile = .ok b' → Lives G b' (past ++ [h])

variable {G : World → DbEvent → Prop} {b w : Server} {h : List DbEvent} {past : List (List DbEvent)}

theorem Lives.restarted (hl : Lives G b past) : ∃ file, b = .restarted file := by
  cases hl with
  | first => exact ⟨⟨[]⟩, rfl⟩
  | again _ _ hrt hstart => exact ⟨_, Except.ok.inj (hstart.symm.trans (Server.start_eq hrt))⟩

theorem Lives.after [Collections] (hl : Lives G b past) {es : List Event} (hm : b.Meets G es)
    (hrt : ∀ rec ∈ (b.after es).1.db.txMgr.redoFile.written, RoundTrips rec) :
    Lives G (.restarted (b.after es).1.db.txMgr.redoFile) (past ++ [(b.after es).2]) :=
  hl.again (Runs.refl.of_meets hm) hrt (Server.start_eq hrt)

theorem Lives.clocked (hl : Lives free b past) : Clocked b.db.txMgr := by
  induction hl with
  | first => exact ⟨.nil, .nil, nofun⟩
  | again _ hr hrt hstart ih =>
    have hrun := Clocked.reaches ih hr.reached
    obtain rfl := Except.ok.inj (hstart.symm.trans (Server.start_eq hrt))
    exact hrun.restarted

/--
Recovery from the file that a crash leaves rebuilds the rows of the committed
transactions, in the order of their inserts, and everyone sees them.
-/
theorem recovery_rebuilds_committed (hr : Runs free Server.fresh w h)
    (hrt : ∀ rec ∈ w.db.txMgr.redoFile.written, RoundTrips rec) :
    ∃ b, Server.start w.db.txMgr.redoFile = .ok b ∧
      recover ∅ (.new w.db.txMgr.redoFile) (some w.db.txMgr.redoFile.bytes) =
        .ok (b.db.tables, b.db.txMgr) ∧
      (∀ name, (b.world.rows name).map Tuple.tagged = rowsTo name (committedWrites h)) ∧
      ∀ name, ∀ t ∈ b.world.rows name, ∀ sessionTxId,
        b.db.txMgr.isVisible t.txId sessionTxId b.db.txMgr.scn := by
  have hr₁ : Reached free w.world h := hr.reached
  have hrows := hr₁.restarted_rows
  refine ⟨_, Server.start_eq hrt, recover_eq hrt, hrows, fun name t ht sessionTxId => ?_⟩
  have hmem : t.tagged ∈ rowsTo name (committedWrites h) :=
    hrows name ▸ List.mem_map_of_mem ht
  obtain ⟨⟨i, n, vals⟩, hi, htag⟩ := List.mem_map.mp hmem
  have hcommit : .commit i ∈ w.db.txMgr.redoFile.written.map RedoRecord.event :=
    hr₁.durable.commit_iff.mpr (mem_writesOf.mp (List.mem_filter.mp hi).1).2
  obtain ⟨hst, k, hk, hle⟩ :=
    rebuilt_visible ((hr₁.durable.legal hr₁.tracks.legal).lastCommit hcommit)
  have htx : t.txId = some i := (congrArg Prod.fst htag).symm
  rw [htx]
  exact TransactionManager.isVisible_of_committed hst hk hle sessionTxId

end Lives

namespace Sample

def valueJson : Value → String
  | .int n => "\x7b\"Int\":" ++ toString n.toInt ++ "\x7d"
  | .bool b => "\x7b\"Bool\":" ++ toString b ++ "\x7d"
  | _ => "\"Null\""

def redoJson (rec : RedoRecord) : String :=
  let object (tag : String) (rest : String) := "\x7b\"type\":\"" ++ tag ++ "\",\"tx_id\":" ++
    toString rec.txId ++ ",\"scn\":" ++ toString rec.scn ++ rest ++ "\x7d"
  match rec with
  | .begin _ _ => object "begin" ""
  | .insert _ _ tableName values rowIdx =>
    object "insert" (",\"table_name\":\"" ++ tableName ++ "\",\"values\":[" ++
      ",".intercalate (values.map valueJson) ++ "],\"row_idx\":" ++ toString rowIdx)
  | .commit _ _ => object "commit" ""
  | .rollback _ _ => object "rollback" ""

def records : List RedoRecord := [.begin 1 0, .begin 2 0, .insert 1 0 "t" [.int 1] 0,
  .insert 2 0 "t" [.int 2] 0, .insert 2 0 "t" [.int 2] 1, .commit 1 1, .commit 2 1, .begin 1 2,
  .insert 1 2 "t" [.int 1] 1, .commit 1 3]

scoped instance serde : SerdeJson where
  toJson rec := some (redoJson rec)
  fromJson line := records.find? fun rec => redoJson rec = line

example : redoJson (.insert 1 0 "t" [.int 1] 0) =
    "\x7b\"type\":\"insert\",\"tx_id\":1,\"scn\":0,\"table_name\":\"t\"," ++
      "\"values\":[\x7b\"Int\":1\x7d],\"row_idx\":0\x7d" := by decide +kernel

theorem roundTrips : ∀ rec ∈ records, RoundTrips rec := by
  have hlines : ∀ rec ∈ records, 10 ∉ Text.utf8 (redoJson rec) ∧
      (Text.utf8 (redoJson rec)).getLast? ≠ some 13 ∧ Text.isBlank (redoJson rec) = false ∧
      SerdeJson.fromJson (redoJson rec) = some rec := by decide +kernel
  exact fun rec hrec => ⟨redoJson rec, rfl, hlines rec hrec⟩

/-- The second of two transactions commits, and the first one is open at the crash. -/
def firstLife : List Event := [.connect, .connect, .statement 1 "CREATE TABLE t (a INT)",
  .statement 1 "BEGIN", .statement 2 "BEGIN", .statement 2 "INSERT INTO t VALUES (2)",
  .statement 2 "COMMIT"]

def secondLife : List Event := [.connect, .statement 1 "CREATE TABLE t (a INT)",
  .statement 1 "BEGIN", .statement 1 "INSERT INTO t VALUES (1)", .statement 1 "COMMIT"]

def second : Server := .restarted (Server.fresh.after firstLife).1.db.txMgr.redoFile

def third : Server := .restarted (second.after secondLife).1.db.txMgr.redoFile

def histories : List (List DbEvent) :=
  [(Server.fresh.after firstLife).2, (second.after secondLife).2]

theorem lives {G : World → DbEvent → Prop} (hfst : Server.fresh.Meets G firstLife)
    (hsnd : second.Meets G secondLife) : Lives G third histories := by
  have hone : ∀ rec ∈ (Server.fresh.after firstLife).1.db.txMgr.redoFile.written,
      rec ∈ records := by decide +kernel
  have htwo : ∀ rec ∈ (second.after secondLife).1.db.txMgr.redoFile.written, rec ∈ records := by
    decide +kernel
  have hlives : Lives G second [(Server.fresh.after firstLife).2] :=
    Lives.first.after hfst fun rec hrec => roundTrips rec (hone rec hrec)
  exact hlives.after hsnd fun rec hrec => roundTrips rec (htwo rec hrec)

end Sample

open Sample in
theorem recovery_rebuilds_committed_sample :
    let w := Server.fresh.after Sample.events
    ∃ b, Server.start w.1.db.txMgr.redoFile = .ok b ∧
      recover ∅ (.new w.1.db.txMgr.redoFile) (some w.1.db.txMgr.redoFile.bytes) =
        .ok (b.db.tables, b.db.txMgr) ∧
      (∀ name, (b.world.rows name).map Tuple.tagged = rowsTo name (committedWrites w.2)) ∧
      ∀ name, ∀ t ∈ b.world.rows name, ∀ sessionTxId,
        b.db.txMgr.isVisible t.txId sessionTxId b.db.txMgr.scn := by
  have hmem : ∀ rec ∈ (Server.fresh.after Sample.events).1.db.txMgr.redoFile.written,
      rec ∈ records := by decide +kernel
  exact recovery_rebuilds_committed (.after _ _) fun rec hrec => roundTrips rec (hmem rec hrec)

section Clock

/-- The clock and the stamps along the redo file. -/
structure ScnOrder (tm : TransactionManager) : Prop where
  ordered : tm.redoFile.written.Pairwise fun r r' => r.scn ≤ r'.scn
  commits : tm.redoFile.written.Pairwise fun r r' => ∀ i n j m, r = .commit i n →
    r' = .commit j m → n < m
  le_scn : ∀ r ∈ tm.redoFile.written, r.scn ≤ tm.scn

theorem Clocked.scnOrder {tm : TransactionManager} (hc : Clocked tm) : ScnOrder tm := by
  have hsub : tm.redoFile.written.Sublist tm.log := List.sublist_append_left ..
  constructor
  · exact hc.ordered.sublist hsub
  · apply (hc.commits.sublist hsub).imp
    rintro r r' hlt i n j m rfl rfl
    exact hlt i j rfl rfl
  · intro r hr
    exact hc.le_scn r (hsub.subset hr)

variable [BuildProfile] [Unicode] [SqlParser] [ComfyTable] [SerdeJson]

/--
Over any number of lifetimes the clock stamps the file in order, commits strictly
so, and never falls behind it; a restart sets it past everything in the file.
-/
theorem scn_monotone {b : Server} {past : List (List DbEvent)} (hl : Lives free b past) :
    (∀ r ∈ b.db.txMgr.redoFile.written, r.scn < b.db.txMgr.scn) ∧
      ∀ w h, Runs free b w h → ScnOrder w.db.txMgr := by
  constructor
  · obtain ⟨file, rfl⟩ := hl.restarted
    intro r hr
    have hfile : (Server.restarted file).db.txMgr.redoFile = file := Server.restarted_redoFile
    exact scn_lt_rebuilt (hfile ▸ hr)
  · intro w h hr
    exact (hl.clocked.reaches hr.reached).scnOrder

end Clock

open Sample in
theorem scn_monotone_sample :
    (∀ r ∈ third.db.txMgr.redoFile.written, r.scn < third.db.txMgr.scn) ∧
      ∀ w h, Runs free third w h → ScnOrder w.db.txMgr :=
  scn_monotone (lives (Server.meets_free _ _) (Server.meets_free _ _))

end VolcanoDb
