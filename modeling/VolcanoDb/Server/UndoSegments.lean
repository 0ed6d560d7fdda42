import VolcanoDb.Server.Aftermath

/-! # Undo segments

A segment is created by `BEGIN`, extended by every row that its transaction stores and
removed by `ROLLBACK`; a `COMMIT` leaves it where it is. The segments of a run are
therefore those of all its transactions that have not been rolled back.
-/

namespace VolcanoDb

open History

def UndoRecord.tableName : UndoRecord → String
  | insert tableName _ => tableName

def tableWritten (i : ℕ) : DbEvent → Option String
  | .write owner (name, _) => if owner = some i then some name else none
  | .begin _ | .commit _ | .abort _ => none

/-- The tables to which a history writes rows of a transaction, one entry for each row. -/
def tablesWritten (h : List DbEvent) (i : ℕ) : List String := h.filterMap (tableWritten i)

/-- A transaction has a segment, with a record for each of its rows, until it is aborted. -/
structure Segment (w : World) (h : List DbEvent) (i : ℕ) : Prop where
  entry : (w.db.txMgr.undoSegments.lookup i).isSome ↔ .begin i ∈ h ∧ .abort i ∉ h
  records (records : List UndoRecord) : w.db.txMgr.undoSegments.lookup i = some records →
    records.map UndoRecord.tableName = tablesWritten h i

section Steps

variable {w w' : World} {h es : List DbEvent} {id i : ℕ} {e : DbEvent}

theorem tablesWritten_snoc (h : List DbEvent) (e : DbEvent) (i : ℕ) :
    tablesWritten (h ++ [e]) i = tablesWritten h i ++ (tableWritten i e).toList := by
  rw [tablesWritten, List.filterMap_append, List.filterMap_cons]
  cases tableWritten i e <;> rfl

theorem tablesWritten_eq_nil (habs : ∀ e ∈ h, e.owner ≠ some i) : tablesWritten h i = [] := by
  apply List.filterMap_eq_nil_iff.mpr
  intro e he
  cases e with
  | write owner a => exact if_neg (habs _ he)
  | begin | commit | abort => rfl

theorem Segment.frame (hs : Segment w h i)
    (hsame : w'.db.txMgr.undoSegments.lookup i = w.db.txMgr.undoSegments.lookup i)
    (hb : e ≠ .begin i) (ha : e ≠ .abort i) (hw : tableWritten i e = none) :
    Segment w' (h ++ [e]) i := by
  constructor
  · rw [hsame, hs.entry]
    simp [hb.symm, ha.symm]
  · intro records hlookup
    rw [tablesWritten_snoc, hw, Option.toList_none, List.append_nil]
    exact hs.records records (hsame ▸ hlookup)

theorem Segment.begin (hs : Segment w h i) (ht : Tracks w h) (opens : ℕ → Option ℕ) :
    Segment ⟨w.db.begin.2, opens⟩ (h ++ [.begin w.db.txMgr.nextTxId]) i := by
  by_cases hi : i = w.db.txMgr.nextTxId
  · subst hi
    have hnew : w.db.begin.2.txMgr.undoSegments.lookup w.db.txMgr.nextTxId = some [] :=
      AList.lookup_insert _
    constructor
    · have habort : .abort w.db.txMgr.nextTxId ∉ h := fun hm => ht.next_absent hm rfl
      simp only [hnew]
      simp [habort]
    · intro records hrecords
      obtain rfl := Option.some.inj (hnew.symm.trans hrecords)
      rw [tablesWritten_snoc, tablesWritten_eq_nil fun e he => ht.next_absent he]
      rfl
  · apply hs.frame
    · exact AList.lookup_insert_ne hi
    · rintro ⟨⟩
      exact hi rfl
    · rintro ⟨⟩
    · rfl

theorem Segment.write (hs : Segment w h i) (ht : Tracks w h) (name : String) (rows : List Tuple)
    (vals : List Value) :
    Segment ⟨w.db.pushRow (w.opens id) name rows vals, w.opens⟩
      (h ++ [.write (w.opens id) (name, vals)]) i := by
  by_cases ho : w.opens id = some i
  · have hopen : Open h i := ht.opened id i ho
    obtain ⟨segment, hsegment⟩ :=
      Option.isSome_iff_exists.mp (hs.entry.mpr ⟨hopen.begun, hopen.not_abort⟩)
    have hnew : (w.db.pushRow (w.opens id) name rows vals).txMgr.undoSegments.lookup i =
        some (segment ++ [.insert name rows.length]) := by
      rw [ho, DatabaseState.pushRow_txMgr]
      simp only [TransactionManager.recordInsert, hsegment, Option.getD_some, AList.lookup_insert]
    constructor
    · simp only [hnew]
      simp [hopen.begun, hopen.not_abort]
    · intro records hrecords
      obtain rfl := Option.some.inj (hnew.symm.trans hrecords)
      rw [tablesWritten_snoc, tableWritten, if_pos ho, List.map_append,
        hs.records segment hsegment]
      rfl
  · apply hs.frame
    · dsimp only
      rw [DatabaseState.pushRow_txMgr]
      rcases hid : w.opens id with _ | j
      · rfl
      · have hne : i ≠ j := by
          rintro rfl
          exact ho hid
        exact AList.lookup_insert_ne hne
    · rintro ⟨⟩
    · rintro ⟨⟩
    · exact if_neg ho

theorem Segment.abort (hs : Segment w h i) (txId : ℕ) (opens : ℕ → Option ℕ) :
    Segment ⟨w.db.rollback txId, opens⟩ (h ++ [.abort txId]) i := by
  by_cases hi : i = txId
  · subst hi
    have hnone : (w.db.rollback i).txMgr.undoSegments.lookup i = none := by
      rw [DatabaseState.rollback_txMgr]
      exact AList.lookup_erase i _
    constructor
    · simp only [hnone]
      simp
    · intro records hrecords
      cases hnone.symm.trans hrecords
  · apply hs.frame
    · dsimp only
      rw [DatabaseState.rollback_txMgr]
      exact AList.lookup_erase_ne hi
    · rintro ⟨⟩
    · rintro ⟨⟩
      exact hi rfl
    · rfl

theorem Segment.act (hs : Segment w h i) (ht : Tracks w h) (ha : Act w es w') :
    Segment w' (h ++ es) i := by
  cases ha with
  | begin ho => exact hs.begin ht _
  | write hschema hrows hlen => exact hs.write ht _ _ _
  | commit ho =>
    apply hs.frame
    · simp only [DatabaseState.commit_txMgr, TransactionManager.commit_eq]
    · rintro ⟨⟩
    · rintro ⟨⟩
    · rfl
  | rollback ho => exact hs.abort _ _
  | createTable hnew =>
    rw [List.append_nil]
    exact ⟨hs.entry, hs.records⟩
  | release ho =>
    rw [List.append_nil]
    exact ⟨hs.entry, hs.records⟩

/-- A server that starts without sessions and segments has the segments of its runs. -/
theorem Reaches.segment {G : World → DbEvent → Prop} {w₀ : World} (ho : ∀ id, w₀.opens id = none)
    (hempty : w₀.db.txMgr.undoSegments = ∅) (hr : Reaches G w₀ w h) (i : ℕ) : Segment w h i := by
  induction hr with
  | refl =>
    constructor
    · simp [hempty]
    · intro records hlookup
      rw [hempty] at hlookup
      cases hlookup
  | act hr ha _ ih => exact ih.act (Tracks.of_reaches ho hr) ha

end Steps

theorem statusIn_active_iff {h : List DbEvent} {i : ℕ} (hl : Legal h) (base : Option TxStatus) :
    statusIn h i base = some .active ↔ Open h i ∨ .begin i ∉ h ∧ base = some .active := by
  by_cases hb : .begin i ∈ h
  · simp only [hb, not_true_eq_false, false_and, or_false]
    constructor
    · intro hactive
      obtain ⟨hcommit, habort⟩ := statusIn_ended hl base
      constructor
      · exact hb
      · intro hc
        rw [hcommit hc] at hactive
        cases hactive
      · intro ha
        rw [habort ha] at hactive
        cases hactive
    · exact statusIn_open hl base
  · have habs : ∀ e ∈ h, e.owner ≠ some i := fun e he ho => hb (hl.begun he ho)
    rw [statusIn_absent habs]
    constructor
    · exact fun hbase => .inr ⟨hb, hbase⟩
    · rintro (hopen | ⟨-, hbase⟩)
      · exact absurd hopen.begun hb
      · exact hbase

section Runs

variable [SerdeJson] {file : RedoFile} {b : Server}

omit [SerdeJson] in
theorem Replay.foldl_undoSegments (recs : List RedoRecord) (r : Replay) :
    (recs.foldl record r).txMgr.undoSegments = r.txMgr.undoSegments := by
  induction recs generalizing r with
  | nil => rfl
  | cons rec recs ih =>
    rw [List.foldl_cons, ih]
    cases rec <;> rfl

theorem Server.start_undoSegments (hb : Server.start file = .ok b) :
    b.db.txMgr.undoSegments = ∅ := by
  obtain ⟨⟨tables, txMgr⟩, hrec, hb⟩ := Result.bind_eq_ok.mp hb
  cases hb
  unfold instanceRecovery at hrec
  split at hrec
  · obtain ⟨recs, -, hrec⟩ := Result.bind_eq_ok.mp hrec
    split at hrec
    · cases hrec
      rfl
    · cases hrec
      exact Replay.foldl_undoSegments recs _
  · cases hrec
    rfl

/-- The transactions with segments are the active ones, and their records those of their rows. -/
structure UndoBookkeeping (w : Server) (h : List DbEvent) : Prop where
  entries (i : ℕ) : (w.db.txMgr.undoSegments.lookup i).isSome ↔
    w.db.txMgr.statuses.lookup i = some .active
  records (i : ℕ) (records : List UndoRecord) : w.db.txMgr.undoSegments.lookup i = some records →
    records.map UndoRecord.tableName = tablesWritten h i

variable [BuildProfile] [Unicode] [SqlParser] [ComfyTable] {w : Server}
  {h : List DbEvent}

/--
The segments of a run are those of its active transactions if and only if none has
committed and every transaction that recovery left active has been begun again.
-/
theorem undo_bookkeeping_iff (hb : Server.start file = .ok b) (hr : Runs free b w h) :
    UndoBookkeeping w h ↔ (∀ i, .commit i ∉ h) ∧
      ∀ i, b.db.txMgr.statuses.lookup i = some .active → .begin i ∈ h := by
  obtain ⟨recs, hrec⟩ := Server.start_recovered hb
  have hr₁ : Reaches free b.world w.world h := hr.reaches readsFile_free
  have hl : Legal h := (Tracks.of_reaches hrec.opens hr₁).legal
  have hsegment (i : ℕ) : Segment w.world h i :=
    hr₁.segment hrec.opens (Server.start_undoSegments hb) i
  have hactive (i : ℕ) : w.db.txMgr.statuses.lookup i = some .active ↔
      Open h i ∨ .begin i ∉ h ∧ b.db.txMgr.statuses.lookup i = some .active :=
    (hr₁.statuses i).symm ▸ statusIn_active_iff hl _
  have hentry (i : ℕ) : (w.db.txMgr.undoSegments.lookup i).isSome ↔ .begin i ∈ h ∧ .abort i ∉ h :=
    (hsegment i).entry
  constructor
  · rintro ⟨hentries, -⟩
    constructor
    · intro i hcommit
      have hsome := (hentry i).mpr ⟨hl.begun hcommit rfl, hl.not_abort hcommit⟩
      rcases (hactive i).mp ((hentries i).mp hsome) with hopen | ⟨hbegin, -⟩
      · exact hopen.not_commit hcommit
      · exact hbegin (hl.begun hcommit rfl)
    · intro i hbase
      by_contra hbegin
      have hsome := (hentries i).mpr ((hactive i).mpr (.inr ⟨hbegin, hbase⟩))
      exact hbegin ((hentry i).mp hsome).1
  · rintro ⟨hcommit, hbegun⟩
    refine ⟨fun i => ?_, fun i => (hsegment i).records⟩
    rw [hentry, hactive]
    constructor
    · rintro ⟨hbegin, habort⟩
      exact .inl ⟨hbegin, hcommit i, habort⟩
    · rintro (hopen | ⟨hbegin, hbase⟩)
      · exact ⟨hopen.begun, hopen.not_abort⟩
      · exact absurd (hbegun i hbase) hbegin

end Runs

namespace Sample

def twoOpen : List Event :=
  Sample.events.dropLast ++ [.statement 1 "INSERT INTO t VALUES (1), (2, 3)"]

end Sample

open Sample

theorem undo_bookkeeping_open :
    let w := Server.fresh.after Sample.twoOpen
    UndoBookkeeping w.1 w.2 ∧ w.1.db.txMgr.undoSegments.lookup 1 =
      some [.insert "t" 0, .insert "t" 2] := by
  intro w
  have hcommit : (w.2.all fun e => e matches .begin _ | .write _ _) = true := by decide +kernel
  refine ⟨(undo_bookkeeping_iff Server.start_nil (Runs.after Server.fresh Sample.twoOpen)).mpr
    ⟨?_, ?_⟩, by decide +kernel⟩
  · intro i hi
    cases List.all_eq_true.mp hcommit _ hi
  · rintro i ⟨⟩

/-- A committed transaction keeps its segment. -/
theorem commit_keeps_segment :
    let w := Server.fresh.after Sample.events
    Server.start ⟨[]⟩ = .ok Server.fresh ∧ Runs free Server.fresh w.1 w.2 ∧
      w.1.db.txMgr.undoSegments.lookup 1 = some [.insert "t" 0] ∧
      w.1.db.txMgr.statuses.lookup 1 = some .committed ∧ ¬ UndoBookkeeping w.1 w.2 := by
  intro w
  have hsegment : w.1.db.txMgr.undoSegments.lookup 1 = some [.insert "t" 0] := by decide +kernel
  have hstatus : w.1.db.txMgr.statuses.lookup 1 = some .committed := by decide +kernel
  refine ⟨Server.start_nil, Runs.after Server.fresh Sample.events, hsegment, hstatus, ?_⟩
  intro hkeeps
  have hactive := (hkeeps.entries 1).mp (by rw [hsegment]; rfl)
  cases hstatus.symm.trans hactive

end VolcanoDb
