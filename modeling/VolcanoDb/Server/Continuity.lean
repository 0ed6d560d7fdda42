import VolcanoDb.Server.Isolation
import VolcanoDb.Server.Restarts

/-! # Reading over a crash

The rows of transactions in memory are those that the log records, tuple by tuple, and
recovery rebuilds the ones that have committed. A reader of committed rows finds the
same tuples before a crash and after it.
-/

namespace VolcanoDb

open History

section Rows

variable {w : World} {h : List DbEvent}

theorem Reached.logged_rows (hr : Reached KeepsPositions w h) (name : String) :
    (w.rows name).filter (fun t => t.txId.isSome) =
      (w.db.txMgr.log.filterMap (Replay.rowOf name)).filter fun t => Kept h t.txId := by
  induction hr with
  | refl => rfl
  | @act w w' h es hr ha hG ih =>
    obtain ⟨new, recs, htagged, hrows, hlog, hnew⟩ := ha.rows_eq (Reached.indexed hr) name
    have hold : ((w.rows name).filter fun t => Kept es t.txId).filter (fun t => t.txId.isSome) =
        (w.db.txMgr.log.filterMap (Replay.rowOf name)).filter fun t => Kept (h ++ es) t.txId := by
      rw [List.filter_comm, ih, List.filter_filter]
      apply List.filter_congr
      intro t _
      rw [← Bool.decide_and, decide_eq_decide, kept_append_iff, and_comm]
    have hstay : (new.filter fun t => t.txId.isSome).filter (fun t => Kept (h ++ es) t.txId) =
        new.filter fun t => t.txId.isSome := by
      apply List.filter_eq_self.mpr
      intro t ht
      have hmem : t.tagged ∈ writesTo name es :=
        htagged ▸ List.mem_map_of_mem (List.mem_filter.mp ht).1
      exact decide_eq_true (ha.kept (Reached.tracks hr) (mem_writesTo.mp hmem))
    rw [hrows, hlog, List.filter_append, hold, List.filterMap_append, List.filter_append, ← hnew,
      hstay]

theorem rebuilt_lookup (file : RedoFile) (name : String) :
    ((rebuilt file).1.lookup name).getD [] =
      (file.written.filterMap (Replay.rowOf name)).filter fun t =>
        t.txId.elim true fun i => .commit i ∈ file.written.map RedoRecord.event ∧
          .abort i ∉ file.written.map RedoRecord.event := by
  unfold rebuilt
  split
  · rename_i hnil
    rw [hnil]
    rfl
  have hrows := Replay.lookup_tables file.written ⟨∅, .new file, ∅, ∅, 0⟩ name
  rw [AList.lookup_empty, Option.getD_none, List.nil_append] at hrows
  rw [← hrows, Replay.finish, FinMap.lookup_mapValues]
  rcases AList.lookup name (file.written.foldl Replay.record ⟨∅, .new file, ∅, ∅, 0⟩).tables
    with _ | rows
  · rfl
  · apply List.filter_congr
    intro t _
    rcases ht : t.txId with _ | i <;>
      simp [Replay.keep, ht, Replay.mem_committed, Replay.mem_rolledBack]

theorem Replay.txId_of_rowOf {name : String} {rec : RedoRecord} {t : Tuple}
    (h : Replay.rowOf name rec = some t) : t.txId = some rec.txId := by
  cases rec with
  | insert txId scn tableName values rowIdx =>
    simp only [Replay.rowOf, Option.ite_none_right_eq_some, Option.some.injEq] at h
    rw [← h.2]
    rfl
  | begin | commit | rollback => cases h

/--
What everyone is shown of a table that only transactions have written is, tuple by tuple
and in order, what recovery rebuilds of it.
-/
theorem Reached.committed_rows (hr : Reached KeepsPositions w h) {name : String}
    (hnone : ∀ vals, .write none (name, vals) ∉ h) :
    (w.rows name).filter (fun t => Shown h none t.txId) =
      (Server.restarted w.db.txMgr.redoFile).world.rows name := by
  have hlegal : Legal h := (Reached.tracks hr).legal
  have howned : (w.rows name).filter (fun t => t.txId.isSome) = w.rows name := by
    apply List.filter_eq_self.mpr
    intro t ht
    have hw := mem_writesTo.mp ((Reached.rows hr name).subset (List.mem_map_of_mem ht))
    rcases ho : t.txId with _ | i
    · rw [ho] at hw
      exact absurd hw (hnone _)
    · rfl
  have hshown : ((w.db.txMgr.log.filterMap (Replay.rowOf name)).filter
      fun t => Kept h t.txId).filter (fun t => Shown h none t.txId) =
      (w.db.txMgr.log.filterMap (Replay.rowOf name)).filter fun t => Shown h none t.txId := by
    rw [List.filter_filter]
    apply List.filter_congr
    intro t _
    rw [← Bool.decide_and, decide_eq_decide]
    exact and_iff_left_of_imp (Shown.kept hlegal (by rintro i ⟨⟩))
  have hbuffer : (w.db.txMgr.redoBuffer.filterMap (Replay.rowOf name)).filter
      (fun t => Shown h none t.txId) = [] := by
    apply List.filter_eq_nil_iff.mpr
    intro t ht hs
    obtain ⟨rec, hrec, hrow⟩ := List.mem_filterMap.mp ht
    have hnot : ¬ Shown h none (some rec.txId) :=
      not_shown_of_open (Reached.buffer_open hr rec hrec) (by simp)
    rw [← Replay.txId_of_rowOf hrow] at hnot
    exact hnot (of_decide_eq_true hs)
  have hwinners : (w.db.txMgr.redoFile.written.filterMap (Replay.rowOf name)).filter
      (fun t => Shown h none t.txId) =
      (Server.restarted w.db.txMgr.redoFile).world.rows name := by
    refine Eq.trans ?_ (rebuilt_lookup w.db.txMgr.redoFile name).symm
    apply List.filter_congr
    intro t ht
    obtain ⟨rec, hrec, hrow⟩ := List.mem_filterMap.mp ht
    have hd := Reached.durable hr
    have hcommit := hd.commit_iff (i := rec.txId)
    rw [Replay.txId_of_rowOf hrow, Option.elim_some, decide_eq_decide, hcommit]
    constructor
    · rintro (hown | hc)
      · cases hown
      · exact ⟨hc, (hd.legal hlegal).not_abort (hcommit.mpr hc)⟩
    · exact fun hc => .inr hc.1
  calc (w.rows name).filter (fun t => Shown h none t.txId)
      = ((w.rows name).filter fun t => t.txId.isSome).filter (fun t => Shown h none t.txId) := by
        rw [howned]
    _ = (w.db.txMgr.log.filterMap (Replay.rowOf name)).filter (fun t => Shown h none t.txId) := by
        rw [hr.logged_rows name, hshown]
    _ = (w.db.txMgr.redoFile.written.filterMap (Replay.rowOf name)).filter
          (fun t => Shown h none t.txId) := by
        rw [TransactionManager.log, List.filterMap_append, List.filter_append, hbuffer,
          List.append_nil]
    _ = (Server.restarted w.db.txMgr.redoFile).world.rows name := hwinners

theorem Reached.restarted_visible {G : World → DbEvent → Prop} (hr : Reached G w h) {name : String}
    {t : Tuple} (ht : t ∈ (Server.restarted w.db.txMgr.redoFile).world.rows name)
    (reader : Option ℕ) : (rebuilt w.db.txMgr.redoFile).2.isVisible t.txId reader
      (rebuilt w.db.txMgr.redoFile).2.scn := by
  change t ∈ ((rebuilt w.db.txMgr.redoFile).1.lookup name).getD [] at ht
  rw [rebuilt_lookup] at ht
  obtain ⟨hrow, hwinner⟩ := List.mem_filter.mp ht
  obtain ⟨rec, -, hrec⟩ := List.mem_filterMap.mp hrow
  rw [Replay.txId_of_rowOf hrec, Option.elim_some, decide_eq_true_eq] at hwinner
  have hlegal := hr.durable.legal (Reached.tracks hr).legal
  obtain ⟨hst, n, hn, hle⟩ := rebuilt_visible (hlegal.lastCommit hwinner.1)
  rw [Replay.txId_of_rowOf hrec]
  exact TransactionManager.isVisible_of_committed hst hn hle reader

theorem Reaches.idle {G : World → DbEvent → Prop} {w₀ : World} (hr : Reaches G w₀ w h)
    (hnil : h = []) : w.db.txMgr = w₀.db.txMgr ∧ ∀ name, w.rows name = w₀.rows name := by
  induction hr with
  | refl => exact ⟨rfl, fun _ => rfl⟩
  | @act w w' h es hr ha _ ih =>
    obtain ⟨rfl, rfl⟩ := List.append_eq_nil_iff.mp hnil
    obtain ⟨htxMgr, hrows⟩ := ih rfl
    cases ha with
    | @createTable tableName schema hs =>
      refine ⟨htxMgr, fun name => ?_⟩
      rw [← hrows name]
      by_cases hn : name = tableName
      · subst hn
        rcases hl : w.db.tables.lookup name with _ | rows <;>
          simp [World.rows, DatabaseState.createTable, FinMap.lookup_orInsert, hl]
      · simp [World.rows, DatabaseState.createTable, FinMap.lookup_orInsert, hn]
    | release ho => exact ⟨htxMgr, hrows⟩

end Rows

section Replies

variable [BuildProfile] [Unicode] [SqlParser] [ComfyTable] [SerdeJson]

/--
A crash goes unnoticed by readers. When a server has started from the redo file and the
tables have been created again, before a transaction begins or writes, every query over
tables that only transactions have written is answered as it was answered before the
crash to a session without a transaction, be the answer rows, an error or a panic.
Groups may come in another order, as in any two executions.
-/
theorem crash_unnoticed {c c' : Collections} (hstd : SameStd c c') {w b b' : Server}
    {h : List DbEvent} (hr : Runs KeepsPositions Server.fresh w h)
    (hrt : ∀ rec ∈ w.db.txMgr.redoFile.written, RoundTrips rec)
    (hb : Server.start w.db.txMgr.redoFile = .ok b) (hr' : Runs free b b' [])
    {session session' : SessionState} (htx : session.currentTxId = none)
    {sql : String} (hc : ¬ IsControl sql) {plan : LogicalPlan}
    (hbind : bindStatement sql w.db.catalog = .ok (.query plan))
    (hagain : ∀ name ∈ plan.scans, b'.db.catalog.getSchema name = w.db.catalog.getSchema name)
    (hnone : ∀ name ∈ plan.scans, ∀ vals, .write none (name, vals) ∉ h) :
    RepliesAlike plan (@innerHandle _ _ c _ _ w.db session sql).1
      (@innerHandle _ _ c' _ _ b'.db session' sql).1 := by
  have hr₁ : Reached KeepsPositions w.world h := hr.keeps
  obtain rfl := Except.ok.inj (hb.symm.trans (Server.start_eq hrt))
  have hr₂ : Reaches free (Server.restarted w.db.txMgr.redoFile).world b'.world [] := hr'.reached
  obtain ⟨htxMgr, hrows⟩ := hr₂.idle rfl
  have hbind' : bindStatement sql b'.db.catalog = .ok (.query plan) :=
    bindStatement_congr hbind fun name hn => (hagain name hn).symm
  have halike : LooksAlike plan (b'.readContext session') (w.readContext session)
      b'.db.catalog w.db.catalog := by
    refine ⟨hagain, fun name hn => ?_⟩
    have hcreated := bindStatement_scans hbind name hn
    have hstored := Reaches.stored hr₁ (by rintro _ ⟨⟩) name hcreated
    have hstored' : (b'.db.tables.lookup name).isSome :=
      Reaches.stored hr₂ (by rintro _ ⟨⟩) name (hagain name hn ▸ hcreated)
    obtain ⟨rows, hlookup⟩ := Option.isSome_iff_exists.mp hstored'
    have hsame : rows = (Server.restarted w.db.txMgr.redoFile).world.rows name := by
      rw [← hrows name, World.rows, Server.world, hlookup]
      rfl
    have hvisible : visibleRows (b'.readContext session') rows = rows := by
      apply List.filter_eq_self.mpr
      intro t ht
      change b'.db.txMgr.isVisible t.txId session'.currentTxId b'.db.txMgr.scn
      rw [show b'.db.txMgr = (rebuilt w.db.txMgr.redoFile).2 from htxMgr]
      exact hr₁.restarted_visible (hsame ▸ ht) _
    have hshown : (w.readContext session).reads name = some rows := by
      rw [hr₁.reads_eq_rows session hstored, htx, hr₁.committed_rows (hnone name hn)]
      exact congrArg some hsame.symm
    rw [hshown]
    change (b'.db.tables.lookup name).map (visibleRows (b'.readContext session')) = some rows
    rw [hlookup, Option.map_some, hvisible]
  rw [query_reply hc hbind, query_reply hc hbind']
  exact runQuery_alike hstd halike

end Replies

namespace Reading

scoped instance serde : SerdeJson := Sample.serde

def restarted : Server :=
  ((Server.restarted first.db.txMgr.redoFile).after
    [.connect, .statement 1 "CREATE TABLE t (a INT)"]).1

theorem restarted_runs :
    Runs free (Server.restarted first.db.txMgr.redoFile) restarted [] := by
  have hnil : ((Server.restarted first.db.txMgr.redoFile).after
      [.connect, .statement 1 "CREATE TABLE t (a INT)"]).2 = [] := by decide +kernel
  exact hnil ▸ Runs.after (Server.restarted first.db.txMgr.redoFile) _

end Reading

open Reading in
theorem crash_unnoticed_sample :
    RepliesAlike plan
      (@innerHandle _ _ insertionCollections _ _ first.db ⟨2, none, 0⟩ "SELECT a FROM t").1
      (@innerHandle _ _ backwards _ _ restarted.db ⟨1, none, 0⟩ "SELECT a FROM t").1 := by
  have hfile : ∀ rec ∈ first.db.txMgr.redoFile.written, rec ∈ Sample.records := by decide +kernel
  have hrt (rec : RedoRecord) (hrec : rec ∈ first.db.txMgr.redoFile.written) : RoundTrips rec :=
    Sample.roundTrips rec (hfile rec hrec)
  have hhistory : (Server.fresh.after before).2 = [.begin 1, .write (some 1) ("t", [.int 1]),
      .commit 1, .begin 2, .write (some 2) ("t", [.int 2])] := by decide +kernel
  refine crash_unnoticed sameStd_backwards first_runs hrt (Server.start_eq hrt) restarted_runs rfl
    not_control (bound (by decide +kernel)) (by decide +kernel) fun name _ vals => ?_
  simp [hhistory]

end VolcanoDb
