import VolcanoDb.Lib.Snapshot
import VolcanoDb.Server.Atomicity
import VolcanoDb.Server.Queries
import VolcanoDb.Server.Undo

/-! # Isolation

What a query reads is the snapshot of the history for its session, as long as
rollbacks find the rows that they undo. Nothing else of the database enters its
reply, so work of others that has not committed goes unnoticed.
-/

namespace VolcanoDb

open History

section Plans

variable {ctx ctx' : ExecutionContext} {catalog catalog' : Catalog} {plan : LogicalPlan}

/-- The rows of a table that a context shows, if the table is stored. -/
def ExecutionContext.reads (ctx : ExecutionContext) (tableName : String) : Option (List Tuple) :=
  (ctx.tables.lookup tableName).map (visibleRows ctx)

/-- Two databases with the same schemas and visible rows of the tables that a plan scans. -/
structure LooksAlike (plan : LogicalPlan) (ctx ctx' : ExecutionContext)
    (catalog catalog' : Catalog) : Prop where
  schemas : ∀ name ∈ plan.scans, catalog.getSchema name = catalog'.getSchema name
  rows : ∀ name ∈ plan.scans, ctx.reads name = ctx'.reads name

theorem LooksAlike.left {left right : LogicalPlan} {condition : Option Expr}
    (h : LooksAlike (.join left right condition) ctx ctx' catalog catalog') :
    LooksAlike left ctx ctx' catalog catalog' :=
  ⟨fun name hn => h.schemas name (List.mem_append_left _ hn),
    fun name hn => h.rows name (List.mem_append_left _ hn)⟩

theorem LooksAlike.right {left right : LogicalPlan} {condition : Option Expr}
    (h : LooksAlike (.join left right condition) ctx ctx' catalog catalog') :
    LooksAlike right ctx ctx' catalog catalog' :=
  ⟨fun name hn => h.schemas name (List.mem_append_right _ hn),
    fun name hn => h.rows name (List.mem_append_right _ hn)⟩

theorem LogicalPlan.schema_congr
    (h : ∀ name ∈ plan.scans, catalog.getSchema name = catalog'.getSchema name) :
    plan.schema catalog = plan.schema catalog' := by
  induction plan with
  | dummyScan => rfl
  | scan tableName aliasName =>
    rw [schema, schema, h tableName (List.mem_singleton_self _)]
  | filter child _ ih | limit child _ _ ih | sort child _ ih => exact ih h
  | project child _ ih | agg child _ _ ih => simp only [schema, ih h]
  | join left right condition ihl ihr =>
    simp only [schema, ihl fun name hn => h name (List.mem_append_left _ hn),
      ihr fun name hn => h name (List.mem_append_right _ hn)]

theorem buildExecutor_congr
    (h : ∀ name ∈ plan.scans, catalog.getSchema name = catalog'.getSchema name) :
    buildExecutor catalog plan = buildExecutor catalog' plan := by
  induction plan with
  | dummyScan => rfl
  | scan tableName aliasName => rfl
  | filter child _ ih | sort child _ ih | project child _ ih | agg child _ _ ih =>
    simp only [buildExecutor, ih h, child.schema_congr h]
  | limit child _ _ ih => simp only [buildExecutor, ih h]
  | join left right condition ihl ihr =>
    simp only [buildExecutor, LogicalPlan.schema_congr h,
      ihl fun name hn => h name (List.mem_append_left _ hn),
      ihr fun name hn => h name (List.mem_append_right _ hn)]

theorem LogicalPlan.scans_isSome {schema : Schema} (h : plan.schema catalog = .ok schema) :
    ∀ name ∈ plan.scans, (catalog.getSchema name).isSome := by
  induction plan generalizing schema with
  | dummyScan => exact fun name hn => absurd hn List.not_mem_nil
  | scan tableName aliasName =>
    intro name hn
    obtain rfl : name = tableName := List.mem_singleton.mp hn
    rw [LogicalPlan.schema] at h
    split at h
    · rename_i s hs
      rw [hs]
      rfl
    · cases h
  | filter child _ ih | limit child _ _ ih | sort child _ ih => exact ih h
  | project child _ ih | agg child _ _ ih =>
    obtain ⟨childSchema, hc, -⟩ := Result.bind_eq_ok.mp h
    exact ih hc
  | join left right condition ihl ihr =>
    obtain ⟨leftS, hl, h⟩ := Result.bind_eq_ok.mp h
    obtain ⟨rightS, hr, -⟩ := Result.bind_eq_ok.mp h
    intro name hn
    rcases List.mem_append.mp hn with hn | hn
    · exact ihl hl name hn
    · exact ihr hr name hn

variable [BuildProfile] [Collections]

theorem LogicalPlan.stream_scan (tableName : String) (aliasName : Option String) :
    (scan tableName aliasName).stream ctx catalog =
      match ctx.reads tableName with
      | none => .ok ⟨[], some (.error (.tableNotInStorage tableName))⟩
      | some rows => .ok ⟨rows, none⟩ := by
  unfold stream ExecutionContext.reads
  rcases ctx.tables.lookup tableName with _ | rows <;> rfl

theorem LogicalPlan.stream_congr (h : LooksAlike plan ctx ctx' catalog catalog') :
    plan.stream ctx catalog = plan.stream ctx' catalog' := by
  induction plan with
  | dummyScan => rfl
  | scan tableName aliasName =>
    rw [stream_scan, stream_scan, h.rows tableName (List.mem_singleton_self _)]
  | filter child _ ih | project child _ ih | sort child _ ih | agg child _ _ ih =>
    have hchild : LooksAlike child ctx ctx' catalog catalog' := ⟨h.schemas, h.rows⟩
    simp only [stream, ih hchild, child.schema_congr h.schemas]
  | limit child _ _ ih =>
    have hchild : LooksAlike child ctx ctx' catalog catalog' := ⟨h.schemas, h.rows⟩
    simp only [stream, ih hchild]
  | join left right condition ihl ihr =>
    simp only [stream, ihl h.left, ihr h.right, LogicalPlan.schema_congr h.schemas]

variable [ComfyTable]

theorem runQuery_congr (h : LooksAlike plan ctx ctx' catalog catalog') :
    runQuery ctx catalog plan = runQuery ctx' catalog' plan := by
  have hbuild := buildExecutor_congr h.schemas
  rcases hb : buildExecutor catalog plan with f | e
  · unfold runQuery
    rw [← hbuild, hb, Result.error_bind, Result.error_bind]
  · rw [runQuery_eq hb, runQuery_eq (hbuild.symm.trans hb), LogicalPlan.stream_congr h,
      LogicalPlan.schema_congr h.schemas]

/--
How a query is answered in two executions that find the same rows: the answers are the
same without `GROUP BY`, and without a window they show the same rows in some order,
unless a sort panics over them.
-/
structure RepliesAlike (plan : LogicalPlan) (answer answer' : Result String) : Prop where
  same : plan.Ungrouped → answer' = answer
  rows : plan.Unwindowed → ∀ reply, answer = .ok reply →
    (¬ plan.Unsorted ∧ ∃ message, answer' = .error (.panic message)) ∨
    ∃ schema rows rows', reply = resultText schema rows ∧
      answer' = .ok (resultText schema rows') ∧ rows.Perm rows'

omit [Collections] in
theorem runQuery_alike {c c' : Collections} (hstd : SameStd c c')
    (h : LooksAlike plan ctx' ctx catalog' catalog) :
    RepliesAlike plan (@runQuery _ c _ ctx catalog plan) (@runQuery _ c' _ ctx' catalog' plan) := by
  rw [@runQuery_congr _ _ _ _ _ _ c' _ h]
  constructor
  · exact runQuery_ungrouped hstd
  · intro hp reply hreply
    exact runQuery_any_order hstd.sorts hstd.sorts' hstd.iterates hstd.iterates' hp hreply

end Plans

section Tables

variable {w w' : World} {h g es : List DbEvent} {reader : Option ℕ}

def onTable (name : String) (ws : List (Option ℕ × String × List Value)) :
    List (Option ℕ × List Value) :=
  ws.filterMap fun (owner, n, vals) => if n = name then some (owner, vals) else none

theorem writesTo_eq (name : String) (h : List DbEvent) :
    writesTo name h = onTable name (writes h) := by
  rw [writesTo, onTable, writes, List.filterMap_filterMap]
  congr 1
  funext e
  cases e <;> rfl

theorem onTable_filter (name : String) (ws : List (Option ℕ × String × List Value))
    (p : Option ℕ → Bool) :
    onTable name (ws.filter fun r => p r.1) = (onTable name ws).filter fun r => p r.1 := by
  induction ws with
  | nil => rfl
  | cons r ws ih =>
    obtain ⟨owner, n, vals⟩ := r
    by_cases hp : p owner <;> by_cases hn : n = name <;> simp_all [onTable]

theorem writesTo_append (name : String) (h g : List DbEvent) :
    writesTo name (h ++ g) = writesTo name h ++ writesTo name g := List.filterMap_append

theorem Act.rows_eq (hi : w.Indexed) (ha : Act w es w') (name : String) :
    ∃ (new : List Tuple) (recs : List RedoRecord), new.map Tuple.tagged = writesTo name es ∧
      w'.rows name = ((w.rows name).filter fun t => Kept es t.txId) ++ new ∧
      w'.db.txMgr.log = w.db.txMgr.log ++ recs ∧
      new.filter (fun t => t.txId.isSome) = recs.filterMap (Replay.rowOf name) := by
  have hkept {g : List DbEvent} (hg : ∀ i, .abort i ∉ g) (rows : List Tuple) :
      rows = (rows.filter fun t => Kept g t.txId) ++ [] := by
    rw [List.append_nil]
    symm
    apply List.filter_eq_self.mpr
    intro t _
    apply decide_eq_true
    cases t.txId with
    | none => trivial
    | some i => exact hg i
  cases ha with
  | begin ho =>
    refine ⟨[], [.begin w.db.txMgr.nextTxId w.db.txMgr.scn], rfl, hkept (by simp) _, ?_, rfl⟩
    simp
  | @write id tableName schema rows vals hs hr hv =>
    by_cases hn : tableName = name
    · subst hn
      have hrows : World.rows ⟨w.db.pushRow (w.opens id) tableName rows vals, w.opens⟩ tableName =
          ((w.rows tableName).filter fun t =>
            Kept [(.write (w.opens id) (tableName, vals) : DbEvent)] t.txId) ++
            [Tuple.newWithMeta vals (w.opens id) w.db.txMgr.scn] := by
        have hold := hkept (g := [.write (w.opens id) (tableName, vals)]) (by simp)
          (w.rows tableName)
        rw [List.append_nil] at hold
        rw [← hold]
        simp [World.rows, hr]
      have hnew : [Tuple.newWithMeta vals (w.opens id) w.db.txMgr.scn].map Tuple.tagged =
          writesTo tableName [.write (w.opens id) (tableName, vals)] := by
        simp [writesTo, Tuple.newWithMeta, Tuple.tagged]
      rcases ho : w.opens id with _ | i <;> rw [ho] at hrows hnew
      · refine ⟨_, [], hnew, hrows, ?_, rfl⟩
        simp [DatabaseState.pushRow_txMgr]
      · refine ⟨_, [.insert i w.db.txMgr.scn tableName vals rows.length], hnew, hrows, ?_, ?_⟩
        · simp [DatabaseState.pushRow_txMgr]
        · simp [Replay.rowOf, Tuple.newWithMeta]
    · have hrows : World.rows ⟨w.db.pushRow (w.opens id) tableName rows vals, w.opens⟩ name =
          w.rows name := by
        simp [World.rows, Ne.symm hn]
      have hnew : writesTo name [.write (w.opens id) (tableName, vals)] = [] := by
        simp [writesTo, hn]
      rcases ho : w.opens id with _ | i <;> rw [ho] at hrows hnew
      · refine ⟨[], [], hnew.symm, hrows.trans (hkept (by simp) _), ?_, rfl⟩
        simp [DatabaseState.pushRow_txMgr]
      · refine ⟨[], [.insert i w.db.txMgr.scn tableName vals rows.length], hnew.symm,
          hrows.trans (hkept (by simp) _), ?_, ?_⟩
        · simp [DatabaseState.pushRow_txMgr]
        · simp [Replay.rowOf, hn]
  | @commit id txId ho =>
    refine ⟨[], [.commit txId (w.db.txMgr.scn + 1)], rfl, hkept (by simp) _, ?_, rfl⟩
    simp
  | @rollback id txId ho =>
    refine ⟨[], [.rollback txId w.db.txMgr.scn], rfl, ?_, ?_, rfl⟩
    · have hfilter (rows : List Tuple) :
          (rows.filter fun t => decide (Kept ([.abort txId] : List DbEvent) t.txId)) =
            rows.filter fun t => !t.ownedBy txId := by
        apply List.filter_congr
        intro t _
        rcases ht : t.txId with _ | i
        · have hkept : Kept ([.abort txId] : List DbEvent) none := trivial
          simp [Tuple.ownedBy, ht, hkept]
        · simp [Tuple.ownedBy, ht, Kept]
      rw [hfilter, List.append_nil, World.rows, hi.rollback ho name, World.rows]
      rcases w.db.tables.lookup name with _ | rows <;> rfl
    · simp [DatabaseState.rollback_txMgr, TransactionManager.log]
  | @createTable tableName schema hs =>
    refine ⟨[], [], rfl, ?_, (List.append_nil _).symm, rfl⟩
    rw [← hkept (by simp)]
    by_cases hn : name = tableName
    · subst hn
      rcases hl : w.db.tables.lookup name with _ | rows <;>
        simp [World.rows, DatabaseState.createTable, FinMap.lookup_orInsert, hl]
    · simp [World.rows, DatabaseState.createTable, FinMap.lookup_orInsert, hn]
  | release ho => exact ⟨[], [], rfl, hkept (by simp) _, (List.append_nil _).symm, rfl⟩

theorem Act.kept (ha : Act w es w') (ht : Tracks w h) {owner : Option ℕ}
    {a : String × List Value} (hw : .write owner a ∈ es) : Kept (h ++ es) owner := by
  cases ha with
  | @write id tableName schema rows vals hs hr hv =>
    obtain ⟨rfl, -⟩ := TxEvent.write.inj (List.mem_singleton.mp hw)
    rcases ho : w.opens id with _ | i
    · trivial
    · refine fun hab => (ht.opened id i ho).not_abort ?_
      simpa using hab
  | begin | commit | rollback => cases List.mem_singleton.mp hw
  | createTable | release => cases hw

theorem Act.lookup_isSome (ha : Act w es w') {name : String}
    (ht : (w.db.tables.lookup name).isSome) : (w'.db.tables.lookup name).isSome := by
  cases ha with
  | begin | commit | release => exact ht
  | write hs hr hv =>
    rw [DatabaseState.pushRow_tables, FinMap.lookup_insert_eq]
    split
    · rfl
    · exact ht
  | rollback ho =>
    rw [DatabaseState.rollback, undo_isSome]
    exact ht
  | createTable hnew =>
    rw [DatabaseState.createTable, FinMap.lookup_orInsert]
    split
    · rfl
    · exact ht

theorem Reaches.lookup_isSome {G : World → DbEvent → Prop} (hr : Reaches G w w' g)
    {name : String} (ht : (w.db.tables.lookup name).isSome) :
    (w'.db.tables.lookup name).isSome := by
  induction hr with
  | refl => exact ht
  | act _ ha _ ih => exact ha.lookup_isSome ih

namespace Reached

theorem rows_eq (hr : Reached KeepsPositions w h) (name : String) :
    (w.rows name).map Tuple.tagged = (writesTo name h).filter fun r => Kept h r.1 := by
  induction hr with
  | refl => rfl
  | @act w w' h es hr ha hG ih =>
    obtain ⟨new, -, hnew, hrows, -⟩ := ha.rows_eq (Reached.indexed hr) name
    have hlegal : Legal (h ++ es) := ((Reached.tracks hr).act ha).legal
    have hold : ((w.rows name).filter fun t => Kept es t.txId).map Tuple.tagged =
        (writesTo name h).filter fun r => Kept (h ++ es) r.1 := by
      have hmap : ((w.rows name).filter fun t => Kept es t.txId).map Tuple.tagged =
          ((w.rows name).map Tuple.tagged).filter fun r => Kept es r.1 := by
        rw [List.filter_map]
        rfl
      rw [hmap, ih, List.filter_filter]
      apply List.filter_congr
      intro r _
      rw [← Bool.decide_and, decide_eq_decide, kept_append_iff, and_comm]
    have hstay : (writesTo name es).filter (fun r => Kept (h ++ es) r.1) = writesTo name es := by
      apply List.filter_eq_self.mpr
      rintro ⟨o, vals⟩ hm
      exact decide_eq_true (ha.kept (Reached.tracks hr) (mem_writesTo.mp hm))
    rw [hrows, List.map_append, hold, hnew, writesTo_append, List.filter_append, hstay]

/-- The manager shows a session what the history does. -/
theorem isVisible_eq {G : World → DbEvent → Prop} (hr : Reached G w h)
    (reader owner : Option ℕ) :
    w.db.txMgr.isVisible owner reader w.db.txMgr.scn = decide (Shown h reader owner) := by
  cases owner with
  | none => exact (decide_eq_true trivial).symm
  | some i =>
    by_cases hown : some i = reader
    · rw [TransactionManager.isVisible, if_pos hown]
      exact (decide_eq_true (.inl hown)).symm
    by_cases hc : .commit i ∈ h
    · obtain ⟨n, hn, -, hle⟩ := hr.commitClock.stamped i hc
      rw [TransactionManager.isVisible_of_committed (hr.committed_iff.mpr hc) hn hle]
      exact (decide_eq_true (.inr hc)).symm
    · have hst : w.db.txMgr.statuses.lookup i ≠ some .committed := mt hr.committed_iff.mp hc
      rw [TransactionManager.isVisible, if_neg hown]
      have hnot : ¬ Shown h reader (some i) := by
        rintro (hown' | hc')
        · exact hown hown'
        · exact hc hc'
      rw [decide_eq_false hnot]
      split
      · rename_i hst'
        exact absurd hst' hst
      · rfl

/-- The rows that a session reads in a table are those of its snapshot. -/
theorem snapshot_eq (hr : Reached KeepsPositions w h)
    (hopen : ∀ i, reader = some i → Open h i) (name : String) :
    ((w.rows name).filter fun t => Shown h reader t.txId).map Tuple.tagged =
      onTable name (snapshot h reader) := by
  have hmap : ((w.rows name).filter fun t => Shown h reader t.txId).map Tuple.tagged =
      ((w.rows name).map Tuple.tagged).filter fun r => Shown h reader r.1 := by
    rw [List.filter_map]
    rfl
  rw [hmap, hr.rows_eq name, List.filter_filter, snapshot,
    onTable_filter name (writes h) fun owner => Shown h reader owner, ← writesTo_eq]
  apply List.filter_congr
  intro r _
  rw [← Bool.decide_and, decide_eq_decide]
  exact and_iff_left_of_imp (Shown.kept hr.tracks.legal hopen)

/-- Rows that a reader is not shown come and go without a trace. -/
theorem unseen_rows (hr : Reached KeepsPositions w h) (hr' : Reaches KeepsPositions w w' g)
    (hopen : ∀ i, reader = some i → Open (h ++ g) i) (hu : Unseen reader g) (name : String) :
    ((w'.rows name).filter fun t => Shown h reader t.txId) =
      (w.rows name).filter fun t => Shown h reader t.txId := by
  have hlegal : Legal (h ++ g) := (Reached.tracks (hr.trans hr')).legal
  have hwrite (owner : Option ℕ) (a : String × List Value) (he : .write owner a ∈ g) :
      ¬ Shown h reader owner := hu.not_shown_write hlegal he
  have habort (i : ℕ) (he : .abort i ∈ g) : ¬ Shown h reader (some i) :=
    not_shown_abort hlegal hopen he
  clear hopen hu hlegal
  induction hr' with
  | refl => rfl
  | @act w₁ w₂ g es hr' ha hG ih =>
    obtain ⟨new, -, hnew, hrows, -⟩ := ha.rows_eq (Reached.indexed (hr.trans hr')) name
    have hnil : (new.filter fun t => Shown h reader t.txId) = [] := by
      apply List.filter_eq_nil_iff.mpr
      intro t ht
      have hm : (t.txId, t.values) ∈ writesTo name es := by
        rw [← hnew]
        exact List.mem_map_of_mem ht
      have hnot := hwrite _ _ (List.mem_append_right g (mem_writesTo.mp hm))
      simpa using hnot
    have hsame : ((w₁.rows name).filter fun t => Kept es t.txId).filter
        (fun t => Shown h reader t.txId) =
          (w₁.rows name).filter fun t => Shown h reader t.txId := by
      rw [List.filter_filter]
      apply List.filter_congr
      intro t _
      rw [← Bool.decide_and, decide_eq_decide]
      refine and_iff_left_of_imp fun hs => ?_
      rcases ho : t.txId with _ | i
      · trivial
      · intro hab
        rw [ho] at hs
        exact habort i (List.mem_append_right g hab) hs
    rw [hrows, List.filter_append, hnil, List.append_nil, hsame]
    exact ih (fun o a he => hwrite o a (List.mem_append_left _ he))
      fun i he => habort i (List.mem_append_left _ he)

end Reached

end Tables

section Abandoned

variable {w w' : World} {h g es : List DbEvent} {i : ℕ}

/-- A transaction that has begun and that no session has open. -/
structure World.Abandons (w : World) (i : ℕ) : Prop where
  lt : i < w.db.txMgr.nextTxId
  closed : ∀ id, w.opens id ≠ some i

theorem Act.abandons (ha : Act w es w') (hab : w.Abandons i) :
    w'.Abandons i ∧ ∀ e ∈ es, e.owner ≠ some i := by
  obtain ⟨hlt, hclosed⟩ := hab
  have hupdate {id : ℕ} {o : Option ℕ} (ho : o ≠ some i) :
      ∀ id', Function.update w.opens id o id' ≠ some i := by
    intro id'
    by_cases hid : id' = id
    · rw [hid, Function.update_self]
      exact ho
    · rw [Function.update_of_ne hid]
      exact hclosed id'
  cases ha with
  | begin ho =>
    have hne : some w.db.txMgr.nextTxId ≠ some i := by
      rintro ⟨⟩
      exact Nat.lt_irrefl _ hlt
    refine ⟨⟨Nat.lt_succ_of_lt hlt, hupdate hne⟩, ?_⟩
    simpa [TxEvent.owner] using hne
  | @write id name schema rows vals hs hr hv =>
    refine ⟨⟨by simpa using hlt, hclosed⟩, ?_⟩
    simpa [TxEvent.owner] using hclosed id
  | @commit id txId ho =>
    refine ⟨⟨by simpa [TransactionManager.commit_eq] using hlt, hupdate (by simp)⟩, ?_⟩
    simpa [TxEvent.owner, ← ho] using hclosed id
  | @rollback id txId ho =>
    refine ⟨⟨by simpa [DatabaseState.rollback_txMgr] using hlt, hupdate (by simp)⟩, ?_⟩
    simpa [TxEvent.owner, ← ho] using hclosed id
  | createTable hs => exact ⟨⟨hlt, hclosed⟩, List.forall_mem_nil _⟩
  | @release opens ho =>
    refine ⟨⟨hlt, fun id => ?_⟩, List.forall_mem_nil _⟩
    rcases ho id with hnone | hsame
    · intro hi
      cases hnone.symm.trans hi
    · exact fun hi => hclosed id (hsame.symm.trans hi)

theorem Reaches.abandons {G : World → DbEvent → Prop} (hr : Reaches G w w' g)
    (hab : w.Abandons i) : w'.Abandons i ∧ ∀ e ∈ g, e.owner ≠ some i := by
  induction hr with
  | refl => exact ⟨hab, List.forall_mem_nil _⟩
  | act _ ha _ ih =>
    obtain ⟨hab', hold⟩ := ih
    obtain ⟨hab'', hnew⟩ := ha.abandons hab'
    exact ⟨hab'', List.forall_mem_append.mpr ⟨hold, hnew⟩⟩

end Abandoned

section Sessions

variable {G : World → DbEvent → Prop} {w : Server} {h : List DbEvent}

def Server.scan [BuildProfile] [Collections] (w : Server) (session : SessionState)
    (name : String) : Result (List Tuple) :=
  executeQuery (w.readContext session) w.db.catalog (.scan name none)

theorem Server.scan_of_reads [BuildProfile] [Collections] {session : SessionState} {name : String}
    {rows : List Tuple} (h : (w.readContext session).reads name = some rows) :
    w.scan session name = .ok rows := by
  rw [Server.scan, Executor.executeQuery_of_build (e := .seqScan name 0) rfl, LogicalPlan.answer,
    LogicalPlan.stream_scan, h]
  rfl

namespace Reached

theorem open_of_session (hr : Reached G w.world h) {id : ℕ} {session : SessionState}
    (hs : w.sessions.lookup id = some session) (i : ℕ) (hi : session.currentTxId = some i) :
    Open h i :=
  hr.tracks.opened id i (opens_of_session hs hi)

theorem reads_eq (hr : Reached G w.world h) (session : SessionState) (name : String) :
    (w.readContext session).reads name = (w.db.tables.lookup name).map
      (List.filter fun t => Shown h session.currentTxId t.txId) := by
  unfold ExecutionContext.reads
  congr 1
  funext rows
  apply List.filter_congr
  intro t _
  exact hr.isVisible_eq session.currentTxId t.txId

theorem reads_eq_rows (hr : Reached G w.world h) (session : SessionState) {name : String}
    (ht : (w.db.tables.lookup name).isSome) : (w.readContext session).reads name =
      some ((w.world.rows name).filter fun t => Shown h session.currentTxId t.txId) := by
  obtain ⟨rows, hrows⟩ := Option.isSome_iff_exists.mp ht
  rw [hr.reads_eq, World.rows, Server.world, hrows]
  rfl

variable [BuildProfile] [Collections]

theorem scan_eq (hr : Reached G w.world h) (session : SessionState) {name : String}
    (ht : (w.db.tables.lookup name).isSome) : w.scan session name =
      .ok ((w.world.rows name).filter fun t => Shown h session.currentTxId t.txId) :=
  Server.scan_of_reads (hr.reads_eq_rows session ht)

theorem lookup_of_scan {session : SessionState} {name : String} {rows : List Tuple}
    (h : w.scan session name = .ok rows) : (w.db.tables.lookup name).isSome := by
  rw [Server.scan, Executor.executeQuery_of_build (e := .seqScan name 0) rfl, LogicalPlan.answer,
    LogicalPlan.stream_scan] at h
  rcases ht : w.db.tables.lookup name with _ | rows'
  · have hreads : (w.readContext session).reads name = none := by
      rw [ExecutionContext.reads, Server.readContext, queryContext, ht]
      rfl
    rw [hreads] at h
    cases h
  · rfl

theorem scan_tagged (hr : Reached KeepsPositions w.world h) {id : ℕ} {session : SessionState}
    (hs : w.sessions.lookup id = some session) {name : String} {rows : List Tuple}
    (hscan : w.scan session name = .ok rows) :
    rows.map Tuple.tagged = onTable name (snapshot h session.currentTxId) := by
  rw [hr.scan_eq session (lookup_of_scan hscan)] at hscan
  rw [← Except.ok.inj hscan]
  exact hr.snapshot_eq (hr.open_of_session hs) name

end Reached

end Sessions

section Binding

variable {catalog catalog' : Catalog}

variable [Unicode]

theorem scans_bindOrderBy {plan sorted : LogicalPlan} {orderBy : Option (List Sql.OrderByExpr)}
    (h : bindOrderBy plan orderBy = .ok sorted) : sorted.scans = plan.scans := by
  unfold bindOrderBy at h
  split at h
  · cases h
    rfl
  · cases h
    rfl
  · obtain ⟨keys, -, h⟩ := Result.bind_eq_ok.mp h
    cases h
    rfl

omit [Unicode] in
theorem scans_bindProjection (plan : LogicalPlan) (targets : List (Expr × String))
    (groupBy : List Expr) : (bindProjection plan targets groupBy).scans = plan.scans := by
  unfold bindProjection
  split <;> rfl

omit [Unicode] in
theorem scans_filterBy (plan : LogicalPlan) (selection : Option Expr) :
    (filterBy plan selection).scans = plan.scans := by
  cases selection <;> rfl

theorem bindQuery_from {q : Sql.Query} {plan : LogicalPlan} (h : bindQuery q catalog = .ok plan) :
    ∃ select source schema, q.body = .select select ∧ bindFrom select.from_ = .ok source ∧
      source.schema catalog = .ok schema ∧ plan.scans = source.scans := by
  obtain ⟨select, source, schema, selection, targets, groupBy, sorted, limit, offset, hbody,
    hsource, hschema, -, -, -, hsorted, -, -, hplan⟩ := bindQuery_eq_ok h
  refine ⟨select, source, schema, hbody, hsource, hschema, ?_⟩
  have hs := scans_bindOrderBy hsorted
  rw [scans_bindProjection, scans_filterBy] at hs
  rw [hplan, ← hs]
  split <;> rfl

theorem bindQuery_scans {q : Sql.Query} {plan : LogicalPlan} (h : bindQuery q catalog = .ok plan) :
    ∀ name ∈ plan.scans, (catalog.getSchema name).isSome := by
  obtain ⟨select, source, schema, -, -, hschema, hscans⟩ := bindQuery_from h
  exact hscans ▸ source.scans_isSome hschema

theorem bindQuery_congr {q : Sql.Query} {plan : LogicalPlan} (h : bindQuery q catalog = .ok plan)
    (hsame : ∀ name ∈ plan.scans, catalog.getSchema name = catalog'.getSchema name) :
    bindQuery q catalog' = .ok plan := by
  obtain ⟨select, source, schema, hbody, hsource, hschema, hscans⟩ := bindQuery_from h
  have hschemas := LogicalPlan.schema_congr (hscans ▸ hsame)
  simp only [bindQuery, hbody, hsource, Result.pure_eq_ok, Result.ok_bind] at h ⊢
  rwa [← hschemas]

variable [SqlParser]

theorem bindStatement_query_iff {sql : String} {plan : LogicalPlan} :
    bindStatement sql catalog = .ok (.query plan) ↔
      ∃ q rest, SqlParser.parseSql sql = .ok (.query q :: rest) ∧
        bindQuery q catalog = .ok plan := by
  constructor
  · intro h
    rcases hp : SqlParser.parseSql sql with text | _ | ⟨tree, rest⟩
    · simp only [bindStatement, hp] at h
      cases h
    · simp only [bindStatement, hp] at h
      cases h
    · rw [bindStatement_parsed hp] at h
      cases tree with
      | createTable name columns =>
        obtain ⟨cols, -, h⟩ := Result.bind_eq_ok.mp h
        cases h
      | insert tableName columns source =>
        rcases source with _ | query
        · cases h
        simp only [bindTree, Result.pure_eq_ok, Result.ok_bind] at h
        split at h
        · obtain ⟨rows, -, h⟩ := Result.bind_eq_ok.mp h
          cases h
        · cases h
      | query q =>
        obtain ⟨plan', hq, h⟩ := Result.map_eq_ok.mp h
        cases h
        exact ⟨q, rest, rfl, hq⟩
      | other debug => cases h
  · rintro ⟨q, rest, hp, hq⟩
    rw [bindStatement_parsed hp]
    exact Result.map_eq_ok.mpr ⟨plan, hq, rfl⟩

theorem bindStatement_scans {sql : String} {plan : LogicalPlan}
    (h : bindStatement sql catalog = .ok (.query plan)) :
    ∀ name ∈ plan.scans, (catalog.getSchema name).isSome := by
  obtain ⟨q, rest, -, hq⟩ := bindStatement_query_iff.mp h
  exact bindQuery_scans hq

theorem bindStatement_congr {sql : String} {plan : LogicalPlan}
    (h : bindStatement sql catalog = .ok (.query plan))
    (hsame : ∀ name ∈ plan.scans, catalog.getSchema name = catalog'.getSchema name) :
    bindStatement sql catalog' = .ok (.query plan) := by
  obtain ⟨q, rest, hp, hq⟩ := bindStatement_query_iff.mp h
  exact bindStatement_query_iff.mpr ⟨q, rest, hp, bindQuery_congr hq hsame⟩

/-- The tables of a bound query keep their schemas when tables are created. -/
theorem bindStatement_mono {sql : String} {plan : LogicalPlan}
    (hmono : ∀ name schema, catalog.getSchema name = some schema →
      catalog'.getSchema name = some schema)
    (h : bindStatement sql catalog = .ok (.query plan)) :
    bindStatement sql catalog' = .ok (.query plan) ∧
      ∀ name ∈ plan.scans, catalog.getSchema name = catalog'.getSchema name := by
  have hsame : ∀ name ∈ plan.scans, catalog.getSchema name = catalog'.getSchema name := by
    intro name hn
    obtain ⟨s, hs⟩ := Option.isSome_iff_exists.mp (bindStatement_scans h name hn)
    rw [hs, hmono name s hs]
  exact ⟨bindStatement_congr h hsame, hsame⟩

end Binding

section Guarantees

variable [BuildProfile] [Unicode] [SqlParser] [ComfyTable]
  {w w' : Server} {h g : List DbEvent}

theorem Runs.keeps {w₀ : Server} (hr : Runs KeepsPositions w₀ w h) :
    Reaches KeepsPositions w₀.world w.world h :=
  hr.reaches fun _ _ _ _ _ _ => trivial

variable [Collections]

theorem Runs.of_lastRows {es : List Event} (hm : w.Meets LastRows es) :
    Runs KeepsPositions w (w.after es).1 (w.after es).2 := by
  simpa using (Runs.refl.of_meets hm).mono fun _ _ => LastRows.keepsPositions

/--
In every run whose rollbacks find their rows, a scan gives a session its snapshot of
the table: in the order of the history, the rows of no one, those of its own open
transaction and those of the transactions that have committed, and no others.
-/
theorem reads_snapshot (hr : Runs KeepsPositions Server.fresh w h) {id : ℕ}
    {session : SessionState} (hs : w.sessions.lookup id = some session) {name : String}
    (ht : (w.db.catalog.getSchema name).isSome) :
    ∃ rows, w.scan session name = .ok rows ∧
      rows.map Tuple.tagged = onTable name (snapshot h session.currentTxId) := by
  have hr₁ : Reached KeepsPositions w.world h := hr.keeps
  have hstored : (w.db.tables.lookup name).isSome := Reaches.stored hr₁ (by rintro _ ⟨⟩) name ht
  exact ⟨_, hr₁.scan_eq session hstored, hr₁.snapshot_eq (hr₁.open_of_session hs) name⟩

omit [Collections] in
/--
While others begin, insert, roll back and disconnect, and tables are created, but
nothing commits, every query of a session is answered as before, be the answer rows,
an error or a panic. Groups may come in another order, as in any two executions.
-/
theorem unseen_until_commit {c c' : Collections} (hstd : SameStd c c')
    (hr : Runs KeepsPositions Server.fresh w h) (hr' : Runs KeepsPositions w w' g) {id : ℕ}
    {session session' : SessionState} (hs' : w'.sessions.lookup id = some session')
    (htx : session'.currentTxId = session.currentTxId) (hu : Unseen session.currentTxId g)
    {sql : String} (hc : ¬ IsControl sql) {plan : LogicalPlan}
    (hb : bindStatement sql w.db.catalog = .ok (.query plan)) :
    RepliesAlike plan (@innerHandle _ _ c _ _ w.db session sql).1
      (@innerHandle _ _ c' _ _ w'.db session' sql).1 := by
  have hr₁ : Reached KeepsPositions w.world h := hr.keeps
  have hr₂ : Reaches KeepsPositions w.world w'.world g := hr'.keeps
  have hr₃ : Reached KeepsPositions w'.world (h ++ g) := hr₁.trans hr₂
  have hmono (name : String) (schema : Schema) (hget : w.db.catalog.getSchema name = some schema) :
      w'.db.catalog.getSchema name = some schema := hr₂.getSchema hget
  obtain ⟨hb', hsame⟩ := bindStatement_mono hmono hb
  have halike : LooksAlike plan (w'.readContext session') (w.readContext session)
      w'.db.catalog w.db.catalog := by
    constructor
    · exact fun name hn => (hsame name hn).symm
    · intro name hn
      have hcreated := bindStatement_scans hb name hn
      have hstored := Reaches.stored hr₁ (by rintro _ ⟨⟩) name hcreated
      have hstored' := Reaches.stored hr₃ (by rintro _ ⟨⟩) name (hsame name hn ▸ hcreated)
      have hopen (i : ℕ) (hi : session.currentTxId = some i) : Open (h ++ g) i :=
        hr₃.open_of_session hs' i (htx.trans hi)
      rw [hr₁.reads_eq_rows session hstored, hr₃.reads_eq_rows session' hstored', htx,
        ← hr₁.unseen_rows hr₂ hopen hu name]
      simp only [hu.shown_iff]
  rw [query_reply hc hb, query_reply hc hb']
  exact runQuery_alike hstd halike

/-- A session is shown a transaction in all tables as far as it has come, or in none at all. -/
theorem transaction_seen_whole (hr : Runs KeepsPositions Server.fresh w h) {id : ℕ}
    {session : SessionState} (hs : w.sessions.lookup id = some session) (i : ℕ) :
    (∀ name rows, w.scan session name = .ok rows →
      (rows.map Tuple.tagged).filter (fun r => r.1 = some i) =
        (writesTo name h).filter fun r => r.1 = some i) ∨
      ∀ name rows, w.scan session name = .ok rows → ∀ t ∈ rows, t.txId ≠ some i := by
  have hr₁ : Reached KeepsPositions w.world h := hr.keeps
  rcases snapshot_whole h session.currentTxId i with hall | hnone
  · left
    intro name rows hscan
    have hfilter := onTable_filter name
    rw [hr₁.scan_tagged hs hscan, writesTo_eq,
      ← hfilter _ fun owner => owner = some i, ← hfilter _ fun owner => owner = some i, hall]
  · right
    intro name rows hscan t ht ho
    have hmem : t.tagged ∈ onTable name (snapshot h session.currentTxId) := by
      rw [← hr₁.scan_tagged hs hscan]
      exact List.mem_map_of_mem ht
    obtain ⟨⟨owner, n, vals⟩, hw, hon⟩ := List.mem_filterMap.mp hmem
    refine hnone _ hw ?_
    dsimp only at hon
    split at hon
    · have htag : (owner, vals) = (t.txId, t.values) := Option.some.inj hon
      rw [← ho]
      exact congrArg Prod.fst htag
    · cases hon

omit [Collections] in
/--
The rows that a session has been given stay in the table for it and for every other
session, in the same order, as long as its own transaction is neither rolled back
nor given up.
-/
theorem seen_rows_stay {c c' : Collections} (hr : Runs KeepsPositions Server.fresh w h)
    (hr' : Runs KeepsPositions w w' g) {id id' : ℕ} {session session' : SessionState}
    (hs : w.sessions.lookup id = some session) (hs' : w'.sessions.lookup id' = some session')
    (htx : ∀ i, session.currentTxId = some i →
      session'.currentTxId = some i ∨ .commit i ∈ h ++ g)
    {name : String} {rows : List Tuple} (hscan : @Server.scan _ c w session name = .ok rows) :
    ∃ rows', @Server.scan _ c' w' session' name = .ok rows' ∧
      (rows.map Tuple.tagged).Sublist (rows'.map Tuple.tagged) := by
  have hr₁ : Reached KeepsPositions w.world h := hr.keeps
  have hr₂ : Reached KeepsPositions w'.world (h ++ g) := hr₁.trans hr'.keeps
  have hstored := Reaches.lookup_isSome hr'.keeps (Reached.lookup_of_scan hscan)
  refine ⟨_, hr₂.scan_eq session' hstored, ?_⟩
  rw [@Reached.scan_tagged _ _ _ c hr₁ _ _ hs _ _ hscan,
    hr₂.snapshot_eq (hr₂.open_of_session hs') name]
  exact (snapshot_sublist htx).filterMap _

/--
A session without a transaction is given, up to their order, the rows that a serial
history leaves: the committed transactions of the run one after the other, in the
order in which they committed, with the rows of no one in between.
-/
theorem committed_rows_serial (hr : Runs KeepsPositions Server.fresh w h) {id : ℕ}
    {session : SessionState} (hs : w.sessions.lookup id = some session)
    (htx : session.currentTxId = none) :
    Serial (serial h) ∧ commits (serial h) = commits h ∧
      ∀ name rows, w.scan session name = .ok rows →
        (rows.map Tuple.tagged).Perm (writesTo name (serial h)) := by
  have hr₁ : Reached KeepsPositions w.world h := hr.keeps
  have hlegal : Legal h := hr₁.tracks.legal
  refine ⟨hlegal.serial, commits_serial hlegal, fun name rows hscan => ?_⟩
  rw [hr₁.scan_tagged hs hscan, htx, writesTo_eq]
  exact (snapshot_perm_serial hlegal).filterMap _

/--
When the connection of an open transaction is lost, the transaction is over: nothing
is done in it any more, it never commits, and no scan of any session, however much
later, returns a row of it.
-/
theorem abandoned_never_seen (hr : Runs free Server.fresh w h) {i : ℕ} (hb : .begin i ∈ h)
    (hc : .commit i ∉ h)
    (hlost : ∀ id session, w.sessions.lookup id = some session → session.currentTxId ≠ some i)
    (hr' : Runs free w w' g) :
    (∀ e ∈ g, e.owner ≠ some i) ∧ ∀ id session name rows,
      w'.sessions.lookup id = some session → w'.scan session name = .ok rows →
        ∀ t ∈ rows, t.txId ≠ some i := by
  have hr₁ : Reached free w.world h := hr.reached
  have hr₂ : Reached free w'.world (h ++ g) := hr₁.trans hr'.reached
  have hab : w.world.Abandons i := by
    refine ⟨hr₁.tracks.begun_lt i hb, fun id ho => ?_⟩
    rcases hs : w.sessions.lookup id with _ | session
    · simp [Server.world, hs] at ho
    · exact hlost id session hs (by simpa [Server.world, hs] using ho)
  obtain ⟨hab', howner⟩ := hr'.reached.abandons hab
  refine ⟨howner, fun id session name rows hs hscan t ht hi => ?_⟩
  rw [hr₂.scan_eq session (Reached.lookup_of_scan hscan)] at hscan
  rw [← Except.ok.inj hscan] at ht
  have hshown : Shown (h ++ g) session.currentTxId (some i) := by
    rw [← hi]
    exact of_decide_eq_true (List.mem_filter.mp ht).2
  rcases hshown with hown | hcommit
  · exact hab'.closed id (Reached.opens_of_session hs hown.symm)
  · rcases List.mem_append.mp hcommit with hm | hm
    · exact hc hm
    · exact howner _ hm rfl

end Guarantees

namespace Reading

/-! The sample with a parser of a query. -/

scoped instance profile : BuildProfile := Sample.profile

scoped instance unicode : Unicode := Sample.unicode

scoped instance comfyTable : ComfyTable := Sample.comfyTable

scoped instance collections : Collections := Sample.collections

@[reducible] def backwards : Collections := { insertionCollections with iterOrder := List.reverse }

theorem sameStd_backwards : SameStd insertionCollections backwards where
  sortBy := rfl
  sorts := sortsByComparing_insertionCollections
  iterates l := .refl l
  iterates' l := l.reverse_perm

def query : Sql.Query where
  body := .select {
    projection := [.unnamedExpr (.identifier { value := "a" })]
    from_ := [⟨.table [{ value := "t" }] none, []⟩] }

scoped instance parser : SqlParser where
  parseSql sql :=
    if sql = "SELECT a FROM t" then .ok [.query query] else Sample.parser.parseSql sql

def plan : LogicalPlan := .project (.scan "t" none) [(.colRef "a", "a")]

theorem not_control : ¬ IsControl "SELECT a FROM t" := by decide +kernel

theorem bound {w : Server} (hq : bindQuery query w.db.catalog = .ok plan) :
    bindStatement "SELECT a FROM t" w.db.catalog = .ok (.query plan) :=
  bindStatement_query_iff.mpr ⟨query, [], rfl, hq⟩

def before : List Event := [.connect, .connect, .statement 1 "CREATE TABLE t (a INT)",
  .statement 1 "BEGIN", .statement 1 "INSERT INTO t VALUES (1)", .statement 1 "COMMIT",
  .statement 1 "BEGIN", .statement 1 "INSERT INTO t VALUES (2)"]

def meanwhile : List Event := [.statement 1 "INSERT INTO t VALUES (1)", .connect,
  .statement 1 "ROLLBACK"]

def first : Server := (Server.fresh.after before).1

def second : Server := (first.after meanwhile).1

theorem first_runs : Runs KeepsPositions Server.fresh first (Server.fresh.after before).2 := by
  have hmeets : Server.fresh.Meets LastRows before := by decide +kernel
  exact .of_lastRows hmeets

theorem second_runs : Runs KeepsPositions first second (first.after meanwhile).2 := by
  have hmeets : first.Meets LastRows meanwhile := by decide +kernel
  exact .of_lastRows hmeets

theorem first_session : first.sessions.lookup 2 = some ⟨2, none, 0⟩ := by decide +kernel

theorem second_session : second.sessions.lookup 2 = some ⟨2, none, 0⟩ := by decide +kernel

end Reading

open Reading in
theorem reads_snapshot_sample :
    ∃ rows, first.scan ⟨2, none, 0⟩ "t" = .ok rows ∧
      rows.map Tuple.tagged = onTable "t" (snapshot (Server.fresh.after before).2 none) :=
  reads_snapshot first_runs first_session (by decide +kernel)

open Reading in
theorem unseen_until_commit_sample :
    RepliesAlike plan
      (@innerHandle _ _ insertionCollections _ _ first.db ⟨2, none, 0⟩ "SELECT a FROM t").1
      (@innerHandle _ _ backwards _ _ second.db ⟨2, none, 0⟩ "SELECT a FROM t").1 := by
  have hg : (first.after meanwhile).2 = [.write (some 2) ("t", [.int 1]), .abort 2] := by
    decide +kernel
  have hu : Unseen none (first.after meanwhile).2 := by
    rw [hg]
    simp [Unseen]
  exact unseen_until_commit sameStd_backwards first_runs second_runs second_session rfl hu
    not_control (bound (by decide +kernel))

open Reading in
theorem transaction_seen_whole_sample :
    (∀ name rows, first.scan ⟨2, none, 0⟩ name = .ok rows →
      (rows.map Tuple.tagged).filter (fun r => r.1 = some 1) =
        (writesTo name (Server.fresh.after before).2).filter fun r => r.1 = some 1) ∨
      ∀ name rows, first.scan ⟨2, none, 0⟩ name = .ok rows → ∀ t ∈ rows, t.txId ≠ some 1 :=
  transaction_seen_whole first_runs first_session 1

open Reading in
theorem seen_rows_stay_sample :
    ∃ rows', second.scan ⟨2, none, 0⟩ "t" = .ok rows' ∧
      ([(some 1, [.int 1])] : List (Option ℕ × List Value)).Sublist
        (rows'.map Tuple.tagged) := by
  have hscan : first.scan ⟨2, none, 0⟩ "t" = .ok [⟨[.int 1], some 1, 0⟩] := by decide +kernel
  exact seen_rows_stay first_runs second_runs first_session second_session (by simp) hscan

open Reading in
theorem committed_rows_serial_sample :
    let h := (Server.fresh.after before).2
    Serial (serial h) ∧ commits (serial h) = commits h ∧
      ∀ name rows, first.scan ⟨2, none, 0⟩ name = .ok rows →
        (rows.map Tuple.tagged).Perm (writesTo name (serial h)) :=
  committed_rows_serial first_runs first_session rfl

open Reading in
theorem abandoned_never_seen_sample :
    let w := (Server.fresh.after (before ++ [.disconnect 1])).1
    let w' := (w.after [.connect]).1
    ∀ id session name rows, w'.sessions.lookup id = some session →
      w'.scan session name = .ok rows → ∀ t ∈ rows, t.txId ≠ some 2 := by
  intro w w'
  have hb : .begin 2 ∈ (Server.fresh.after (before ++ [.disconnect 1])).2 := by decide +kernel
  have hc : .commit 2 ∉ (Server.fresh.after (before ++ [.disconnect 1])).2 := by decide +kernel
  have hentries : ∀ e ∈ w.sessions.entries, e.2.currentTxId ≠ some 2 := by decide +kernel
  have hlost (id : ℕ) (session : SessionState) (hs : w.sessions.lookup id = some session) :
      session.currentTxId ≠ some 2 := hentries _ (AList.mem_lookup_iff.mp hs)
  exact (abandoned_never_seen (.after _ _) hb hc hlost (.after _ _)).2

end VolcanoDb
