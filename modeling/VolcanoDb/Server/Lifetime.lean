import VolcanoDb.Executor.Refinement
import VolcanoDb.Server.Invariants

/-! # One lifetime

Properties of every run of the server from an empty redo file: the invariant of
the transaction manager, the shape of the write-ahead log, and what a scan may
return to a session.
-/

namespace VolcanoDb

open History

section Fresh

variable {G : World → DbEvent → Prop} {w : World} {h : List DbEvent} {i : ℕ}

abbrev Reached (G : World → DbEvent → Prop) : World → List DbEvent → Prop :=
  Reaches G Server.fresh.world

namespace Reached

theorem tracks (hr : Reached G w h) : Tracks w h := .of_reaches (fun _ => rfl) hr

theorem log (hr : Reached G w h) :
    w.db.txMgr.log.map RedoRecord.event = h.filter TxEvent.inTx := by
  simpa [Server.world, Server.fresh] using Reaches.log hr

theorem buffer_open (hr : Reached G w h) : ∀ r ∈ w.db.txMgr.redoBuffer, Open h r.txId :=
  Reaches.buffer_open hr (fun _ => rfl) rfl

theorem statuses (hr : Reached G w h) (i : ℕ) :
    w.db.txMgr.statuses.lookup i = statusIn h i none :=
  Reaches.statuses hr i

theorem commitClock (hr : Reached G w h) : CommitClock Server.fresh.world w h :=
  Reaches.commitClock hr fun _ => rfl

theorem rows (hr : Reached G w h) (name : String) :
    ((w.rows name).map Tuple.tagged).Sublist (writesTo name h) := by
  simpa [World.rows, Server.world, Server.fresh] using Reaches.rows hr name

theorem written (hr : Reached G w h) {name : String} {rows : List Tuple} {t : Tuple}
    (ht : w.db.tables.lookup name = some rows) (hm : t ∈ rows) :
    .write t.txId (name, t.values) ∈ h := by
  refine mem_writesTo.mp ((hr.rows name).subset (List.mem_map.mpr ⟨t, ?_, rfl⟩))
  rwa [World.rows, ht]

theorem committed_iff (hr : Reached G w h) :
    w.db.txMgr.statuses.lookup i = some .committed ↔ .commit i ∈ h := by
  rw [hr.statuses, statusIn_eq_committed hr.tracks.legal]

theorem commitScn_isSome (hr : Reached G w h) :
    (w.db.txMgr.commitScns.lookup i).isSome ↔ .commit i ∈ h := by
  constructor
  · intro hs
    by_contra hc
    rw [hr.commitClock.unchanged i hc] at hs
    cases hs
  · intro hc
    obtain ⟨n, hn, -⟩ := hr.commitClock.stamped i hc
    rw [hn]
    rfl

end Reached

theorem Reaches.commitScns_final {w' : World} {h' : List DbEvent} (hr : Reaches G w w' h')
    (ht : Tracks w h) (hc : .commit i ∈ h) :
    w'.db.txMgr.commitScns.lookup i = w.db.txMgr.commitScns.lookup i ∧ Tracks w' (h ++ h') := by
  induction hr with
  | refl => exact ⟨rfl, by simpa using ht⟩
  | act _ ha _ ih =>
    obtain ⟨ih, ht'⟩ := ih
    have ht'' := ht'.act ha
    refine ⟨?_, by rwa [List.append_assoc] at ht''⟩
    rcases ha.commitScns with ⟨hsame, -⟩ | ⟨t, rfl, -, hins⟩
    · rw [hsame, ih]
    · have hopen : Open _ t := ht''.legal.of_snoc.2
      have hne : i ≠ t := by
        rintro rfl
        exact hopen.not_commit (List.mem_append_left _ hc)
      rw [hins, FinMap.lookup_insert_eq, if_neg hne, ih]

end Fresh

section Manager

/-- What holds of the transaction manager, the sessions and the tables in every state. -/
structure ManagerInvariant (w : Server) (h : List DbEvent) : Prop where
  status_lt : ∀ i status, w.db.txMgr.statuses.lookup i = some status → i < w.db.txMgr.nextTxId
  row_lt : ∀ name rows t i, w.db.tables.lookup name = some rows → t ∈ rows → t.txId = some i →
    i < w.db.txMgr.nextTxId ∧ (w.db.txMgr.statuses.lookup i).isSome
  session_lt : ∀ id s i, w.sessions.lookup id = some s → s.currentTxId = some i →
    i < w.db.txMgr.nextTxId
  session_unique : ∀ id id' s s' i, w.sessions.lookup id = some s →
    w.sessions.lookup id' = some s' → s.currentTxId = some i → s'.currentTxId = some i → id = id'
  session_active : ∀ id s i, w.sessions.lookup id = some s → s.currentTxId = some i →
    w.db.txMgr.statuses.lookup i = some .active
  committed_iff : ∀ i, w.db.txMgr.statuses.lookup i = some .committed ↔
    (w.db.txMgr.commitScns.lookup i).isSome
  commitScn_le : ∀ i n, w.db.txMgr.commitScns.lookup i = some n → n ≤ w.db.txMgr.scn
  commitScn_injective : ∀ i j n, w.db.txMgr.commitScns.lookup i = some n →
    w.db.txMgr.commitScns.lookup j = some n → i = j
  commitScn_ordered : h.Pairwise fun e e' => ∀ i j, e = .commit i → e' = .commit j →
    ∃ n m, w.db.txMgr.commitScns.lookup i = some n ∧ w.db.txMgr.commitScns.lookup j = some m ∧ n < m
  stored : ∀ name, (w.db.catalog.getSchema name).isSome → (w.db.tables.lookup name).isSome

namespace Reached

variable {G : World → DbEvent → Prop} {w : Server} {h : List DbEvent}

theorem opens_of_session {id i : ℕ} {s : SessionState} (hs : w.sessions.lookup id = some s)
    (hi : s.currentTxId = some i) : w.world.opens id = some i := by
  simp [Server.world, hs, hi]

theorem commitScn_lt_or (hr : Reached G w.world h) {i j : ℕ} (hi : .commit i ∈ h)
    (hj : .commit j ∈ h) (hij : i ≠ j) : ∃ n m, w.db.txMgr.commitScns.lookup i = some n ∧
      w.db.txMgr.commitScns.lookup j = some m ∧ n ≠ m := by
  have hord := hr.commitClock.ordered
  rw [List.pairwise_iff_getElem] at hord
  obtain ⟨k, hk, hki⟩ := List.getElem_of_mem hi
  obtain ⟨l, hl, hlj⟩ := List.getElem_of_mem hj
  have hkl : k ≠ l := by
    rintro rfl
    rw [hki] at hlj
    cases hlj
    exact hij rfl
  rcases Nat.lt_or_gt_of_ne hkl with hlt | hlt
  · obtain ⟨n, m, hn, hm, hnm⟩ := hord k l hk hl hlt i j hki hlj
    exact ⟨n, m, hn, hm, hnm.ne⟩
  · obtain ⟨m, n, hm, hn, hnm⟩ := hord l k hl hk hlt j i hlj hki
    exact ⟨n, m, hn, hm, hnm.ne'⟩

theorem managerInvariant (hr : Reached G w.world h) : ManagerInvariant w h where
  status_lt i status hst := by
    have hin : statusIn h i none = some status := (hr.statuses i).symm.trans hst
    exact hr.tracks.begun_lt i (begun_of_statusIn hr.tracks.legal hin)
  row_lt name rows t i ht hm hi := by
    have hw : .write (some i) (name, t.values) ∈ h := hi ▸ hr.written ht hm
    refine ⟨hr.tracks.owner_lt hw rfl, ?_⟩
    have hin := statusIn_isSome hr.tracks.legal none (hr.tracks.legal.begun hw rfl)
    rwa [← hr.statuses] at hin
  session_lt id s i hs hi := hr.tracks.opens_lt (opens_of_session hs hi)
  session_unique id id' s s' i hs hs' hi hi' :=
    hr.tracks.owner_unique id id' i (opens_of_session hs hi) (opens_of_session hs' hi')
  session_active id s i hs hi := by
    have hopen := hr.tracks.opened id i (opens_of_session hs hi)
    exact (hr.statuses i).trans (statusIn_open hr.tracks.legal none hopen)
  committed_iff i := hr.committed_iff.trans hr.commitScn_isSome.symm
  commitScn_le i n hn := by
    obtain ⟨m, hm, -, hle⟩ :=
      hr.commitClock.stamped i (hr.commitScn_isSome.mp (Option.isSome_of_eq_some hn))
    obtain rfl : m = n := Option.some.inj (hm.symm.trans hn)
    exact hle
  commitScn_injective i j n hi hj := by
    by_contra hij
    obtain ⟨n', m', hn', hm', hne⟩ := hr.commitScn_lt_or
      (hr.commitScn_isSome.mp (Option.isSome_of_eq_some hi))
      (hr.commitScn_isSome.mp (Option.isSome_of_eq_some hj)) hij
    exact hne (Option.some.inj (hn'.symm.trans (hi.trans (hj.symm.trans hm'))))
  commitScn_ordered := hr.commitClock.ordered
  stored := Reaches.stored hr nofun

end Reached

variable [BuildProfile] [Unicode] [SqlParser] [ComfyTable]
  {w : Server} {h : List DbEvent}

theorem Runs.reached {w₀ : Server} (hr : Runs free w₀ w h) : Reaches free w₀.world w.world h :=
  hr.reaches readsFile_free

/-- In every state the manager's invariant holds, and finished transactions never change again. -/
theorem manager_invariant (hr : Runs free Server.fresh w h) :
    ManagerInvariant w h ∧
      ∀ w' h', Runs free w w' h' → ∀ i status, w.db.txMgr.statuses.lookup i = some status →
        status ≠ .active → w'.db.txMgr.statuses.lookup i = some status ∧
          w'.db.txMgr.commitScns.lookup i = w.db.txMgr.commitScns.lookup i := by
  have hr₁ : Reached free w.world h := hr.reached
  refine ⟨hr₁.managerInvariant, fun w' h' hr' i status hst hne => ?_⟩
  have hr₂ : Reached free w'.world (h ++ h') := hr₁.trans hr'.reached
  have hin : statusIn h i none = some status := (hr₁.statuses i).symm.trans hst
  have hbegun := begun_of_statusIn hr₁.tracks.legal hin
  have hst' : w'.db.txMgr.statuses.lookup i = statusIn (h ++ h') i none := hr₂.statuses i
  by_cases hc : .commit i ∈ h
  · rw [(statusIn_ended hr₁.tracks.legal none).1 hc] at hin
    rw [hst', (statusIn_ended hr₂.tracks.legal none).1 (List.mem_append_left _ hc)]
    exact ⟨hin, (hr'.reached.commitScns_final hr₁.tracks hc).1⟩
  by_cases hab : .abort i ∈ h
  · rw [(statusIn_ended hr₁.tracks.legal none).2 hab] at hin
    rw [hst', (statusIn_ended hr₂.tracks.legal none).2 (List.mem_append_left _ hab)]
    have hc' : .commit i ∉ h ++ h' := fun hm =>
      hr₂.tracks.legal.not_abort hm (List.mem_append_left _ hab)
    refine ⟨hin, ?_⟩
    exact (hr₂.commitClock.unchanged i hc').trans (hr₁.commitClock.unchanged i hc).symm
  · rw [statusIn_open hr₁.tracks.legal none ⟨hbegun, hc, hab⟩] at hin
    exact absurd (Option.some.inj hin).symm hne

end Manager

open Sample in
theorem manager_invariant_sample :
    let w := Server.fresh.after Sample.events
    ManagerInvariant w.1 w.2 ∧
      ∀ w' h', Runs free w.1 w' h' → ∀ i status, w.1.db.txMgr.statuses.lookup i = some status →
        status ≠ .active → w'.db.txMgr.statuses.lookup i = some status ∧
          w'.db.txMgr.commitScns.lookup i = w.1.db.txMgr.commitScns.lookup i :=
  manager_invariant (.after _ _)

section Log

/-- What holds of the records in the file and in the buffer in every state. -/
structure LogInvariant (w : Server) (h : List DbEvent) : Prop where
  executed : w.db.txMgr.log.map RedoRecord.event = h.filter TxEvent.inTx
  grammar : ∀ i, Grammar i ((w.db.txMgr.log.filter fun r => r.txId = i).map RedoRecord.event)
  row_logged : ∀ name rows t i, w.db.tables.lookup name = some rows → t ∈ rows → t.txId = some i →
    ∃ scn rowIdx, .insert i scn name t.values rowIdx ∈ w.db.txMgr.log
  ended_flushed : ∀ i status, w.db.txMgr.statuses.lookup i = some status → status ≠ .active →
    ∀ r ∈ w.db.txMgr.redoBuffer, r.txId ≠ i

theorem Reached.logInvariant {G : World → DbEvent → Prop} {w : Server} {h : List DbEvent}
    (hr : Reached G w.world h) : LogInvariant w h where
  executed := hr.log
  grammar i := by
    have hevents : (w.db.txMgr.log.filter fun r => r.txId = i).map RedoRecord.event =
        eventsOf (h.filter TxEvent.inTx) i := by
      rw [← hr.log, eventsOf, List.filter_map]
      congr 1
      apply List.filter_congr
      intro r _
      simp
    rw [hevents]
    exact hr.tracks.legal.filter_inTx.grammar i
  row_logged name rows t i ht hm hi := by
    have hw : .write (some i) (name, t.values) ∈ h := hi ▸ hr.written ht hm
    have hlog := (mem_filter_inTx (h := h) rfl).mpr hw
    rw [← hr.log] at hlog
    obtain ⟨r, hr', hev⟩ := List.mem_map.mp hlog
    cases r with
    | insert txId scn tableName values rowIdx =>
      cases hev
      exact ⟨scn, rowIdx, hr'⟩
    | begin | commit | rollback => cases hev
  ended_flushed i status hst hne r hrb := by
    rintro rfl
    have hin := (hr.statuses r.txId).symm.trans hst
    rw [statusIn_open hr.tracks.legal none (hr.buffer_open r hrb)] at hin
    exact hne (Option.some.inj hin).symm

variable [BuildProfile] [Unicode] [SqlParser] [ComfyTable]

/-- In every state the log's invariant holds. -/
theorem log_invariant {w : Server} {h : List DbEvent} (hr : Runs free Server.fresh w h) :
    LogInvariant w h :=
  Reached.logInvariant hr.reached

end Log

open Sample in
theorem log_invariant_sample :
    LogInvariant (Server.fresh.after Sample.events).1 (Server.fresh.after Sample.events).2 :=
  log_invariant (.after _ _)

section Reads

/-- A row that a session's query may be given. -/
structure CleanRead (w : Server) (h : List DbEvent) (id : ℕ) (session : SessionState)
    (name : String) (t : Tuple) : Prop where
  written : .write t.txId (name, t.values) ∈ h
  own_or_committed : ∀ i, t.txId = some i → session.currentTxId = some i ∨ .commit i ∈ h
  not_aborted : ∀ i, t.txId = some i → .abort i ∉ h
  not_elsewhere : ∀ id' session', w.sessions.lookup id' = some session' → id' ≠ id →
    ∀ i, t.txId = some i → session'.currentTxId ≠ some i

/-- Every visible row of a table is one that the session may read. -/
theorem Reached.cleanRead {G : World → DbEvent → Prop} {w : Server} {h : List DbEvent}
    (hr : Reached G w.world h) {id : ℕ} {session : SessionState}
    (hs : w.sessions.lookup id = some session) {name : String} {rows : List Tuple} {t : Tuple}
    (ht : w.db.tables.lookup name = some rows) (hm : t ∈ rows) {scn : ℕ}
    (hv : w.db.txMgr.isVisible t.txId session.currentTxId scn) :
    CleanRead w h id session name t := by
  have hown (i : ℕ) (hi : t.txId = some i) : session.currentTxId = some i ∨ .commit i ∈ h := by
    simp only [TransactionManager.isVisible, hi] at hv
    split at hv
    · rename_i heq
      exact .inl heq.symm
    · split at hv
      · rename_i hst
        exact .inr (hr.committed_iff.mp hst)
      · cases hv
  have hopen (id' : ℕ) (s' : SessionState) (hs' : w.sessions.lookup id' = some s') (i : ℕ)
      (hi : s'.currentTxId = some i) : Open h i :=
    hr.tracks.opened id' i (opens_of_session hs' hi)
  refine ⟨hr.written ht hm, hown, fun i hi hab => ?_, fun id' s' hs' hid i hi hi' => ?_⟩
  · rcases hown i hi with hcur | hc
    · exact (hopen id session hs i hcur).not_abort hab
    · exact hr.tracks.legal.not_abort hc hab
  · rcases hown i hi with hcur | hc
    · exact hid (hr.tracks.owner_unique id' id i (opens_of_session hs' hi')
        (opens_of_session hs hcur))
    · exact (hopen id' s' hs' i hi').not_commit hc

variable [BuildProfile] [Unicode] [SqlParser] [ComfyTable]

/-- In every state a scan for a query of a session gives it only rows that it may read. -/
theorem scan_clean_read {w : Server} {h : List DbEvent} (hr : Runs free Server.fresh w h) {id : ℕ}
    {session : SessionState} (hs : w.sessions.lookup id = some session) {name : String}
    {cursor : ℕ} {t : Tuple}
    (hn : (Executor.next (queryContext w.db { session with crScn := w.db.txMgr.scn })
      (.seqScan name cursor)).1 = .ok (some t)) :
    CleanRead w h id session name t := by
  have hr₁ : Reached free w.world h := hr.reached
  obtain ⟨rows, ht, hm, hv⟩ := Executor.seqScan_mem hn
  exact hr₁.cleanRead hs ht hm hv

end Reads

open Sample in
theorem scan_clean_read_sample :
    let w := Server.fresh.after Sample.events
    let session : SessionState := ⟨2, some 2, 0⟩
    w.1.sessions.lookup 2 = some session ∧
      CleanRead w.1 w.2 2 session "t" ⟨[.int 1], some 1, 0⟩ := by
  have hs : (Server.fresh.after Sample.events).1.sessions.lookup 2 = some ⟨2, some 2, 0⟩ := by
    decide +kernel
  exact ⟨hs, @scan_clean_read _ _ _ _ _ _ (.after _ _) 2 _ hs "t" 0 _ (by decide +kernel)⟩

end VolcanoDb
