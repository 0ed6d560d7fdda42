import VolcanoDb.Lib.Positions
import VolcanoDb.Server.Lifetime

/-! # Rollback

The undo records of a transaction hold the positions at which its rows were
stored. A rollback removes what stands at them now, so it removes the right rows
as long as no row has moved; rows move when another rollback removes a row
before them.
-/

namespace VolcanoDb

open History Positions

def UndoRecord.rowIn (name : String) : UndoRecord → Option ℕ
  | insert tableName rowIdx => if tableName = name then some rowIdx else none

def Tuple.ownedBy (txId : ℕ) (t : Tuple) : Bool := t.txId = some txId

def DatabaseState.undoPositions (db : DatabaseState) (txId : ℕ) (name : String) : List ℕ :=
  ((db.txMgr.undoSegments.lookup txId).getD []).filterMap (UndoRecord.rowIn name)

theorem undoRecord_lookup (tables : FinMap String (List Tuple)) (rec : UndoRecord) (name : String) :
    (undoRecord tables rec).lookup name =
      (tables.lookup name).map fun rows => (rec.rowIn name).toList.foldl List.eraseIdx rows := by
  rcases rec with ⟨tableName, rowIdx⟩
  unfold undoRecord UndoRecord.rowIn
  by_cases hn : tableName = name
  · subst hn
    rcases ht : tables.lookup tableName with _ | rows
    · simp [ht]
    · by_cases hlt : rowIdx < rows.length
      · simp [ht, hlt]
      · simp [ht, hlt, List.eraseIdx_of_length_le (Nat.le_of_not_lt hlt)]
  · rcases ht : tables.lookup tableName with _ | rows
    · simp [ht, hn]
    · by_cases hlt : rowIdx < rows.length
      · simp [ht, hlt, hn, Ne.symm hn]
      · simp [ht, hlt, hn]

theorem foldl_undoRecord_lookup (recs : List UndoRecord) (tables : FinMap String (List Tuple))
    (name : String) : (recs.foldl undoRecord tables).lookup name =
      (tables.lookup name).map
        fun rows => (recs.filterMap (UndoRecord.rowIn name)).foldl List.eraseIdx rows := by
  induction recs generalizing tables with
  | nil => simp
  | cons rec recs ih =>
    rw [List.foldl_cons, ih, undoRecord_lookup, Option.map_map]
    congr 1
    funext rows
    rw [List.filterMap_cons]
    cases rec.rowIn name <;> rfl

/-- A rollback erases, in every table, what stands at the recorded positions. -/
theorem rollback_lookup (db : DatabaseState) (txId : ℕ) (name : String) :
    (db.rollback txId).tables.lookup name =
      (db.tables.lookup name).map fun rows => eraseAll rows (db.undoPositions txId name) := by
  simp only [DatabaseState.rollback, foldl_undoRecord_lookup, List.filterMap_reverse]
  rfl

/-- The undo records of open transactions hold the positions of their rows. -/
def World.Indexed (w : World) : Prop :=
  ∀ id txId, w.opens id = some txId → ∀ name,
    w.db.undoPositions txId name = (w.rows name).findIdxs (Tuple.ownedBy txId)

/-- A transaction is rolled back while nothing of another open one stands behind its rows. -/
def KeepsPositions (w : World) : DbEvent → Prop
  | .abort txId => ∀ id txId' name, w.opens id = some txId' → txId' ≠ txId →
      (w.rows name).Pairwise fun a b => a.txId = some txId → b.txId ≠ some txId'
  | _ => True

section Step

variable {w w' : World} {h es : List DbEvent} {id txId : ℕ} {name : String}

theorem findIdxs_pushRow {rows : List Tuple} {vals : List Value} {owner : Option ℕ} {scn : ℕ} :
    (rows ++ [Tuple.newWithMeta vals owner scn]).findIdxs (Tuple.ownedBy txId) =
      rows.findIdxs (Tuple.ownedBy txId) ++ if owner = some txId then [rows.length] else [] := by
  rw [findIdxs_snoc]
  by_cases ho : owner = some txId
  · simp [Tuple.ownedBy, Tuple.newWithMeta, ho]
  · simp [Tuple.ownedBy, Tuple.newWithMeta, ho]

theorem undoPositions_pushRow {rows : List Tuple} {vals : List Value} {owner : Option ℕ}
    (db : DatabaseState) (name' : String) :
    (db.pushRow owner name rows vals).undoPositions txId name' = db.undoPositions txId name' ++
      if owner = some txId ∧ name = name' then [rows.length] else [] := by
  unfold DatabaseState.undoPositions
  rw [DatabaseState.pushRow_txMgr]
  rcases owner with _ | tid
  · simp
  · by_cases htid : tid = txId
    · subst htid
      by_cases hn : name = name'
      · simp [TransactionManager.recordInsert, UndoRecord.rowIn, hn]
      · simp [TransactionManager.recordInsert, UndoRecord.rowIn, hn]
    · simp [TransactionManager.recordInsert, htid, Ne.symm htid]

theorem World.Indexed.begin (hi : w.Indexed) (ht : Tracks w h)
    (habs : ∀ name, ∀ r ∈ w.rows name, r.txId ≠ some w.db.txMgr.nextTxId) :
    World.Indexed ⟨w.db.begin.2, Function.update w.opens id (some w.db.txMgr.nextTxId)⟩ := by
  intro id' txId' ho name
  have hundo (i : ℕ) : w.db.begin.2.undoPositions i name =
      if i = w.db.txMgr.nextTxId then [] else w.db.undoPositions i name := by
    simp only [DatabaseState.undoPositions, DatabaseState.begin_txMgr, TransactionManager.begin,
      FinMap.lookup_insert_eq]
    split <;> rfl
  by_cases hid : id' = id
  · subst hid
    obtain rfl : w.db.txMgr.nextTxId = txId' := by simpa using ho
    have hnone : (w.rows name).findIdxs (Tuple.ownedBy w.db.txMgr.nextTxId) = [] :=
      List.findIdxs_eq_nil_iff.mpr fun r hr => by simpa [Tuple.ownedBy] using habs name r hr
    exact (hundo _).trans ((if_pos rfl).trans hnone.symm)
  · have hold : w.opens id' = some txId' := by simpa [hid] using ho
    have hne : txId' ≠ w.db.txMgr.nextTxId := (ht.opens_lt hold).ne
    exact (hundo txId').trans ((if_neg hne).trans (hi id' txId' hold name))

theorem World.Indexed.write (hi : w.Indexed) {rows : List Tuple} {vals : List Value}
    (hr : w.db.tables.lookup name = some rows) :
    World.Indexed ⟨w.db.pushRow (w.opens id) name rows vals, w.opens⟩ := by
  intro id' txId' ho name'
  rw [undoPositions_pushRow, hi id' txId' ho name']
  by_cases hn : name = name'
  · subst hn
    have hold : w.rows name = rows := by rw [World.rows, hr]; rfl
    have hnew : World.rows ⟨w.db.pushRow (w.opens id) name rows vals, w.opens⟩ name =
        rows ++ [Tuple.newWithMeta vals (w.opens id) w.db.txMgr.scn] := by
      simp [World.rows]
    rw [hnew, findIdxs_pushRow, hold]
    simp
  · have hnew : World.rows ⟨w.db.pushRow (w.opens id) name rows vals, w.opens⟩ name' =
        w.rows name' := by
      simp [World.rows, Ne.symm hn]
    rw [hnew]
    simp [hn]

end Step

/-- A rollback whose records hold the positions removes the transaction's rows and no others. -/
theorem World.Indexed.rollback {w : World} (hi : w.Indexed) {id txId : ℕ}
    (ho : w.opens id = some txId) (name : String) :
    (w.db.rollback txId).tables.lookup name =
      (w.db.tables.lookup name).map (List.filter fun r => !r.ownedBy txId) := by
  rw [rollback_lookup]
  rcases ht : w.db.tables.lookup name with _ | rows
  · rfl
  · have hrows : w.rows name = rows := by rw [World.rows, ht]; rfl
    rw [Option.map_some, Option.map_some, hi id txId ho name, hrows, eraseAll_findIdxs]

theorem World.Indexed.abort {w : World} {h : List DbEvent} (hi : w.Indexed) (ht : Tracks w h)
    {id txId : ℕ} (ho : w.opens id = some txId) (hG : KeepsPositions w (.abort txId)) :
    World.Indexed ⟨w.db.rollback txId, Function.update w.opens id none⟩ := by
  intro id' txId' ho' name
  have hid : id' ≠ id := by
    rintro rfl
    simp at ho'
  have hold : w.opens id' = some txId' := by simpa [hid] using ho'
  have hne : txId' ≠ txId := by
    rintro rfl
    exact hid (ht.owner_unique id' id txId' hold ho)
  have hundo : (w.db.rollback txId).undoPositions txId' name = w.db.undoPositions txId' name := by
    simp [DatabaseState.undoPositions, DatabaseState.rollback_txMgr, hne]
  have hrows : World.rows ⟨w.db.rollback txId, Function.update w.opens id none⟩ name =
      (w.rows name).filter fun r => !r.ownedBy txId := by
    simp only [World.rows, hi.rollback ho name]
    rcases w.db.tables.lookup name with _ | rows <;> rfl
  have hpos : ((w.rows name).filter fun r => !r.ownedBy txId).findIdxs (Tuple.ownedBy txId') =
      (w.rows name).findIdxs (Tuple.ownedBy txId') := by
    apply findIdxs_filter
    · intro r _ hr
      simp_all [Tuple.ownedBy, Ne.symm hne]
    · apply (hG id' txId' name hold hne).imp
      intro a b hab ha
      simpa [Tuple.ownedBy] using hab (by simpa [Tuple.ownedBy] using ha)
  rw [hundo, hrows, hpos]
  exact hi id' txId' hold name

theorem World.Indexed.act {w w' : World} {h es : List DbEvent} (hi : w.Indexed) (ht : Tracks w h)
    (habs : ∀ name, ∀ r ∈ w.rows name, r.txId ≠ some w.db.txMgr.nextTxId)
    (ha : Act w es w') (hG : ∀ e ∈ es, KeepsPositions w e) : w'.Indexed := by
  cases ha with
  | begin ho => exact hi.begin ht habs
  | write hs hr hv => exact hi.write hr
  | @commit id txId ho =>
    intro id' txId' ho' name
    have hold : w.opens id' = some txId' := by
      by_cases hid : id' = id
      · simp [hid] at ho'
      · simpa [hid] using ho'
    have hsame := hi id' txId' hold name
    simpa [DatabaseState.undoPositions, TransactionManager.commit_eq, World.rows] using hsame
  | rollback ho => exact hi.abort ht ho (hG _ (by simp))
  | @createTable tableName schema hs =>
    intro id' txId' ho' name
    have hrows : World.rows ⟨w.db.createTable tableName schema, w.opens⟩ name = w.rows name := by
      by_cases hn : name = tableName
      · subst hn
        rcases hl : w.db.tables.lookup name with _ | rows <;>
          simp [World.rows, DatabaseState.createTable, FinMap.lookup_orInsert, hl]
      · simp [World.rows, DatabaseState.createTable, FinMap.lookup_orInsert, hn]
    rw [hrows]
    exact hi id' txId' ho' name
  | @release opens hrel =>
    intro id' txId' ho' name
    rcases hrel id' with hnone | hsame
    · cases hnone.symm.trans ho'
    · exact hi id' txId' (hsame.symm.trans ho') name

theorem Reached.indexed {w : World} {h : List DbEvent} (hr : Reached KeepsPositions w h) :
    w.Indexed := by
  induction hr with
  | refl => exact nofun
  | @act w w' h es hr ha hG ih =>
    have ht := Reached.tracks hr
    refine ih.act ht (fun name r hm hid => ?_) ha hG
    rcases hl : w.db.tables.lookup name with _ | rows
    · simp [World.rows, hl] at hm
    · rw [World.rows, hl] at hm
      exact ht.next_absent (hid ▸ Reached.written hr hl hm) rfl

section Rollback

variable [BuildProfile] [Unicode] [SqlParser] [Collections] [ComfyTable]

/-- In such runs every rollback removes exactly the rows of its transaction. -/
theorem rollback_removes_own_rows {w : Server} {h : List DbEvent}
    (hr : Runs KeepsPositions Server.fresh w h) {id txId : ℕ} {session : SessionState}
    (hs : w.sessions.lookup id = some session) (hc : session.currentTxId = some txId)
    {sql : String} (hsql : Unicode.toUppercase (Text.trim sql) = "ROLLBACK") (name : String) :
    (innerHandle w.db session sql).2.1.tables.lookup name =
      (w.db.tables.lookup name).map (List.filter fun r => r.txId ≠ some txId) := by
  have hr₁ : Reached KeepsPositions w.world h := hr.reaches fun _ _ _ _ _ _ => trivial
  have hdb : (innerHandle w.db session sql).2.1 = w.db.rollback txId := by
    have hbegin : Text.startsWith "ROLLBACK" "BEGIN" = false := by decide
    have hstart : Text.startsWith "ROLLBACK" "START TRANSACTION" = false := by decide
    simp [innerHandle, hsql, hbegin, hstart, handleRollback, hc]
  have hrows := hr₁.indexed.rollback (Reached.opens_of_session hs hc) name
  rw [hdb]
  simpa [Tuple.ownedBy, Server.world] using hrows

end Rollback

/-- All rows behind a row of the transaction that is rolled back are its own or no one's. -/
def LastRows (w : World) : DbEvent → Prop
  | .abort txId => ∀ e ∈ w.db.tables.entries, e.2.Pairwise fun a b =>
      a.txId = some txId → b.txId = some txId ∨ b.txId = none
  | _ => True

instance LastRows.decidable (w : World) : ∀ e, Decidable (LastRows w e)
  | .abort _ => inferInstanceAs (Decidable (∀ e ∈ w.db.tables.entries, _))
  | .begin _ | .write _ _ | .commit _ => .isTrue trivial

theorem LastRows.keepsPositions {w : World} {e : DbEvent} (h : LastRows w e) :
    KeepsPositions w e := by
  cases e with
  | abort txId =>
    intro id txId' name _ hne
    rcases hl : w.db.tables.lookup name with _ | rows
    · simp [World.rows, hl]
    · have hentry : ⟨name, rows⟩ ∈ w.db.tables.entries := AList.mem_lookup_iff.mp hl
      rw [World.rows, hl, Option.getD_some]
      apply (h _ hentry).imp
      intro a b hab ha hb
      rcases hab ha with hown | hnone
      · exact hne (Option.some.inj (hb.symm.trans hown))
      · cases hnone.symm.trans hb
  | begin | write | commit => trivial

namespace Sample

def unwound : List Event := Sample.events.dropLast ++ [.statement 2 "ROLLBACK"]

end Sample

open Sample in
theorem rollback_removes_own_rows_sample :
    let w := (Server.fresh.after unwound).1
    (innerHandle w.db ⟨1, some 1, 0⟩ "ROLLBACK").2.1.tables.lookup "t" =
      (w.db.tables.lookup "t").map (List.filter fun r => r.txId ≠ some 1) := by
  have hmeets : Server.fresh.Meets LastRows unwound := by decide +kernel
  have hr : Runs KeepsPositions Server.fresh (Server.fresh.after unwound).1 _ :=
    (Runs.refl.of_meets hmeets).mono fun _ _ => LastRows.keepsPositions
  have hs : (Server.fresh.after unwound).1.sessions.lookup 1 = some ⟨1, some 1, 0⟩ := by
    decide +kernel
  exact rollback_removes_own_rows hr hs rfl (by decide +kernel) "t"

namespace Sample

def shifted : List Event := Sample.events.dropLast ++ [.statement 1 "ROLLBACK"]

end Sample

open Sample in
/-- The record of the second session points behind its row, which stays. -/
theorem rollback_misses_moved_row : ¬ ∀ (w : Server) (h : List DbEvent),
    Runs free Server.fresh w h → ∀ (id txId : ℕ) (session : SessionState),
    w.sessions.lookup id = some session → session.currentTxId = some txId → ∀ (sql : String),
    Unicode.toUppercase (Text.trim sql) = "ROLLBACK" → ∀ (name : String),
    (innerHandle w.db session sql).2.1.tables.lookup name =
      (w.db.tables.lookup name).map (List.filter fun r => r.txId ≠ some txId) := by
  intro hall
  have hrows := hall _ _ (.after Server.fresh Sample.shifted) 2 2 ⟨2, some 2, 0⟩ (by decide +kernel)
    rfl "ROLLBACK" (by decide +kernel) "t"
  exact absurd hrows (by decide +kernel)

end VolcanoDb
