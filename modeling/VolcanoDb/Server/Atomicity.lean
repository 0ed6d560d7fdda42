import VolcanoDb.Server.Transitions

/-! # Failed statements

What a statement that returns an error leaves behind. Every path to an error
but one leaves the state as it was: an `INSERT` whose later row fails has stored
the rows before it.
-/

namespace VolcanoDb

open Text

/-- The state that a failed statement must leave as it was. -/
structure Untouched (db : DatabaseState) (session : SessionState) (db' : DatabaseState)
    (session' : SessionState) : Prop where
  catalog : db'.catalog = db.catalog
  tables : db'.tables = db.tables
  undoSegments : db'.txMgr.undoSegments = db.txMgr.undoSegments
  redoBuffer : db'.txMgr.redoBuffer = db.txMgr.redoBuffer
  statuses : db'.txMgr.statuses = db.txMgr.statuses
  scn : db'.txMgr.scn = db.txMgr.scn
  currentTxId : session'.currentTxId = session.currentTxId

theorem Untouched.of_same {db : DatabaseState} {session session' : SessionState}
    (h : session'.currentTxId = session.currentTxId) : Untouched db session db session' :=
  ⟨rfl, rfl, rfl, rfl, rfl, rfl, h⟩

section Rows

theorem insertContext_eq_ok {i : ℕ} {r : Result Value} {val : Value} :
    insertContext i r = .ok val ↔ r = .ok val := by
  rcases r with (e | message) | val'
  · exact iff_of_false nofun nofun
  · exact iff_of_false nofun nofun
  · exact Iff.rfl

variable [BuildProfile] {schema : Schema} {db : DatabaseState} {name : String} {table : List Tuple}

theorem evalValues_ok {i : ℕ} {row : List Expr} : (∃ vals, evalValues i row = .ok vals) ↔
    ∀ expr ∈ row, ∃ val, expr.eval (Tuple.new []) ⟨[]⟩ = .ok val := by
  induction row generalizing i with
  | nil => simp [evalValues]
  | cons expr row ih =>
    rw [List.forall_mem_cons, ← ih (i := i + 1)]
    simp only [evalValues, Result.bind_eq_ok, insertContext_eq_ok]
    constructor
    · rintro ⟨_, val, hval, vals, hvals, -⟩
      exact ⟨⟨val, hval⟩, vals, hvals⟩
    · rintro ⟨⟨val, hval⟩, vals, hvals⟩
      exact ⟨_, val, hval, vals, hvals, rfl⟩

theorem evalRow_ok {row : List Expr} : (∃ vals, evalRow schema row = .ok vals) ↔
    row.length = schema.columns.length ∧
      ∀ expr ∈ row, ∃ val, expr.eval (Tuple.new []) ⟨[]⟩ = .ok val := by
  rw [← evalValues_ok (i := 0), evalRow]
  split
  · rename_i hlen
    exact iff_of_false nofun fun h => hlen h.1
  · rename_i hlen
    exact (and_iff_right (not_not.mp hlen)).symm

theorem insertRows_rows (schema : Schema) (ht : db.tables.lookup name = some table)
    (txId : Option ℕ) (n : ℕ) (rows : List (List Expr)) :
    ∃ stored : List Tuple, stored.map Tuple.values = storedRows schema rows ∧
      (insertRows schema txId name db table n rows).2.tables.lookup name =
        some (table ++ stored) := by
  induction rows generalizing db table n with
  | nil => exact ⟨[], rfl, by simpa [insertRows] using ht⟩
  | cons row rows ih =>
    unfold insertRows storedRows
    rcases hv : evalRow schema row with f | vals
    · exact ⟨[], rfl, by simpa using ht⟩
    · have hpush : (db.pushRow txId name table vals).tables.lookup name =
          some (table ++ [Tuple.newWithMeta vals txId db.txMgr.scn]) := AList.lookup_insert _
      obtain ⟨stored, hvalues, hrows⟩ := ih hpush (n + 1)
      refine ⟨Tuple.newWithMeta vals txId db.txMgr.scn :: stored, ?_, ?_⟩
      · rw [List.map_cons, hvalues]
        rfl
      · rw [hrows, List.append_assoc, List.singleton_append]

theorem insertRows_first {txId : Option ℕ} {n : ℕ} {row : List Expr} {rows : List (List Expr)}
    (h : ¬ ∃ vals, evalRow schema row = .ok vals) :
    (insertRows schema txId name db table n (row :: rows)).2 = db := by
  unfold insertRows
  rcases hv : evalRow schema row with f | vals
  · rfl
  · exact absurd ⟨vals, hv⟩ h

end Rows

section Statements

variable {db : DatabaseState} {session : SessionState} {sql : String} [Unicode]

/-- Whether a text is handled by its keyword. -/
def IsControl (sql : String) : Prop :=
  let upper := Unicode.toUppercase (trim sql)
  (startsWith upper "BEGIN" ∨ startsWith upper "START TRANSACTION") ∨ upper = "COMMIT" ∨
    upper = "ROLLBACK"

theorem handleCreateTable_failed {tableName : String} {schema : Schema} {f : Fault}
    (h : (handleCreateTable db tableName schema).1 = .error f) :
    (handleCreateTable db tableName schema).2 = db := by
  unfold handleCreateTable at h ⊢
  dsimp only at h ⊢
  split
  · rfl
  · rename_i hnew
    rw [if_neg hnew] at h
    cases h

variable [BuildProfile]

def FirstRowStorable (db : DatabaseState) (tableName : String) : List (List Expr) → Prop
  | [] => False
  | row :: _ => ∃ schema, db.catalog.getSchema (Unicode.toLowercase tableName) = some schema ∧
      (db.tables.lookup (Unicode.toLowercase tableName)).isSome ∧
      row.length = schema.columns.length ∧
      ∀ expr ∈ row, ∃ val, expr.eval (Tuple.new []) ⟨[]⟩ = .ok val

/-- A failed insert leaves the tables as they were exactly if its first row fails. -/
theorem handleInsert_untouched {tableName : String} {rows : List (List Expr)} {f : Fault}
    (h : (handleInsert db session tableName rows).1 = .error f) :
    Untouched db session (handleInsert db session tableName rows).2 session ↔
      ¬ FirstRowStorable db tableName rows := by
  unfold handleInsert at h ⊢
  dsimp only at h ⊢
  rcases rows with _ | ⟨row, rest⟩
  · refine iff_of_true ?_ not_false
    split
    · exact .of_same rfl
    · split
      · exact .of_same rfl
      · exact .of_same rfl
  unfold FirstRowStorable
  rcases hs : db.catalog.getSchema (Unicode.toLowercase tableName) with _ | schema
  · exact iff_of_true (.of_same rfl) (by simp)
  rcases ht : db.tables.lookup (Unicode.toLowercase tableName) with _ | table
  · exact iff_of_true (.of_same rfl) (by simp)
  by_cases hrow : ∃ vals, evalRow schema row = .ok vals
  · refine iff_of_false (fun hu => ?_) (not_not.mpr ⟨schema, rfl, rfl, evalRow_ok.mp hrow⟩)
    obtain ⟨vals, hvals⟩ := hrow
    obtain ⟨stored, hvalues, hrows⟩ := insertRows_rows schema ht session.currentTxId 0 (row :: rest)
    have hsame := congrArg (AList.lookup (Unicode.toLowercase tableName)) hu.tables
    have hlook : some (table ++ stored) = some table := hrows.symm.trans (hsame.trans ht)
    have hnil : stored = [] := by simpa using hlook
    rw [hnil, storedRows, hvals] at hvalues
    cases hvalues
  · apply iff_of_true
    · rw [insertRows_first hrow]
      exact .of_same rfl
    · rintro ⟨_, ⟨⟩, -, hok⟩
      exact hrow (evalRow_ok.mpr hok)

variable [SqlParser]

/-- The statements that store a row before they can fail. -/
def StoresFirstRow (db : DatabaseState) (sql : String) : Prop :=
  ¬ IsControl sql ∧ ∃ tableName rows,
    bindStatement sql db.catalog = .ok (.insert tableName rows) ∧ FirstRowStorable db tableName rows

variable [Collections] [ComfyTable]

theorem innerHandle_keyword (hc : IsControl sql) (db : DatabaseState) (session : SessionState) :
    innerHandle db session sql = handleBegin db session ∨
      innerHandle db session sql = handleCommit db session ∨
      innerHandle db session sql = handleRollback db session := by
  unfold innerHandle
  dsimp only
  split
  · exact .inl rfl
  rename_i hbegin
  split
  · exact .inr (.inl rfl)
  rename_i hcommit
  split
  · exact .inr (.inr rfl)
  rename_i hrollback
  rcases hc with h | h | h
  · exact absurd h hbegin
  · exact absurd h hcommit
  · exact absurd h hrollback

theorem innerHandle_control (hc : IsControl sql) {f : Fault}
    (h : (innerHandle db session sql).1 = .error f) :
    (innerHandle db session sql).2 = (db, session) := by
  rcases innerHandle_keyword hc db session with heq | heq | heq <;> rw [heq] at h ⊢
  · unfold handleBegin at h ⊢
    split
    · rfl
    · rename_i hactive
      rw [if_neg hactive] at h
      cases h
  · unfold handleCommit at h ⊢
    rcases hcur : session.currentTxId with _ | txId
    · rfl
    · rw [hcur] at h
      cases h
  · unfold handleRollback at h ⊢
    rcases hcur : session.currentTxId with _ | txId
    · rfl
    · rw [hcur] at h
      cases h

theorem innerHandle_plain (hc : ¬ IsControl sql) : innerHandle db session sql =
    match bindStatement sql db.catalog with
    | .error f => (.error f, db, session)
    | .ok statement => executeStatement db session statement := by
  obtain ⟨hbegin, hcommit, hrollback⟩ := (not_or.mp hc).imp_right not_or.mp
  exact (if_neg hbegin).trans ((if_neg hcommit).trans (if_neg hrollback))

/--
A statement that returns an error leaves the state untouched if and only if it is
not an insert that has stored its first row.
-/
theorem failed_statement_untouched_iff {e : DbError}
    (h : (innerHandle db session sql).1 = .error (.error e)) :
    Untouched db session (innerHandle db session sql).2.1 (innerHandle db session sql).2.2 ↔
      ¬ StoresFirstRow db sql := by
  by_cases hc : IsControl sql
  · rw [innerHandle_control hc h]
    exact iff_of_true (.of_same rfl) fun hf => hf.1 hc
  rw [StoresFirstRow, and_iff_right hc]
  rw [innerHandle_plain hc] at h ⊢
  rcases hb : bindStatement sql db.catalog with f | (⟨name, schema⟩ | ⟨name, rows⟩ | plan)
  · exact iff_of_true (.of_same rfl) (by simp)
  · rw [hb] at h
    have hsame : (handleCreateTable db name schema).2 = db := handleCreateTable_failed h
    refine iff_of_true ?_ (by simp)
    simp only [executeStatement, hsame]
    exact .of_same rfl
  · rw [hb] at h
    refine (handleInsert_untouched h).trans (not_congr ?_)
    constructor
    · exact fun hfirst => ⟨name, rows, rfl, hfirst⟩
    · rintro ⟨_, _, ⟨⟩, hfirst⟩
      exact hfirst
  · exact iff_of_true (.of_same rfl) (by simp)

end Statements

namespace Sample

def opened : Server := (Server.fresh.after
  [.connect, .statement 1 "CREATE TABLE t (a INT)", .statement 1 "BEGIN"]).1

end Sample

open Sample in
theorem failed_statement_untouched_iff_sample :
    let outcome := innerHandle opened.db ⟨1, some 1, 0⟩ "INSERT INTO t VALUES (2, 3), (1)"
    Untouched opened.db ⟨1, some 1, 0⟩ outcome.2.1 outcome.2.2 ↔
      ¬ StoresFirstRow opened.db "INSERT INTO t VALUES (2, 3), (1)" :=
  failed_statement_untouched_iff (e := .columnCount 1 2) (by decide +kernel)

open Sample in
/-- The second row of the insert has a value too many; the first one stays. -/
theorem failed_insert_stores_row : ¬ ∀ (db : DatabaseState) (session : SessionState) (sql : String)
    (e : DbError), (innerHandle db session sql).1 = .error (.error e) →
      Untouched db session (innerHandle db session sql).2.1 (innerHandle db session sql).2.2 := by
  intro hall
  have hu := hall opened.db ⟨1, some 1, 0⟩ "INSERT INTO t VALUES (1), (2, 3)" (.columnCount 1 2)
    (by decide +kernel)
  exact absurd (congrArg (AList.lookup "t") hu.tables) (by decide +kernel)

end VolcanoDb
