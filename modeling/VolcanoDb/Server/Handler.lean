import VolcanoDb.Executor.Lifecycle
import VolcanoDb.Lib.Text
import VolcanoDb.Planner.Bind

/-! # Statements

The handler of one statement: transaction control by keyword, everything else
through the binder. A handler returns its result and the states that it leaves
behind, also when it fails.
-/

namespace VolcanoDb

open Text

structure DatabaseState where
  catalog : Catalog
  tables : FinMap String (List Tuple)
  txMgr : TransactionManager
  deriving DecidableEq

structure SessionState where
  sessionId : ℕ
  currentTxId : Option ℕ
  crScn : ℕ
  deriving DecidableEq

/-- The text of a result table with a header and rows. -/
class ComfyTable where
  render : List String → List (List String) → String

abbrev Outcome := Result String × DatabaseState × SessionState

/-- Undo one insert: remove what now stands at the recorded position, if anything does. -/
def undoRecord (tables : FinMap String (List Tuple)) : UndoRecord → FinMap String (List Tuple)
  | .insert tableName rowIdx =>
    match tables.lookup tableName with
    | none => tables
    | some table =>
      if rowIdx < table.length then tables.insert tableName (table.eraseIdx rowIdx) else tables

namespace DatabaseState

variable (db : DatabaseState)

def begin : ℕ × DatabaseState :=
  let (txId, txMgr) := db.txMgr.begin
  (txId, { db with txMgr := txMgr })

def commit (txId : ℕ) : DatabaseState := { db with txMgr := db.txMgr.commit txId }

/-- Replay the undo records of a transaction, last one first. -/
def rollback (txId : ℕ) : DatabaseState :=
  let undoRecords := (db.txMgr.undoSegments.lookup txId).getD []
  let txMgr := { db.txMgr with undoSegments := db.txMgr.undoSegments.erase txId }
  { db with
    tables := undoRecords.reverse.foldl undoRecord db.tables
    txMgr := txMgr.rollback txId }

def createTable (name : String) (schema : Schema) : DatabaseState :=
  { db with
    catalog := db.catalog.addTable name schema
    tables := FinMap.orInsert db.tables name [] }

/-- Append a row to the rows of a table, recorded when a transaction writes it. -/
def pushRow (txId : Option ℕ) (name : String) (rows : List Tuple) (vals : List Value) :
    DatabaseState :=
  { db with
    tables := db.tables.insert name (rows ++ [Tuple.newWithMeta vals txId db.txMgr.scn])
    txMgr := match txId with
      | some tid => db.txMgr.recordInsert tid name vals rows.length
      | none => db.txMgr }

variable (txId : ℕ) (owner : Option ℕ) (name : String) (schema : Schema) (rows : List Tuple)
  (vals : List Value)

@[simp] theorem begin_txMgr : db.begin.2.txMgr = db.txMgr.begin.2 := rfl

@[simp] theorem begin_tables : db.begin.2.tables = db.tables := rfl

@[simp] theorem begin_catalog : db.begin.2.catalog = db.catalog := rfl

@[simp] theorem commit_txMgr : (db.commit txId).txMgr = db.txMgr.commit txId := rfl

@[simp] theorem commit_tables : (db.commit txId).tables = db.tables := rfl

@[simp] theorem commit_catalog : (db.commit txId).catalog = db.catalog := rfl

@[simp] theorem rollback_catalog : (db.rollback txId).catalog = db.catalog := rfl

@[simp] theorem createTable_txMgr : (db.createTable name schema).txMgr = db.txMgr := rfl

@[simp] theorem pushRow_catalog : (db.pushRow owner name rows vals).catalog = db.catalog := rfl

@[simp] theorem pushRow_tables :
    (db.pushRow owner name rows vals).tables =
      db.tables.insert name (rows ++ [Tuple.newWithMeta vals owner db.txMgr.scn]) := rfl

theorem pushRow_txMgr : (db.pushRow owner name rows vals).txMgr =
    match owner with
    | some tid => db.txMgr.recordInsert tid name vals rows.length
    | none => db.txMgr := rfl

@[simp] theorem pushRow_scn : (db.pushRow owner name rows vals).txMgr.scn = db.txMgr.scn := by
  cases owner <;> rfl

@[simp] theorem pushRow_statuses :
    (db.pushRow owner name rows vals).txMgr.statuses = db.txMgr.statuses := by
  cases owner <;> rfl

@[simp] theorem pushRow_commitScns :
    (db.pushRow owner name rows vals).txMgr.commitScns = db.txMgr.commitScns := by
  cases owner <;> rfl

@[simp] theorem pushRow_nextTxId :
    (db.pushRow owner name rows vals).txMgr.nextTxId = db.txMgr.nextTxId := by
  cases owner <;> rfl

@[simp] theorem pushRow_redoFile :
    (db.pushRow owner name rows vals).txMgr.redoFile = db.txMgr.redoFile := by
  cases owner <;> rfl

theorem rollback_txMgr : (db.rollback txId).txMgr =
    { db.txMgr with
      statuses := db.txMgr.statuses.insert txId .rolledBack
      undoSegments := db.txMgr.undoSegments.erase txId
      redoBuffer := []
      redoFile := ⟨db.txMgr.log ++ [.rollback txId db.txMgr.scn]⟩ } := by
  simp [rollback, TransactionManager.rollback_eq, TransactionManager.log]

end DatabaseState

def handleBegin (db : DatabaseState) (session : SessionState) : Outcome :=
  if session.currentTxId.isSome then (err .activeTransaction, db, session)
  else
    let (txId, db) := db.begin
    (pure s!"BEGIN (tx_id={txId})", db, { session with currentTxId := some txId })

def handleCommit (db : DatabaseState) (session : SessionState) : Outcome :=
  match session.currentTxId with
  | none => (err .noTransaction, db, session)
  | some txId =>
    (pure s!"COMMIT (tx_id={txId})", db.commit txId, { session with currentTxId := none })

def handleRollback (db : DatabaseState) (session : SessionState) : Outcome :=
  match session.currentTxId with
  | none => (err .noTransaction, db, session)
  | some txId =>
    (pure s!"ROLLBACK (tx_id={txId})", db.rollback txId, { session with currentTxId := none })

section Statements

variable [Unicode]

def handleCreateTable (db : DatabaseState) (tableName : String) (schema : Schema) :
    Result String × DatabaseState :=
  let nameLower := Unicode.toLowercase tableName
  if (db.catalog.getSchema nameLower).isSome then (err (.tableExists tableName), db)
  else (pure s!"Table '{tableName}' created successfully.", db.createTable nameLower schema)

variable [BuildProfile]

omit [Unicode] [BuildProfile] in
def insertContext (i : ℕ) : Result Value → Result Value
  | .error (.error e) => err (.insertValue i e)
  | r => r

omit [Unicode] in
def evalValues : ℕ → List Expr → Result (List Value)
  | _, [] => pure []
  | i, expr :: exprs => do
    let val ← insertContext i (expr.eval (Tuple.new []) ⟨[]⟩)
    let vals ← evalValues (i + 1) exprs
    pure (val :: vals)

omit [Unicode] in
def evalRow (schema : Schema) (row : List Expr) : Result (List Value) :=
  if row.length ≠ schema.columns.length then
    err (.columnCount schema.columns.length row.length)
  else evalValues 0 row

omit [Unicode] in
/-- Store rows one after the other, up to the first row that fails. -/
def insertRows (schema : Schema) (txId : Option ℕ) (name : String) :
    DatabaseState → List Tuple → ℕ → List (List Expr) → Result ℕ × DatabaseState
  | db, _, insertedCount, [] => (pure insertedCount, db)
  | db, table, insertedCount, row :: rows =>
    match evalRow schema row with
    | .error f => (.error f, db)
    | .ok vals =>
      insertRows schema txId name (db.pushRow txId name table vals)
        (table ++ [Tuple.newWithMeta vals txId db.txMgr.scn]) (insertedCount + 1) rows

def handleInsert (db : DatabaseState) (session : SessionState) (tableName : String)
    (rows : List (List Expr)) : Result String × DatabaseState :=
  let nameLower := Unicode.toLowercase tableName
  match db.catalog.getSchema nameLower with
  | none => (err (.tableNotFound tableName), db)
  | some schema =>
    match db.tables.lookup nameLower with
    | none => (err (.storageMissing tableName), db)
    | some targetTable =>
      let (result, db) := insertRows schema session.currentTxId nameLower db targetTable 0 rows
      ((fun n => s!"Inserted {n} row(s).") <$> result, db)

omit [Unicode] [BuildProfile] in
/-- What a query of a session sees: the state of the database at its start. -/
def queryContext (db : DatabaseState) (session : SessionState) : ExecutionContext where
  tables := db.tables
  txMgr := db.txMgr
  sessionTxId := session.currentTxId
  crScn := session.crScn

variable [Collections] [ComfyTable]

omit [Unicode] in
def runQuery (ctx : ExecutionContext) (catalog : Catalog) (plan : LogicalPlan) : Result String := do
  let physicalPlan ← buildExecutor catalog plan
  let (initialised, physicalPlan) := physicalPlan.init ctx
  initialised
  let querySchema ← plan.schema catalog
  let headers := querySchema.columns.map Column.name
  let addRow rows (tuple : Tuple) := (pure (), rows ++ [tuple.values.map Value.display])
  let (pulled, rows, _) := (Executor.source ctx).fold addRow physicalPlan []
  pulled
  let table := if rows = [] then "" else s!"{ComfyTable.render headers rows}\n"
  pure s!"{table}{rows.length} row(s) in set."

variable [SqlParser]

def executeStatement (db : DatabaseState) (session : SessionState) : SQLStatement → Outcome
  | .createTable tableName schema =>
    let (result, db) := handleCreateTable db tableName schema
    (result, db, session)
  | .insert tableName rows =>
    let (result, db) := handleInsert db session tableName rows
    (result, db, session)
  | .query plan =>
    let session := { session with crScn := db.txMgr.scn }
    (runQuery (queryContext db session) db.catalog plan, db, session)

def innerHandle (db : DatabaseState) (session : SessionState) (sql : String) : Outcome :=
  let upper := Unicode.toUppercase (trim sql)
  if startsWith upper "BEGIN" ∨ startsWith upper "START TRANSACTION" then handleBegin db session
  else if upper = "COMMIT" then handleCommit db session
  else if upper = "ROLLBACK" then handleRollback db session
  else
    match bindStatement sql db.catalog with
    | .error f => (.error f, db, session)
    | .ok statement => executeStatement db session statement

/-- What a client's request does to its connection. -/
inductive Reply where
  | text (response : String)
  /-- The process exits. -/
  | exit
  /-- The thread of the connection panics. -/
  | panic (message : String)
  deriving DecidableEq

omit [Unicode] [BuildProfile] [Collections] [ComfyTable] [SqlParser] in
def debugOption : Option ℕ → String
  | none => "None"
  | some n => s!"Some({n})"

omit [Unicode] [BuildProfile] [ComfyTable] [SqlParser] in
/-- The answer to `/status`. -/
def statusText (db : DatabaseState) (session : SessionState) : String :=
  let active := (Collections.iterOrder db.txMgr.statuses.keys).filter fun txId =>
    db.txMgr.statuses.lookup txId = some .active
  let activeTxs := "[" ++ ", ".intercalate (active.map toString) ++ "]"
  s!"session={session.sessionId} tx_id={debugOption session.currentTxId} " ++
    s!"cr_scn={session.crScn} global_scn={db.txMgr.scn} active_txs={activeTxs}"

def handleStatement (db : DatabaseState) (session : SessionState) (sql : String) :
    Reply × DatabaseState × SessionState :=
  let trimmed := trim sql
  if eqIgnoreAsciiCase trimmed "/crash" then (.exit, db, session)
  else if eqIgnoreAsciiCase trimmed "/status" then (.text (statusText db session), db, session)
  else
    match innerHandle db session sql with
    | (.ok msg, db, session) => (.text msg, db, session)
    | (.error (.error e), db, session) => (.text s!"Error: {e.text}", db, session)
    | (.error (.panic message), db, session) => (.panic message, db, session)

end Statements

end VolcanoDb
