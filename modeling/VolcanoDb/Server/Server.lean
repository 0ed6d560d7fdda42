import VolcanoDb.Server.Handler
import VolcanoDb.Transaction.Recovery

/-! # The server

The shared database with the private states of the connected sessions. The
database lock is held for one statement at a time, so that a run is a sequence
of connects, whole statements and disconnects. A process that exits, or a thread
that panics while it holds the lock, ends all further work.
-/

namespace VolcanoDb

structure Server where
  db : DatabaseState
  /-- The states of the connected sessions by session id. -/
  sessions : FinMap ℕ SessionState
  sessionSeq : ℕ
  /-- Whether the process has exited or the database lock is poisoned. -/
  down : Bool
  deriving DecidableEq

inductive Event where
  | connect
  | statement (sessionId : ℕ) (sql : String)
  | disconnect (sessionId : ℕ)
  deriving DecidableEq

def SessionState.new (sessionId : ℕ) : SessionState := ⟨sessionId, none, 0⟩

def demoSqls : List String := [
  "CREATE TABLE " ++ "users (id INT, name VARCHAR, age INT, score FLOAT)",
  "INSERT INTO " ++ ("users VALUES (1, 'Alice', 25, 95.5), (2, 'Bob', 30, 88.0), " ++
    "(3, 'Charlie', 22, 92.0), (4, 'David', 30, 75.5), (5, 'Eva', 25, 99.0)"),
  "CREATE TABLE " ++ "categories (id INT, category_name VARCHAR)",
  "INSERT INTO " ++ "categories VALUES (10, 'Electronics'), (20, 'Books'), (30, 'Clothing')",
  "CREATE TABLE " ++ "products (id INT, product_name VARCHAR, category_id INT)",
  "INSERT INTO " ++ ("products VALUES (501, 'Laptop', 10), (502, 'Phone', 10), " ++
    "(503, 'Rust Programming Book', 20), (504, 'T-Shirt', 30)"),
  "CREATE TABLE " ++ "orders (id INT, user_id INT, product_id INT, amount FLOAT)",
  "INSERT INTO " ++ ("orders VALUES (101, 1, 501, 1500.0), (102, 2, 503, 88.0), " ++
    "(103, 1, 504, 45.0), (104, 3, 502, 999.0), (105, 9, 501, 999.0)")]

section Step

variable [BuildProfile] [Unicode] [SqlParser] [Collections] [ComfyTable]

namespace Server

/-- What becomes of the server when a session's statement has been handled. -/
def afterReply (w : Server) (sessionId : ℕ) :
    Reply × DatabaseState × SessionState → Server
  | (.text _, db, session) => { w with db := db, sessions := w.sessions.insert sessionId session }
  | (.exit, db, _) => { w with db := db, sessions := ∅, down := true }
  | (.panic _, db, _) => { w with db := db, sessions := w.sessions.erase sessionId, down := true }

/-- One event; on a poisoned lock a statement panics and ends its connection. -/
def step (w : Server) : Event → Server
  | .connect =>
    { w with
      sessions := w.sessions.insert w.sessionSeq (.new w.sessionSeq)
      sessionSeq := w.sessionSeq + 1 }
  | .disconnect sessionId => { w with sessions := w.sessions.erase sessionId }
  | .statement sessionId sql =>
    match w.sessions.lookup sessionId with
    | none => w
    | some session =>
      if w.down then { w with sessions := w.sessions.erase sessionId }
      else w.afterReply sessionId (handleStatement w.db session sql)

end Server

def setupDemoData (db : DatabaseState) (tmpSession : SessionState) :
    List String → Result DatabaseState
  | [] => pure db
  | sql :: demoSqls =>
    match innerHandle db tmpSession sql with
    | (.error f, _, _) => .error f
    | (.ok _, db, tmpSession) => setupDemoData db tmpSession demoSqls

end Step

section Start

variable [SerdeJson]

/-- The tables and the manager of a process on a redo file; an empty file is not recovered. -/
def instanceRecovery (file : RedoFile) : Result (FinMap String (List Tuple) × TransactionManager) :=
  if file.bytes ≠ [] then recover ∅ (.new file) (some file.bytes) else pure (∅, .new file)

/-- A process on a redo file, before the demo data is loaded. -/
def Server.start (file : RedoFile) : Result Server := do
  let (tables, txMgr) ← instanceRecovery file
  pure ⟨⟨.new, tables, txMgr⟩, ∅, 1, false⟩

variable [BuildProfile] [Unicode] [SqlParser] [Collections] [ComfyTable]

/-- The server when it begins to listen: recovered, with the demo data loaded. -/
def Server.run (file : RedoFile) : Result Server := do
  let w ← Server.start file
  let db ← setupDemoData w.db (.new w.sessionSeq) demoSqls
  pure { w with db := db, sessionSeq := w.sessionSeq + 1 }

end Start

def Server.fresh : Server := ⟨⟨.new, ∅, .new ⟨[]⟩⟩, ∅, 1, false⟩

theorem Server.start_nil [SerdeJson] : Server.start ⟨[]⟩ = .ok Server.fresh := rfl

end VolcanoDb
