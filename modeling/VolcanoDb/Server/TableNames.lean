import VolcanoDb.Server.Queries
import VolcanoDb.Server.StoredTypes

/-! # Table names

`CREATE TABLE` and `INSERT` look a table up under the lower case of its name,
and so store every table there. A scan looks the name up as it is written. It
therefore finds the table exactly if the name is written in lower case.
-/

namespace VolcanoDb

open Result (FailsWith)

def Sql.TableFactor.tableNames : Sql.TableFactor → List Sql.ObjectName
  | .table name _ => [name]
  | .other _ => []

def Sql.TableWithJoins.tableNames (item : Sql.TableWithJoins) : List Sql.ObjectName :=
  item.relation.tableNames ++ item.joins.flatMap fun join => join.relation.tableNames

section Binding

variable [Unicode]

theorem bindQuery_failsWith (q : Sql.Query) (catalog : Catalog) :
    FailsWith (fun f => ∀ name ∈ f.unknownTable, catalog.getSchema name = none)
      (bindQuery q catalog) := by
  refine bindQuery_failsWith_of (fun e he => by simp [he.1]) (fun source => ?_) q
  exact (source.schema_failsWith catalog).imp fun f hf name hname => (hf name hname).2

end Binding

section Requests

variable [BuildProfile] [Unicode] [SqlParser] [Collections] [ComfyTable]

/-- A request of a connected session that is neither a command nor transaction control. -/
inductive Server.Receives (w : Server) : Event → SessionState → Sql.Statement → Prop where
  | intro {sessionId : ℕ} {sql : String} {session : SessionState} {tree : Sql.Statement}
      {rest : List Sql.Statement} (hs : w.sessions.lookup sessionId = some session)
      (hd : w.down = false) (hcrash : ¬ Text.eqIgnoreAsciiCase (Text.trim sql) "/crash")
      (hstatus : ¬ Text.eqIgnoreAsciiCase (Text.trim sql) "/status") (hc : ¬ IsControl sql)
      (hp : SqlParser.parseSql sql = .ok (tree :: rest)) :
      w.Receives (.statement sessionId sql) session tree

theorem Server.Receives.step_db {w : Server} {e : Event} {session : SessionState}
    {tree : Sql.Statement} (h : w.Receives e session tree) :
    (w.step e).db = (executeTree w.db session tree).2.1 := by
  cases h with
  | intro hs hd hcrash hstatus hc hp =>
    simp only [Server.step, hs, hd, Bool.false_eq_true, if_false, Server.afterReply_db]
    rw [handleStatement_db hcrash hstatus, innerHandle_parsed hc hp]

omit [BuildProfile] [Collections] [ComfyTable] in
theorem Server.creates_lowercase {w : Server} {e : Event} {key : String} {schema : Schema}
    (h : w.creates e = some (key, schema)) : ∃ s, key = Unicode.toLowercase s := by
  have hstatement {db : DatabaseState} {sql : String}
      (h : statementCreates db sql = some (key, schema)) : ∃ s, key = Unicode.toLowercase s := by
    unfold statementCreates at h
    split at h
    · cases h
    · split at h
      · dsimp only at h
        split at h
        · cases h
        · cases h
          exact ⟨_, rfl⟩
      · cases h
  cases e with
  | connect | disconnect => cases h
  | statement sessionId sql =>
    unfold creates at h
    dsimp only at h
    split at h
    · cases h
    · split at h
      · cases h
      · unfold requestCreates at h
        split at h
        · cases h
        · split at h
          · cases h
          · exact hstatement h

variable [SerdeJson]

/-- The states of a process after a `CREATE TABLE` of a name has succeeded in it. -/
inductive TableCreated (name : Sql.ObjectName) : Server → Prop where
  | created [Collections] {w : Server} {e : Event} {session : SessionState}
      {columns : List Sql.ColumnDef} {message : String} (hr : Reachable (fun _ _ => True) w)
      (hs : w.Receives e session (.createTable name columns))
      (hok : (executeTree w.db session (.createTable name columns)).1 = .ok message) :
      TableCreated name (w.step e)
  | later [Collections] {w : Server} (e : Event) :
      TableCreated name w → TableCreated name (w.step e)

variable {w : Server} {name : Sql.ObjectName}

omit [Collections] in
theorem TableCreated.reachable (h : TableCreated name w) : Reachable (fun _ _ => True) w := by
  induction h with
  | created hr _ _ => exact hr.step _ trivial
  | later e _ ih => exact ih.step e trivial

omit [Collections] in
/-- Every table of the catalog has storage, over restarts as well. -/
theorem Reachable.stored {C : Server → Event → Prop} (hr : Reachable C w) : w.world.Stored := by
  induction hr with
  | fresh => rintro name ⟨⟩
  | @step _ w e _ _ ih =>
    have hstep : Reaches free w.world (w.step e).world (w.effects e) :=
      Server.step_reaches readsFile_free fun _ _ => trivial
    exact hstep.stored ih
  | restart _ hstart _ =>
    obtain ⟨_, -, hb⟩ := Result.bind_eq_ok.mp hstart
    cases hb
    rintro name ⟨⟩

omit [Collections] in
theorem Reachable.lowercase {C : Server → Event → Prop} (hr : Reachable C w) {key : String}
    {schema : Schema} (hk : w.db.catalog.getSchema key = some schema) :
    ∃ s, key = Unicode.toLowercase s := by
  induction hr generalizing schema with
  | fresh => cases hk
  | @step _ w e _ _ ih =>
    have hcreates := w.step_creates e
    rcases hc : w.creates e with _ | ⟨created, schema'⟩
    · rw [hcreates.unchanged hc] at hk
      exact ih hk
    · rw [hcreates.created hc] at hk
      by_cases hkey : key = created
      · subst hkey
        exact Server.creates_lowercase hc
      · exact ih (by simpa [DatabaseState.createTable, hkey] using hk)
  | restart _ hstart _ =>
    obtain ⟨_, -, hb⟩ := Result.bind_eq_ok.mp hstart
    cases hb
    cases hk

omit [Collections] in
theorem TableCreated.getSchema (h : TableCreated name w) :
    ∃ schema, w.db.catalog.getSchema (Unicode.toLowercase name.text) = some schema := by
  induction h with
  | @created _ w e session columns message hr hs hok =>
    rw [hs.step_db]
    unfold executeTree at hok ⊢
    rcases hb : bindTree w.db.catalog (.createTable name columns) with f | statement <;>
      rw [hb] at hok
    · cases hok
    obtain ⟨cols, -, hb⟩ := Result.bind_eq_ok.mp hb
    cases hb
    simp only [executeStatement, handleCreateTable] at hok ⊢
    split at hok
    · cases hok
    · rename_i hnew
      exact ⟨⟨cols⟩, by simp [hnew, DatabaseState.createTable]⟩
  | @later _ w e _ ih =>
    obtain ⟨schema, hs⟩ := ih
    have hstep : Reaches free w.world (w.step e).world (w.effects e) :=
      Server.step_reaches readsFile_free fun _ _ => trivial
    exact ⟨schema, hstep.getSchema hs⟩

end Requests

section Resolution

variable [BuildProfile] [Unicode] [Collections] [ComfyTable] {db : DatabaseState}

def SameName (name name' : Sql.ObjectName) : Prop :=
  Unicode.toLowercase name.text = Unicode.toLowercase name'.text

/-- A text in lower case is its own lower case. -/
def LowercaseIdempotent : Prop :=
  ∀ s, Unicode.toLowercase (Unicode.toLowercase s) = Unicode.toLowercase s

/-- What the statements that name a table do when they find the table that is filed under a key. -/
structure RefersTo (db : DatabaseState) (key : String) (name : Sql.ObjectName) : Prop where
  /-- An `INSERT` appends to this table and to no other one. -/
  inserts (session : SessionState) (columns : List Sql.Ident) (source : Option Sql.Query) :
    FailsWith (fun f => f.unknownTable = none)
        (executeTree db session (.insert name columns source)).1 ∧
      (∀ other ≠ key, (executeTree db session (.insert name columns source)).2.1.tables.lookup
        other = db.tables.lookup other) ∧
      ∀ n rows, bindTree db.catalog (.insert name columns source) = .ok (.insert n rows) →
        ∃ schema table stored, db.catalog.getSchema key = some schema ∧
          db.tables.lookup key = some table ∧
          stored.map Tuple.values = storedRows schema rows ∧
          (executeTree db session (.insert name columns source)).2.1.tables.lookup key =
            some (table ++ stored)
  /-- A scan has the columns and the visible rows of this table. -/
  scans (session : SessionState) (aliasName : Option Sql.Ident) (plan : LogicalPlan) :
    bindTableFactor (.table name aliasName) = .ok plan →
      ∃ schema table, db.catalog.getSchema key = some schema ∧
        db.tables.lookup key = some table ∧
        plan.schema db.catalog =
          .ok (qualify ((aliasName.map Sql.Ident.value).getD name.text) schema) ∧
        plan.stream (queryContext db session) db.catalog =
          .ok ⟨visibleRows (queryContext db session) table, none⟩
  /-- A query from this table, joined with others or not, does not report it as unknown. -/
  queries (session : SessionState) (q : Sql.Query) (select : Sql.Select)
    (item : Sql.TableWithJoins) :
    q.body = .select select → select.from_ = [item] → name ∈ item.tableNames →
      FailsWith (fun f => f.unknownTable ≠ some name.text) (executeTree db session (.query q)).1

omit [Unicode] [Collections] [ComfyTable] in
theorem insertRows_other {schema : Schema} {txId : Option ℕ} {name other : String}
    (hne : other ≠ name) (table : List Tuple) (n : ℕ) (rows : List (List Expr)) :
    (insertRows schema txId name db table n rows).2.tables.lookup other =
      db.tables.lookup other := by
  induction rows generalizing db table n with
  | nil => rfl
  | cons row rows ih =>
    unfold insertRows
    split
    · rfl
    · rw [ih, DatabaseState.pushRow_tables, AList.lookup_insert_ne hne]

omit [Unicode] [Collections] [ComfyTable] in
theorem insertRows_failsWith (schema : Schema) (txId : Option ℕ) (name : String)
    (table : List Tuple) (n : ℕ) (rows : List (List Expr)) :
    FailsWith (fun f => f.unknownTable = none)
      (insertRows schema txId name db table n rows).1 := by
  have hvalues (i : ℕ) (row : List Expr) :
      FailsWith (fun f => f.unknownTable = none) (evalValues i row) := by
    induction row generalizing i with
    | nil => exact .ok _
    | cons e row ih =>
      refine FailsWith.bind ?_ fun val _ => (ih (i + 1)).bind fun _ _ => .ok _
      have heval := (e.eval_failsWith (Tuple.new []) ⟨[]⟩).imp fun f hf => hf.1
      unfold insertContext
      split
      · exact failsWith_err rfl
      · exact heval
  induction rows generalizing db table n with
  | nil => exact .ok _
  | cons row rows ih =>
    unfold insertRows
    split
    · rename_i f hf
      refine .error ?_
      unfold evalRow at hf
      split at hf
      · cases hf
        rfl
      · exact hvalues 0 row f hf
    · exact ih _ _

omit [BuildProfile] [Collections] [ComfyTable] in
theorem bindTree_insert (catalog : Catalog) (name : Sql.ObjectName) (columns : List Sql.Ident)
    (source : Option Sql.Query) :
    FailsWith Fault.Other (bindTree catalog (.insert name columns source)) ∧
      ∀ statement, bindTree catalog (.insert name columns source) = .ok statement →
        ∃ rows, statement = .insert name.text rows := by
  rcases source with _ | query
  · refine ⟨failsWith_err ⟨rfl, rfl⟩, ?_⟩
    rintro statement ⟨⟩
  · simp only [bindTree, Result.pure_eq_ok, Result.ok_bind]
    cases query.body with
    | values rows debug =>
      refine ⟨FailsWith.bind ?_ fun _ _ => .ok _, fun statement h => ?_⟩
      · exact FailsWith.mapM fun row _ => FailsWith.mapM fun e _ => mapSqlExpr_failsWith e
      · obtain ⟨mapped, -, h⟩ := Result.bind_eq_ok.mp h
        cases h
        exact ⟨mapped, rfl⟩
    | select | other =>
      refine ⟨failsWith_err ⟨rfl, rfl⟩, ?_⟩
      rintro statement ⟨⟩

theorem executeTree_insert {name : Sql.ObjectName} {schema : Schema} {table : List Tuple}
    (hs : db.catalog.getSchema (Unicode.toLowercase name.text) = some schema)
    (ht : db.tables.lookup (Unicode.toLowercase name.text) = some table) (session : SessionState)
    (columns : List Sql.Ident) (source : Option Sql.Query) :
    FailsWith (fun f => f.unknownTable = none)
        (executeTree db session (.insert name columns source)).1 ∧
      (∀ other ≠ Unicode.toLowercase name.text,
        (executeTree db session (.insert name columns source)).2.1.tables.lookup other =
          db.tables.lookup other) ∧
      ∀ n rows, bindTree db.catalog (.insert name columns source) = .ok (.insert n rows) →
        ∃ stored, stored.map Tuple.values = storedRows schema rows ∧
          (executeTree db session (.insert name columns source)).2.1.tables.lookup
            (Unicode.toLowercase name.text) = some (table ++ stored) := by
  obtain ⟨hfail, hinsert⟩ := bindTree_insert db.catalog name columns source
  unfold executeTree
  rcases hb : bindTree db.catalog (.insert name columns source) with f | statement
  · refine ⟨.error (hfail f hb).1, fun _ _ => rfl, ?_⟩
    rintro n rows ⟨⟩
  obtain ⟨rows, rfl⟩ := hinsert statement hb
  simp only [executeStatement]
  refine ⟨?_, fun other hother => ?_, ?_⟩
  · simp only [handleInsert, hs, ht]
    exact (insertRows_failsWith _ _ _ _ _ _).map _
  · simp only [handleInsert, hs, ht]
    exact insertRows_other hother _ _ _
  · rintro n rows' ⟨⟩
    exact (handleInsert_spec session hs ht rows).2

theorem executeTree_query_failsWith (hsort : SortsByComparing)
    (hstored : ∀ name schema, db.catalog.getSchema name = some schema →
      (db.tables.lookup name).isSome) (session : SessionState) (q : Sql.Query) :
    FailsWith (fun f => ∀ name ∈ f.unknownTable, db.catalog.getSchema name = none)
      (executeTree db session (.query q)).1 := by
  have hbind := bindQuery_failsWith q db.catalog
  unfold executeTree
  rcases hb : bindQuery q db.catalog with f | plan
  · rw [hb] at hbind
    simp only [bindTree, hb]
    exact .error (hbind f rfl)
  · simp only [bindTree, hb]
    exact (runQuery_failsWith hsort hstored).imp fun f hf name hname => (hf name hname).2

variable [SqlParser] [SerdeJson]

/--
A created table is what an `INSERT` and a query refer to under a name in any
letter case exactly if the name is written as the table is filed, in lower case.
-/
theorem refersTo_iff_lowercase (hlower : LowercaseIdempotent) (hsort : SortsByComparing)
    {w : Server} {name name' : Sql.ObjectName} (hc : TableCreated name w)
    (hn : SameName name' name) :
    RefersTo w.db (Unicode.toLowercase name.text) name' ↔
      name'.text = Unicode.toLowercase name.text := by
  have hstored (n : String) (schema : Schema) (hs : w.db.catalog.getSchema n = some schema) :
      (w.db.tables.lookup n).isSome :=
    hc.reachable.stored n (Option.isSome_iff_exists.mpr ⟨schema, hs⟩)
  constructor
  · intro h
    obtain ⟨_, _, -, -, hschema, -⟩ := h.scans (.new 0) none _ rfl
    rcases hs : w.db.catalog.getSchema name'.text with _ | schema
    · simp only [LogicalPlan.schema, hs] at hschema
      cases hschema
    · obtain ⟨s, hkey⟩ := hc.reachable.lowercase hs
      rw [← hn, hkey, hlower]
  · intro hname
    obtain ⟨schema, hs⟩ := hc.getSchema
    obtain ⟨table, ht⟩ := Option.isSome_iff_exists.mp (hstored _ _ hs)
    constructor
    · intro session columns source
      rw [← hn] at hs ht ⊢
      obtain ⟨hfail, hother, hrows⟩ := executeTree_insert hs ht session columns source
      refine ⟨hfail, hother, fun n rows hb => ?_⟩
      obtain ⟨stored, hvalues, hlook⟩ := hrows n rows hb
      exact ⟨schema, table, stored, hs, ht, hvalues, hlook⟩
    · rintro session aliasName _ ⟨⟩
      rw [← hname] at hs ht ⊢
      exact ⟨schema, table, hs, ht, by simp [LogicalPlan.schema, hs],
        by simp [LogicalPlan.stream, queryContext, ht]⟩
    · rintro session q select item - - - f hf hunknown
      have hnone := executeTree_query_failsWith hsort hstored session q f hf _ hunknown
      rw [hname, hs] at hnone
      cases hnone

end Resolution

namespace Spelling

/-! A parser of statements about a table whose name is written in two spellings. -/

scoped instance profile : BuildProfile := Sample.profile

scoped instance unicode : Unicode := Sample.unicode

scoped instance comfyTable : ComfyTable := Sample.comfyTable

scoped instance collections : Collections := Sample.collections

scoped instance serde : SerdeJson := Sample.serde

def name (spelling : String) : Sql.ObjectName := [{ value := spelling }]

def create (spelling : String) : Sql.Statement :=
  .createTable (name spelling) [⟨{ value := "a" }, .int⟩]

def insertOne (spelling : String) : Sql.Statement :=
  .insert (name spelling) [] (some { body := .values [[.value (.number "1")]] })

def selectFrom (spelling : String) : Sql.Query where
  body := .select {
    projection := [.unnamedExpr (.identifier { value := "a" })]
    from_ := [⟨.table (name spelling) none, []⟩] }

scoped instance parser : SqlParser where
  parseSql sql :=
    if sql = "CREATE TABLE Users (a INT)" then .ok [create "Users"]
    else if sql = "INSERT INTO Users VALUES (1)" then .ok [insertOne "Users"]
    else if sql = "SELECT a FROM Users" then .ok [.query (selectFrom "Users")]
    else if sql = "SELECT a FROM users" then .ok [.query (selectFrom "users")]
    else .error "sql parser error: Expected: an SQL statement"

def connected : Server := Server.fresh.step .connect

def created : Server := connected.step (.statement 1 "CREATE TABLE Users (a INT)")

theorem tableCreated : TableCreated (name "Users") created := by
  have hconnected : Reachable (fun _ _ => True) connected := Reachable.fresh.step _ trivial
  have hreceives : connected.Receives (.statement 1 "CREATE TABLE Users (a INT)") (.new 1)
      (create "Users") :=
    .intro (by decide +kernel) (by decide +kernel) (by decide +kernel) (by decide +kernel)
      (by decide +kernel) rfl
  have hok : (executeTree connected.db (.new 1) (create "Users")).1 =
      .ok "Table 'Users' created successfully." := by decide +kernel
  exact .created hconnected hreceives hok

theorem lowercaseIdempotent : LowercaseIdempotent := by
  intro s
  have hchar (c : Char) : c.toLower.toLower = c.toLower := by
    unfold Char.toLower
    grind
  simp [Unicode.toLowercase, Function.comp_def, hchar]

end Spelling

open Spelling in
theorem refersTo_iff_lowercase_users :
    RefersTo created.db "users" (name "users") ↔ (name "users").text = "users" :=
  refersTo_iff_lowercase lowercaseIdempotent sortsByComparing_insertionCollections tableCreated
    (show _ = _ by decide +kernel)

open Spelling in
/-- The row is inserted into `Users`, and no `Users` is found to select from. -/
theorem mixed_case_select_misses_table :
    let w := created.step (.statement 1 "INSERT INTO Users VALUES (1)")
    TableCreated (name "Users") w ∧
      (handleStatement created.db (.new 1) "INSERT INTO Users VALUES (1)").1 =
        .text "Inserted 1 row(s)." ∧
      (handleStatement w.db (.new 1) "SELECT a FROM users").1 =
        .text "[a] [[1]]\n1 row(s) in set." ∧
      (handleStatement w.db (.new 1) "SELECT a FROM Users").1 =
        .text "Error: Table not found in catalog: Users" ∧
      ¬ RefersTo w.db (Unicode.toLowercase (name "Users").text) (name "Users") := by
  refine ⟨tableCreated.later _, by decide +kernel, by decide +kernel, by decide +kernel, ?_⟩
  intro h
  obtain ⟨_, _, -, -, hschema, -⟩ := h.scans (.new 1) none _ rfl
  have hnone : (created.step (.statement 1 "INSERT INTO Users VALUES (1)")).db.catalog.getSchema
      (name "Users").text = none := by decide +kernel
  simp only [LogicalPlan.schema, hnone] at hschema
  cases hschema

end VolcanoDb
