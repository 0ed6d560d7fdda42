import VolcanoDb.Server.Queries

/-! # Column lists

The binder drops the column list of an `INSERT`: the values are stored in the order in
which they are written. A list in another order than the columns of the table is honoured
only by values that do not tell the difference.
-/

namespace VolcanoDb

section Rows

variable [Unicode] [BuildProfile]

def insertValue (expr : Sql.Expr) : Result Value := do
  let expr ← mapSqlExpr expr
  expr.eval (Tuple.new []) ⟨[]⟩

theorem insertValues_ok {assigned : List (Sql.Ident × Sql.Expr)}
    {val : Sql.Ident × Sql.Expr → Value} (h : ∀ a ∈ assigned, insertValue a.2 = .ok (val a)) :
    (assigned.map Prod.snd).mapM insertValue = .ok (assigned.map val) ∧
      assigned.map (fun a => insertValue a.2) = (assigned.map val).map .ok := by
  constructor
  · rw [List.mapM_map]
    exact Result.mapM_eq_ok h
  · rw [List.map_map]
    exact List.map_congr_left h

omit [Unicode] in
theorem evalValues_eq_ok {i : ℕ} {row : List Expr} {vals : List Value} :
    evalValues i row = .ok vals ↔
      (row.mapM fun expr => expr.eval (Tuple.new []) ⟨[]⟩) = .ok vals := by
  induction row generalizing i vals with
  | nil => simp [evalValues]
  | cons expr row ih =>
    simp only [evalValues, List.mapM_cons, Result.bind_eq_ok, insertContext_eq_ok, ih]

theorem evalRow_bound {schema : Schema} {row : List Sql.Expr}
    (hlen : row.length = schema.columns.length) {vals : List Value} :
    (∃ exprs, row.mapM mapSqlExpr = .ok exprs ∧ evalRow schema exprs = .ok vals) ↔
      row.mapM insertValue = .ok vals := by
  rw [show insertValue = fun expr => mapSqlExpr expr >>= fun expr =>
    expr.eval (Tuple.new []) ⟨[]⟩ from rfl, Result.mapM_bind_eq_ok]
  apply exists_congr
  intro exprs
  apply and_congr_right
  intro hexprs
  have hsame := (Result.forall₂_of_mapM_eq_ok hexprs).length_eq
  rw [evalRow, if_neg (not_not.mpr (hsame.symm.trans hlen)), evalValues_eq_ok]

end Rows

section Statements

variable [Unicode] [BuildProfile] [Collections] [ComfyTable]

def insertRowTree (name : Sql.ObjectName) (columns : List Sql.Ident) (row : List Sql.Expr) :
    Sql.Statement :=
  .insert name columns (some { body := .values [row] })

def tableKey (name : Sql.ObjectName) : String := Unicode.toLowercase name.text

variable {db : DatabaseState} {name : Sql.ObjectName} {schema : Schema} {table : List Tuple}

/-- A table of the database, with its columns and rows. -/
structure HasTable (db : DatabaseState) (name : Sql.ObjectName) (schema : Schema)
    (table : List Tuple) : Prop where
  schema : db.catalog.getSchema (tableKey name) = some schema
  rows : db.tables.lookup (tableKey name) = some table

omit [Collections] [ComfyTable] in
theorem handleInsert_row (ht : HasTable db name schema table) (session : SessionState)
    (exprs : List Expr) :
    handleInsert db session name.text [exprs] =
      match evalRow schema exprs with
      | .ok vals => (.ok "Inserted 1 row(s).",
          db.pushRow session.currentTxId (tableKey name) table vals)
      | .error f => (.error f, db) := by
  have hschema : db.catalog.getSchema (Unicode.toLowercase name.text) = some schema := ht.schema
  have hrows : db.tables.lookup (Unicode.toLowercase name.text) = some table := ht.rows
  simp only [handleInsert, hschema, hrows, insertRows]
  cases evalRow schema exprs <;> rfl

variable (columns : List Sql.Ident) {row : List Sql.Expr}

omit [BuildProfile] [Collections] [ComfyTable] in
theorem bindTree_insertRow (catalog : Catalog) :
    bindTree catalog (insertRowTree name columns row) =
      (row.mapM mapSqlExpr >>= fun exprs => pure (.insert name.text [exprs])) := by
  simp [bindTree, insertRowTree]

theorem executeTree_insertRow_ok (ht : HasTable db name schema table) (session : SessionState)
    (hlen : row.length = schema.columns.length) {vals : List Value}
    (h : row.mapM insertValue = .ok vals) :
    executeTree db session (insertRowTree name columns row) =
      (.ok "Inserted 1 row(s).", db.pushRow session.currentTxId (tableKey name) table vals,
        session) := by
  obtain ⟨exprs, hexprs, hrow⟩ := (evalRow_bound hlen).mpr h
  rw [executeTree, bindTree_insertRow, hexprs, Result.ok_bind, Result.pure_eq_ok]
  dsimp only [executeStatement]
  rw [handleInsert_row ht, hrow]

theorem executeTree_insertRow_error (ht : HasTable db name schema table) (session : SessionState)
    (hlen : row.length = schema.columns.length) (h : ¬ ∃ vals, row.mapM insertValue = .ok vals) :
    ∃ f, executeTree db session (insertRowTree name columns row) = (.error f, db, session) := by
  rw [executeTree, bindTree_insertRow]
  rcases hexprs : row.mapM mapSqlExpr with f | exprs
  · exact ⟨f, rfl⟩
  · rw [Result.ok_bind, Result.pure_eq_ok]
    dsimp only [executeStatement]
    rw [handleInsert_row ht]
    rcases hrow : evalRow schema exprs with f | vals
    · exact ⟨f, rfl⟩
    · exact absurd ⟨vals, (evalRow_bound hlen).mp ⟨exprs, hexprs, hrow⟩⟩ h

end Statements

section Lists

variable {db : DatabaseState} {name : Sql.ObjectName} {schema : Schema} {table : List Tuple}
  {sql sql' : String} {columns : List Sql.Ident} {row : List Sql.Expr}
  {assigned listed : List (Sql.Ident × Sql.Expr)}

/-- The columns of a table, each with the expression that is assigned to it. -/
def Assigns (schema : Schema) (assigned : List (Sql.Ident × Sql.Expr)) : Prop :=
  assigned.map (fun a => a.1.value) = schema.columns.map Column.name

theorem Assigns.length_eq (h : Assigns schema assigned) :
    assigned.length = schema.columns.length := by
  have hlen := congrArg List.length h
  rwa [List.length_map, List.length_map] at hlen

theorem pushRow_values_injective {txId : Option ℕ} {key : String} {vals vals' : List Value}
    (h : db.pushRow txId key table vals = db.pushRow txId key table vals') : vals = vals' := by
  have hrows := congrArg (fun db : DatabaseState => db.tables.lookup key) h
  simp only [DatabaseState.pushRow_tables, AList.lookup_insert, Option.some_inj] at hrows
  have hlast := List.append_cancel_left hrows
  simpa [Tuple.newWithMeta] using hlast

variable [Unicode] [BuildProfile] [Collections] [ComfyTable] [SqlParser]

/-- A text that inserts one row into a table, with a list of columns. -/
structure IsInsert (sql : String) (name : Sql.ObjectName) (columns : List Sql.Ident)
    (row : List Sql.Expr) : Prop where
  not_control : ¬ IsControl sql
  parsed : SqlParser.parseSql sql = .ok [insertRowTree name columns row]

theorem IsInsert.innerHandle_eq (h : IsInsert sql name columns row) (db : DatabaseState)
    (session : SessionState) :
    innerHandle db session sql = executeTree db session (insertRowTree name columns row) :=
  innerHandle_parsed h.not_control h.parsed db session

/-- The first statement fails, or leaves the states that the second one leaves. -/
def FailsOrAgrees (db : DatabaseState) (session : SessionState) (sql sql' : String) : Prop :=
  (∃ f, (innerHandle db session sql).1 = .error f) ∨
    (innerHandle db session sql).2 = (innerHandle db session sql').2

/--
A column list is honoured if and only if one of the values fails, or the values have the
same order in the list and in the table.
-/
theorem insert_columnList_iff (ht : HasTable db name schema table)
    (hassigned : Assigns schema assigned) (hperm : listed.Perm assigned)
    (hlisted : IsInsert sql name (listed.map Prod.fst) (listed.map Prod.snd))
    (hplain : IsInsert sql' name [] (assigned.map Prod.snd)) (session : SessionState) :
    FailsOrAgrees db session sql sql' ↔
      (∃ a ∈ assigned, ∃ f, insertValue a.2 = .error f) ∨
        listed.map (fun a => insertValue a.2) = assigned.map fun a => insertValue a.2 := by
  have hlen : (assigned.map Prod.snd).length = schema.columns.length :=
    (List.length_map _).trans hassigned.length_eq
  have hlen' : (listed.map Prod.snd).length = schema.columns.length := by
    rw [List.length_map, hperm.length_eq, hassigned.length_eq]
  unfold FailsOrAgrees
  rw [hlisted.innerHandle_eq, hplain.innerHandle_eq]
  by_cases hfails : ∃ a ∈ assigned, ∃ f, insertValue a.2 = .error f
  · have herror : ¬ ∃ vals, (listed.map Prod.snd).mapM insertValue = .ok vals := by
      rintro ⟨vals, hvals⟩
      obtain ⟨a, ha, f, hf⟩ := hfails
      obtain ⟨v, hv⟩ := Result.exists_of_mapM_eq_ok hvals
        (List.mem_map_of_mem (hperm.mem_iff.mpr ha))
      rw [hf] at hv
      cases hv
    obtain ⟨f, hf⟩ := executeTree_insertRow_error (listed.map Prod.fst) ht session hlen' herror
    rw [hf]
    exact iff_of_true (.inl ⟨f, rfl⟩) (.inl hfails)
  · have hok (a : Sql.Ident × Sql.Expr) (ha : a ∈ assigned) : ∃ v, insertValue a.2 = .ok v := by
      rcases hv : insertValue a.2 with f | v
      · exact absurd ⟨a, ha, f, hv⟩ hfails
      · exact ⟨v, rfl⟩
    have : Nonempty Value := ⟨.null⟩
    choose! val hval using hok
    obtain ⟨hvals, hmap⟩ := insertValues_ok hval
    obtain ⟨hvals', hmap'⟩ := insertValues_ok fun a ha => hval a (hperm.mem_iff.mp ha)
    rw [executeTree_insertRow_ok _ ht session hlen hvals,
      executeTree_insertRow_ok _ ht session hlen' hvals', hmap, hmap']
    constructor
    · rintro (⟨f, hf⟩ | hstates)
      · cases hf
      · exact .inr (congrArg _ (pushRow_values_injective (Prod.mk.inj hstates).1))
    · rintro (hfailed | hsame)
      · exact absurd hfailed hfails
      · have hinj : Function.Injective (Except.ok : Value → Result Value) :=
          fun _ _ => Except.ok.inj
        rw [List.map_injective_iff.mpr hinj hsame]
        exact .inr rfl

end Lists

namespace ColumnLists

open Sample hiding parser

def columnA : Sql.Ident := { value := "a" }

def columnB : Sql.Ident := { value := "b" }

def tableT : Sql.ObjectName := [{ value := "t" }]

scoped instance parser : SqlParser where
  parseSql sql :=
    if sql = "INSERT INTO t (b, a) VALUES (1, 2)" then
      .ok [insertRowTree tableT [columnB, columnA] [number "1", number "2"]]
    else if sql = "INSERT INTO t VALUES (2, 1)" then
      .ok [insertRowTree tableT [] [number "2", number "1"]]
    else if sql = "INSERT INTO t (b, a) VALUES (1, 1)" then
      .ok [insertRowTree tableT [columnB, columnA] [number "1", number "1"]]
    else if sql = "INSERT INTO t VALUES (1, 1)" then
      .ok [insertRowTree tableT [] [number "1", number "1"]]
    else .error "sql parser error: Expected: an SQL statement"

def emptyDb : DatabaseState :=
  (DatabaseState.mk .new ∅ (.new ⟨[]⟩)).createTable "t" ⟨[⟨"a", .int⟩, ⟨"b", .int⟩]⟩

theorem hasTable : HasTable emptyDb tableT ⟨[⟨"a", .int⟩, ⟨"b", .int⟩]⟩ [] := by
  constructor
  · decide +kernel
  · decide +kernel

end ColumnLists

open Sample hiding parser
open ColumnLists

theorem insert_equal_values :
    FailsOrAgrees emptyDb (.new 1) "INSERT INTO t (b, a) VALUES (1, 1)"
      "INSERT INTO t VALUES (1, 1)" := by
  let listed := [(columnB, number "1"), (columnA, number "1")]
  let assigned := [(columnA, number "1"), (columnB, number "1")]
  have hassigned : Assigns ⟨[⟨"a", .int⟩, ⟨"b", .int⟩]⟩ assigned := rfl
  have hperm : listed.Perm assigned := .swap _ _ _
  have hlisted : IsInsert "INSERT INTO t (b, a) VALUES (1, 1)" tableT (listed.map Prod.fst)
      (listed.map Prod.snd) := ⟨by decide +kernel, rfl⟩
  have hplain : IsInsert "INSERT INTO t VALUES (1, 1)" tableT [] (assigned.map Prod.snd) :=
    ⟨by decide +kernel, rfl⟩
  exact (insert_columnList_iff hasTable hassigned hperm hlisted hplain (.new 1)).mpr (.inr rfl)

/-- The values of the list `(b, a)` are stored in the columns `a` and `b`. -/
theorem insert_swaps_columns :
    let listed := [(columnB, number "1"), (columnA, number "2")]
    let assigned := [(columnA, number "2"), (columnB, number "1")]
    let sql := "INSERT INTO t (b, a) VALUES (1, 2)"
    let sql' := "INSERT INTO t VALUES (2, 1)"
    HasTable emptyDb tableT ⟨[⟨"a", .int⟩, ⟨"b", .int⟩]⟩ [] ∧
      Assigns ⟨[⟨"a", .int⟩, ⟨"b", .int⟩]⟩ assigned ∧ listed.Perm assigned ∧
      IsInsert sql tableT (listed.map Prod.fst) (listed.map Prod.snd) ∧
      IsInsert sql' tableT [] (assigned.map Prod.snd) ∧
      (innerHandle emptyDb (.new 1) sql).1 = .ok "Inserted 1 row(s)." ∧
      (innerHandle emptyDb (.new 1) sql).2.1.tables.lookup "t" =
        some [.new [.int 1, .int 2]] ∧
      (innerHandle emptyDb (.new 1) sql').2.1.tables.lookup "t" =
        some [.new [.int 2, .int 1]] ∧
      ¬ FailsOrAgrees emptyDb (.new 1) sql sql' := by
  intro listed assigned sql sql'
  have hok : (innerHandle emptyDb (.new 1) sql).1 = .ok "Inserted 1 row(s)." := by decide +kernel
  have hrow : (innerHandle emptyDb (.new 1) sql).2.1.tables.lookup "t" =
      some [.new [.int 1, .int 2]] := by decide +kernel
  have hrow' : (innerHandle emptyDb (.new 1) sql').2.1.tables.lookup "t" =
      some [.new [.int 2, .int 1]] := by decide +kernel
  refine ⟨hasTable, rfl, .swap _ _ _, ⟨by decide +kernel, rfl⟩, ⟨by decide +kernel, rfl⟩, hok, hrow,
    hrow', ?_⟩
  rintro (⟨f, hf⟩ | hsame)
  · rw [hok] at hf
    cases hf
  · rw [hsame, hrow'] at hrow
    exact absurd hrow (by decide)

end VolcanoDb
