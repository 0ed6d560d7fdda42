import VolcanoDb.Server.Continuity

/-! # Booting

A server recovers from the redo file, without schemas, and then executes a script that
creates tables and fills them. No statement of the script fails over what recovery left
there, and as nothing of it is logged, each boot loads its rows exactly once, behind the
rows of the committed transactions.
-/

namespace VolcanoDb

open History

/-- A table of a script: its columns, and the literals of the rows that fill it. -/
structure ScriptTable where
  name : String
  schema : Schema
  rows : List (List Sql.Literal)
  width : ∀ row ∈ rows, row.length = schema.columns.length
  readable : ∀ row ∈ rows, ∀ l ∈ row, (mapLiteral l).toOption.isSome

namespace ScriptTable

variable (t : ScriptTable)

def values : List (List Value) :=
  t.rows.map fun row => row.map fun l => (mapLiteral l).toOption.getD .null

def tuples (scn : ℕ) : List Tuple := t.values.map fun vals => Tuple.newWithMeta vals none scn

end ScriptTable

def DataType.sql : DataType → Sql.DataType
  | .int => .int
  | .float => .float
  | .varchar => .varchar
  | .bool => .boolean

namespace ScriptTable

variable (t : ScriptTable)

def createTree : Sql.Statement :=
  .createTable [{ value := t.name }] <|
    t.schema.columns.map fun col => ⟨{ value := col.name }, col.dataType.sql⟩

def insertTree (debug : String) : Sql.Statement :=
  .insert [{ value := t.name }] []
    (some { body := .values (t.rows.map fun row => row.map .value) debug })

end ScriptTable

/-- Texts that the parser reads as a script of tables, whose names are in lower case. -/
def ReadsScript [Unicode] [SqlParser] : List ScriptTable → List String → Prop
  | [], [] => True
  | t :: tables, create :: insert :: sqls =>
    Unicode.toLowercase t.name = t.name ∧
      (¬ IsControl create ∧ SqlParser.parseSql create = .ok [t.createTree]) ∧
      (¬ IsControl insert ∧ ∃ debug, SqlParser.parseSql insert = .ok [t.insertTree debug]) ∧
      ReadsScript tables sqls
  | _, _ => False

section Binding

variable [Unicode] (t : ScriptTable)

omit [Unicode] in
theorem text_singleton (name : String) : Sql.ObjectName.text [{ value := name }] = name := by
  simp [Sql.ObjectName.text, Sql.Ident.text]

omit [Unicode] in
theorem bindDataType_sql (ty : DataType) : bindDataType ty.sql = .ok ty := by
  cases ty <;> rfl

theorem bindStatement_createTree [SqlParser] {sql : String} {catalog : Catalog}
    (h : SqlParser.parseSql sql = .ok [t.createTree]) :
    bindStatement sql catalog = .ok (.createTable t.name t.schema) := by
  have hcolumns : (t.schema.columns.map fun col =>
      (⟨{ value := col.name }, col.dataType.sql⟩ : Sql.ColumnDef)).mapM
        (fun col => Column.mk col.name.value <$> bindDataType col.dataType) =
          .ok t.schema.columns := by
    apply Result.mapM_eq_ok_of_forall₂
    rw [List.forall₂_map_left_iff, List.forall₂_same]
    intro col _
    rw [bindDataType_sql]
    rfl
  rw [bindStatement, h]
  simp only [ScriptTable.createTree, Result.pure_eq_ok, Result.ok_bind, hcolumns, text_singleton]

theorem bindStatement_insertTree [SqlParser] {sql debug : String} {catalog : Catalog}
    (h : SqlParser.parseSql sql = .ok [t.insertTree debug]) :
    bindStatement sql catalog =
      .ok (.insert t.name (t.values.map fun vals => vals.map .const)) := by
  have hrows : (t.rows.map fun row => row.map Sql.Expr.value).mapM
      (fun row => row.mapM mapSqlExpr) = .ok (t.values.map fun vals => vals.map .const) := by
    apply Result.mapM_eq_ok_of_forall₂
    rw [ScriptTable.values, List.map_map, List.forall₂_map_left_iff, List.forall₂_map_right_iff,
      List.forall₂_same]
    intro row hrow
    apply Result.mapM_eq_ok_of_forall₂
    rw [Function.comp_apply, List.map_map, List.forall₂_map_left_iff, List.forall₂_map_right_iff,
      List.forall₂_same]
    intro l hl
    obtain ⟨v, hv⟩ := Option.isSome_iff_exists.mp (t.readable row hrow l hl)
    rw [Result.toOption_eq_some] at hv
    simp [mapSqlExpr, hv]
  rw [bindStatement, h]
  simp only [ScriptTable.insertTree, Result.pure_eq_ok, Result.ok_bind, hrows, text_singleton]

end Binding

section Loading

variable [BuildProfile] {db : DatabaseState} {table : List Tuple}

theorem evalValues_const (i : ℕ) (vals : List Value) :
    evalValues i (vals.map .const) = .ok vals := by
  induction vals generalizing i with
  | nil => rfl
  | cons v vals ih =>
    rw [List.map_cons, evalValues, ih]
    rfl

theorem insertRows_const {schema : Schema} {name : String} {rows : List (List Value)} {n : ℕ}
    (hwidth : ∀ vals ∈ rows, vals.length = schema.columns.length)
    (ht : db.tables.lookup name = some table) :
    ∃ db', insertRows schema none name db table n (rows.map fun vals => vals.map .const) =
        (.ok (n + rows.length), db') ∧
      db'.catalog = db.catalog ∧ db'.txMgr = db.txMgr ∧ ∀ other, db'.tables.lookup other =
        if other = name then
          some (table ++ rows.map fun vals => Tuple.newWithMeta vals none db.txMgr.scn)
        else db.tables.lookup other := by
  induction rows generalizing db table n with
  | nil =>
    refine ⟨db, rfl, rfl, rfl, fun other => ?_⟩
    by_cases hother : other = name
    · subst hother
      simp [ht]
    · simp [hother]
  | cons vals rows ih =>
    obtain ⟨hvals, hwidth⟩ := List.forall_mem_cons.mp hwidth
    have hrow : evalRow schema (vals.map .const) = .ok vals := by
      rw [evalRow, if_neg (by simpa using hvals), evalValues_const]
    have hpush : (db.pushRow none name table vals).tables.lookup name =
        some (table ++ [Tuple.newWithMeta vals none db.txMgr.scn]) := AList.lookup_insert _
    obtain ⟨db', hrows, hcatalog, htxMgr, htables⟩ := ih hwidth hpush (n := n + 1)
    refine ⟨db', ?_, hcatalog, htxMgr, fun other => ?_⟩
    · rw [List.map_cons, insertRows, hrow]
      simp only [hrows, List.length_cons]
      congr 2
      omega
    · rw [htables other]
      split
      · simp [DatabaseState.pushRow]
      · rename_i hne
        rw [DatabaseState.pushRow_tables, AList.lookup_insert_ne hne]

end Loading

section Loads

variable {t : ScriptTable} {db : DatabaseState}

theorem ScriptTable.length_values : ∀ vals ∈ t.values, vals.length = t.schema.columns.length := by
  intro vals hvals
  obtain ⟨row, hrow, rfl⟩ := List.mem_map.mp hvals
  rw [List.length_map, t.width row hrow]

/-- What a script has loaded of a table into a database. -/
structure LoadsTable (t : ScriptTable) (db db' : DatabaseState) : Prop where
  catalog : db'.catalog = db.catalog.addTable t.name t.schema
  txMgr : db'.txMgr = db.txMgr
  tables : ∀ name, db'.tables.lookup name =
    if name = t.name then some ((db.tables.lookup name).getD [] ++ t.tuples db.txMgr.scn)
    else db.tables.lookup name

def scriptRows (tables : List ScriptTable) (scn : ℕ) (name : String) : List Tuple :=
  tables.flatMap fun t => if t.name = name then t.tuples scn else []

/-- What a whole script has loaded into a database. -/
structure LoadsScript (tables : List ScriptTable) (db db' : DatabaseState) : Prop where
  txMgr : db'.txMgr = db.txMgr
  schemas : ∀ t ∈ tables, db'.catalog.getSchema t.name = some t.schema
  others : ∀ name ∉ tables.map ScriptTable.name,
    db'.catalog.getSchema name = db.catalog.getSchema name
  stored : ∀ name, (db.tables.lookup name).isSome ∨ name ∈ tables.map ScriptTable.name →
    (db'.tables.lookup name).isSome
  rows : ∀ name, (db'.tables.lookup name).getD [] =
    (db.tables.lookup name).getD [] ++ scriptRows tables db.txMgr.scn name

theorem LoadsScript.nil : LoadsScript [] db db where
  txMgr := rfl
  schemas t ht := by cases ht
  others name _ := rfl
  stored name h := h.resolve_right (by simp)
  rows name := by simp [scriptRows]

theorem LoadsTable.cons {db₁ db' : DatabaseState} {tables : List ScriptTable}
    (h₁ : LoadsTable t db db₁) (h : LoadsScript tables db₁ db')
    (hnot : t.name ∉ tables.map ScriptTable.name) : LoadsScript (t :: tables) db db' where
  txMgr := h.txMgr.trans h₁.txMgr
  schemas t' ht' := by
    rcases List.mem_cons.mp ht' with rfl | ht'
    · rw [h.others _ hnot, h₁.catalog, Catalog.getSchema_addTable, if_pos rfl]
    · exact h.schemas t' ht'
  others name hname := by
    obtain ⟨hne, hname⟩ := not_or.mp (List.mem_cons.not.mp hname)
    rw [h.others name hname, h₁.catalog, Catalog.getSchema_addTable, if_neg hne]
  stored name hname := by
    apply h.stored
    rw [List.map_cons, List.mem_cons] at hname
    rcases hname with hold | rfl | hname
    · left
      rw [h₁.tables]
      split
      · rfl
      · exact hold
    · left
      rw [h₁.tables, if_pos rfl]
      rfl
    · exact .inr hname
  rows name := by
    rw [h.rows, h₁.tables, h₁.txMgr]
    by_cases hname : name = t.name
    · subst hname
      simp [scriptRows]
    · simp [scriptRows, hname, Ne.symm hname]

theorem scriptRows_of_mem {tables : List ScriptTable} {scn : ℕ}
    (hnodup : (tables.map ScriptTable.name).Nodup) (ht : t ∈ tables) :
    scriptRows tables scn t.name = t.tuples scn := by
  induction tables with
  | nil => cases ht
  | cons t' tables ih =>
    obtain ⟨hnot, hnodup⟩ := List.nodup_cons.mp hnodup
    rw [scriptRows, List.flatMap_cons]
    rcases List.mem_cons.mp ht with rfl | ht
    · have hrest : scriptRows tables scn t.name = [] := by
        apply List.flatMap_eq_nil_iff.mpr
        intro t' ht'
        rw [if_neg]
        intro heq
        exact hnot (heq ▸ List.mem_map_of_mem ht')
      rw [if_pos rfl, ← scriptRows, hrest, List.append_nil]
    · have hne : t'.name ≠ t.name := by
        intro heq
        exact hnot (heq ▸ List.mem_map_of_mem ht)
      rw [if_neg hne, List.nil_append, ← ih hnodup ht]
      rfl

end Loads

section Script

variable [BuildProfile] [Unicode] [SqlParser] [Collections] [ComfyTable] {t : ScriptTable}
  {db : DatabaseState} {session : SessionState}

theorem loadsTable {create insert debug : String} (sqls : List String)
    (hlower : Unicode.toLowercase t.name = t.name) (hcreate : ¬ IsControl create)
    (hcreateTree : SqlParser.parseSql create = .ok [t.createTree]) (hinsert : ¬ IsControl insert)
    (hinsertTree : SqlParser.parseSql insert = .ok [t.insertTree debug])
    (hnew : db.catalog.getSchema t.name = none) (htx : session.currentTxId = none) :
    ∃ db', setupDemoData db session (create :: insert :: sqls) = setupDemoData db' session sqls ∧
      LoadsTable t db db' := by
  have hfirst : innerHandle db session create =
      (.ok s!"Table '{t.name}' created successfully.", db.createTable t.name t.schema,
        session) := by
    rw [innerHandle_plain hcreate, bindStatement_createTree t hcreateTree]
    simp [executeStatement, handleCreateTable, hlower, hnew]
  have hlookup (name : String) : (db.createTable t.name t.schema).tables.lookup name =
      if name = t.name then some ((db.tables.lookup t.name).getD [])
      else db.tables.lookup name := FinMap.lookup_orInsert ..
  obtain ⟨db', hrows, hcatalog, htxMgr, htables⟩ := insertRows_const (n := 0)
    t.length_values ((hlookup t.name).trans (if_pos rfl))
  have hsecond : innerHandle (db.createTable t.name t.schema) session insert =
      (.ok s!"Inserted {0 + t.values.length} row(s).", db', session) := by
    rw [innerHandle_plain hinsert, bindStatement_insertTree t hinsertTree]
    have hschema : (db.createTable t.name t.schema).catalog.getSchema t.name = some t.schema := by
      simp [DatabaseState.createTable]
    simp [executeStatement, handleInsert, hlower, hschema, hlookup, htx, hrows]
  refine ⟨db', ?_, hcatalog, htxMgr, fun name => ?_⟩
  · simp only [setupDemoData, hfirst, hsecond]
  · rw [htables, hlookup]
    by_cases hname : name = t.name
    · subst hname
      simp [ScriptTable.tuples, DatabaseState.createTable]
    · simp [hname]

/-- A script of tables that have no schema yet is loaded. -/
theorem setupDemoData_loads {tables : List ScriptTable} {sqls : List String}
    (hreads : ReadsScript tables sqls) (hnodup : (tables.map ScriptTable.name).Nodup)
    (hnew : ∀ t ∈ tables, db.catalog.getSchema t.name = none) (htx : session.currentTxId = none) :
    ∃ db', setupDemoData db session sqls = .ok db' ∧ LoadsScript tables db db' := by
  induction tables generalizing db sqls with
  | nil =>
    cases sqls with
    | nil => exact ⟨db, rfl, .nil⟩
    | cons => exact absurd hreads id
  | cons t tables ih =>
    obtain _ | ⟨create, _ | ⟨insert, sqls⟩⟩ := sqls
    · exact absurd hreads id
    · exact absurd hreads id
    obtain ⟨hlower, ⟨hcreate, hcreateTree⟩, ⟨hinsert, debug, hinsertTree⟩, hreads⟩ := hreads
    obtain ⟨hnewT, hnew⟩ := List.forall_mem_cons.mp hnew
    obtain ⟨hnot, hnodup⟩ := List.nodup_cons.mp hnodup
    obtain ⟨db₁, hstep, hload⟩ :=
      loadsTable sqls hlower hcreate hcreateTree hinsert hinsertTree hnewT htx
    have hnew₁ : ∀ t' ∈ tables, db₁.catalog.getSchema t'.name = none := by
      intro t' ht'
      have hne : t'.name ≠ t.name := by
        intro heq
        exact hnot (heq ▸ List.mem_map_of_mem ht')
      rw [hload.catalog, Catalog.getSchema_addTable, if_neg hne, hnew t' ht']
    obtain ⟨db', hsetup, hscript⟩ := ih hreads hnodup hnew₁
    exact ⟨db', hstep.trans hsetup, hload.cons hscript hnot⟩

end Script

def demoTables : List ScriptTable := [
  { name := "users"
    schema := ⟨[⟨"id", .int⟩, ⟨"name", .varchar⟩, ⟨"age", .int⟩, ⟨"score", .float⟩]⟩
    rows := [
      [.number "1", .singleQuotedString "Alice", .number "25", .number "95.5"],
      [.number "2", .singleQuotedString "Bob", .number "30", .number "88.0"],
      [.number "3", .singleQuotedString "Charlie", .number "22", .number "92.0"],
      [.number "4", .singleQuotedString "David", .number "30", .number "75.5"],
      [.number "5", .singleQuotedString "Eva", .number "25", .number "99.0"]]
    width := by decide
    readable := by decide +kernel },
  { name := "categories"
    schema := ⟨[⟨"id", .int⟩, ⟨"category_name", .varchar⟩]⟩
    rows := [
      [.number "10", .singleQuotedString "Electronics"],
      [.number "20", .singleQuotedString "Books"],
      [.number "30", .singleQuotedString "Clothing"]]
    width := by decide
    readable := by decide +kernel },
  { name := "products"
    schema := ⟨[⟨"id", .int⟩, ⟨"product_name", .varchar⟩, ⟨"category_id", .int⟩]⟩
    rows := [
      [.number "501", .singleQuotedString "Laptop", .number "10"],
      [.number "502", .singleQuotedString "Phone", .number "10"],
      [.number "503", .singleQuotedString "Rust Programming Book", .number "20"],
      [.number "504", .singleQuotedString "T-Shirt", .number "30"]]
    width := by decide
    readable := by decide +kernel },
  { name := "orders"
    schema := ⟨[⟨"id", .int⟩, ⟨"user_id", .int⟩, ⟨"product_id", .int⟩, ⟨"amount", .float⟩]⟩
    rows := [
      [.number "101", .number "1", .number "501", .number "1500.0"],
      [.number "102", .number "2", .number "503", .number "88.0"],
      [.number "103", .number "1", .number "504", .number "45.0"],
      [.number "104", .number "3", .number "502", .number "999.0"],
      [.number "105", .number "9", .number "501", .number "999.0"]]
    width := by decide
    readable := by decide +kernel }]

theorem nodup_demoTables : (demoTables.map ScriptTable.name).Nodup := by decide +kernel

section Boot

variable [BuildProfile] [Unicode] [SqlParser] [Collections] [ComfyTable] [SerdeJson]

/-- A server boots from every readable redo file, and loads the demo data once. -/
theorem Server.run_loads (hreads : ReadsScript demoTables demoSqls) {file : RedoFile}
    (hrt : ∀ rec ∈ file.written, RoundTrips rec) :
    ∃ b, Server.run file = .ok b ∧ LoadsScript demoTables (Server.restarted file).db b.db := by
  obtain ⟨db, hsetup, hloads⟩ : ∃ db, setupDemoData (Server.restarted file).db
      (.new (Server.restarted file).sessionSeq) demoSqls = .ok db ∧
        LoadsScript demoTables (Server.restarted file).db db :=
    setupDemoData_loads hreads nodup_demoTables (fun _ _ => rfl) rfl
  refine ⟨{ Server.restarted file with db := db, sessionSeq := 2 }, ?_, hloads⟩
  rw [Server.run, Server.start_eq hrt, Result.ok_bind, hsetup]
  rfl

/--
A server that boots after a crash, at any moment of a first lifetime, shows every session
in every table of the demo data the rows of the committed transactions, in the order of
their inserts, and behind them the rows of the demo data once. It boots again to the same
state.
-/
theorem boot_serves (hreads : ReadsScript demoTables demoSqls) {w : Server} {h : List DbEvent}
    (hr : Runs free Server.fresh w h)
    (hrt : ∀ rec ∈ w.db.txMgr.redoFile.written, RoundTrips rec) :
    ∃ b, Server.run w.db.txMgr.redoFile = .ok b ∧ Server.run b.db.txMgr.redoFile = .ok b ∧
      ∀ t ∈ demoTables, b.db.catalog.getSchema t.name = some t.schema ∧
        ∀ session, ∃ rows, b.scan session t.name = .ok rows ∧
          rows.map Tuple.tagged = rowsTo t.name (committedWrites h) ++
            t.values.map fun vals => (none, vals) := by
  have hr₁ : Reached free w.world h := hr.reached
  obtain ⟨b, hb, hloads⟩ := Server.run_loads hreads hrt
  have hfile : b.db.txMgr.redoFile = w.db.txMgr.redoFile := by
    rw [hloads.txMgr]
    exact Server.restarted_redoFile
  refine ⟨b, hb, hfile ▸ hb, fun t ht => ⟨hloads.schemas t ht, fun session => ?_⟩⟩
  obtain ⟨rows, hlookup⟩ := Option.isSome_iff_exists.mp
    (hloads.stored t.name (.inr (List.mem_map_of_mem ht)))
  have hrows : rows = (Server.restarted w.db.txMgr.redoFile).world.rows t.name ++
      t.tuples (Server.restarted w.db.txMgr.redoFile).db.txMgr.scn := by
    have hrows := hloads.rows t.name
    rw [hlookup, scriptRows_of_mem nodup_demoTables ht] at hrows
    exact hrows
  have hvisible : visibleRows (b.readContext session) rows = rows := by
    apply List.filter_eq_self.mpr
    intro t' ht'
    change b.db.txMgr.isVisible t'.txId session.currentTxId b.db.txMgr.scn
    rw [hloads.txMgr]
    rw [hrows] at ht'
    rcases List.mem_append.mp ht' with hold | hdemo
    · exact hr₁.restarted_visible hold _
    · obtain ⟨vals, -, rfl⟩ := List.mem_map.mp hdemo
      rfl
  have hreads : (b.readContext session).reads t.name = some rows := by
    change (b.db.tables.lookup t.name).map (visibleRows (b.readContext session)) = some rows
    rw [hlookup, Option.map_some, hvisible]
  refine ⟨rows, Server.scan_of_reads hreads, ?_⟩
  have hrecovered : ((Server.restarted w.db.txMgr.redoFile).world.rows t.name).map Tuple.tagged =
      rowsTo t.name (committedWrites h) := hr₁.restarted_rows t.name
  rw [hrows, List.map_append, hrecovered, ScriptTable.tuples, List.map_map]
  rfl

end Boot

namespace Booting

/-! The sample with a parser of the demo data. -/

scoped instance profile : BuildProfile := Sample.profile

scoped instance unicode : Unicode := Sample.unicode

scoped instance comfyTable : ComfyTable := Sample.comfyTable

scoped instance collections : Collections := Sample.collections

scoped instance serde : SerdeJson := Sample.serde

def demoTrees : List Sql.Statement := demoTables.flatMap fun t => [t.createTree, t.insertTree ""]

scoped instance parser : SqlParser where
  parseSql sql :=
    match demoTrees[demoSqls.idxOf sql]? with
    | some tree => .ok [tree]
    | none => Sample.parser.parseSql sql

theorem not_control {sql : String} {a b : Char} {cs : List Char} (h : sql.toList = a :: b :: cs)
    (hvisible : Text.isWhitespace a = false ∧ Text.isWhitespace b = false)
    (hupper : a.toUpper = 'C' ∧ b.toUpper = 'R' ∨ a.toUpper = 'I') : ¬ IsControl sql := by
  obtain ⟨ha, hb⟩ := hvisible
  obtain ⟨cs', htrim⟩ : ∃ cs', (Text.trim sql).toList = a :: b :: cs' := by
    refine ⟨(cs.reverse.dropWhile Text.isWhitespace).reverse, ?_⟩
    simp [Text.trim, h, ha, Text.dropWhile_append_cons hb]
  have hlist : (Unicode.toUppercase (Text.trim sql)).toList =
      a.toUpper :: b.toUpper :: cs'.map Char.toUpper := by
    change (String.ofList ((Text.trim sql).toList.map Char.toUpper)).toList = _
    rw [String.toList_ofList, htrim]
    rfl
  rintro ((hcontrol | hcontrol) | hcontrol | hcontrol)
  · simp only [Text.startsWith, hlist] at hcontrol
    rcases hupper with ⟨hC, -⟩ | hI <;> simp_all [List.isPrefixOf]
  · simp only [Text.startsWith, hlist] at hcontrol
    rcases hupper with ⟨hC, -⟩ | hI <;> simp_all [List.isPrefixOf]
  · have hcontrol := congrArg String.toList hcontrol
    rw [hlist] at hcontrol
    rcases hupper with ⟨hC, hR⟩ | hI <;> simp_all
  · have hcontrol := congrArg String.toList hcontrol
    rw [hlist] at hcontrol
    rcases hupper with ⟨hC, hR⟩ | hI <;> simp_all

theorem readsScript : ReadsScript demoTables demoSqls := by
  have hnodup : demoSqls.Nodup := by decide +kernel
  have hparse (i : ℕ) (h : i < demoSqls.length) {tree : Sql.Statement}
      (htree : demoTrees[i]? = some tree) : SqlParser.parseSql demoSqls[i] = .ok [tree] := by
    simp only [SqlParser.parseSql, hnodup.idxOf_getElem i h, htree]
  have hlower (t : ScriptTable) (h : t ∈ demoTables) : Unicode.toLowercase t.name = t.name := by
    revert h t
    decide +kernel
  have hcreate (q : String) : ¬ IsControl ("CREATE TABLE " ++ q) := by
    have h : ("CREATE TABLE " ++ q).toList = 'C' :: 'R' :: ("EATE TABLE ".toList ++ q.toList) := by
      simp
    exact not_control h ⟨by decide, by decide⟩ (.inl ⟨by decide, by decide⟩)
  have hinsert (q : String) : ¬ IsControl ("INSERT INTO " ++ q) := by
    have h : ("INSERT INTO " ++ q).toList = 'I' :: 'N' :: ("SERT INTO ".toList ++ q.toList) := by
      simp
    exact not_control h ⟨by decide, by decide⟩ (.inr (by decide))
  exact ⟨hlower _ (by simp [demoTables]), ⟨hcreate _, hparse 0 (by decide) rfl⟩,
    ⟨hinsert _, "", hparse 1 (by decide) rfl⟩,
    hlower _ (by simp [demoTables]), ⟨hcreate _, hparse 2 (by decide) rfl⟩,
    ⟨hinsert _, "", hparse 3 (by decide) rfl⟩,
    hlower _ (by simp [demoTables]), ⟨hcreate _, hparse 4 (by decide) rfl⟩,
    ⟨hinsert _, "", hparse 5 (by decide) rfl⟩,
    hlower _ (by simp [demoTables]), ⟨hcreate _, hparse 6 (by decide) rfl⟩,
    ⟨hinsert _, "", hparse 7 (by decide) rfl⟩, trivial⟩

end Booting

open Booting in
theorem boot_serves_sample :
    let w := Server.fresh.after Sample.events
    ∃ b, Server.run w.1.db.txMgr.redoFile = .ok b ∧ Server.run b.db.txMgr.redoFile = .ok b ∧
      ∀ t ∈ demoTables, b.db.catalog.getSchema t.name = some t.schema ∧
        ∀ session, ∃ rows, b.scan session t.name = .ok rows ∧
          rows.map Tuple.tagged = rowsTo t.name (committedWrites w.2) ++
            t.values.map fun vals => (none, vals) := by
  have hmem : ∀ rec ∈ (Server.fresh.after Sample.events).1.db.txMgr.redoFile.written,
      rec ∈ Sample.records := by decide +kernel
  exact boot_serves readsScript (.after _ _) fun rec hrec => Sample.roundTrips rec (hmem rec hrec)

end VolcanoDb
