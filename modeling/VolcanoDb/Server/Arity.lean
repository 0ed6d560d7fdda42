import VolcanoDb.Server.Bounds
import VolcanoDb.Server.RedoText

/-! # The arity of stored rows

Rows are stored by `INSERT`, which counts them against the schema, and by
recovery, which knows no schemas. What keeps the rows of every table as long as
its schema, over statements, crashes and recoveries, is that a table is only
created over rows of its length; every query is then in bounds.
-/

namespace VolcanoDb

section Schemas

variable {G : World → DbEvent → Prop} {w₀ w w' : World} {h es : List DbEvent} {name : String}
  {schema : Schema}

theorem Act.getSchema (ha : Act w es w') (hs : w.db.catalog.getSchema name = some schema) :
    w'.db.catalog.getSchema name = some schema := by
  cases ha with
  | begin | write | commit | rollback | release => exact hs
  | @createTable tableName _ hn =>
    have hne : name ≠ tableName := by
      rintro rfl
      rw [hn] at hs
      cases hs
    simpa [DatabaseState.createTable, hne] using hs

theorem Reaches.getSchema (hr : Reaches G w₀ w h)
    (hs : w₀.db.catalog.getSchema name = some schema) :
    w.db.catalog.getSchema name = some schema := by
  induction hr with
  | refl => exact hs
  | act _ ha _ ih => exact ha.getSchema ih

theorem Reaches.written_length (hr : Reaches G w₀ w h) {o : Option ℕ} {vals : List Value}
    (hw : .write o (name, vals) ∈ h) : ∃ schema, w.db.catalog.getSchema name = some schema ∧
      vals.length = schema.columns.length := by
  induction hr with
  | refl => cases hw
  | @act w w' h es _ ha _ ih =>
    rcases List.mem_append.mp hw with hw | hw
    · obtain ⟨schema, hs, hlen⟩ := ih hw
      exact ⟨schema, ha.getSchema hs, hlen⟩
    · cases ha with
      | @write id tableName schema rows vals' hs hrows hlen =>
        cases List.mem_singleton.mp hw
        exact ⟨schema, hs, hlen⟩
      | begin | commit | rollback => cases List.mem_singleton.mp hw
      | createTable | release => cases hw

theorem Reaches.stored_or_written (hr : Reaches G w₀ w h) {t : Tuple} (ht : t ∈ w.rows name) :
    (∃ t₀ ∈ w₀.rows name, t₀.values = t.values) ∨ .write t.txId (name, t.values) ∈ h := by
  have hm := (hr.rows name).subset (List.mem_map_of_mem ht)
  rcases List.mem_append.mp hm with hm | hm
  · obtain ⟨t₀, ht₀, heq⟩ := List.mem_map.mp hm
    exact .inl ⟨t₀, ht₀, congrArg Prod.snd heq⟩
  · exact .inr (mem_writesTo.mp hm)

end Schemas

section Creation

/-- What a statement does to the catalog, and to the rest when it creates a table. -/
structure Creates (db db' : DatabaseState) (created : Option (String × Schema)) : Prop where
  unchanged : created = none → db'.catalog = db.catalog
  created {name : String} {schema : Schema} : created = some (name, schema) →
    db' = db.createTable name schema

theorem Creates.same {db db' : DatabaseState} (h : db'.catalog = db.catalog) :
    Creates db db' none := ⟨fun _ => h, nofun⟩

variable [Unicode]

instance (sql : String) : Decidable (IsControl sql) := inferInstanceAs (Decidable (_ ∨ _ ∨ _))

variable [SqlParser]

def statementCreates (db : DatabaseState) (sql : String) : Option (String × Schema) :=
  if IsControl sql then none
  else
    match bindStatement sql db.catalog with
    | .ok (.createTable tableName schema) =>
      let nameLower := Unicode.toLowercase tableName
      if (db.catalog.getSchema nameLower).isSome then none else some (nameLower, schema)
    | _ => none

def requestCreates (db : DatabaseState) (sql : String) : Option (String × Schema) :=
  if Text.eqIgnoreAsciiCase (Text.trim sql) "/crash" then none
  else if Text.eqIgnoreAsciiCase (Text.trim sql) "/status" then none
  else statementCreates db sql

def Server.creates (w : Server) : Event → Option (String × Schema)
  | .connect => none
  | .disconnect _ => none
  | .statement sessionId sql =>
    match w.sessions.lookup sessionId with
    | none => none
    | some _ => if w.down then none else requestCreates w.db sql

variable [BuildProfile] [Collections] [ComfyTable]

omit [Unicode] [SqlParser] [Collections] [ComfyTable] in
theorem insertRows_catalog (schema : Schema) (txId : Option ℕ) (name : String) (db : DatabaseState)
    (table : List Tuple) (n : ℕ) (rows : List (List Expr)) :
    (insertRows schema txId name db table n rows).2.catalog = db.catalog := by
  induction rows generalizing db table n with
  | nil => rfl
  | cons row rows ih =>
    unfold insertRows
    split
    · rfl
    · rw [ih, DatabaseState.pushRow_catalog]

theorem innerHandle_control_catalog {sql : String} (hc : IsControl sql) (db : DatabaseState)
    (session : SessionState) : (innerHandle db session sql).2.1.catalog = db.catalog := by
  rcases innerHandle_keyword hc db session with heq | heq | heq <;> rw [heq]
  · unfold handleBegin
    split <;> rfl
  · unfold handleCommit
    split <;> rfl
  · unfold handleRollback
    split <;> rfl

theorem executeStatement_creates (db : DatabaseState) (session : SessionState) (sql : String)
    (hc : ¬ IsControl sql) {statement : SQLStatement}
    (hb : bindStatement sql db.catalog = .ok statement) :
    Creates db (executeStatement db session statement).2.1 (statementCreates db sql) := by
  rw [statementCreates, if_neg hc, hb]
  cases statement with
  | createTable tableName schema =>
    unfold executeStatement handleCreateTable
    dsimp only
    split
    · exact .same rfl
    · refine ⟨nofun, fun h => ?_⟩
      cases h
      rfl
  | insert tableName rows =>
    apply Creates.same
    unfold executeStatement handleInsert
    dsimp only
    split
    · rfl
    · split
      · rfl
      · exact insertRows_catalog _ _ _ _ _ _ _
  | query plan => exact .same rfl

theorem innerHandle_creates (db : DatabaseState) (session : SessionState) (sql : String) :
    Creates db (innerHandle db session sql).2.1 (statementCreates db sql) := by
  by_cases hc : IsControl sql
  · rw [statementCreates, if_pos hc]
    exact .same (innerHandle_control_catalog hc db session)
  rw [innerHandle_plain hc]
  rcases hb : bindStatement sql db.catalog with f | statement
  · rw [statementCreates, if_neg hc, hb]
    exact .same rfl
  · exact executeStatement_creates db session sql hc hb

theorem handleStatement_db {sql : String}
    (hcrash : ¬ Text.eqIgnoreAsciiCase (Text.trim sql) "/crash")
    (hstatus : ¬ Text.eqIgnoreAsciiCase (Text.trim sql) "/status") (db : DatabaseState)
    (session : SessionState) :
    (handleStatement db session sql).2.1 = (innerHandle db session sql).2.1 := by
  unfold handleStatement
  dsimp only
  rw [if_neg hcrash, if_neg hstatus]
  rcases innerHandle db session sql with ⟨(e | message) | msg, db', session'⟩ <;> rfl

theorem handleStatement_creates (db : DatabaseState) (session : SessionState) (sql : String) :
    Creates db (handleStatement db session sql).2.1 (requestCreates db sql) := by
  unfold requestCreates
  split
  · rename_i hcrash
    apply Creates.same
    simp only [handleStatement, hcrash, if_true]
  split
  · rename_i hcrash hstatus
    apply Creates.same
    simp only [handleStatement, hcrash, hstatus, if_true, if_false, Bool.false_eq_true]
  · rename_i hcrash hstatus
    rw [handleStatement_db hcrash hstatus]
    exact innerHandle_creates db session sql

omit [Unicode] [SqlParser] [BuildProfile] [Collections] [ComfyTable] in
theorem Server.afterReply_db (w : Server) (sessionId : ℕ)
    (answer : Reply × DatabaseState × SessionState) :
    (w.afterReply sessionId answer).db = answer.2.1 := by
  rcases answer with ⟨reply, db', session'⟩
  cases reply <;> rfl

theorem Server.step_creates (w : Server) (e : Event) :
    Creates w.db (w.step e).db (w.creates e) := by
  cases e with
  | connect => exact .same rfl
  | disconnect sessionId => exact .same rfl
  | statement sessionId sql =>
    unfold step creates
    dsimp only
    rcases w.sessions.lookup sessionId with _ | session
    · exact .same rfl
    dsimp only
    split
    · exact .same rfl
    · rw [afterReply_db]
      exact handleStatement_creates w.db session sql

end Creation

section Arity

variable [BuildProfile] [Unicode] [SqlParser] [Collections] [ComfyTable]

/-- No table is created over rows of another length than that of its schema. -/
def Server.CreatesFitting (w : Server) (e : Event) : Prop :=
  ∀ created ∈ w.creates e, ∀ t ∈ w.world.rows created.1,
    t.values.length = created.2.columns.length

instance (w : Server) (e : Event) : Decidable (w.CreatesFitting e) :=
  inferInstanceAs (Decidable (∀ _ ∈ _, _))

omit [BuildProfile] [Unicode] [SqlParser] [Collections] [ComfyTable] in
theorem ArityHolds.of_rows {tables : FinMap String (List Tuple)} {catalog : Catalog}
    (h : ArityHolds tables catalog) {name : String} {schema : Schema}
    (hs : catalog.getSchema name = some schema) {t : Tuple}
    (ht : t ∈ (tables.lookup name).getD []) : t.values.length = schema.columns.length := by
  rcases hl : tables.lookup name with _ | rows
  · rw [hl] at ht
    cases ht
  · rw [hl] at ht
    exact h name schema rows hs hl t ht

/-- An event keeps the arity of all rows exactly if it creates no table over other rows. -/
theorem Server.step_arity (w : Server) (h : ArityHolds w.db.tables w.db.catalog) (e : Event) :
    ArityHolds (w.step e).db.tables (w.step e).db.catalog ↔ w.CreatesFitting e := by
  have hc := w.step_creates e
  constructor
  · rintro h' ⟨name, schema⟩ hcreated t ht
    have hdb := hc.created hcreated
    rw [hdb] at h'
    have hs : (w.db.createTable name schema).catalog.getSchema name = some schema := by
      simp [DatabaseState.createTable]
    have htables : (w.db.createTable name schema).tables.lookup name =
        some ((w.db.tables.lookup name).getD []) := by
      simp [DatabaseState.createTable, FinMap.lookup_orInsert]
    exact h' name schema _ hs htables t ht
  · intro hfit name schema rows hs hrows t ht
    have hstep : Reaches free w.world (w.step e).world (w.effects e) :=
      step_reaches readsFile_free fun _ _ => trivial
    have hmem : t ∈ (w.step e).world.rows name := by
      rw [World.rows]
      exact hrows ▸ ht
    rcases hstep.stored_or_written hmem with ⟨t₀, ht₀, hvals⟩ | hw
    · rw [← hvals]
      rcases hcreated : w.creates e with _ | ⟨created, schema'⟩
      · rw [hc.unchanged hcreated] at hs
        exact h.of_rows hs ht₀
      · rw [hc.created hcreated] at hs
        by_cases hn : name = created
        · subst hn
          obtain rfl : schema' = schema := by simpa [DatabaseState.createTable] using hs
          exact hfit _ hcreated t₀ ht₀
        · exact h.of_rows (by simpa [DatabaseState.createTable, hn] using hs) ht₀
    · obtain ⟨schema', hs', hlen⟩ := hstep.written_length hw
      obtain rfl : schema' = schema := Option.some.inj (hs'.symm.trans hs)
      exact hlen

variable [SerdeJson]

/--
The states of the server over crashes and recoveries: the first process begins on
an empty redo file, and every event meets a condition.
-/
inductive Reachable (C : Server → Event → Prop) : Server → Prop where
  | fresh : Reachable C Server.fresh
  | step [Collections] {w : Server} (e : Event) : Reachable C w → C w e → Reachable C (w.step e)
  | restart {w b : Server} :
      Reachable C w → Server.start w.db.txMgr.redoFile = .ok b → Reachable C b

/-- Whether the events of a sequence meet a condition where they happen. -/
def Server.Keeps (C : Server → Event → Prop) (w : Server) : List Event → Prop
  | [] => True
  | e :: es => C w e ∧ (w.step e).Keeps C es

instance Server.decidableKeeps {C : Server → Event → Prop} [∀ w e, Decidable (C w e)] :
    ∀ (w : Server) (es : List Event), Decidable (w.Keeps C es)
  | _, [] => .isTrue trivial
  | w, e :: es => @instDecidableAnd _ _ inferInstance (decidableKeeps (w.step e) es)

theorem Reachable.after {C : Server → Event → Prop} {w : Server} {es : List Event}
    (hr : Reachable C w) (hk : w.Keeps C es) : Reachable C (w.after es).1 := by
  induction es generalizing w with
  | nil => exact hr
  | cons e es ih =>
    obtain ⟨he, hk⟩ := hk
    exact ih (hr.step e he) hk

omit [Collections] in
theorem Reachable.arityHolds {w : Server} (hr : Reachable Server.CreatesFitting w) :
    ArityHolds w.db.tables w.db.catalog := by
  induction hr with
  | fresh => rintro name schema rows ⟨⟩
  | step e _ hfit ih => exact (Server.step_arity _ ih e).mpr hfit
  | restart _ hstart _ =>
    obtain ⟨_, -, hb⟩ := Result.bind_eq_ok.mp hstart
    cases hb
    rintro name schema rows ⟨⟩

/--
Where tables are only created over rows of their length, every row is as long as
the schema of its table in every state, an event breaks this exactly by creating
another table, and no statement indexes a row out of bounds.
-/
theorem row_arity_holds (hsort : SortsByComparing) {w : Server}
    (hr : Reachable Server.CreatesFitting w) :
    ArityHolds w.db.tables w.db.catalog ∧
      (∀ e, ArityHolds (w.step e).db.tables (w.step e).db.catalog ↔ w.CreatesFitting e) ∧
      ∀ session sql statement, bindStatement sql w.db.catalog = .ok statement →
        (executeStatement w.db session statement).1 ≠ .error outOfBounds := by
  refine ⟨hr.arityHolds, w.step_arity hr.arityHolds, fun session sql statement hb hpanic => ?_⟩
  have hsafe := executeStatement_safe hsort hr.arityHolds session hb
  rw [hpanic] at hsafe
  exact hsafe rfl

end Arity

namespace Script

def row : List Event := [.connect, .statement 1 "CREATE TABLE t (a INT)", .statement 1 "BEGIN",
  .statement 1 "INSERT INTO t VALUES (1)", .statement 1 "COMMIT"]

def again : List Event := [.connect, .statement 1 "CREATE TABLE t (a INT)"]

def widened : List Event := [.connect, .statement 1 "CREATE TABLE t (a INT, b INT)"]

def recovered : Server := .restarted (Server.fresh.after row).1.db.txMgr.redoFile

theorem recovered_reachable {C : Server → Event → Prop} (hk : Server.fresh.Keeps C row) :
    Reachable C recovered := by
  have hfile : ∀ rec ∈ (Server.fresh.after row).1.db.txMgr.redoFile.written,
      rec ∈ records ∧ rec.isFinite := by decide +kernel
  exact (Reachable.fresh.after hk).restart
    (Server.start_eq fun rec hrec => (readable hfile rec hrec).1)

end Script

open Script in
theorem row_arity_holds_sample :
    let w := (recovered.after again).1
    ArityHolds w.db.tables w.db.catalog ∧
      (∀ e, ArityHolds (w.step e).db.tables (w.step e).db.catalog ↔ w.CreatesFitting e) ∧
      ∀ session sql statement, bindStatement sql w.db.catalog = .ok statement →
        (executeStatement w.db session statement).1 ≠ .error outOfBounds := by
  have hrow : Server.fresh.Keeps Server.CreatesFitting row := by decide +kernel
  have hagain : recovered.Keeps Server.CreatesFitting again := by decide +kernel
  exact row_arity_holds sortsByComparing_insertionCollections
    ((recovered_reachable hrow).after hagain)

open Script in
/-- Over a recovered row of one value a table of two columns is created, and a query panics. -/
theorem short_row_stored :
    let w := (recovered.after widened).1
    Reachable (fun _ _ => True) w ∧ ¬ ArityHolds w.db.tables w.db.catalog ∧
      (handleStatement w.db (.new 1) "SELECT b FROM t").1 = .panic "index out of bounds" ∧
      (w.step (.statement 1 "SELECT b FROM t")).down = true := by
  have hreach : Reachable (fun _ _ => True) (recovered.after widened).1 :=
    (recovered_reachable (by decide +kernel)).after (by decide +kernel)
  have hschema : (recovered.after widened).1.db.catalog.getSchema "t" =
      some ⟨[⟨"a", .int⟩, ⟨"b", .int⟩]⟩ := by decide +kernel
  have hrows : (recovered.after widened).1.db.tables.lookup "t" =
      some [⟨[.int 1], some 1, 0⟩] := by decide +kernel
  have hpanic : (handleStatement (recovered.after widened).1.db (.new 1) "SELECT b FROM t").1 =
      .panic "index out of bounds" := by decide +kernel
  refine ⟨hreach, fun harity => ?_, hpanic, by decide +kernel⟩
  have hlen := harity "t" _ _ hschema hrows ⟨[.int 1], some 1, 0⟩ (by simp)
  exact absurd hlen (by decide)

end VolcanoDb
