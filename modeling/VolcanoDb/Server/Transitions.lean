import VolcanoDb.Executor.Semantics
import VolcanoDb.Server.Server
import VolcanoDb.Transaction.Replay

/-! # Transitions of the shared state

The shared database and the open transactions of the sessions, with the few
transitions that statements are made of. Every event of the server is a chain
of these transitions; the transactional events that it performs extend a
history, which the server itself does not keep.
-/

namespace VolcanoDb

structure World where
  db : DatabaseState
  /-- The open transaction of every session. -/
  opens : ℕ → Option ℕ

def Server.world (w : Server) : World where
  db := w.db
  opens sessionId := (w.sessions.lookup sessionId).bind SessionState.currentTxId

/-- One transition and the events that it performs. -/
inductive Act : World → List DbEvent → World → Prop where
  | begin {w : World} {id : ℕ} (h : w.opens id = none) :
      Act w [.begin w.db.txMgr.nextTxId]
        ⟨w.db.begin.2, Function.update w.opens id (some w.db.txMgr.nextTxId)⟩
  | write {w : World} {id : ℕ} {name : String} {schema : Schema} {rows : List Tuple}
      {vals : List Value} (hs : w.db.catalog.getSchema name = some schema)
      (hr : w.db.tables.lookup name = some rows) (hv : vals.length = schema.columns.length) :
      Act w [.write (w.opens id) (name, vals)] ⟨w.db.pushRow (w.opens id) name rows vals, w.opens⟩
  | commit {w : World} {id txId : ℕ} (h : w.opens id = some txId) :
      Act w [.commit txId] ⟨w.db.commit txId, Function.update w.opens id none⟩
  | rollback {w : World} {id txId : ℕ} (h : w.opens id = some txId) :
      Act w [.abort txId] ⟨w.db.rollback txId, Function.update w.opens id none⟩
  | createTable {w : World} {name : String} {schema : Schema}
      (h : w.db.catalog.getSchema name = none) :
      Act w [] ⟨w.db.createTable name schema, w.opens⟩
  /-- Sessions may end, whether their transactions are finished or not. -/
  | release {w : World} {opens : ℕ → Option ℕ} (h : ∀ id, opens id = none ∨ opens id = w.opens id) :
      Act w [] ⟨w.db, opens⟩

/-- The runs from a world whose transitions all meet a condition, with their histories. -/
inductive Reaches (G : World → DbEvent → Prop) (w₀ : World) : World → List DbEvent → Prop where
  | refl : Reaches G w₀ w₀ []
  | act {w w' : World} {h es : List DbEvent} :
      Reaches G w₀ w h → Act w es w' → (∀ e ∈ es, G w e) → Reaches G w₀ w' (h ++ es)

def free : World → DbEvent → Prop := fun _ _ => True

/-- A condition that reads only the redo file when a row is written. -/
def ReadsFile (G : World → DbEvent → Prop) : Prop :=
  ∀ w w' o a, w.db.txMgr.redoFile = w'.db.txMgr.redoFile → G w (.write o a) → G w' (.write o a)

theorem readsFile_free : ReadsFile free := fun _ _ _ _ _ _ => trivial

namespace Reaches

variable {G : World → DbEvent → Prop} {w₀ w w' : World} {h h' es : List DbEvent}

theorem single (ha : Act w es w') (hG : ∀ e ∈ es, G w e) : Reaches G w w' es := by
  simpa using Reaches.refl.act ha hG

theorem trans (hr : Reaches G w₀ w h) (hr' : Reaches G w w' h') : Reaches G w₀ w' (h ++ h') := by
  induction hr' with
  | refl => simpa using hr
  | act _ ha hG ih => simpa [List.append_assoc] using ih.act ha hG

theorem performed (hr : Reaches G w₀ w h) {e : DbEvent} (he : e ∈ h) :
    ∃ w₁ h₁ h₂, Reaches G w₀ w₁ h₁ ∧ h = h₁ ++ e :: h₂ ∧ G w₁ e := by
  induction hr with
  | refl => cases he
  | @act w w' h es hr ha hG ih =>
    rcases List.mem_append.mp he with he | he
    · obtain ⟨w₁, h₁, h₂, hr₁, rfl, hGe⟩ := ih he
      exact ⟨w₁, h₁, h₂ ++ es, hr₁, by simp, hGe⟩
    · obtain rfl : es = [e] := by cases ha <;> simp_all
      exact ⟨w, h, [], hr, rfl, hG e he⟩

end Reaches

section Effects

variable [BuildProfile]

/-- The rows that an `INSERT` stores: those before the first row that fails. -/
def storedRows (schema : Schema) : List (List Expr) → List (List Value)
  | [] => []
  | row :: rows =>
    match evalRow schema row with
    | .error _ => []
    | .ok vals => vals :: storedRows schema rows

variable [Unicode]

def insertEffects (db : DatabaseState) (session : SessionState) (tableName : String)
    (rows : List (List Expr)) : List DbEvent :=
  let nameLower := Unicode.toLowercase tableName
  match db.catalog.getSchema nameLower, db.tables.lookup nameLower with
  | some schema, some _ =>
    (storedRows schema rows).map fun vals => .write session.currentTxId (nameLower, vals)
  | _, _ => []

variable [SqlParser]

/-- The transactional events that a statement performs. -/
def statementEffects (db : DatabaseState) (session : SessionState) (sql : String) : List DbEvent :=
  let upper := Unicode.toUppercase (Text.trim sql)
  if Text.startsWith upper "BEGIN" ∨ Text.startsWith upper "START TRANSACTION" then
    if session.currentTxId.isSome then [] else [.begin db.txMgr.nextTxId]
  else if upper = "COMMIT" then session.currentTxId.toList.map .commit
  else if upper = "ROLLBACK" then session.currentTxId.toList.map .abort
  else
    match bindStatement sql db.catalog with
    | .ok (.insert tableName rows) => insertEffects db session tableName rows
    | _ => []

def requestEffects (db : DatabaseState) (session : SessionState) (sql : String) : List DbEvent :=
  if Text.eqIgnoreAsciiCase (Text.trim sql) "/crash" then []
  else if Text.eqIgnoreAsciiCase (Text.trim sql) "/status" then []
  else statementEffects db session sql

/-- The transactional events that an event of the server performs. -/
def Server.effects (w : Server) : Event → List DbEvent
  | .connect => []
  | .disconnect _ => []
  | .statement sessionId sql =>
    match w.sessions.lookup sessionId with
    | none => []
    | some session => if w.down then [] else requestEffects w.db session sql

end Effects

section Refinement

variable {G : World → DbEvent → Prop} {db : DatabaseState} {session : SessionState}
  {opens : ℕ → Option ℕ} {id : ℕ}

theorem handleBegin_reaches (ho : opens id = session.currentTxId)
    (hG : session.currentTxId = none → G ⟨db, opens⟩ (.begin db.txMgr.nextTxId)) :
    Reaches G ⟨db, opens⟩
      ⟨(handleBegin db session).2.1,
        Function.update opens id (handleBegin db session).2.2.currentTxId⟩
      (if session.currentTxId.isSome then [] else [.begin db.txMgr.nextTxId]) := by
  unfold handleBegin
  rcases hc : session.currentTxId with _ | txId
  · exact .single (.begin (ho.trans hc)) (by simpa using hG hc)
  · have hself : Function.update opens id (some txId) = opens := by
      rw [← hc, ← ho, Function.update_eq_self]
    simpa [hc, hself] using Reaches.refl

theorem handleCommit_reaches (ho : opens id = session.currentTxId)
    (hG : ∀ txId, session.currentTxId = some txId → G ⟨db, opens⟩ (.commit txId)) :
    Reaches G ⟨db, opens⟩
      ⟨(handleCommit db session).2.1,
        Function.update opens id (handleCommit db session).2.2.currentTxId⟩
      (session.currentTxId.toList.map .commit) := by
  unfold handleCommit
  rcases hc : session.currentTxId with _ | txId
  · have hself : Function.update opens id none = opens := by
      rw [← hc, ← ho, Function.update_eq_self]
    simpa [hc, hself] using Reaches.refl
  · exact .single (.commit (ho.trans hc)) (by simpa using hG txId hc)

theorem handleRollback_reaches (ho : opens id = session.currentTxId)
    (hG : ∀ txId, session.currentTxId = some txId → G ⟨db, opens⟩ (.abort txId)) :
    Reaches G ⟨db, opens⟩
      ⟨(handleRollback db session).2.1,
        Function.update opens id (handleRollback db session).2.2.currentTxId⟩
      (session.currentTxId.toList.map .abort) := by
  unfold handleRollback
  rcases hc : session.currentTxId with _ | txId
  · have hself : Function.update opens id none = opens := by
      rw [← hc, ← ho, Function.update_eq_self]
    simpa [hc, hself] using Reaches.refl
  · exact .single (.rollback (ho.trans hc)) (by simpa using hG txId hc)

theorem Server.release_reaches (w' : Server) (hdb : w'.db = db)
    (h : ∀ id session, w'.sessions.lookup id = some session →
      session.currentTxId = none ∨ session.currentTxId = opens id) :
    Reaches G ⟨db, opens⟩ w'.world [] := by
  have hact : Act ⟨db, opens⟩ [] ⟨db, w'.world.opens⟩ := by
    apply Act.release
    intro id
    simp only [world]
    rcases hs : w'.sessions.lookup id with _ | session
    · exact .inl rfl
    · exact h id session hs
  subst hdb
  exact .single hact (by simp)

variable [BuildProfile]

theorem evalValues_length {i : ℕ} {row : List Expr} {vals : List Value}
    (h : evalValues i row = .ok vals) : vals.length = row.length := by
  induction row generalizing i vals with
  | nil => cases h; rfl
  | cons expr row ih =>
    simp only [evalValues, Result.bind_eq_ok] at h
    obtain ⟨val, -, vals', hvals, h⟩ := h
    cases h
    simp [ih hvals]

theorem evalRow_length {schema : Schema} {row : List Expr} {vals : List Value}
    (h : evalRow schema row = .ok vals) : vals.length = schema.columns.length := by
  unfold evalRow at h
  split at h
  · cases h
  · rename_i hlen
    rw [evalValues_length h]
    exact not_not.mp hlen

theorem insertRows_reaches (hw : ReadsFile G) {schema : Schema} {name : String}
    {table : List Tuple} (hs : db.catalog.getSchema name = some schema)
    (ht : db.tables.lookup name = some table) (n : ℕ) (rows : List (List Expr))
    (hG : ∀ vals ∈ storedRows schema rows, G ⟨db, opens⟩ (.write (opens id) (name, vals))) :
    Reaches G ⟨db, opens⟩ ⟨(insertRows schema (opens id) name db table n rows).2, opens⟩
      ((storedRows schema rows).map fun vals => .write (opens id) (name, vals)) := by
  induction rows generalizing db table n with
  | nil => exact .refl
  | cons row rows ih =>
    unfold storedRows at hG ⊢
    unfold insertRows
    rcases hv : evalRow schema row with f | vals
    · exact .refl
    · rw [hv] at hG
      obtain ⟨hfirst, hrest⟩ := List.forall_mem_cons.mp hG
      have hpush : (db.pushRow (opens id) name table vals).tables.lookup name =
          some (table ++ [Tuple.newWithMeta vals (opens id) db.txMgr.scn]) :=
        AList.lookup_insert _
      have hact : Act ⟨db, opens⟩ _ _ := @Act.write ⟨db, opens⟩ id _ _ _ _ hs ht (evalRow_length hv)
      have hs' : (db.pushRow (opens id) name table vals).catalog.getSchema name = some schema := hs
      have hG' : ∀ vals' ∈ storedRows schema rows,
          G ⟨db.pushRow (opens id) name table vals, opens⟩ (.write (opens id) (name, vals')) :=
        fun vals' hm => hw ⟨db, opens⟩ _ _ _ (by simp) (hrest vals' hm)
      exact (Reaches.single hact (by simpa using hfirst)).trans (ih hs' hpush _ hG')

variable [Unicode]

theorem handleInsert_reaches (hw : ReadsFile G) (ho : opens id = session.currentTxId)
    (tableName : String) (rows : List (List Expr))
    (hG : ∀ e ∈ insertEffects db session tableName rows, G ⟨db, opens⟩ e) :
    Reaches G ⟨db, opens⟩ ⟨(handleInsert db session tableName rows).2, opens⟩
      (insertEffects db session tableName rows) := by
  revert hG
  unfold handleInsert insertEffects
  dsimp only
  rcases hs : db.catalog.getSchema (Unicode.toLowercase tableName) with _ | schema
  · exact fun _ => .refl
  rcases ht : db.tables.lookup (Unicode.toLowercase tableName) with _ | table
  · exact fun _ => .refl
  rw [← ho]
  intro hG
  exact insertRows_reaches hw hs ht 0 rows fun vals hm => hG _ (List.mem_map_of_mem hm)

omit [BuildProfile] in
theorem handleCreateTable_reaches (tableName : String) (schema : Schema) :
    Reaches G ⟨db, opens⟩ ⟨(handleCreateTable db tableName schema).2, opens⟩ [] := by
  unfold handleCreateTable
  dsimp only
  split
  · exact .refl
  · rename_i hs
    exact .single (.createTable (Option.not_isSome_iff_eq_none.mp hs)) (by simp)

variable [SqlParser] [Collections] [ComfyTable]

theorem innerHandle_reaches (hw : ReadsFile G)
    (ho : opens id = session.currentTxId) {sql : String}
    (hG : ∀ e ∈ statementEffects db session sql, G ⟨db, opens⟩ e) :
    Reaches G ⟨db, opens⟩
      ⟨(innerHandle db session sql).2.1,
        Function.update opens id (innerHandle db session sql).2.2.currentTxId⟩
      (statementEffects db session sql) := by
  have hself : Function.update opens id session.currentTxId = opens := by
    rw [← ho, Function.update_eq_self]
  revert hG
  simp only [innerHandle, statementEffects]
  split
  · intro hG
    exact handleBegin_reaches ho fun hc => hG _ (by simp [hc])
  split
  · intro hG
    exact handleCommit_reaches ho fun txId hc => hG _ (by simp [hc])
  split
  · intro hG
    exact handleRollback_reaches ho fun txId hc => hG _ (by simp [hc])
  rcases hb : bindStatement sql db.catalog with f | (⟨name, schema⟩ | ⟨name, rows⟩ | plan)
  · simpa [hself] using Reaches.refl
  · simpa [executeStatement, hself] using handleCreateTable_reaches name schema
  · intro hG
    simpa [executeStatement, hself] using handleInsert_reaches hw ho name rows hG
  · simpa [executeStatement, hself] using Reaches.refl

theorem handleStatement_reaches (hw : ReadsFile G)
    (ho : opens id = session.currentTxId) {sql : String}
    (hG : ∀ e ∈ requestEffects db session sql, G ⟨db, opens⟩ e) :
    Reaches G ⟨db, opens⟩
      ⟨(handleStatement db session sql).2.1,
        Function.update opens id (handleStatement db session sql).2.2.currentTxId⟩
      (requestEffects db session sql) := by
  have hself : Function.update opens id session.currentTxId = opens := by
    rw [← ho, Function.update_eq_self]
  revert hG
  simp only [handleStatement, requestEffects]
  split
  · intro _; simpa [hself] using Reaches.refl
  split
  · intro _; simpa [hself] using Reaches.refl
  intro hG
  have hinner := innerHandle_reaches hw ho hG
  rcases hi : innerHandle db session sql with ⟨f | msg, db', session'⟩ <;> rw [hi] at hinner
  · cases f with
    | error e => exact hinner
    | panic message => exact hinner
  · exact hinner

namespace Server

variable {w : Server}

theorem statement_reaches (hw : ReadsFile G) {sessionId : ℕ} {sql : String}
    (hs : w.sessions.lookup sessionId = some session)
    (hG : ∀ ev ∈ requestEffects w.db session sql, G w.world ev) :
    Reaches G w.world (w.afterReply sessionId (handleStatement w.db session sql)).world
      (requestEffects w.db session sql) := by
  have ho : w.world.opens sessionId = session.currentTxId := by simp [world, hs]
  have hreq : Reaches G ⟨w.db, w.world.opens⟩ _ _ := handleStatement_reaches hw ho hG
  rcases hh : handleStatement w.db session sql with ⟨reply, db', session'⟩
  rw [hh] at hreq
  have hrel := hreq.trans (release_reaches (w.afterReply sessionId (reply, db', session')) ?_ ?_)
  · rw [List.append_nil] at hrel
    exact hrel
  · cases reply <;> rfl
  · intro id s hs'
    cases reply with
    | text msg =>
      rw [afterReply, FinMap.lookup_insert_eq] at hs'
      split at hs'
      · cases hs'; subst id; simp
      · rename_i hne; simp [world, hs', hne]
    | exit => cases hs'
    | panic message =>
      rw [afterReply, FinMap.lookup_erase_eq] at hs'
      split at hs'
      · cases hs'
      · rename_i hne; simp [world, hs', hne]

/-- Every event of the server is a chain of transitions with its effects. -/
theorem step_reaches (hw : ReadsFile G) {e : Event}
    (hG : ∀ ev ∈ w.effects e, G w.world ev) :
    Reaches G w.world (w.step e).world (w.effects e) := by
  cases e with
  | connect =>
    apply release_reaches (w.step .connect) rfl
    intro id session hs
    rw [step, FinMap.lookup_insert_eq] at hs
    split at hs
    · cases hs; exact .inl rfl
    · exact .inr (by simp [hs])
  | disconnect sessionId =>
    apply release_reaches (w.step (.disconnect sessionId)) rfl
    intro id session hs
    rw [step, FinMap.lookup_erase_eq] at hs
    split at hs
    · cases hs
    · exact .inr (by simp [hs])
  | statement sessionId sql =>
    rcases hs : w.sessions.lookup sessionId with _ | session
    · simpa [step, effects, hs] using Reaches.refl
    by_cases hdown : w.down
    · have hstep : w.step (.statement sessionId sql) =
          { w with sessions := w.sessions.erase sessionId } := by simp [step, hs, hdown]
      simp only [effects, hs, hdown, if_true, hstep]
      refine release_reaches _ rfl fun id session hs => ?_
      rw [FinMap.lookup_erase_eq] at hs
      split at hs
      · cases hs
      · exact .inr (by simp [hs])
    · have hstep : w.step (.statement sessionId sql) =
          w.afterReply sessionId (handleStatement w.db session sql) := by simp [step, hs, hdown]
      have heffects : w.effects (.statement sessionId sql) = requestEffects w.db session sql := by
        simp [effects, hs, hdown]
      rw [heffects] at hG ⊢
      rw [hstep]
      exact statement_reaches hw hs hG

end Server

end Refinement

section Runs

variable [BuildProfile] [Unicode] [SqlParser] [ComfyTable]

/--
The runs of the server from a state whose events all meet a condition, with their
histories. Each event meets collections of its own: every hash map has its own keys.
-/
inductive Runs (G : World → DbEvent → Prop) (w₀ : Server) : Server → List DbEvent → Prop where
  | refl : Runs G w₀ w₀ []
  | step [Collections] {w : Server} {h : List DbEvent} (e : Event) :
      Runs G w₀ w h → (∀ ev ∈ w.effects e, G w.world ev) → Runs G w₀ (w.step e) (h ++ w.effects e)

theorem Runs.mono {G G' : World → DbEvent → Prop} {w₀ w : Server} {h : List DbEvent}
    (hr : Runs G w₀ w h) (hG : ∀ w e, G w e → G' w e) : Runs G' w₀ w h := by
  induction hr with
  | refl => exact .refl
  | step e _ hev ih => exact ih.step e fun ev hm => hG _ ev (hev ev hm)

/-- A run of the server is a run of transitions. -/
theorem Runs.reaches {G : World → DbEvent → Prop} {w₀ w : Server} {h : List DbEvent}
    (hr : Runs G w₀ w h) (hw : ReadsFile G) : Reaches G w₀.world w.world h := by
  induction hr with
  | refl => exact .refl
  | step e _ hG ih => exact ih.trans (Server.step_reaches hw hG)

variable [Collections]

def Server.after (w : Server) : List Event → Server × List DbEvent
  | [] => (w, [])
  | e :: es => (((w.step e).after es).1, w.effects e ++ ((w.step e).after es).2)

def Server.Meets (G : World → DbEvent → Prop) (w : Server) : List Event → Prop
  | [] => True
  | e :: es => (∀ ev ∈ w.effects e, G w.world ev) ∧ (w.step e).Meets G es

instance Server.decidableMeets {G : World → DbEvent → Prop} [∀ w e, Decidable (G w e)] :
    ∀ (w : Server) (es : List Event), Decidable (w.Meets G es)
  | _, [] => .isTrue trivial
  | w, e :: es => @instDecidableAnd _ _ inferInstance (decidableMeets (w.step e) es)

theorem Runs.of_meets {G : World → DbEvent → Prop} {w₀ w : Server} {h : List DbEvent}
    {es : List Event} (hr : Runs G w₀ w h) (hm : w.Meets G es) :
    Runs G w₀ (w.after es).1 (h ++ (w.after es).2) := by
  induction es generalizing w h with
  | nil => simpa [Server.after] using hr
  | cons e es ih =>
    obtain ⟨hG, hm⟩ := hm
    simpa [Server.after] using ih (hr.step e hG) hm

theorem Server.meets_free (w : Server) (es : List Event) : w.Meets free es := by
  induction es generalizing w with
  | nil => trivial
  | cons e es ih => exact ⟨fun _ _ => trivial, ih _⟩

theorem Runs.after (w : Server) (es : List Event) : Runs free w (w.after es).1 (w.after es).2 := by
  simpa using Runs.refl.of_meets (w.meets_free es)

end Runs

namespace Sample

/-! A small instance: overflow checks, ASCII case mappings and a parser of a few statements. -/

scoped instance profile : BuildProfile := ⟨true⟩

scoped instance unicode : Unicode where
  toUppercase s := String.ofList (s.toList.map Char.toUpper)
  toLowercase s := String.ofList (s.toList.map Char.toLower)
  printable _ := true

scoped instance comfyTable : ComfyTable := ⟨fun headers rows => s!"{headers} {rows}"⟩

def insertTree (rows : List (List String)) : List Sql.Statement :=
  [.insert [{ value := "t" }] []
    (some { body := .values (rows.map fun row => row.map fun n => .value (.number n)) })]

scoped instance parser : SqlParser where
  parseSql sql :=
    if sql = "CREATE TABLE t (a INT)" then
      .ok [.createTable [{ value := "t" }] [⟨{ value := "a" }, .int⟩]]
    else if sql = "INSERT INTO t VALUES (1)" then .ok (insertTree [["1"]])
    else if sql = "INSERT INTO t VALUES (2)" then .ok (insertTree [["2"]])
    else if sql = "INSERT INTO t VALUES (1), (2, 3)" then .ok (insertTree [["1"], ["2", "3"]])
    else if sql = "INSERT INTO t VALUES (2, 3), (1)" then .ok (insertTree [["2", "3"], ["1"]])
    else .error "sql parser error: Expected: an SQL statement"

scoped instance collections : Collections := insertionCollections

def events : List Event := [.connect, .connect, .statement 1 "CREATE TABLE t (a INT)",
  .statement 1 "BEGIN", .statement 2 "BEGIN", .statement 1 "INSERT INTO t VALUES (1)",
  .statement 2 "INSERT INTO t VALUES (2)", .statement 1 "COMMIT"]

end Sample

end VolcanoDb
