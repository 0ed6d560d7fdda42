import Mathlib.Data.Prod.Lex
import VolcanoDb.Lib.Progress
import VolcanoDb.Server.Terminators

/-! # Requests of several statements

Of a text with several statements only the first one is handled. The statements behind it
are dropped without an error, which has no effect only when each of them would have left
the database and the session as they are.
-/

namespace VolcanoDb

open Text

def Result.fault {α : Type} : Result α → Option Fault
  | .ok _ => none
  | .error f => some f

section Statements

variable [Unicode] [BuildProfile] [Collections] [ComfyTable] [SqlParser]

instance (sql : String) : Decidable (IsBegin sql) := inferInstanceAs (Decidable (_ ∨ _))

omit [Unicode] [Collections] [ComfyTable] [SqlParser] in
def rowsFault (schema : Schema) : List (List Expr) → Option Fault
  | [] => none
  | row :: rows => (evalRow schema row).fault.or (rowsFault schema rows)

omit [SqlParser] in
def executionFault (db : DatabaseState) (session : SessionState) : SQLStatement → Option Fault
  | .createTable name _ =>
    if (db.catalog.getSchema (Unicode.toLowercase name)).isSome then
      some (.error (.tableExists name))
    else none
  | .insert name rows =>
    match db.catalog.getSchema (Unicode.toLowercase name),
      db.tables.lookup (Unicode.toLowercase name) with
    | none, _ => some (.error (.tableNotFound name))
    | some _, none => some (.error (.storageMissing name))
    | some schema, some _ => rowsFault schema rows
  | .query plan =>
    (runQuery (queryContext db { session with crScn := db.txMgr.scn }) db.catalog plan).fault

/-- What stands in the way of a statement: an open or a missing transaction, the binder, a row. -/
def statementFault (db : DatabaseState) (session : SessionState) (sql : String) : Option Fault :=
  if IsBegin sql then
    if session.currentTxId.isSome then some (.error .activeTransaction) else none
  else if IsEnd sql then
    if session.currentTxId.isSome then none else some (.error .noTransaction)
  else
    match bindStatement sql db.catalog with
    | .error f => some f
    | .ok statement => executionFault db session statement

/-- The states after a statement with which nothing interferes. -/
def statesAfter (db : DatabaseState) (session : SessionState) (sql : String) :
    DatabaseState × SessionState :=
  if IsBegin sql then (db.begin.2, { session with currentTxId := some db.begin.1 })
  else
    match bindStatement sql db.catalog with
    | .error _ => (db, session)
    | .ok (.createTable name schema) => (db.createTable (Unicode.toLowercase name) schema, session)
    | .ok (.insert name rows) => ((handleInsert db session name rows).2, session)
    | .ok (.query _) => (db, { session with crScn := db.txMgr.scn })

omit [Collections] [ComfyTable] in
/-- A statement that does nothing in these states. -/
structure Idle (db : DatabaseState) (session : SessionState) (sql : String) : Prop where
  begins : IsBegin sql → session.currentTxId.isSome
  ends : IsEnd sql → session.currentTxId = none
  creates : statementCreates db sql = none
  stores : ¬ StoresFirstRow db sql
  reads : ¬ IsControl sql → ∀ plan, bindStatement sql db.catalog = .ok (.query plan) →
    session.crScn = db.txMgr.scn

end Statements

section Progress

/-- The rows of every table, with one more for its schema. -/
def DatabaseState.sizes (db : DatabaseState) (name : String) : ℕ :=
  ((db.tables.lookup name).getD []).length + (db.catalog.getSchema name).isSome.toNat

/-- The length of the log, then the sizes of the tables, then whether the snapshot is current. -/
def progress (states : DatabaseState × SessionState) : ℕ ×ₗ (String → ℕ) ×ₗ Bool :=
  toLex (states.1.txMgr.log.length,
    toLex (states.1.sizes, decide (states.2.crScn = states.1.txMgr.scn)))

variable {db db' : DatabaseState} {session session' : SessionState}

theorem progress_lt_of_log (h : db.txMgr.log.length < db'.txMgr.log.length) :
    progress (db, session) < progress (db', session') := Prod.Lex.toLex_lt_toLex.mpr (.inl h)

theorem progress_lt_of_sizes (hlog : db.txMgr.log.length = db'.txMgr.log.length)
    (h : db.sizes < db'.sizes) : progress (db, session) < progress (db', session') :=
  Prod.Lex.toLex_lt_toLex.mpr (.inr ⟨hlog, Prod.Lex.toLex_lt_toLex.mpr (.inl h)⟩)

theorem sizes_lt (name : String) (hname : db.sizes name < db'.sizes name)
    (hne : ∀ name', name' ≠ name → db'.sizes name' = db.sizes name') : db.sizes < db'.sizes := by
  refine Pi.lt_def.mpr ⟨?_, name, hname⟩
  intro name'
  by_cases h : name' = name
  · rw [h]
    exact hname.le
  · exact (hne name' h).ge

theorem begin_progress (db : DatabaseState) (session session' : SessionState) :
    progress (db, session) < progress (db.begin.2, session') := by
  apply progress_lt_of_log
  rw [DatabaseState.begin_txMgr, TransactionManager.begin_log, List.length_append]
  exact Nat.lt_succ_self _

theorem commit_progress (db : DatabaseState) (txId : ℕ) (session session' : SessionState) :
    progress (db, session) < progress (db.commit txId, session') := by
  apply progress_lt_of_log
  rw [DatabaseState.commit_txMgr, TransactionManager.commit_log, List.length_append]
  exact Nat.lt_succ_self _

theorem rollback_progress (db : DatabaseState) (txId : ℕ) (session session' : SessionState) :
    progress (db, session) < progress (db.rollback txId, session') := by
  apply progress_lt_of_log
  rw [DatabaseState.rollback_txMgr]
  simp [TransactionManager.log]

theorem createTable_progress {name : String} (hnew : db.catalog.getSchema name = none)
    (schema : Schema) (session : SessionState) :
    progress (db, session) < progress (db.createTable name schema, session) := by
  have hsizes (name' : String) : (db.createTable name schema).sizes name' =
      ((db.tables.lookup name').getD []).length +
        (if name' = name then some schema else db.catalog.getSchema name').isSome.toNat := by
    simp only [DatabaseState.sizes, DatabaseState.createTable, Catalog.getSchema_addTable,
      FinMap.lookup_orInsert]
    by_cases hname : name' = name
    · subst hname
      simp only [if_true, Option.getD_some]
    · simp only [hname, if_false]
  apply progress_lt_of_sizes
  · rw [DatabaseState.createTable_txMgr]
  · apply sizes_lt name
    · rw [hsizes name, if_pos rfl, DatabaseState.sizes, hnew]
      exact Nat.lt_succ_self _
    · intro name' hname
      rw [hsizes name', if_neg hname]
      rfl

theorem pushRow_progress {name : String} {rows : List Tuple}
    (hrows : db.tables.lookup name = some rows) (owner : Option ℕ) (vals : List Value)
    (session : SessionState) :
    progress (db, session) < progress (db.pushRow owner name rows vals, session) := by
  rcases owner with _ | txId
  · apply progress_lt_of_sizes
    · rfl
    · apply sizes_lt name
      · simp [DatabaseState.sizes, hrows]
      · intro name' hname
        simp [DatabaseState.sizes, AList.lookup_insert_ne hname]
  · apply progress_lt_of_log
    rw [DatabaseState.pushRow_txMgr]
    simp

variable [BuildProfile]

theorem insertRows_progress {name : String} {rows : List Tuple}
    (hrows : db.tables.lookup name = some rows) (schema : Schema) (owner : Option ℕ) (n : ℕ)
    (exprs : List (List Expr)) (session : SessionState) :
    progress (db, session) ≤
      progress ((insertRows schema owner name db rows n exprs).2, session) := by
  induction exprs generalizing db rows n with
  | nil => exact le_rfl
  | cons row exprs ih =>
    unfold insertRows
    split
    · exact le_rfl
    · rename_i vals hvals
      have hpush : (db.pushRow owner name rows vals).tables.lookup name =
          some (rows ++ [Tuple.newWithMeta vals owner db.txMgr.scn]) := AList.lookup_insert _
      exact (pushRow_progress hrows owner vals session).le.trans (ih hpush (n + 1))

variable [Unicode] [Collections] [ComfyTable] [SqlParser] {sql : String}

omit [Collections] [ComfyTable] [SqlParser] in
theorem handleInsert_progress (db : DatabaseState) (session : SessionState) (name : String)
    (rows : List (List Expr)) :
    (¬ FirstRowStorable db name rows ∧ (handleInsert db session name rows).2 = db) ∨
      FirstRowStorable db name rows ∧
        progress (db, session) < progress ((handleInsert db session name rows).2, session) := by
  unfold handleInsert
  dsimp only
  rcases rows with _ | ⟨row, rest⟩
  · refine .inl ⟨not_false, ?_⟩
    split
    · rfl
    · split <;> rfl
  unfold FirstRowStorable
  rcases hs : db.catalog.getSchema (Unicode.toLowercase name) with _ | schema
  · exact .inl ⟨by simp, rfl⟩
  rcases ht : db.tables.lookup (Unicode.toLowercase name) with _ | table
  · exact .inl ⟨by simp, rfl⟩
  by_cases hrow : ∃ vals, evalRow schema row = .ok vals
  · refine .inr ⟨⟨schema, rfl, rfl, evalRow_ok.mp hrow⟩, ?_⟩
    obtain ⟨vals, hvals⟩ := hrow
    have hpush : AList.lookup (Unicode.toLowercase name)
        (db.pushRow session.currentTxId (Unicode.toLowercase name) table vals).tables =
          some (table ++ [Tuple.newWithMeta vals session.currentTxId db.txMgr.scn]) :=
      AList.lookup_insert _
    dsimp only
    rw [insertRows, hvals]
    exact (pushRow_progress ht session.currentTxId vals session).trans_le
      (insertRows_progress hpush schema session.currentTxId 1 rest session)
  · refine .inl ⟨?_, insertRows_first hrow⟩
    rintro ⟨_, ⟨⟩, -, hok⟩
    exact hrow (evalRow_ok.mpr hok)

omit [Collections] [ComfyTable] in
theorem Idle.of_control (hc : IsControl sql) (hbegins : IsBegin sql → session.currentTxId.isSome)
    (hends : IsEnd sql → session.currentTxId = none) : Idle db session sql where
  begins := hbegins
  ends := hends
  creates := if_pos hc
  stores h := h.1 hc
  reads h := absurd hc h

theorem innerHandle_control_progress (hc : IsControl sql) (db : DatabaseState)
    (session : SessionState) :
    (Idle db session sql ∧ (innerHandle db session sql).2 = (db, session)) ∨
      ¬ Idle db session sql ∧ progress (db, session) < progress (innerHandle db session sql).2 := by
  rcases isControl_iff.mp hc with hbegin | hend
  · rw [innerHandle_begin hbegin]
    unfold handleBegin
    rcases hid : session.currentTxId with _ | txId
    · refine .inr ⟨fun hidle => ?_, begin_progress ..⟩
      have hopen := hidle.begins hbegin
      rw [hid] at hopen
      cases hopen
    · refine .inl ⟨.of_control hc (fun _ => hid ▸ rfl) fun hend => ?_, rfl⟩
      exact absurd hbegin (not_isBegin_of_isEnd hend)
  · have hbegin := not_isBegin_of_isEnd hend
    rcases hid : session.currentTxId with _ | txId
    · have hsame : (innerHandle db session sql).2 = (db, session) := by
        rcases innerHandle_end hend db session with heq | heq <;> rw [heq]
        · simp only [handleCommit, hid]
        · simp only [handleRollback, hid]
      exact .inl ⟨.of_control hc (fun h => absurd h hbegin) fun _ => hid, hsame⟩
    · refine .inr ⟨fun hidle => ?_, ?_⟩
      · have hnone := hidle.ends hend
        rw [hid] at hnone
        cases hnone
      · rcases innerHandle_end hend db session with heq | heq <;> rw [heq]
        · simp only [handleCommit, hid]
          exact commit_progress ..
        · simp only [handleRollback, hid]
          exact rollback_progress ..

/-- A statement is idle and leaves the states, or raises their progress. -/
theorem innerHandle_progress (db : DatabaseState) (session : SessionState) (sql : String) :
    (Idle db session sql ∧ (innerHandle db session sql).2 = (db, session)) ∨
      ¬ Idle db session sql ∧ progress (db, session) < progress (innerHandle db session sql).2 := by
  by_cases hc : IsControl sql
  · exact innerHandle_control_progress hc db session
  have hbegin : ¬ IsBegin sql := fun h => hc (isControl_iff.mpr (.inl h))
  have hend : ¬ IsEnd sql := fun h => hc (isControl_iff.mpr (.inr h))
  rw [innerHandle_plain hc]
  have hidle : Idle db session sql ↔ statementCreates db sql = none ∧ ¬ StoresFirstRow db sql ∧
      ∀ plan, bindStatement sql db.catalog = .ok (.query plan) →
        session.crScn = db.txMgr.scn := by
    constructor
    · exact fun h => ⟨h.creates, h.stores, h.reads hc⟩
    · rintro ⟨hcreates, hstores, hreads⟩
      exact ⟨fun h => absurd h hbegin, fun h => absurd h hend, hcreates, hstores, fun _ => hreads⟩
  rw [hidle, statementCreates, if_neg hc, StoresFirstRow, and_iff_right hc]
  rcases hb : bindStatement sql db.catalog with f | (⟨name, schema⟩ | ⟨name, rows⟩ | plan)
  · exact .inl ⟨by simp, rfl⟩
  · simp only [executeStatement, handleCreateTable]
    rcases hs : db.catalog.getSchema (Unicode.toLowercase name) with _ | schema'
    · refine .inr ⟨by simp, ?_⟩
      exact createTable_progress hs schema session
    · exact .inl ⟨by simp, rfl⟩
  · simp only [executeStatement]
    rcases handleInsert_progress db session name rows with ⟨hfirst, hsame⟩ | ⟨hfirst, hlt⟩
    · exact .inl ⟨by simpa using hfirst, by rw [hsame]⟩
    · exact .inr ⟨by simpa using hfirst, hlt⟩
  · simp only [executeStatement]
    by_cases hscn : session.crScn = db.txMgr.scn
    · refine .inl ⟨by simpa using hscn, ?_⟩
      rw [← hscn]
    · refine .inr ⟨by simpa using hscn, ?_⟩
      refine Prod.Lex.toLex_lt_toLex.mpr (.inr ⟨rfl, ?_⟩)
      refine Prod.Lex.toLex_lt_toLex.mpr (.inr ⟨rfl, ?_⟩)
      simp [hscn]

end Progress

section Faults

variable [BuildProfile] {db : DatabaseState} {session : SessionState}

theorem insertRows_fault (schema : Schema) (owner : Option ℕ) (name : String) (db : DatabaseState)
    (table : List Tuple) (n : ℕ) (rows : List (List Expr)) :
    (insertRows schema owner name db table n rows).1.fault = rowsFault schema rows := by
  induction rows generalizing db table n with
  | nil => rfl
  | cons row rows ih =>
    unfold insertRows rowsFault
    rcases evalRow schema row with f | vals
    · rfl
    · exact ih ..

variable [Unicode] [Collections] [ComfyTable]

theorem executeStatement_fault (db : DatabaseState) (session : SessionState)
    (statement : SQLStatement) :
    (executeStatement db session statement).1.fault = executionFault db session statement := by
  cases statement with
  | createTable name schema =>
    simp only [executeStatement, executionFault, handleCreateTable]
    split <;> rfl
  | insert name rows =>
    simp only [executeStatement, executionFault, handleInsert]
    rcases db.catalog.getSchema (Unicode.toLowercase name) with _ | schema
    · rfl
    rcases db.tables.lookup (Unicode.toLowercase name) with _ | table
    · rfl
    dsimp only
    rw [← insertRows_fault schema session.currentTxId (Unicode.toLowercase name) db table 0 rows]
    rcases (insertRows schema session.currentTxId (Unicode.toLowercase name) db table 0 rows).1 <;>
      rfl
  | query plan => rfl

variable [SqlParser]

theorem innerHandle_fault (db : DatabaseState) (session : SessionState) (sql : String) :
    (innerHandle db session sql).1.fault = statementFault db session sql := by
  unfold statementFault
  split
  · rename_i hbegin
    rw [innerHandle_begin hbegin, handleBegin]
    split <;> rfl
  rename_i hbegin
  split
  · rename_i hend
    rcases innerHandle_end hend db session with heq | heq <;> rw [heq]
    · unfold handleCommit
      rcases session.currentTxId with _ | txId <;> rfl
    · unfold handleRollback
      rcases session.currentTxId with _ | txId <;> rfl
  rename_i hend
  rw [innerHandle_plain (not_isControl hbegin hend)]
  rcases bindStatement sql db.catalog with f | statement
  · rfl
  · exact executeStatement_fault db session statement

theorem innerHandle_states {sql : String} (hend : ¬ IsEnd sql)
    (h : statementFault db session sql = none) :
    (innerHandle db session sql).2 = statesAfter db session sql := by
  unfold statesAfter
  split
  · rename_i hbegin
    rw [innerHandle_begin hbegin, handleBegin]
    rw [statementFault, if_pos hbegin] at h
    split
    · rename_i hopen
      rw [if_pos hopen] at h
      cases h
    · rfl
  rename_i hbegin
  rw [statementFault, if_neg hbegin, if_neg hend] at h
  rw [innerHandle_plain (not_isControl hbegin hend)]
  rcases hb : bindStatement sql db.catalog with f | (⟨name, schema⟩ | ⟨name, rows⟩ | plan)
  · rfl
  · rw [hb] at h
    simp only [executionFault] at h
    simp only [executeStatement, handleCreateTable]
    split
    · rename_i hsome
      rw [if_pos hsome] at h
      cases h
    · rfl
  · rfl
  · rfl

end Faults

section Requests

variable [BuildProfile] [Unicode] [Collections] [ComfyTable] [SqlParser]

def requestText (sqls : List String) : String := ";".intercalate sqls

/-- Statements that parse alone, and together as a request. -/
structure IsRequest (sqls : List String) (trees : List Sql.Statement) : Prop where
  not_command : ∀ sql ∈ sqls, ¬ IsCommand sql
  each : List.Forall₂ (fun sql tree => SqlParser.parseSql sql = .ok [tree]) sqls trees
  parsed : SqlParser.parseSql (requestText sqls) = .ok trees

/-- Handle a statement; a panic ends the connection. -/
def handleNext (states : DatabaseState × SessionState) (sql : String) :
    Except Unit Unit × DatabaseState × SessionState :=
  match handleStatement states.1 states.2 sql with
  | (.text _, states) => (.ok (), states)
  | (_, states) => (.error (), states)

/-- Handle statements one after the other. -/
def handleAll (states : DatabaseState × SessionState) (sqls : List String) :
    DatabaseState × SessionState := (PullSource.foldUntil handleNext sqls states).2

/-- A request that fails, or does what its statements do. -/
def Complete (db : DatabaseState) (session : SessionState) (sqls : List String) : Prop :=
  (∃ e, (innerHandle db session (requestText sqls)).1 = .error (.error e)) ∨
    (handleStatement db session (requestText sqls)).2 = handleAll (db, session) sqls

/-- A statement that panics. -/
def Panics (states : DatabaseState × SessionState) (sql : String) : Prop :=
  ∃ message, statementFault states.1 states.2 sql = some (.panic message)

variable {upper : Char → List Char} {db : DatabaseState} {session : SessionState} {sql : String}

theorem handleNext_eq (hc : ¬ IsCommand sql) (states : DatabaseState × SessionState) :
    handleNext states sql = (match statementFault states.1 states.2 sql with
      | some (.panic _) => .error ()
      | _ => .ok (), (innerHandle states.1 states.2 sql).2) := by
  rw [← innerHandle_fault, handleNext, handleStatement_eq_replyTo hc]
  rcases innerHandle states.1 states.2 sql with ⟨(e | message) | msg, states'⟩ <;> rfl

theorem progresses_handleNext (hc : ¬ IsCommand sql) :
    PullSource.Progresses handleNext (fun states => Idle states.1 states.2) progress sql := by
  intro states
  rw [handleNext_eq hc]
  exact innerHandle_progress states.1 states.2 sql

theorem panics_iff (hc : ¬ IsCommand sql) (states : DatabaseState × SessionState) :
    Panics states sql ↔ (handleNext states sql).1 ≠ .ok () := by
  rw [handleNext_eq hc, Panics]
  rcases statementFault states.1 states.2 sql with _ | e | message <;> simp

/-- Statements change nothing exactly if all of them are idle, up to one that panics. -/
theorem handleAll_eq_self_iff {sqls : List String} (hc : ∀ sql ∈ sqls, ¬ IsCommand sql)
    (states : DatabaseState × SessionState) :
    handleAll states sqls = states ↔ UpTo (Panics states) (Idle states.1 states.2) sqls :=
  PullSource.foldUntil_eq_self_iff (fun sql hsql => progresses_handleNext (hc sql hsql))
    (fun sql hsql states => panics_iff (hc sql hsql) states) states

theorem handleAll_of_panics (hc : ¬ IsCommand sql) (rest : List String)
    (h : Panics (db, session) sql) :
    handleAll (db, session) (sql :: rest) = (innerHandle db session sql).2 := by
  obtain ⟨message, hfault⟩ := h
  have hnext := handleNext_eq hc (db, session)
  simp only [hfault] at hnext
  rw [handleAll, PullSource.foldUntil, hnext]

theorem handleAll_of_none (hc : ¬ IsCommand sql) (rest : List String)
    (h : statementFault db session sql = none) :
    handleAll (db, session) (sql :: rest) = handleAll (innerHandle db session sql).2 rest := by
  have hnext := handleNext_eq hc (db, session)
  simp only [h] at hnext
  rw [handleAll, PullSource.foldUntil, hnext]
  rfl

omit [BuildProfile] [Unicode] [Collections] [ComfyTable] [SqlParser] in
theorem requestText_cons {first : String} {rest : List String} (hne : rest ≠ []) :
    requestText (first :: rest) = terminated first (requestText rest) :=
  String.intercalate_cons_of_ne_nil hne

theorem IsRequest.innerHandle_eq (hupper : UppercaseByChar upper) {first : String}
    {rest : List String} {trees : List Sql.Statement} (h : IsRequest (first :: rest) trees)
    (hne : rest ≠ []) (hend : ¬ IsEnd first) (db : DatabaseState) (session : SessionState) :
    innerHandle db session (requestText (first :: rest)) = innerHandle db session first := by
  obtain ⟨-, heach, hparsed⟩ := h
  rw [requestText_cons hne] at hparsed ⊢
  by_cases hbegin : IsBegin first
  · rw [innerHandle_begin hbegin, innerHandle_begin ((isBegin_terminated hupper ..).mpr hbegin)]
  rcases heach with _ | ⟨hfirst, hrest⟩
  rw [innerHandle_parsed (not_isControl hbegin hend) hfirst,
    innerHandle_parsed (not_isControl_terminated hupper _ _ hbegin) hparsed]

theorem IsRequest.innerHandle_end (hupper : UppercaseByChar upper) (hends : ParsesEnds)
    {first : String} {rest : List String} {trees : List Sql.Statement}
    (h : IsRequest (first :: rest) trees) (hne : rest ≠ []) (hend : IsEnd first)
    (db : DatabaseState) (session : SessionState) :
    ∃ e, (innerHandle db session (requestText (first :: rest))).1 = .error (.error e) := by
  obtain ⟨-, heach, hparsed⟩ := h
  rw [requestText_cons hne] at hparsed ⊢
  have hcontrol : ¬ IsControl (terminated first (requestText rest)) :=
    not_isControl_terminated hupper _ _ (not_isBegin_of_isEnd hend)
  rcases heach with _ | ⟨hfirst, hrest⟩
  obtain ⟨debug, rfl⟩ := hends first _ hend hfirst
  exact ⟨_, congrArg Prod.fst (innerHandle_parsed hcontrol hparsed db session)⟩

/--
A request fails or does what its statements do if and only if it is one statement, its
first statement ends a transaction or does not succeed, or the statements behind it are
idle in the states that it leaves, up to one that panics.
-/
theorem request_complete_iff (hupper : UppercaseByChar upper) (hends : ParsesEnds)
    {first : String} {rest : List String} {trees : List Sql.Statement}
    (h : IsRequest (first :: rest) trees) (db : DatabaseState) (session : SessionState) :
    Complete db session (first :: rest) ↔
      rest = [] ∨ IsEnd first ∨ statementFault db session first ≠ none ∨
        UpTo (Panics (statesAfter db session first))
          (Idle (statesAfter db session first).1 (statesAfter db session first).2) rest := by
  obtain ⟨hfirst, hrest⟩ := List.forall_mem_cons.mp h.not_command
  by_cases hne : rest = []
  · subst hne
    refine iff_of_true (.inr ?_) (.inl rfl)
    rw [requestText, String.intercalate_singleton, handleAll, PullSource.foldUntil, handleNext]
    rcases handleStatement db session first with ⟨_ | _ | _, states⟩ <;> rfl
  by_cases hend : IsEnd first
  · exact iff_of_true (.inl (h.innerHandle_end hupper hends hne hend db session)) (.inr (.inl hend))
  have hcommand : ¬ IsCommand (requestText (first :: rest)) := by
    rw [requestText_cons hne]
    exact not_isCommand_terminated _ _
  have hfault := innerHandle_fault db session first
  have hstates : (replyTo (innerHandle db session first)).2 = (innerHandle db session first).2 := by
    rcases innerHandle db session first with ⟨(e | message) | msg, states⟩ <;> rfl
  rw [Complete, handleStatement_eq_replyTo hcommand, h.innerHandle_eq hupper hne hend, hstates]
  rcases hf : statementFault db session first with _ | e | message
  · rw [handleAll_of_none hfirst rest hf, innerHandle_states hend hf, eq_comm,
      handleAll_eq_self_iff hrest]
    rw [hf] at hfault
    have hnone : ¬ ∃ e, (innerHandle db session first).1 = .error (.error e) := by
      rintro ⟨e, he⟩
      rw [he] at hfault
      cases hfault
    simp [hne, hend, hnone]
  · refine iff_of_true (.inl ⟨e, ?_⟩) (.inr (.inr (.inl (Option.some_ne_none _))))
    rw [hf] at hfault
    rcases hi : (innerHandle db session first).1 with f | msg <;> rw [hi] at hfault
    · exact congrArg _ (Option.some.inj hfault)
    · cases hfault
  · exact iff_of_true (.inr (handleAll_of_panics hfirst rest ⟨message, hf⟩).symm)
      (.inr (.inr (.inl (Option.some_ne_none _))))

theorem not_complete {sqls : List String}
    (hfault : (innerHandle db session (requestText sqls)).1.fault = none)
    (htxId : (handleStatement db session (requestText sqls)).2.2.currentTxId ≠
      (handleAll (db, session) sqls).2.currentTxId) : ¬ Complete db session sqls := by
  rintro (⟨e, he⟩ | heq)
  · rw [he] at hfault
    cases hfault
  · rw [heq] at htxId
    exact htxId rfl

end Requests

namespace Requests

open Sample hiding parser

def beginTree : Sql.Statement := .other "StartTransaction"

def commitTree : Sql.Statement := .other "Commit \x7b chain: false \x7d"

def rollbackTree : Sql.Statement := .other "Rollback \x7b chain: false, savepoint: None \x7d"

scoped instance parser : SqlParser where
  parseSql sql :=
    if sql = "BEGIN" then .ok [beginTree]
    else if sql = "COMMIT" then .ok [commitTree]
    else if sql = "ROLLBACK" then .ok [rollbackTree]
    else if sql = "INSERT INTO t VALUES (1)" then .ok (insertTree [["1"]])
    else if sql = "BEGIN;INSERT INTO t VALUES (1);COMMIT" then
      .ok (beginTree :: insertTree [["1"]] ++ [commitTree])
    else if sql = "INSERT INTO t VALUES (1);ROLLBACK" then
      .ok (insertTree [["1"]] ++ [rollbackTree])
    else .error "sql parser error: Expected: an SQL statement"

def tableDb : DatabaseState :=
  (DatabaseState.mk .new ∅ (.new ⟨[]⟩)).createTable "t" ⟨[⟨"a", .int⟩]⟩

def idleSession : SessionState := ⟨1, none, 0⟩

theorem parsesEnds : ParsesEnds := by
  intro sql tree hend hparse
  unfold SqlParser.parseSql parser at hparse
  dsimp only at hparse
  split at hparse
  · exact ⟨_, (List.cons.inj (Except.ok.inj hparse)).1.symm⟩
  split at hparse
  · exact ⟨_, (List.cons.inj (Except.ok.inj hparse)).1.symm⟩
  split at hparse
  · exact ⟨_, (List.cons.inj (Except.ok.inj hparse)).1.symm⟩
  split at hparse
  · rename_i hinsert
    subst hinsert
    rcases hend with hend | hend <;> exact absurd hend (by decide +kernel)
  split at hparse
  · cases hparse
  split at hparse
  · cases hparse
  · cases hparse

end Requests

open Sample hiding parser
open Requests

theorem request_complete_rollback :
    IsRequest ["INSERT INTO t VALUES (1)", "ROLLBACK"] (insertTree [["1"]] ++ [rollbackTree]) ∧
      Complete tableDb idleSession ["INSERT INTO t VALUES (1)", "ROLLBACK"] := by
  have hrequest : IsRequest ["INSERT INTO t VALUES (1)", "ROLLBACK"]
      (insertTree [["1"]] ++ [rollbackTree]) := by
    refine ⟨by decide +kernel, .cons rfl (.cons rfl .nil), rfl⟩
  refine ⟨hrequest, (request_complete_iff Terminators.uppercaseByChar Requests.parsesEnds hrequest
    tableDb idleSession).mpr (.inr (.inr (.inr ⟨?_, .inr trivial⟩)))⟩
  apply Idle.of_control
  · decide +kernel
  · exact fun hbegin => absurd hbegin (by decide +kernel)
  · exact fun _ => by decide +kernel

/-- A transaction in one request is begun, acknowledged and left open without its row. -/
theorem request_drops_statements :
    let sqls := ["BEGIN", "INSERT INTO t VALUES (1)", "COMMIT"]
    let handled := handleStatement tableDb idleSession (requestText sqls)
    let each := handleAll (tableDb, idleSession) sqls
    IsRequest sqls (beginTree :: insertTree [["1"]] ++ [commitTree]) ∧
      handled.1 = .text "BEGIN (tx_id=1)" ∧
      handled.2.1.tables.lookup "t" = some [] ∧ handled.2.2.currentTxId = some 1 ∧
      each.1.tables.lookup "t" = some [⟨[.int 1], some 1, 0⟩] ∧ each.2.currentTxId = none ∧
      ¬ Complete tableDb idleSession sqls := by
  intro sqls handled each
  refine ⟨⟨by decide +kernel, .cons rfl (.cons rfl (.cons rfl .nil)), rfl⟩, by decide +kernel,
    by decide +kernel, by decide +kernel, by decide +kernel, by decide +kernel, ?_⟩
  exact not_complete (by decide +kernel) (by decide +kernel)

end VolcanoDb
