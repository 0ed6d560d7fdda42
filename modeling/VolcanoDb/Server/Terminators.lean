import VolcanoDb.Server.Queries

/-! # Terminated statements

Upper case is taken character by character, so that a text in front of a semicolon
begins a transaction exactly if it does so alone. The keywords that end one are
compared with the whole text: behind them a semicolon leads to the binder, which
rejects the statement.
-/

namespace VolcanoDb

open Text

/-- Upper case is taken character by character and keeps white space and semicolons. -/
structure UppercaseByChar [Unicode] (upper : Char → List Char) : Prop where
  toList : ∀ s, (Unicode.toUppercase s).toList = s.toList.flatMap upper
  space : ∀ c, isWhitespace c → upper c = [c]
  semicolon : upper ';' = [';']

/-- A text that the server takes for a command. -/
def IsCommand (sql : String) : Prop :=
  eqIgnoreAsciiCase (trim sql) "/crash" ∨ eqIgnoreAsciiCase (trim sql) "/status"

instance (sql : String) : Decidable (IsCommand sql) := inferInstanceAs (Decidable (_ ∨ _))

section Texts

variable [Unicode] {upper : Char → List Char}

/-- A text that the server takes for the beginning of a transaction. -/
def IsBegin (sql : String) : Prop :=
  startsWith (Unicode.toUppercase (trim sql)) "BEGIN" ∨
    startsWith (Unicode.toUppercase (trim sql)) "START TRANSACTION"

/-- A text that the server takes for the end of a transaction. -/
def IsEnd (sql : String) : Prop :=
  Unicode.toUppercase (trim sql) = "COMMIT" ∨ Unicode.toUppercase (trim sql) = "ROLLBACK"

instance (sql : String) : Decidable (IsEnd sql) := inferInstanceAs (Decidable (_ ∨ _))

theorem isControl_iff {sql : String} : IsControl sql ↔ IsBegin sql ∨ IsEnd sql := Iff.rfl

theorem not_isControl {sql : String} (hbegin : ¬ IsBegin sql) (hend : ¬ IsEnd sql) :
    ¬ IsControl sql := fun hc => (isControl_iff.mp hc).elim hbegin hend

theorem not_isBegin_of_isEnd {sql : String} (h : IsEnd sql) : ¬ IsBegin sql := by
  unfold IsBegin
  rcases h with h | h <;> rw [h] <;> decide

def terminated (sql rest : String) : String := sql ++ ";" ++ rest

omit [Unicode] in
theorem toList_trim_terminated (sql rest : String) :
    ∃ w cs, (∀ c ∈ w, isWhitespace c) ∧
      (trim (terminated sql rest)).toList = (trim sql).toList ++ w ++ ';' :: cs := by
  rw [terminated, String.append_assoc]
  have hr : (";" ++ rest).toList = ';' :: rest.toList := by simp
  exact toList_trim_append (by decide) hr

omit [Unicode] in
theorem not_isCommand_terminated (sql rest : String) : ¬ IsCommand (terminated sql rest) := by
  obtain ⟨w, cs, -, htrim⟩ := toList_trim_terminated sql rest
  have hmem : ';' ∈ (trim (terminated sql rest)).toList.map Char.toLower := by
    rw [htrim]
    exact List.mem_map.mpr ⟨';', by simp, by decide⟩
  simp only [IsCommand, eqIgnoreAsciiCase, decide_eq_true_eq]
  rintro (h | h) <;> rw [h] at hmem <;> exact absurd hmem (by decide +kernel)

variable (hupper : UppercaseByChar upper) (sql rest : String)

include hupper

theorem toList_upper_terminated :
    ∃ w cs, (∀ c ∈ w, isWhitespace c) ∧
      (Unicode.toUppercase (trim (terminated sql rest))).toList =
        (Unicode.toUppercase (trim sql)).toList ++ w ++ ';' :: cs := by
  obtain ⟨w, cs, hw, htrim⟩ := toList_trim_terminated sql rest
  have hflat : w.flatMap upper = w := by
    rw [List.flatMap_congr fun c hc => hupper.space c (hw c hc)]
    exact List.flatMap_singleton' w
  refine ⟨w, cs.flatMap upper, hw, ?_⟩
  rw [hupper.toList, htrim, List.flatMap_append, List.flatMap_append, List.flatMap_cons,
    hupper.semicolon, hflat, hupper.toList]
  rfl

theorem startsWith_terminated {keyword : String} (hsemi : ';' ∉ keyword.toList)
    (hlast : keyword.toList.getLast?.all fun c => !isWhitespace c) :
    startsWith (Unicode.toUppercase (trim (terminated sql rest))) keyword ↔
      startsWith (Unicode.toUppercase (trim sql)) keyword := by
  obtain ⟨w, cs, hw, htext⟩ := toList_upper_terminated hupper sql rest
  simp only [startsWith, List.isPrefixOf_iff_prefix, htext]
  constructor
  · apply prefix_of_prefix_append hsemi
    intro c hc hcw
    rw [Option.mem_def.mp hc, Option.all_some, hw c hcw] at hlast
    cases hlast
  · intro h
    rw [List.append_assoc]
    exact h.trans (List.prefix_append _ _)

theorem isBegin_terminated : IsBegin (terminated sql rest) ↔ IsBegin sql := by
  unfold IsBegin
  rw [startsWith_terminated hupper sql rest (by decide) (by decide),
    startsWith_terminated hupper sql rest (by decide) (by decide)]

theorem not_isEnd_terminated : ¬ IsEnd (terminated sql rest) := by
  obtain ⟨w, cs, -, htext⟩ := toList_upper_terminated hupper sql rest
  have hmem : ';' ∈ (Unicode.toUppercase (trim (terminated sql rest))).toList := by
    rw [htext]
    simp
  rintro (h | h) <;> rw [h] at hmem <;> exact absurd hmem (by decide)

/-- Only the keyword that begins a transaction is recognised in front of a semicolon. -/
theorem not_isControl_terminated (hbegin : ¬ IsBegin sql) : ¬ IsControl (terminated sql rest) :=
  not_isControl (mt (isBegin_terminated hupper sql rest).mp hbegin)
    (not_isEnd_terminated hupper sql rest)

end Texts

section Statements

variable [Unicode] [BuildProfile] [Collections] [ComfyTable] [SqlParser]

def replyTo : Outcome → Reply × DatabaseState × SessionState
  | (.ok msg, db, session) => (.text msg, db, session)
  | (.error (.error e), db, session) => (.text s!"Error: {e.text}", db, session)
  | (.error (.panic message), db, session) => (.panic message, db, session)

theorem handleStatement_eq_replyTo {sql : String} (h : ¬ IsCommand sql) (db : DatabaseState)
    (session : SessionState) :
    handleStatement db session sql = replyTo (innerHandle db session sql) := by
  obtain ⟨hcrash, hstatus⟩ := not_or.mp h
  unfold handleStatement
  dsimp only
  rw [if_neg hcrash, if_neg hstatus]
  rfl

theorem innerHandle_begin {sql : String} (h : IsBegin sql) (db : DatabaseState)
    (session : SessionState) : innerHandle db session sql = handleBegin db session := if_pos h

theorem innerHandle_end {sql : String} (h : IsEnd sql) (db : DatabaseState)
    (session : SessionState) :
    innerHandle db session sql = handleCommit db session ∨
      innerHandle db session sql = handleRollback db session := by
  have hbegin := not_isBegin_of_isEnd h
  unfold IsBegin at hbegin
  unfold innerHandle
  dsimp only
  rw [if_neg hbegin]
  split
  · exact .inl rfl
  · rename_i hcommit
    rw [if_pos (h.resolve_left hcommit)]
    exact .inr rfl

/-- A text of one statement, which the parser takes with a semicolon as well. -/
structure IsStatement (sql : String) (tree : Sql.Statement) : Prop where
  not_command : ¬ IsCommand sql
  parsed : SqlParser.parseSql sql = .ok [tree]
  parsed_semicolon : SqlParser.parseSql (sql ++ ";") = .ok [tree]

/-- The parser takes the keywords that end a transaction for statements without a binding. -/
def ParsesEnds : Prop :=
  ∀ sql tree, IsEnd sql → SqlParser.parseSql sql = .ok [tree] → ∃ debug, tree = .other debug

variable {upper : Char → List Char} (hupper : UppercaseByChar upper) {sql : String}
  {tree : Sql.Statement}

include hupper

theorem innerHandle_semicolon (h : IsStatement sql tree) (hend : ¬ IsEnd sql)
    (db : DatabaseState) (session : SessionState) :
    innerHandle db session (sql ++ ";") = innerHandle db session sql := by
  have hterm : sql ++ ";" = terminated sql "" := by simp [terminated]
  by_cases hbegin : IsBegin sql
  · rw [innerHandle_begin hbegin, innerHandle_begin]
    rw [hterm]
    exact (isBegin_terminated hupper sql "").mpr hbegin
  · have hcontrol : ¬ IsControl (sql ++ ";") :=
      hterm ▸ not_isControl_terminated hupper sql "" hbegin
    rw [innerHandle_parsed (not_isControl hbegin hend) h.parsed,
      innerHandle_parsed hcontrol h.parsed_semicolon]

theorem innerHandle_end_semicolon (h : IsStatement sql tree) (hend : IsEnd sql)
    (hends : ParsesEnds) (db : DatabaseState) (session : SessionState) :
    ∃ debug, innerHandle db session (sql ++ ";") =
      (err (.unsupportedStatement debug), db, session) := by
  obtain ⟨debug, rfl⟩ := hends sql tree hend h.parsed
  have hterm : sql ++ ";" = terminated sql "" := by simp [terminated]
  have hcontrol : ¬ IsControl (sql ++ ";") :=
    hterm ▸ not_isControl_terminated hupper sql "" (not_isBegin_of_isEnd hend)
  exact ⟨debug, innerHandle_parsed hcontrol h.parsed_semicolon db session⟩

omit hupper

omit [BuildProfile] [Collections] [ComfyTable] [SqlParser] in
theorem unsupportedStatement_text_ne (debug : String) :
    s!"Error: {(DbError.unsupportedStatement debug).text}" ≠
      s!"Error: {DbError.noTransaction.text}" := by
  have hleft : s!"Error: {(DbError.unsupportedStatement debug).text}" =
      "Error: " ++ ("Unsupported SQL statement: " ++ debug) := rfl
  have hright : s!"Error: {DbError.noTransaction.text}" = "Error: " ++ "没有活跃事务" := rfl
  have hfirst : "Unsupported SQL statement: ".toList.head? = some 'U' := by decide
  intro h
  rw [hleft, hright, ← String.toList_inj] at h
  simp only [String.toList_append] at h
  have hhead := congrArg List.head? (List.append_cancel_left h)
  rw [List.head?_append, hfirst, Option.some_or] at hhead
  exact absurd hhead (by decide)

omit [BuildProfile] [Collections] [ComfyTable] [SqlParser] in
theorem replyTo_end_ne (db : DatabaseState) (session : SessionState) {ended : Outcome}
    (h : ended = handleCommit db session ∨ ended = handleRollback db session) (debug : String) :
    replyTo (err (.unsupportedStatement debug), db, session) ≠ replyTo ended := by
  intro heq
  rcases hid : session.currentTxId with _ | txId
  · have hfail : ended = (err .noTransaction, db, session) := by
      unfold handleCommit handleRollback at h
      rw [hid] at h
      exact h.elim id id
    rw [hfail] at heq
    exact unsupportedStatement_text_ne debug (Reply.text.inj (Prod.mk.inj heq).1)
  · have hsession : (replyTo ended).2.2.currentTxId = none := by
      unfold handleCommit handleRollback at h
      rw [hid] at h
      rcases h with rfl | rfl <;> rfl
    rw [← heq] at hsession
    have hnone : session.currentTxId = none := hsession
    rw [hnone] at hid
    cases hid

/--
A semicolon does not change what a statement does if and only if the statement is not
the keyword that ends a transaction.
-/
theorem handleStatement_semicolon_iff (hupper : UppercaseByChar upper) (hends : ParsesEnds)
    (h : IsStatement sql tree) (db : DatabaseState) (session : SessionState) :
    handleStatement db session (sql ++ ";") = handleStatement db session sql ↔ ¬ IsEnd sql := by
  have hcommand : ¬ IsCommand (sql ++ ";") := by
    have hterm : sql ++ ";" = terminated sql "" := by simp [terminated]
    exact hterm ▸ not_isCommand_terminated sql ""
  rw [handleStatement_eq_replyTo hcommand, handleStatement_eq_replyTo h.not_command]
  constructor
  · intro heq hend
    obtain ⟨debug, hrejected⟩ := innerHandle_end_semicolon hupper h hend hends db session
    rw [hrejected] at heq
    exact replyTo_end_ne db session (innerHandle_end hend db session) debug heq
  · intro hend
    rw [innerHandle_semicolon hupper h hend]

end Statements

namespace Terminators

open Sample hiding parser

scoped instance parser : SqlParser where
  parseSql sql :=
    if sql = "COMMIT" ∨ sql = "COMMIT;" then .ok [.other "Commit \x7b chain: false \x7d"]
    else if sql = "INSERT INTO t VALUES (1)" ∨ sql = "INSERT INTO t VALUES (1);" then
      .ok (insertTree [["1"]])
    else .error "sql parser error: Expected: an SQL statement"

def openDb : DatabaseState :=
  ((DatabaseState.mk .new ∅ (.new ⟨[]⟩)).createTable "t" ⟨[⟨"a", .int⟩]⟩).begin.2

def openSession : SessionState := ⟨1, some 1, 0⟩

theorem uppercaseByChar : UppercaseByChar fun c => [c.toUpper] := by
  constructor
  · intro s
    simp [Unicode.toUppercase, List.map_eq_flatMap]
  · intro c hc
    have hcode : ¬ (c.val ≥ 97 ∧ c.val ≤ 122) := by
      have hval : c.toNat = c.val.toNat := rfl
      simp only [isWhitespace, hval, Bool.or_eq_true, Bool.and_eq_true, decide_eq_true_eq] at hc
      simp only [ge_iff_le, UInt32.le_iff_toNat_le, UInt32.reduceToNat]
      omega
    have hupper : c.toUpper = c := dif_neg hcode
    rw [hupper]
  · rfl

theorem parsesEnds : ParsesEnds := by
  intro sql tree hend hparse
  unfold SqlParser.parseSql parser at hparse
  dsimp only at hparse
  split at hparse
  · cases hparse
    exact ⟨_, rfl⟩
  split at hparse
  · rename_i hinsert
    rcases hinsert with rfl | rfl <;> rcases hend with hend | hend <;>
      exact absurd hend (by decide +kernel)
  · cases hparse

end Terminators

open Sample hiding parser
open Terminators

theorem insert_semicolon :
    handleStatement openDb openSession ("INSERT INTO t VALUES (1)" ++ ";") =
      handleStatement openDb openSession "INSERT INTO t VALUES (1)" := by
  have hstatement : IsStatement "INSERT INTO t VALUES (1)"
      (.insert [{ value := "t" }] []
        (some { body := .values [[.value (.number "1")]] })) := by
    refine ⟨by decide +kernel, ?_, ?_⟩ <;> rfl
  exact (handleStatement_semicolon_iff uppercaseByChar parsesEnds hstatement openDb
    openSession).mpr (by decide +kernel)

/-- A semicolon behind `COMMIT` leaves the transaction open. -/
theorem commit_semicolon_stays_open :
    IsStatement "COMMIT" (.other "Commit \x7b chain: false \x7d") ∧
      (handleStatement openDb openSession "COMMIT").1 = .text "COMMIT (tx_id=1)" ∧
      (handleStatement openDb openSession "COMMIT").2.2.currentTxId = none ∧
      (handleStatement openDb openSession "COMMIT;").1 =
        .text "Error: Unsupported SQL statement: Commit \x7b chain: false \x7d" ∧
      (handleStatement openDb openSession "COMMIT;").2.2.currentTxId = some 1 ∧
      handleStatement openDb openSession "COMMIT;" ≠
        handleStatement openDb openSession "COMMIT" := by
  refine ⟨⟨by decide +kernel, rfl, rfl⟩, by decide +kernel, by decide +kernel, by decide +kernel,
    by decide +kernel, ?_⟩
  intro h
  exact absurd (congrArg Prod.fst h) (by decide +kernel)

end VolcanoDb
