import VolcanoDb.Server.Restarts
import VolcanoDb.Transaction.Serde
import VolcanoDb.Transaction.TornLog

/-! # The redo file as text

What recovery reads of the lines that a lifetime writes: which records read
back, and what is rebuilt from a file that a crash has cut at any byte.
-/

namespace VolcanoDb

open History Text

namespace Script

/-! Statements of a script about a table `t`, and texts of their redo records. -/

scoped instance profile : BuildProfile := Sample.profile

scoped instance unicode : Unicode := Sample.unicode

scoped instance comfyTable : ComfyTable := Sample.comfyTable

scoped instance collections : Collections := Sample.collections

def create (columns : List (String × Sql.DataType)) : List Sql.Statement :=
  [.createTable [{ value := "t" }] (columns.map fun col => ⟨{ value := col.1 }, col.2⟩)]

def insertion (row : List Sql.Expr) : List Sql.Statement :=
  [.insert [{ value := "t" }] [] (some { body := .values [row] })]

def statements : List (String × List Sql.Statement) := [
  ("CREATE TABLE t (a FLOAT)", create [("a", .float)]),
  ("CREATE TABLE t (a TEXT)", create [("a", .text)]),
  ("CREATE TABLE t (a INT)", create [("a", .int)]),
  ("CREATE TABLE t (a INT, b INT)", create [("a", .int), ("b", .int)]),
  ("INSERT INTO t VALUES (1.0 / 0.0)",
    insertion [.binaryOp (.value (.number "1.0")) .divide (.value (.number "0.0"))]),
  ("INSERT INTO t VALUES ('é')", insertion [.value (.singleQuotedString "é")]),
  ("INSERT INTO t VALUES (1)", insertion [.value (.number "1")]),
  ("SELECT b FROM t", [.query { body := .select {
    projection := [.unnamedExpr (.identifier { value := "b" })]
    from_ := [⟨.table [{ value := "t" }] none, []⟩] } }])]

scoped instance parser : SqlParser where
  parseSql sql :=
    match statements.lookup sql with
    | some trees => .ok trees
    | none => .error "sql parser error: Expected: an SQL statement"

/-- A character of a JSON string, with the escapes of the control characters that have a letter. -/
def escaped (c : Char) : List Char :=
  if c = '"' then ['\\', '"']
  else if c = '\\' then ['\\', '\\']
  else if c = '\n' then ['\\', 'n']
  else if c = '\r' then ['\\', 'r']
  else if c = '\t' then ['\\', 't']
  else [c]

def quoted (s : String) : String :=
  "\"" ++ String.ofList (s.toList.flatMap escaped) ++ "\""

/-- The text of a double, which always has a point. -/
def floatText (x : F64) : String :=
  if '.' ∈ x.toDecimal.toList then x.toDecimal else x.toDecimal ++ ".0"

mutual

/-- The compact text of a value; `texts` and `members` are those of its parts. -/
def text : Json → String
  | .null => "null"
  | .bool b => toString b
  | .int i => toString i
  | .float x => floatText x
  | .str s => quoted s
  | .arr items => "[" ++ ",".intercalate (texts items) ++ "]"
  | .obj fields => "\x7b" ++ ",".intercalate (members fields) ++ "\x7d"

def texts : List Json → List String
  | [] => []
  | j :: items => text j :: texts items

def members : List (String × Json) → List String
  | [] => []
  | (name, j) :: fields => (quoted name ++ ":" ++ text j) :: members fields

end

def rowOfAll : List Value :=
  [.null, .int (-1), .float (.finite false (2 ^ 52) 1021 (by decide)), .varchar "é\n", .bool true]

def records : List RedoRecord := [.begin 1 0, .insert 1 0 "t" [.float (.inf false)] 0,
  .insert 1 0 "t" [.varchar "é"] 0, .insert 1 0 "t" rowOfAll 0, .insert 1 0 "t" [.int 1] 0,
  .commit 1 1]

scoped instance json : JsonText where
  print := text
  parse line := (records.find? fun rec => text rec.toJson = line).map RedoRecord.toJson

example : text (RedoRecord.insert 1 0 "t" rowOfAll 0).toJson =
    "\x7b\"type\":\"insert\",\"tx_id\":1,\"scn\":0,\"table_name\":\"t\",\"values\":[\"Null\"," ++
      "\x7b\"Int\":-1\x7d,\x7b\"Float\":0.5\x7d,\x7b\"Varchar\":\"é\\n\"\x7d," ++
      "\x7b\"Bool\":true\x7d]," ++
      "\"row_idx\":0\x7d" := by decide +kernel

theorem faithful : ∀ rec ∈ records, rec.Faithful := by
  have hfind : ∀ rec ∈ records,
      (records.find? fun rec' => text rec'.toJson = text rec.toJson) = some rec := by
    decide +kernel
  have hescapes : ∀ rec ∈ records, (text rec.toJson).toList.all (32 ≤ ·.toNat) := by
    decide +kernel
  have hopens : ∀ rec ∈ records, (text rec.toJson).toList.head? = some '{' := by decide +kernel
  intro rec hrec
  constructor
  · exact congrArg (Option.map RedoRecord.toJson) (hfind rec hrec)
  · intro c hc
    simpa using List.all_eq_true.mp (hescapes rec hrec) c hc
  · exact hopens rec hrec

theorem prefixFree : ∀ rec ∈ records, PrefixFree rec := by
  have htexts : ∀ rec ∈ records, ∀ rec' ∈ records,
      utf8 (text rec'.toJson) <+: utf8 (text rec.toJson) → rec' = rec := by decide +kernel
  intro rec hrec s t hs hp hne
  obtain rfl : text rec.toJson = s := Option.some.inj hs
  have hnone : (records.find? fun rec' => text rec'.toJson = t) = none := by
    by_contra hsome
    obtain ⟨rec', hfind⟩ := Option.ne_none_iff_exists'.mp hsome
    have ht : text rec'.toJson = t := by simpa using List.find?_some hfind
    have hrec' := htexts rec hrec rec' (List.mem_of_find?_eq_some hfind) (ht ▸ hp)
    exact hne (by rw [← ht, hrec'])
  have hparse : JsonText.parse t = none := congrArg (Option.map RedoRecord.toJson) hnone
  exact congrArg (Option.bind · RedoRecord.fromJson) hparse

def division : List Event := [.connect, .statement 1 "CREATE TABLE t (a FLOAT)",
  .statement 1 "BEGIN", .statement 1 "INSERT INTO t VALUES (1.0 / 0.0)", .statement 1 "COMMIT"]

def accent : List Event := [.connect, .statement 1 "CREATE TABLE t (a TEXT)",
  .statement 1 "BEGIN", .statement 1 "INSERT INTO t VALUES ('é')", .statement 1 "COMMIT"]

theorem readable {recs : List RedoRecord} (h : ∀ rec ∈ recs, rec ∈ records ∧ rec.isFinite) :
    ∀ rec ∈ recs, RoundTrips rec ∧ PrefixFree rec := by
  intro rec hrec
  obtain ⟨hin, hf⟩ := h rec hrec
  exact ⟨(faithful rec hin).roundTrips_iff.mpr hf, prefixFree rec hin⟩

theorem accent_file : (Server.fresh.after accent).1.db.txMgr.redoFile =
    ⟨[.begin 1 0, .insert 1 0 "t" [.varchar "é"] 0, .commit 1 1]⟩ := by decide +kernel

theorem accent_records : ∀ rec ∈ (Server.fresh.after accent).1.db.txMgr.redoFile.written,
    RoundTrips rec ∧ PrefixFree rec :=
  readable (by decide +kernel)

end Script

section Lines

variable [JsonText] {txId scn rowIdx : ℕ} {tableName : String} {values : List Value}

/--
The line of a row reads back as the row exactly when no value is an infinite or
undefined double; otherwise recovery goes on behind the line without the row.
-/
theorem redo_line_round_trips_iff
    (hj : (RedoRecord.insert txId scn tableName values rowIdx).Faithful) :
    (RoundTrips (.insert txId scn tableName values rowIdx) ↔ ∀ v ∈ values, v.isFinite) ∧
      ∀ rest, parseLines (lines (redoLine (.insert txId scn tableName values rowIdx) ++ rest)) =
        if ∀ v ∈ values, v.isFinite then
          (.insert txId scn tableName values rowIdx :: ·) <$> parseLines (lines rest)
        else parseLines (lines rest) := by
  have hfinite : (RedoRecord.insert txId scn tableName values rowIdx).isFinite = true ↔
      ∀ v ∈ values, v.isFinite := List.all_eq_true
  refine ⟨hj.roundTrips_iff.trans hfinite, fun rest => ?_⟩
  rw [hj.parseLines_append]
  exact if_congr hfinite rfl rfl

end Lines

open Script in
theorem redo_line_round_trips_sample :
    (RoundTrips (.insert 1 0 "t" rowOfAll 0) ↔ ∀ v ∈ rowOfAll, v.isFinite) ∧
      ∀ rest, parseLines (lines (redoLine (.insert 1 0 "t" rowOfAll 0) ++ rest)) =
        if ∀ v ∈ rowOfAll, v.isFinite then
          (.insert 1 0 "t" rowOfAll 0 :: ·) <$> parseLines (lines rest)
        else parseLines (lines rest) :=
  redo_line_round_trips_iff (faithful _ (by decide +kernel))

open Script in
/-- The committed row with an infinity is in the file, and recovery skips its line. -/
theorem infinite_row_lost :
    let w := Server.fresh.after division
    .insert 1 0 "t" [.float (.inf false)] 0 ∈ w.1.db.txMgr.redoFile.written ∧
      .commit 1 ∈ w.2 ∧ ¬ RoundTrips (.insert 1 0 "t" [.float (.inf false)] 0) ∧
      parseLines (lines w.1.db.txMgr.redoFile.bytes) = pure [.begin 1 0, .commit 1 1] := by
  have hfile : (Server.fresh.after division).1.db.txMgr.redoFile =
      ⟨[.begin 1 0, .insert 1 0 "t" [.float (.inf false)] 0, .commit 1 1]⟩ := by decide +kernel
  have hcommit : .commit 1 ∈ (Server.fresh.after division).2 := by decide +kernel
  have hmem : ∀ rec ∈ [RedoRecord.begin 1 0, .insert 1 0 "t" [.float (.inf false)] 0, .commit 1 1],
      rec ∈ records := by decide +kernel
  have hlost : ¬ RoundTrips (.insert 1 0 "t" [.float (.inf false)] 0) := by
    rw [(faithful _ (hmem _ (by simp))).roundTrips_iff]
    decide
  refine ⟨hfile ▸ by decide, hcommit, hlost, ?_⟩
  rw [hfile, parseLines_faithful fun rec hrec => faithful rec (hmem rec hrec)]
  rfl

section Torn

variable [BuildProfile] [Unicode] [SqlParser] [ComfyTable] [SerdeJson]
  {w : Server} {h : List DbEvent}

/-- The rows of the transactions whose commits are complete in the first bytes of the file. -/
def completedWrites (file : RedoFile) (n : ℕ) (h : List DbEvent) : List (ℕ × String × List Value) :=
  writesOf (fun i => .commit i ∈ (completeRecords n file.written).map RedoRecord.event) h

theorem completedWrites_eq (hr : Runs free Server.fresh w h) (n : ℕ) :
    winners ((completeRecords n w.db.txMgr.redoFile.written).map RedoRecord.event) =
      completedWrites w.db.txMgr.redoFile n h := by
  have hr₁ : Reached free w.world h := hr.reached
  obtain ⟨g, hg, -⟩ := hr₁.durable
  obtain ⟨recs, hrecs⟩ := completeRecords_prefix n w.db.txMgr.redoFile.written
  have hevents : h.filter TxEvent.inTx =
      (completeRecords n w.db.txMgr.redoFile.written).map RedoRecord.event ++
        (recs.map RedoRecord.event ++ g) := by
    rw [← List.append_assoc, ← List.map_append, hrecs, hg]
    rfl
  have hlegal := hevents ▸ hr₁.tracks.legal.filter_inTx
  rw [hlegal.of_append.winners_eq, hlegal.committedWrites_eq, ← hevents, writesOf_filter_inTx]
  rfl

/--
Recovery from the first bytes of a lifetime's file succeeds and rebuilds the rows
of the transactions committed in them, exactly when the cut is between characters.
-/
theorem torn_log_recovered_iff (hr : Runs free Server.fresh w h)
    (hrt : ∀ rec ∈ w.db.txMgr.redoFile.written, RoundTrips rec)
    (hpf : ∀ rec ∈ w.db.txMgr.redoFile.written, PrefixFree rec)
    (n : ℕ) (txMgr : TransactionManager) :
    (∃ tables txMgr', recover ∅ txMgr (some (w.db.txMgr.redoFile.bytes.take n)) =
        .ok (tables, txMgr') ∧
      ∀ name, ((tables.lookup name).getD []).map Tuple.tagged =
        rowsTo name (completedWrites w.db.txMgr.redoFile n h)) ↔
      IsUtf8 (w.db.txMgr.redoFile.bytes.take n) := by
  obtain ⟨hok, herr⟩ := parseLines_take hrt hpf n
  constructor
  · rintro ⟨tables, txMgr', hrec, -⟩
    by_contra hn
    have herr' : parseLines (lines (w.db.txMgr.redoFile.bytes.take n)) = err .invalidUtf8 := herr hn
    rw [recover, herr'] at hrec
    cases hrec
  · intro hv
    obtain ⟨tables, txMgr', hrec, hrows⟩ := recover_rows (hok hv) txMgr
    refine ⟨tables, txMgr', hrec, fun name => ?_⟩
    rw [hrows name, completedWrites_eq hr n]

end Torn

open Script in
theorem torn_log_recovered_sample :
    let w := Server.fresh.after accent
    (∃ tables txMgr', recover ∅ (.new ⟨[]⟩) (some (w.1.db.txMgr.redoFile.bytes.take 163)) =
        .ok (tables, txMgr') ∧
      ∀ name, ((tables.lookup name).getD []).map Tuple.tagged =
        rowsTo name (completedWrites w.1.db.txMgr.redoFile 163 w.2)) ↔
      IsUtf8 (w.1.db.txMgr.redoFile.bytes.take 163) :=
  torn_log_recovered_iff (.after _ _) (fun rec hrec => (accent_records rec hrec).1)
    (fun rec hrec => (accent_records rec hrec).2) 163 _

open Script in
/-- The file is cut inside the character that the transaction stores. -/
theorem torn_log_refused :
    recover ∅ (.new ⟨[]⟩)
      (some ((Server.fresh.after accent).1.db.txMgr.redoFile.bytes.take 110)) =
        err .invalidUtf8 := by
  have hcut : ¬ IsUtf8 ((Server.fresh.after accent).1.db.txMgr.redoFile.bytes.take 110) := by
    rw [accent_file, isUtf8_iff]
    decide +kernel
  have herr := (parseLines_take (fun rec hrec => (accent_records rec hrec).1)
    (fun rec hrec => (accent_records rec hrec).2) 110).2 hcut
  rw [recover, herr]
  rfl

end VolcanoDb
