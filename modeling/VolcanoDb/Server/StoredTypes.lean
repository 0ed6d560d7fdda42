import VolcanoDb.Server.Arity

/-! # The types of stored values

An `INSERT` counts the values of a row and stores them as its expressions
evaluate; the declared types play no part in it. So storage is well typed
exactly as long as the inserted values are.
-/

namespace VolcanoDb

section Inserts

variable [BuildProfile] {schema : Schema} {db : DatabaseState} {name : String}

theorem insertRows_ok {txId : Option ℕ} {table : List Tuple} {n : ℕ} {rows : List (List Expr)} :
    (∃ m, (insertRows schema txId name db table n rows).1 = .ok m) ↔
      ∀ row ∈ rows, ∃ vals, evalRow schema row = .ok vals := by
  induction rows generalizing db table n with
  | nil => exact iff_of_true ⟨n, rfl⟩ (List.forall_mem_nil _)
  | cons row rows ih =>
    rw [List.forall_mem_cons]
    unfold insertRows
    rcases hv : evalRow schema row with f | vals
    · constructor
      · rintro ⟨m, hm⟩
        cases hm
      · rintro ⟨⟨vals, hvals⟩, -⟩
        cases hvals
    · rw [and_iff_right ⟨vals, rfl⟩]
      exact ih

variable [Unicode]

/-- What an `INSERT` asks of its rows, and what it appends to the table. -/
theorem handleInsert_spec (session : SessionState) {tableName : String} {table : List Tuple}
    (hs : db.catalog.getSchema (Unicode.toLowercase tableName) = some schema)
    (ht : db.tables.lookup (Unicode.toLowercase tableName) = some table)
    (rows : List (List Expr)) :
    ((∃ message, (handleInsert db session tableName rows).1 = .ok message) ↔
      ∀ row ∈ rows, row.length = schema.columns.length ∧
        ∀ expr ∈ row, ∃ val, expr.eval (Tuple.new []) ⟨[]⟩ = .ok val) ∧
      ∃ stored : List Tuple, stored.map Tuple.values = storedRows schema rows ∧
        (handleInsert db session tableName rows).2.tables.lookup (Unicode.toLowercase tableName) =
          some (table ++ stored) := by
  simp only [handleInsert, hs, ht]
  constructor
  · have hok : (∃ m, (insertRows schema session.currentTxId (Unicode.toLowercase tableName) db
        table 0 rows).1 = .ok m) ↔ ∀ row ∈ rows, ∃ vals, evalRow schema row = .ok vals :=
      insertRows_ok
    simp only [← evalRow_ok]
    rw [← hok]
    constructor
    · rintro ⟨message, h⟩
      obtain ⟨m, hm, -⟩ := Result.map_eq_ok.mp h
      exact ⟨m, hm⟩
    · rintro ⟨m, hm⟩
      exact ⟨_, Result.map_eq_ok.mpr ⟨m, hm, rfl⟩⟩
  · exact insertRows_rows schema ht session.currentTxId 0 rows

end Inserts

section Writes

variable [BuildProfile] [Unicode] {db : DatabaseState} {session : SessionState} {name : String}
  {o : Option ℕ} {vals : List Value}

theorem insertEffects_write {tableName : String} {rows : List (List Expr)}
    (h : .write o (name, vals) ∈ insertEffects db session tableName rows) :
    name = Unicode.toLowercase tableName ∧ ∃ schema table,
      db.catalog.getSchema name = some schema ∧ db.tables.lookup name = some table ∧
      vals ∈ storedRows schema rows := by
  unfold insertEffects at h
  dsimp only at h
  split at h
  · rename_i schema table hs ht
    obtain ⟨vals', hvals, heq⟩ := List.mem_map.mp h
    cases heq
    exact ⟨rfl, schema, table, hs, ht, hvals⟩
  · cases h

variable [SqlParser]

theorem statementEffects_write {sql : String}
    (h : .write o (name, vals) ∈ statementEffects db session sql) :
    ¬ IsControl sql ∧ ∃ tableName rows,
      bindStatement sql db.catalog = .ok (.insert tableName rows) ∧
      .write o (name, vals) ∈ insertEffects db session tableName rows := by
  unfold statementEffects at h
  dsimp only at h
  split at h
  · split at h
    · cases h
    · cases List.mem_singleton.mp h
  rename_i hbegin
  split at h
  · obtain ⟨_, -, heq⟩ := List.mem_map.mp h
    cases heq
  rename_i hcommit
  split at h
  · obtain ⟨_, -, heq⟩ := List.mem_map.mp h
    cases heq
  rename_i hrollback
  split at h
  · rename_i tableName rows hb
    refine ⟨?_, tableName, rows, hb, h⟩
    rintro (hc | hc | hc)
    · exact hbegin hc
    · exact hcommit hc
    · exact hrollback hc
  · cases h

variable [Collections] [ComfyTable]

theorem Server.effects_write {w : Server} {e : Event}
    (h : .write o (name, vals) ∈ w.effects e) :
    (∃ schema, w.db.catalog.getSchema name = some schema) ∧
      ∃ t ∈ (w.step e).world.rows name, t.values = vals := by
  cases e with
  | connect | disconnect => cases h
  | statement sessionId sql =>
    unfold effects at h
    dsimp only at h
    rcases hsession : w.sessions.lookup sessionId with _ | session <;> rw [hsession] at h
    · cases h
    dsimp only at h
    split at h
    · cases h
    rename_i hdown
    unfold requestEffects at h
    split at h
    · cases h
    rename_i hcrash
    split at h
    · cases h
    rename_i hstatus
    obtain ⟨hc, tableName, rows, hb, hw⟩ := statementEffects_write h
    obtain ⟨rfl, schema, table, hs, ht, hvals⟩ := insertEffects_write hw
    refine ⟨⟨schema, hs⟩, ?_⟩
    have hdb : (w.step (.statement sessionId sql)).db =
        (handleInsert w.db session tableName rows).2 := by
      simp only [step, hsession, hdown, Bool.false_eq_true, if_false, afterReply_db]
      rw [handleStatement_db hcrash hstatus, innerHandle_plain hc, hb]
      rfl
    obtain ⟨-, stored, hvalues, hrows⟩ := handleInsert_spec session hs ht rows
    rw [← hvalues] at hvals
    obtain ⟨t, ht, hvals⟩ := List.mem_map.mp hvals
    refine ⟨t, ?_, hvals⟩
    have hafter : (w.step (.statement sessionId sql)).world.rows (Unicode.toLowercase tableName) =
        table ++ stored := by
      simp only [World.rows, world, hdb, hrows, Option.getD_some]
    rw [hafter]
    exact List.mem_append_right _ ht

end Writes

section Types

variable {G : World → DbEvent → Prop}

/-- Every stored value is `NULL` or of the declared type of its column, as the plans' types ask. -/
def World.Typed (w : World) : Prop :=
  ∀ name schema, w.db.catalog.getSchema name = some schema →
    ∀ t ∈ w.rows name, t.Matches schema

/-- A row that is written has values of the declared types of its table. -/
def FitsSchema (catalog : Catalog) : DbEvent → Prop
  | .write _ (name, vals) => ∀ schema, catalog.getSchema name = some schema →
      (Tuple.new vals).Matches schema
  | .begin _ | .commit _ | .abort _ => True

theorem Tuple.Matches.of_values {schema : Schema} {t t' : Tuple} (ht : t.Matches schema)
    (h : t.values = t'.values) : t'.Matches schema := by
  rw [Matches, ← h]
  exact ht

/-- A run whose inserts are well typed leaves storage well typed. -/
theorem Reached.typed {w : World} {h : List DbEvent} (hr : Reached G w h)
    (hf : ∀ ev ∈ h, FitsSchema w.db.catalog ev) : w.Typed := by
  intro name schema hs t ht
  rcases Reaches.stored_or_written hr ht with ⟨t₀, ht₀, -⟩ | hw
  · cases ht₀
  · exact (hf _ hw schema hs).of_values rfl

variable [BuildProfile] [Unicode] [SqlParser] [Collections] [ComfyTable] {w : Server}
  {h : List DbEvent}

theorem Server.step_typed (hr : Reached free w.world h) (ht : w.world.Typed) (e : Event) :
    (w.step e).world.Typed ↔ ∀ ev ∈ w.effects e, FitsSchema w.db.catalog ev := by
  have hstep : Reaches free w.world (w.step e).world (w.effects e) :=
    step_reaches readsFile_free fun _ _ => trivial
  constructor
  · intro htyped ev hev
    cases ev with
    | write o a =>
      obtain ⟨name, vals⟩ := a
      intro schema hs
      obtain ⟨-, t, hrow, hvals⟩ := effects_write hev
      exact (htyped name schema (hstep.getSchema hs) t hrow).of_values hvals
    | begin | commit | abort => trivial
  · intro hf name schema hs t hrow
    have hsame {schema' : Schema} (hs' : w.db.catalog.getSchema name = some schema') :
        schema' = schema := Option.some.inj ((hstep.getSchema hs').symm.trans hs)
    rcases hstep.stored_or_written hrow with ⟨t₀, hrow₀, hvals⟩ | hw
    · have hwritten : .write t₀.txId (name, t₀.values) ∈ h := by
        rcases Reaches.stored_or_written hr hrow₀ with ⟨_, hnone, -⟩ | hw
        · cases hnone
        · exact hw
      obtain ⟨schema', hs', -⟩ := Reaches.written_length hr hwritten
      obtain rfl := hsame hs'
      exact (ht name schema' hs' t₀ hrow₀).of_values hvals
    · obtain ⟨⟨schema', hs'⟩, -⟩ := effects_write hw
      obtain rfl := hsame hs'
      exact (hf _ hw schema' hs').of_values rfl

/--
An `INSERT` succeeds if its rows have a value for every column and all of them
evaluate, and stores what they evaluate to. Storage is well typed as long as the
inserted rows are, and an event ends this exactly by inserting one that is not.
-/
theorem inserts_stored_as_evaluated (hr : Runs free Server.fresh w h) :
    (∀ session tableName schema table rows,
      w.db.catalog.getSchema (Unicode.toLowercase tableName) = some schema →
      w.db.tables.lookup (Unicode.toLowercase tableName) = some table →
      ((∃ message, (handleInsert w.db session tableName rows).1 = .ok message) ↔
        ∀ row ∈ rows, row.length = schema.columns.length ∧
          ∀ expr ∈ row, ∃ val, expr.eval (Tuple.new []) ⟨[]⟩ = .ok val) ∧
        ∃ stored : List Tuple, stored.map Tuple.values = storedRows schema rows ∧
          (handleInsert w.db session tableName rows).2.tables.lookup
            (Unicode.toLowercase tableName) = some (table ++ stored)) ∧
      ((∀ ev ∈ h, FitsSchema w.db.catalog ev) → w.world.Typed) ∧
      ∀ e, w.world.Typed →
        ((w.step e).world.Typed ↔ ∀ ev ∈ w.effects e, FitsSchema w.db.catalog ev) := by
  have hr₁ : Reached free w.world h := hr.reached
  refine ⟨fun session tableName schema table rows hs ht => handleInsert_spec session hs ht rows,
    hr₁.typed, fun e ht => w.step_typed hr₁ ht e⟩

end Types

open Script in
theorem inserts_stored_as_evaluated_sample :
    let w := (Server.fresh.after row).1
    w.world.Typed ∧
      ∀ e, (w.step e).world.Typed ↔ ∀ ev ∈ w.effects e, FitsSchema w.db.catalog ev := by
  have hevents : (Server.fresh.after row).2 =
      [.begin 1, .write (some 1) ("t", [.int 1]), .commit 1] := by decide +kernel
  have hschema : (Server.fresh.after row).1.db.catalog.getSchema "t" = some ⟨[⟨"a", .int⟩]⟩ := by
    decide +kernel
  have hfits : ∀ ev ∈ (Server.fresh.after row).2,
      FitsSchema (Server.fresh.after row).1.db.catalog ev := by
    rw [hevents]
    simp only [List.forall_mem_cons]
    refine ⟨trivial, fun schema hs => ?_, trivial, nofun⟩
    obtain rfl := Option.some.inj (hschema.symm.trans hs)
    refine ⟨rfl, fun i v col hv hcol => ?_⟩
    rcases i with _ | i <;> cases hv
    cases hcol
    rfl
  obtain ⟨-, htyped, hstep⟩ := inserts_stored_as_evaluated (Runs.after Server.fresh row)
  exact ⟨htyped hfits, fun e => hstep e (htyped hfits)⟩

namespace Script

def integerInFloat : List Event := [.connect, .statement 1 "CREATE TABLE t (a FLOAT)",
  .statement 1 "INSERT INTO t VALUES (1)"]

def stringInInt : List Event := [.connect, .statement 1 "CREATE TABLE t (a INT)",
  .statement 1 "INSERT INTO t VALUES ('é')"]

end Script

open Script in
/-- The integer is stored as an integer, and the string as a string. -/
theorem ill_typed_values_stored :
    let w := (Server.fresh.after integerInFloat).1
    let w' := (Server.fresh.after stringInInt).1
    (w.db.catalog.getSchema "t" = some ⟨[⟨"a", .float⟩]⟩ ∧
      w.world.rows "t" = [⟨[.int 1], none, 0⟩] ∧ ¬ w.world.Typed) ∧
    (w'.db.catalog.getSchema "t" = some ⟨[⟨"a", .int⟩]⟩ ∧
      w'.world.rows "t" = [⟨[.varchar "é"], none, 0⟩] ∧ ¬ w'.world.Typed) := by
  have hschema : (Server.fresh.after integerInFloat).1.db.catalog.getSchema "t" =
      some ⟨[⟨"a", .float⟩]⟩ := by decide +kernel
  have hrows : (Server.fresh.after integerInFloat).1.world.rows "t" = [⟨[.int 1], none, 0⟩] := by
    decide +kernel
  have hschema' : (Server.fresh.after stringInInt).1.db.catalog.getSchema "t" =
      some ⟨[⟨"a", .int⟩]⟩ := by decide +kernel
  have hrows' : (Server.fresh.after stringInInt).1.world.rows "t" =
      [⟨[.varchar "é"], none, 0⟩] := by decide +kernel
  refine ⟨⟨hschema, hrows, fun htyped => ?_⟩, hschema', hrows', fun htyped => ?_⟩
  · have hfit := htyped "t" _ hschema ⟨[.int 1], none, 0⟩ (by rw [hrows]; simp)
    cases hfit.2 0 _ _ rfl rfl
  · have hfit := htyped "t" _ hschema' ⟨[.varchar "é"], none, 0⟩ (by rw [hrows']; simp)
    cases hfit.2 0 _ _ rfl rfl

end VolcanoDb
