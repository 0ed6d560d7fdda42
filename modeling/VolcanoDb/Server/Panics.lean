import VolcanoDb.Executor.AggFaults
import VolcanoDb.Executor.Grouping
import VolcanoDb.Server.Queries

/-! # Panics

Binding never panics, and what is bound panics only where an integer leaves its
range or where a sort finds its comparator inconsistent, as long as the rows of
the tables are as long as their schemas.
-/

namespace VolcanoDb

open PullSource (foldUntil)

open Result (FailsWith)

/-- The panics of checked integer arithmetic. -/
def overflowTexts : List String := ["attempt to add with overflow",
  "attempt to subtract with overflow", "attempt to multiply with overflow"]

/-- The panics that remain; the first one does not depend on the build profile. -/
inductive RemainingPanic [BuildProfile] : String → Prop where
  | division : RemainingPanic "attempt to divide with overflow"
  | overflow {text : String} : BuildProfile.overflowChecks → text ∈ overflowTexts →
      RemainingPanic text
  | order : RemainingPanic
      "user-provided comparison function does not correctly implement a total order"

/-- The failures of an operator over rows of any length. -/
inductive Fault.Permitted [BuildProfile] : Fault → Prop where
  | error (e : DbError) : Permitted (.error e)
  | bounds : Permitted outOfBounds
  | panic {text : String} : RemainingPanic text → Permitted (.panic text)

section Binding

def Fault.IsError (f : Fault) : Prop := ∃ e, f = .error e

theorem isError_err {α : Type*} (e : DbError) : FailsWith Fault.IsError (err e : Result α) :=
  .error ⟨e, rfl⟩

theorem getExprType_isError (e : Expr) (schema : Schema) :
    FailsWith Fault.IsError (getExprType e schema) :=
  getExprType_failsWith_of (fun e _ => ⟨e, rfl⟩) fun _ _ _ => ⟨_, rfl⟩

theorem aggColumnType_isError (func : String) (arg : Expr) (schema : Schema) :
    FailsWith Fault.IsError (aggColumnType func arg schema) :=
  aggColumnType_failsWith_of (fun e _ => ⟨e, rfl⟩) (fun _ _ _ => ⟨_, rfl⟩) func

theorem LogicalPlan.schema_isError (catalog : Catalog) (plan : LogicalPlan) :
    FailsWith Fault.IsError (plan.schema catalog) := by
  induction plan with
  | dummyScan => exact .ok _
  | scan tableName aliasName =>
    unfold LogicalPlan.schema
    split
    · exact .ok _
    · exact isError_err _
  | filter child _ ih | limit child _ _ ih | sort child _ ih => exact ih
  | project child exprs ih =>
    refine ih.bind fun childSchema _ => FailsWith.bind ?_ fun columns _ => .ok _
    exact .mapM fun e _ => (getExprType_isError e.1 childSchema).map _
  | join left right condition ihl ihr => exact ihl.bind fun _ _ => ihr.bind fun _ _ => .ok _
  | agg child groupBy aggFuncs ih =>
    refine ih.bind fun childSchema _ => FailsWith.bind ?_ fun keys _ =>
      FailsWith.bind ?_ fun aggs _ => .ok _
    · exact .mapM fun e _ => (getExprType_isError e childSchema).map _
    · exact .mapM fun f _ => (aggColumnType_isError f.1 f.2.1 childSchema).map _

theorem buildExecutor_isError (catalog : Catalog) (plan : LogicalPlan) :
    FailsWith Fault.IsError (buildExecutor catalog plan) := by
  induction plan with
  | dummyScan | scan tableName aliasName => exact .ok _
  | filter child _ ih | project child _ ih | sort child _ ih | agg child _ _ ih =>
    exact ih.bind fun _ _ => (child.schema_isError catalog).bind fun _ _ => .ok _
  | limit child _ _ ih => exact ih.bind fun _ _ => .ok _
  | join left right condition ihl ihr =>
    exact ihl.bind fun _ _ => ihr.bind fun _ _ =>
      (LogicalPlan.schema_isError catalog (.join left right condition)).bind fun _ _ => .ok _

theorem bindStatement_isError [Unicode] [SqlParser] (sql : String) (catalog : Catalog) :
    FailsWith Fault.IsError (bindStatement sql catalog) := by
  have hexpr (e : Sql.Expr) : FailsWith Fault.IsError (mapSqlExpr e) :=
    mapSqlExpr_failsWith_of (fun e _ => ⟨e, rfl⟩) e
  rcases hp : SqlParser.parseSql sql with text | _ | ⟨tree, rest⟩
  · simp only [bindStatement, hp]
    exact isError_err _
  · simp only [bindStatement, hp]
    exact isError_err _
  · rw [bindStatement_parsed hp]
    cases tree with
    | createTable name columns =>
      refine FailsWith.bind (.mapM fun col _ => ?_) fun cols _ => .ok _
      refine FailsWith.map ?_ _
      cases col.dataType with
      | other debug => exact isError_err _
      | _ => exact .ok _
    | insert tableName columns source =>
      rcases source with _ | query
      · exact isError_err _
      simp only [bindTree, Result.pure_eq_ok, Result.ok_bind]
      split
      · exact FailsWith.bind (.mapM fun row _ => .mapM fun e _ => hexpr e) fun _ _ => .ok _
      · exact isError_err _
    | query q =>
      refine FailsWith.map ?_ _
      exact bindQuery_failsWith_of (fun e _ => ⟨e, rfl⟩) (LogicalPlan.schema_isError catalog) q
    | other debug => exact isError_err _

end Binding

section Evaluation

variable [BuildProfile]

theorem Fault.IsError.permitted {f : Fault} (h : f.IsError) : f.Permitted := by
  obtain ⟨e, rfl⟩ := h
  exact .error e

theorem permitted_err {α : Type*} (e : DbError) :
    FailsWith Fault.Permitted (err e : Result α) := .error (.error e)

theorem checkedInt_permitted {message : String} (hm : message ∈ overflowTexts) (exact : ℤ)
    (wrapped : Int64) : FailsWith Fault.Permitted (checkedInt message exact wrapped) := by
  unfold checkedInt
  split
  · rename_i h
    exact .error (.panic (.overflow h.1 hm))
  · exact .ok _

theorem i64Add_permitted (a b : Int64) : FailsWith Fault.Permitted (i64Add a b) :=
  checkedInt_permitted (by simp [overflowTexts]) _ _

theorem i64Div_permitted (a b : Int64) : FailsWith Fault.Permitted (i64Div a b) := by
  unfold i64Div
  split
  · exact permitted_err _
  · split
    · exact .error (.panic .division)
    · exact .ok _

theorem arithmetic_permitted {op : String} {onInt : Int64 → Int64 → Result Int64}
    (h : ∀ a b, FailsWith Fault.Permitted (onInt a b)) (onFloat : F64 → F64 → F64) (l r : Value) :
    FailsWith Fault.Permitted (arithmetic op onInt onFloat l r) := by
  unfold arithmetic
  split
  · exact (h _ _).map _
  case h_5 => exact permitted_err _
  all_goals exact .ok _

theorem evalBinaryOp_permitted (op : String) (l r : Value) :
    FailsWith Fault.Permitted (evalBinaryOp op l r) := by
  unfold evalBinaryOp
  split
  case h_9 => exact arithmetic_permitted i64Add_permitted _ l r
  case h_10 | h_11 =>
    exact arithmetic_permitted (fun _ _ => checkedInt_permitted (by simp [overflowTexts]) _ _) _ l r
  case h_12 => exact arithmetic_permitted i64Div_permitted _ l r
  case h_15 => exact permitted_err _
  all_goals exact .ok _

theorem Expr.eval_permitted (e : Expr) (t : Tuple) (schema : Schema) :
    FailsWith Fault.Permitted (e.eval t schema) := by
  induction e with
  | star | funcCall name arg => exact permitted_err _
  | const v => exact .ok v
  | colRef name =>
    unfold Expr.eval
    split
    · split
      · exact .ok _
      · exact .error .bounds
    · exact permitted_err _
  | binaryOp op left right ihl ihr =>
    exact ihl.bind fun l _ => ihr.bind fun r _ => evalBinaryOp_permitted op l r

theorem compareKeys_permitted (schema : Schema) (a b : Tuple) (orderBy : List (Expr × Bool)) :
    FailsWith Fault.Permitted (compareKeys schema a b orderBy) := by
  have horNull {x : Result Value} (hx : FailsWith Fault.Permitted x) :
      FailsWith Fault.Permitted (orNull x) := by
    rcases x with (e | m) | v
    · exact .ok _
    · exact hx
    · exact .ok v
  induction orderBy with
  | nil => exact .ok _
  | cons key orderBy ih =>
    refine (horNull (key.1.eval_permitted a schema)).bind fun x _ =>
      (horNull (key.1.eval_permitted b schema)).bind fun y _ => ?_
    split
    · exact ih
    · exact .ok _

end Evaluation

section Aggregation

variable [BuildProfile] {groupBy : List Expr} {aggFuncs : List (String × Expr × String)}
  {schema : Schema}

theorem update_permitted (state : AggState) (val : Value) :
    FailsWith Fault.Permitted (state.update val) := by
  have hadd (sum val : Value) : FailsWith Fault.Permitted (AggState.addTo sum val) := by
    unfold AggState.addTo
    split
    case h_2 => exact (i64Add_permitted _ _).map _
    all_goals exact .ok _
  unfold AggState.update
  split
  · exact .ok _
  · cases state with
    | count n => exact (i64Add_permitted n 1).map _
    | sum s => exact (hadd s val).map _
    | avg s n => exact (i64Add_permitted n 1).bind fun _ _ => (hadd s val).bind fun _ _ => .ok _
    | min m => cases m <;> exact .ok _
    | max m => cases m <;> exact .ok _

theorem updateStates_permitted (t : Tuple) (aggFuncs : List (String × Expr × String))
    (states : List AggState) :
    FailsWith Fault.Permitted (updateStates schema t aggFuncs states).1 := by
  induction aggFuncs generalizing states with
  | nil => exact .ok _
  | cons f aggFuncs ih =>
    cases states with
    | nil => exact .error .bounds
    | cons state states =>
      have hval : FailsWith Fault.Permitted
          ((if f.2.1 = .star then pure (.int 1) else f.2.1.eval t schema) >>= state.update) := by
        refine FailsWith.bind ?_ fun val _ => update_permitted state val
        split
        · exact .ok _
        · exact f.2.1.eval_permitted t schema
      unfold updateStates
      dsimp only
      split
      · rename_i g hg
        exact .error (hval g hg)
      · exact ih _

variable (groupBy schema) in
theorem addTuple_permitted (hknown : KnownFunctions aggFuncs) (g : Groups) (t : Tuple) :
    FailsWith Fault.Permitted (g.addTuple groupBy aggFuncs schema t).1 := by
  unfold Groups.addTuple
  split
  · rename_i f hf
    exact .error (FailsWith.mapM (fun e _ => e.eval_permitted t schema) f hf)
  · dsimp only
    split
    · rename_i f hf
      obtain ⟨states, hnew, -⟩ := hknown.newStates
      unfold Groups.statesOf at hf
      split at hf
      · cases hf
      · cases hnew.symm.trans hf
    · exact updateStates_permitted t aggFuncs _

variable (groupBy schema) in
theorem groups_permitted (hknown : KnownFunctions aggFuncs) {s : Stream}
    (hs : s.StopsWith Fault.Permitted) :
    FailsWith Fault.Permitted (s.groups groupBy aggFuncs schema) ∧
      ∀ g, s.groups groupBy aggFuncs schema = .ok g → g.Consistent aggFuncs := by
  have hfold (l : List Tuple) (g : Groups) (hg : g.Consistent aggFuncs) :
      FailsWith Fault.Permitted (foldUntil (Groups.addTuple groupBy aggFuncs schema) l g).1 ∧
        (foldUntil (Groups.addTuple groupBy aggFuncs schema) l g).2.Consistent aggFuncs := by
    induction l generalizing g with
    | nil => exact ⟨.ok _, hg⟩
    | cons t l ih =>
      have hpermitted := addTuple_permitted groupBy schema hknown g t
      have hconsistent : (g.addTuple groupBy aggFuncs schema t).2.Consistent aggFuncs :=
        (hg.addTuple hknown t).1
      unfold foldUntil
      rcases ha : g.addTuple groupBy aggFuncs schema t with ⟨f | _, g'⟩ <;>
        rw [ha] at hpermitted hconsistent
      · exact ⟨hpermitted, hconsistent⟩
      · exact ih g' hconsistent
  obtain ⟨hfails, hconsistent⟩ := hfold s.rows .empty (Groups.consistent_empty aggFuncs)
  obtain ⟨g', hglobal, hg'⟩ : ∃ g', Groups.addGlobal groupBy aggFuncs _ = .ok g' ∧ _ :=
    hconsistent.addGlobal hknown
  unfold Stream.groups
  dsimp only
  rw [hglobal]
  refine ⟨hfails.bind fun _ _ => hs.all.bind fun _ _ => .ok _, fun g hg => ?_⟩
  obtain ⟨_, -, hg⟩ := Result.bind_eq_ok.mp hg
  obtain ⟨_, -, hg⟩ := Result.bind_eq_ok.mp hg
  cases hg
  exact hg'

/-- The failure of `init`, or that of the rows handed out after it, is of a kind. -/
def StreamFailsWith (p : Fault → Prop) (x : Result Stream) : Prop :=
  FailsWith p x ∧ ∀ s, x = .ok s → s.StopsWith p

namespace StreamFailsWith

variable {p : Fault → Prop}

omit [BuildProfile] in
theorem ok {s : Stream} (h : s.StopsWith p) : StreamFailsWith p (.ok s) := by
  refine ⟨.ok s, ?_⟩
  rintro _ ⟨⟩
  exact h

omit [BuildProfile] in
theorem error {f : Fault} (h : p f) : StreamFailsWith p (.error f) := by
  refine ⟨.error h, ?_⟩
  rintro _ ⟨⟩

omit [BuildProfile] in
theorem bind {α : Type} {x : Result α} {k : α → Result Stream} (hx : FailsWith p x)
    (hk : ∀ a, x = .ok a → StreamFailsWith p (k a)) : StreamFailsWith p (x >>= k) := by
  cases x with
  | error f => exact .error (hx f rfl)
  | ok a => exact hk a rfl

end StreamFailsWith

/-- A plan whose aggregations know their functions fails as its operators may. -/
theorem LogicalPlan.stream_permitted [Collections] (hsort : SortsByComparing)
    (hiter : IteratesKeys) {ctx : ExecutionContext} {catalog : Catalog} {plan : LogicalPlan}
    (hknown : ∀ a ∈ plan.aggs, KnownFunctions a.2.2) :
    StreamFailsWith Fault.Permitted (plan.stream ctx catalog) := by
  have hschema (plan : LogicalPlan) : FailsWith Fault.Permitted (plan.schema catalog) :=
    (plan.schema_isError catalog).imp fun _ h => h.permitted
  induction plan with
  | dummyScan => exact .ok Stream.StopsWith.none
  | scan tableName aliasName =>
    unfold LogicalPlan.stream
    split
    · refine .ok ?_
      rintro _ ⟨⟩
      exact .error _
    · exact .ok Stream.StopsWith.none
  | filter child predicate ih =>
    have hchild := ih hknown
    refine .bind hchild.1 fun s hs => .bind (hschema child) fun schema _ => ?_
    exact .ok (.keepUntil (hchild.2 s hs) fun t _ => (predicate.eval_permitted t schema).map _)
  | project child exprs ih =>
    have hchild := ih hknown
    refine .bind hchild.1 fun s hs => .bind (hschema child) fun schema _ => ?_
    exact .ok (.mapUntil (hchild.2 s hs) fun t _ =>
      (FailsWith.mapM fun e _ => e.eval_permitted t schema).map _)
  | limit child limitVal offset ih =>
    have hchild := ih hknown
    exact .bind hchild.1 fun s hs => .ok ((hchild.2 s hs).window limitVal offset)
  | sort child orderBy ih =>
    have hchild := ih hknown
    refine .bind hchild.1 fun s hs => .bind (hschema child) fun schema _ => ?_
    refine .bind (hchild.2 s hs).all fun l _ => .bind (fun f hf => ?_) fun sorted _ =>
      .ok Stream.StopsWith.none
    rcases hsort.failure hf with ⟨a, -, b, -, hcmp⟩ | rfl
    · exact compareKeys_permitted schema a b orderBy f hcmp
    · exact .panic .order
  | join left right condition ihl ihr =>
    have hleft := ihl fun a ha => hknown a (List.mem_append_left _ ha)
    have hright := ihr fun a ha => hknown a (List.mem_append_right _ ha)
    refine .bind hleft.1 fun s hs => .bind hright.1 fun s' hs' => ?_
    refine .bind (hright.2 s' hs').all fun rightRows _ =>
      .bind (hschema (.join left right condition)) fun schema _ => ?_
    have hstop := hleft.2 s hs
    rcases s with ⟨leftRows, stop⟩
    have hkeep : StreamFailsWith Fault.Permitted (.ok (.keepUntil (joinMatches condition schema)
        stop (product leftRows rightRows))) := by
      refine .ok (.keepUntil hstop fun t _ => ?_)
      cases condition with
      | none => exact .ok true
      | some cond => exact (cond.eval_permitted t schema).map _
    dsimp only
    split
    · exact .error (hstop _ rfl)
    · exact hkeep
  | agg child groupBy aggFuncs ih =>
    obtain ⟨hfuncs, hchildren⟩ := List.forall_mem_cons.mp hknown
    have hchild := ih hchildren
    refine .bind hchild.1 fun s hs => .bind (hschema child) fun schema _ => ?_
    obtain ⟨hfails, hconsistent⟩ := groups_permitted groupBy schema hfuncs (hchild.2 s hs)
    refine .bind hfails fun g hg => .ok (.mapUntil Stream.StopsWith.none fun key hkey => ?_)
    have hmem : key ∈ g.groups := AList.mem_keys.mpr ((hiter _).subset hkey)
    have hsome := AList.lookup_isSome.mpr hmem
    obtain ⟨states, hstates⟩ := Option.isSome_iff_exists.mp hsome
    obtain ⟨vals, hvals⟩ := Option.isSome_iff_exists.mp ((hconsistent g hg).keys key ▸ hsome)
    rw [groupRow, hvals, hstates]
    exact .ok _

end Aggregation

section Statements

variable [BuildProfile] [Unicode] [SqlParser] [Collections] [ComfyTable]

omit [Unicode] [SqlParser] in
theorem runQuery_permitted (hsort : SortsByComparing) (hiter : IteratesKeys)
    {ctx : ExecutionContext} {catalog : Catalog} {plan : LogicalPlan}
    (hknown : ∀ a ∈ plan.aggs, KnownFunctions a.2.2) :
    FailsWith Fault.Permitted (runQuery ctx catalog plan) := by
  have hbuild := buildExecutor_isError catalog plan
  rcases hb : buildExecutor catalog plan with f | e
  · rw [hb] at hbuild
    unfold runQuery
    rw [hb]
    exact .error (hbuild f rfl).permitted
  · obtain ⟨hfails, hstops⟩ : StreamFailsWith Fault.Permitted (plan.stream ctx catalog) :=
      LogicalPlan.stream_permitted hsort hiter hknown
    rw [runQuery_eq hb]
    exact hfails.bind fun s hs =>
      ((plan.schema_isError catalog).imp fun _ h => h.permitted).bind fun _ _ =>
        (hstops s hs).all.bind fun _ _ => .ok _

omit [Unicode] [SqlParser] [Collections] [ComfyTable] in
theorem evalRow_permitted (schema : Schema) (row : List Expr) :
    FailsWith Fault.Permitted (evalRow schema row) := by
  have hvalues (i : ℕ) (row : List Expr) : FailsWith Fault.Permitted (evalValues i row) := by
    induction row generalizing i with
    | nil => exact .ok _
    | cons expr row ih =>
      have hval := expr.eval_permitted (Tuple.new []) ⟨[]⟩
      have hcontext : FailsWith Fault.Permitted
          (insertContext i (expr.eval (Tuple.new []) ⟨[]⟩)) := by
        unfold insertContext
        split
        · exact permitted_err _
        · exact hval
      exact hcontext.bind fun _ _ => (ih (i + 1)).bind fun _ _ => .ok _
  unfold evalRow
  split
  · exact permitted_err _
  · exact hvalues 0 row

omit [Unicode] [SqlParser] [Collections] [ComfyTable] in
theorem insertRows_permitted (schema : Schema) (txId : Option ℕ) (name : String)
    (db : DatabaseState) (table : List Tuple) (n : ℕ) (rows : List (List Expr)) :
    FailsWith Fault.Permitted (insertRows schema txId name db table n rows).1 := by
  induction rows generalizing db table n with
  | nil => exact .ok _
  | cons row rows ih =>
    have hrow := evalRow_permitted schema row
    unfold insertRows
    split
    · rename_i f hf
      exact .error (hrow f hf)
    · exact ih _ _ _

/-- A bound statement fails with an error or a remaining panic. -/
theorem executeStatement_fails (hsort : SortsByComparing) (hiter : IteratesKeys)
    {db : DatabaseState} (harity : ArityHolds db.tables db.catalog) (session : SessionState)
    {sql : String} {statement : SQLStatement} (hb : bindStatement sql db.catalog = .ok statement)
    {text : String} (h : (executeStatement db session statement).1 = .error (.panic text)) :
    RemainingPanic text := by
  have hsafe := executeStatement_safe hsort harity session hb
  have hpermitted : FailsWith Fault.Permitted (executeStatement db session statement).1 := by
    cases statement with
    | createTable tableName schema =>
      unfold executeStatement handleCreateTable
      dsimp only
      split
      · exact permitted_err _
      · exact .ok _
    | insert tableName rows =>
      unfold executeStatement handleInsert
      dsimp only
      split
      · exact permitted_err _
      · split
        · exact permitted_err _
        · exact (insertRows_permitted _ _ _ _ _ _ _).map _
    | query plan =>
      obtain ⟨q, hq⟩ := bindStatement_query hb
      exact runQuery_permitted hsort hiter fun a ha => knownFunctions_of_bindQuery hq ha
  have hf := hpermitted _ h
  generalize hfault : Fault.panic text = f at hf
  cases hf with
  | error e => cases hfault
  | bounds =>
    rw [h, hfault] at hsafe
    exact absurd rfl hsafe
  | panic hremaining =>
    cases hfault
    exact hremaining

theorem handleStatement_panics (hsort : SortsByComparing) (hiter : IteratesKeys)
    {db : DatabaseState} (harity : ArityHolds db.tables db.catalog) (session : SessionState)
    {sql text : String} (h : (handleStatement db session sql).1 = .panic text) :
    RemainingPanic text := by
  have hinner : (innerHandle db session sql).1 = .error (.panic text) := by
    unfold handleStatement at h
    dsimp only at h
    split at h
    · cases h
    split at h
    · cases h
    rcases hi : innerHandle db session sql with ⟨(e | m) | msg, db', session'⟩ <;> rw [hi] at h
    · cases h
    · cases h
      rfl
    · cases h
  by_cases hc : IsControl sql
  · rcases innerHandle_keyword hc db session with heq | heq | heq <;> rw [heq] at hinner
    · unfold handleBegin at hinner
      split at hinner <;> cases hinner
    · unfold handleCommit at hinner
      split at hinner <;> cases hinner
    · unfold handleRollback at hinner
      split at hinner <;> cases hinner
  rw [innerHandle_plain hc] at hinner
  rcases hb : bindStatement sql db.catalog with f | statement <;> rw [hb] at hinner
  · obtain ⟨e, rfl⟩ := bindStatement_isError sql db.catalog f hb
    cases hinner
  · exact executeStatement_fails hsort hiter harity session hb hinner

/--
Over any number of lifetimes, as long as no table is created over recovered rows of
another length: a server goes down by a `/crash` or by a statement that overflows an
integer, which an unchecked build does only when it divides, or that sorts by an
order that is not total.
-/
theorem down_only_by_overflow [SerdeJson] (hsort : SortsByComparing) (hiter : IteratesKeys)
    {w : Server} (hr : Reachable Server.CreatesFitting w) (hup : w.down = false) {e : Event}
    (hdown : (w.step e).down = true) :
    ∃ id session sql, e = .statement id sql ∧ w.sessions.lookup id = some session ∧
      (Text.eqIgnoreAsciiCase (Text.trim sql) "/crash" ∨
        ∃ text, RemainingPanic text ∧ (handleStatement w.db session sql).1 = .panic text) := by
  cases e with
  | connect => exact absurd (hup.symm.trans hdown) Bool.false_ne_true
  | disconnect id => exact absurd (hup.symm.trans hdown) Bool.false_ne_true
  | statement id sql =>
    rcases hs : w.sessions.lookup id with _ | session
    · simp only [Server.step, hs] at hdown
      exact absurd (hup.symm.trans hdown) Bool.false_ne_true
    refine ⟨id, session, sql, rfl, hs, ?_⟩
    simp only [Server.step, hs, hup, Bool.false_eq_true, if_false] at hdown
    rcases hh : handleStatement w.db session sql with ⟨reply, db', session'⟩
    rw [hh] at hdown
    cases reply with
    | text resp => exact absurd (hup.symm.trans hdown) Bool.false_ne_true
    | exit =>
      left
      by_contra hcrash
      unfold handleStatement at hh
      dsimp only at hh
      rw [if_neg hcrash] at hh
      split at hh
      · cases hh
      · split at hh <;> cases hh
    | panic text =>
      have hpanic : (handleStatement w.db session sql).1 = .panic text := by rw [hh]
      exact .inr ⟨text, handleStatement_panics hsort hiter hr.arityHolds session hpanic, rfl⟩

end Statements

namespace Overflow

scoped instance profile : BuildProfile := Sample.profile

scoped instance unicode : Unicode := Sample.unicode

scoped instance comfyTable : ComfyTable := Sample.comfyTable

scoped instance collections : Collections := Sample.collections

scoped instance serde : SerdeJson := Sample.serde

def tree : Sql.Statement :=
  .insert [{ value := "t" }] [] (some { body := .values [[.binaryOp
    (.value (.number "9223372036854775807")) .plus (.value (.number "1"))]] })

def sql : String := "INSERT INTO t VALUES (9223372036854775807 + 1)"

scoped instance parser : SqlParser where
  parseSql text := if text = sql then .ok [tree] else Sample.parser.parseSql text

def created : Server :=
  (Server.fresh.after [.connect, .statement 1 "CREATE TABLE t (a INT)"]).1

theorem created_reachable : Reachable Server.CreatesFitting created :=
  Reachable.fresh.after (by decide +kernel)

end Overflow

open Overflow in
theorem down_only_by_overflow_sample :
    (created.step (.statement 1 sql)).down = true ∧
      ∃ id session text, Event.statement 1 sql = .statement id text ∧
        created.sessions.lookup id = some session ∧
          (Text.eqIgnoreAsciiCase (Text.trim text) "/crash" ∨
            ∃ message, RemainingPanic message ∧
              (handleStatement created.db session text).1 = .panic message) := by
  have hdown : (created.step (.statement 1 sql)).down = true := by decide +kernel
  refine ⟨hdown, ?_⟩
  exact down_only_by_overflow sortsByComparing_insertionCollections (fun l => List.Perm.refl l)
    created_reachable (by decide +kernel) hdown

end VolcanoDb
