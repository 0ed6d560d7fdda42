import VolcanoDb.Executor.Aggregate
import VolcanoDb.Planner.Plan
import VolcanoDb.Transaction.Manager

/-! # Pulling tuples from operators

The state of each physical operator and its `next`. The loops of `next` run on
fuel; a potential of the operator tree bounds the number of their iterations,
so that `next` is a total function that satisfies the equations of the source.
-/

namespace VolcanoDb

/-- What a statement sees: the tables and the transactions visible to its session. -/
structure ExecutionContext where
  tables : FinMap String (List Tuple)
  txMgr : TransactionManager
  sessionTxId : Option ℕ
  crScn : ℕ

/-- The state of a physical operator with the states of its children. -/
inductive Executor where
  | dummyScan (done : Bool)
  | seqScan (tableName : String) (cursor : ℕ)
  | filter (child : Executor) (predicate : Expr) (schema : Schema)
  | project (child : Executor) (exprs : List Expr) (childSchema : Schema)
  | limit (child : Executor) (limit offset : Option ℕ) (cursor : ℕ)
  | sort (child : Executor) (orderBy : List (Expr × Bool)) (schema : Schema)
      (sortedTuples : List Tuple) (cursor : ℕ)
  | join (left right : Executor) (condition : Option Expr) (combinedSchema : Schema)
      (rightTuples : List Tuple) (leftTuple : Option Tuple) (rightCursor : ℕ)
  | hashAgg (child : Executor) (groupBy : List Expr) (aggFuncs : List (String × Expr × String))
      (childSchema : Schema) (groups : FinMap String (List AggState))
      (groupKeys : FinMap String (List Value)) (resultKeys : List String) (cursor : ℕ)
  deriving DecidableEq

abbrev Pull := Result (Option Tuple) × Executor

variable [BuildProfile]

def usizeSub (a b : ℕ) : Result ℕ :=
  if b ≤ a then pure (a - b)
  else if BuildProfile.overflowChecks then panicking "attempt to subtract with overflow"
  else pure (a + 2 ^ 64 - b)

/-- Whether a limit operator has returned as many tuples as it may. -/
def limitReached (limit : Option ℕ) (offset cursor : ℕ) : Result Bool :=
  match limit with
  | none => pure false
  | some limitVal => do
    let taken ← usizeSub cursor offset
    pure (limitVal ≤ taken)

def combine (l r : Tuple) : Tuple := Tuple.new (l.values ++ r.values)

def joinMatches (condition : Option Expr) (schema : Schema) (t : Tuple) : Result Bool :=
  match condition with
  | none => pure true
  | some cond => Value.isTruthy <$> cond.eval t schema

def groupRow (groups : FinMap String (List AggState)) (groupKeys : FinMap String (List Value))
    (key : String) : Result Tuple :=
  match groupKeys.lookup key, groups.lookup key with
  | some vals, some states => pure (Tuple.new (vals ++ states.map AggState.finalize))
  | _, _ => panicking "called `Option::unwrap()` on a `None` value"

namespace Executor

/--
One `next`, given the `next` of the children and of the same operator in the
following iteration of its loop.
-/
def nextStep (ctx : ExecutionContext) (next : Executor → Option Pull) : Executor → Option Pull
  | dummyScan done =>
    some (if done then (pure none, dummyScan true)
      else (pure (some (Tuple.new [])), dummyScan true))
  | seqScan tableName cursor =>
    match ctx.tables.lookup tableName with
    | none => some (err (.tableNotInStorage tableName), seqScan tableName cursor)
    | some tuples =>
      match tuples[cursor]? with
      | none => some (pure none, seqScan tableName cursor)
      | some t =>
        if ctx.txMgr.isVisible t.txId ctx.sessionTxId ctx.crScn then
          some (pure (some t), seqScan tableName (cursor + 1))
        else next (seqScan tableName (cursor + 1))
  | filter child predicate schema => do
    let (answer, child) ← next child
    let self := filter child predicate schema
    match answer with
    | .error f => some (.error f, self)
    | .ok none => some (pure none, self)
    | .ok (some t) =>
      match predicate.eval t schema with
      | .error f => some (.error f, self)
      | .ok val => if val.isTruthy then some (pure (some t), self) else next self
  | project child exprs childSchema => do
    let (answer, child) ← next child
    let self := project child exprs childSchema
    match answer with
    | .error f => some (.error f, self)
    | .ok none => some (pure none, self)
    | .ok (some t) =>
      some ((some ∘ Tuple.new) <$> exprs.mapM fun expr => expr.eval t childSchema, self)
  | limit child limitVal offset cursor =>
    if cursor < offset.getD 0 then do
      let (answer, child) ← next child
      match answer with
      | .error f => some (.error f, limit child limitVal offset cursor)
      | .ok none => some (pure none, limit child limitVal offset cursor)
      | .ok (some _) => next (limit child limitVal offset (cursor + 1))
    else
      match limitReached limitVal (offset.getD 0) cursor with
      | .error f => some (.error f, limit child limitVal offset cursor)
      | .ok true => some (pure none, limit child limitVal offset cursor)
      | .ok false => do
        let (answer, child) ← next child
        match answer with
        | .error f => some (.error f, limit child limitVal offset cursor)
        | .ok none => some (pure none, limit child limitVal offset cursor)
        | .ok (some t) => some (pure (some t), limit child limitVal offset (cursor + 1))
  | sort child orderBy schema sortedTuples cursor =>
    match sortedTuples[cursor]? with
    | some t => some (pure (some t), sort child orderBy schema sortedTuples (cursor + 1))
    | none => some (pure none, sort child orderBy schema sortedTuples cursor)
  | join left right condition combinedSchema rightTuples leftTuple rightCursor =>
    match leftTuple with
    | none => some (pure none,
        join left right condition combinedSchema rightTuples none rightCursor)
    | some l =>
      match rightTuples[rightCursor]? with
      | none => do
        -- the right side is exhausted: advance the outer relation
        let (answer, left) ← next left
        match answer with
        | .error f => some (.error f,
            join left right condition combinedSchema rightTuples (some l) rightCursor)
        | .ok leftTuple => next (join left right condition combinedSchema rightTuples leftTuple 0)
      | some r =>
        let self :=
          join left right condition combinedSchema rightTuples (some l) (rightCursor + 1)
        match joinMatches condition combinedSchema (combine l r) with
        | .error f => some (.error f, self)
        | .ok true => some (pure (some (combine l r)), self)
        | .ok false => next self
  | hashAgg child groupBy aggFuncs childSchema groups groupKeys resultKeys cursor =>
    let self := hashAgg child groupBy aggFuncs childSchema groups groupKeys resultKeys
    match resultKeys[cursor]? with
    | none => some (pure none, self cursor)
    | some key => some (some <$> groupRow groups groupKeys key, self (cursor + 1))

/-- `next` with a bound on the depth of calls and loop iterations. -/
def nextWithin (ctx : ExecutionContext) : ℕ → Executor → Option Pull
  | 0, _ => none
  | n + 1, e => nextStep ctx (nextWithin ctx n) e

omit [BuildProfile] in
/-- A bound on the loop iterations and tuples that remain in an operator tree. -/
def work (ctx : ExecutionContext) : Executor → ℕ
  | dummyScan done => if done then 0 else 1
  | seqScan tableName cursor => ((ctx.tables.lookup tableName).getD []).length - cursor
  | filter child _ _ | project child _ _ | limit child _ _ _ => child.work ctx + 1
  | sort _ _ _ sortedTuples cursor => sortedTuples.length - cursor
  | join left _ _ _ rightTuples leftTuple rightCursor =>
    (if leftTuple.isSome then 1 + (rightTuples.length - rightCursor) else 0) +
      left.work ctx * (rightTuples.length + 2)
  | hashAgg _ _ _ _ _ _ resultKeys cursor => resultKeys.length - cursor

/-- An answer that leaves no more work than before, and less if it holds a tuple. -/
def Progress (ctx : ExecutionContext) (e : Executor) (p : Pull) : Prop :=
  p.2.work ctx ≤ e.work ctx ∧ ∀ t, p.1 = .ok (some t) → p.2.work ctx < e.work ctx

theorem nextStep_mono {ctx : ExecutionContext} {next next' : Executor → Option Pull}
    (h : ∀ e p, next e = some p → next' e = some p) (e : Executor) (p : Pull) :
    nextStep ctx next e = some p → nextStep ctx next' e = some p := by
  cases e with
  | dummyScan | sort | hashAgg => exact id
  | seqScan name cursor =>
    simp only [nextStep]
    split
    · exact id
    · split
      · exact id
      · split
        · exact id
        · exact h _ _
  | filter child predicate schema =>
    simp only [nextStep, Option.bind_eq_bind, Option.bind_eq_some_iff]
    rintro ⟨⟨answer, child'⟩, hq, hp⟩
    refine ⟨_, h _ _ hq, ?_⟩
    rcases answer with f | _ | t
    · exact hp
    · exact hp
    · revert hp
      dsimp only
      split
      · exact id
      · split
        · exact id
        · exact h _ _
  | project child exprs childSchema =>
    simp only [nextStep, Option.bind_eq_bind, Option.bind_eq_some_iff]
    rintro ⟨q, hq, hp⟩
    exact ⟨q, h _ _ hq, hp⟩
  | limit child limitVal offset cursor =>
    simp only [nextStep, Option.bind_eq_bind]
    split
    · simp only [Option.bind_eq_some_iff]
      rintro ⟨⟨answer, child'⟩, hq, hp⟩
      refine ⟨_, h _ _ hq, ?_⟩
      rcases answer with f | _ | t
      · exact hp
      · exact hp
      · exact h _ _ hp
    · split
      · exact id
      · exact id
      · simp only [Option.bind_eq_some_iff]
        rintro ⟨q, hq, hp⟩
        exact ⟨q, h _ _ hq, hp⟩
  | join left right condition schema rightTuples leftTuple rightCursor =>
    simp only [nextStep, Option.bind_eq_bind]
    split
    · exact id
    · split
      · simp only [Option.bind_eq_some_iff]
        rintro ⟨⟨answer, left'⟩, hq, hp⟩
        refine ⟨_, h _ _ hq, ?_⟩
        rcases answer with f | l
        · exact hp
        · exact h _ _ hp
      · split
        · exact id
        · exact id
        · exact h _ _

theorem nextWithin_mono {ctx : ExecutionContext} {n m : ℕ} (hnm : n ≤ m) (e : Executor) (p : Pull)
    (h : nextWithin ctx n e = some p) : nextWithin ctx m e = some p := by
  induction n generalizing m e p with
  | zero => simp [nextWithin] at h
  | succ n ih =>
    obtain ⟨m, rfl⟩ := Nat.exists_eq_add_of_le' (Nat.lt_of_lt_of_le (Nat.succ_pos n) hnm)
    exact nextStep_mono (fun e p => ih (Nat.le_of_succ_le_succ hnm) e p) e p h

omit [BuildProfile] in
theorem Progress.of_next {ctx : ExecutionContext} {e e' : Executor} {p : Pull}
    (h : e'.work ctx < e.work ctx) (hp : Progress ctx e' p) : Progress ctx e p :=
  ⟨(hp.1.trans_lt h).le, fun _ _ => hp.1.trans_lt h⟩

theorem nextStep_progress {ctx : ExecutionContext} {next : Executor → Option Pull} {n : ℕ}
    (h : ∀ e, e.work ctx < n → ∃ p, next e = some p ∧ Progress ctx e p) (e : Executor)
    (he : e.work ctx < n + 1) : ∃ p, nextStep ctx next e = some p ∧ Progress ctx e p := by
  have loop : ∀ e', e'.work ctx < e.work ctx → ∃ p, next e' = some p ∧ Progress ctx e p := by
    intro e' hlt
    obtain ⟨p, hp, hpr⟩ := h e' (by omega)
    exact ⟨p, hp, hpr.of_next hlt⟩
  cases e with
  | dummyScan done => cases done <;> simp [nextStep, Progress, work, pure, Except.pure]
  | seqScan name cursor =>
    simp only [nextStep]
    split
    · simp [Progress, err]
    · rename_i tuples ht
      split
      · simp [Progress, pure, Except.pure]
      · rename_i t hc
        have hlt : cursor < tuples.length := (List.getElem?_eq_some_iff.mp hc).1
        have hw : (seqScan name (cursor + 1)).work ctx < (seqScan name cursor).work ctx := by
          simp [work, ht]; omega
        split
        · exact ⟨_, rfl, hw.le, fun _ _ => hw⟩
        · exact loop _ hw
  | filter child predicate schema =>
    obtain ⟨⟨answer, child'⟩, hq, hle, hlt⟩ := h child (by simp [work] at he; omega)
    simp only [nextStep, hq, Option.bind_eq_bind, Option.bind_some]
    rcases answer with f | _ | t
    · exact ⟨_, rfl, by simpa [Progress, work] using hle⟩
    · exact ⟨_, rfl, by simpa [Progress, work, pure, Except.pure] using hle⟩
    · have hw : (filter child' predicate schema).work ctx <
          (filter child predicate schema).work ctx := by
        simpa [work] using hlt t rfl
      dsimp only
      split
      · exact ⟨_, rfl, hw.le, fun _ _ => hw⟩
      · split
        · exact ⟨_, rfl, hw.le, fun _ _ => hw⟩
        · exact loop _ hw
  | project child exprs childSchema =>
    obtain ⟨⟨answer, child'⟩, hq, hle, hlt⟩ := h child (by simp [work] at he; omega)
    simp only [nextStep, hq, Option.bind_eq_bind, Option.bind_some]
    rcases answer with f | _ | t
    · exact ⟨_, rfl, by simpa [Progress, work] using hle⟩
    · exact ⟨_, rfl, by simpa [Progress, work, pure, Except.pure] using hle⟩
    · have hw : (project child' exprs childSchema).work ctx <
          (project child exprs childSchema).work ctx := by
        simpa [work] using hlt t rfl
      exact ⟨_, rfl, hw.le, fun _ _ => hw⟩
  | limit child limitVal offset cursor =>
    obtain ⟨⟨answer, child'⟩, hq, hle, hlt⟩ := h child (by simp [work] at he; omega)
    have hw (t : Tuple) (ht : answer = .ok (some t)) :
        (limit child' limitVal offset (cursor + 1)).work ctx <
          (limit child limitVal offset cursor).work ctx := by
      simpa [work] using hlt t ht
    simp only [nextStep, hq, Option.bind_eq_bind, Option.bind_some]
    split
    · rcases answer with f | _ | t
      · exact ⟨_, rfl, by simpa [Progress, work] using hle⟩
      · exact ⟨_, rfl, by simpa [Progress, work, pure, Except.pure] using hle⟩
      · exact loop _ (hw t rfl)
    · split
      · exact ⟨_, rfl, by simp [Progress]⟩
      · exact ⟨_, rfl, by simp [Progress, pure, Except.pure]⟩
      · rcases answer with f | _ | t
        · exact ⟨_, rfl, by simpa [Progress, work] using hle⟩
        · exact ⟨_, rfl, by simpa [Progress, work, pure, Except.pure] using hle⟩
        · exact ⟨_, rfl, (hw t rfl).le, fun _ _ => hw t rfl⟩
  | sort child orderBy schema sortedTuples cursor =>
    simp only [nextStep]
    split
    · rename_i t hc
      have hlt := (List.getElem?_eq_some_iff.mp hc).1
      have hw : (sort child orderBy schema sortedTuples (cursor + 1)).work ctx <
          (sort child orderBy schema sortedTuples cursor).work ctx := by
        simp only [work]; omega
      exact ⟨_, rfl, hw.le, fun _ _ => hw⟩
    · exact ⟨_, rfl, by simp [Progress, pure, Except.pure]⟩
  | join left right condition schema rightTuples leftTuple rightCursor =>
    simp only [nextStep]
    split
    · exact ⟨_, rfl, by simp [Progress, pure, Except.pure]⟩
    · rename_i l
      split
      · rename_i hc
        have hge := List.getElem?_eq_none_iff.mp hc
        have hmul : left.work ctx ≤ left.work ctx * (rightTuples.length + 2) :=
          Nat.le_mul_of_pos_right _ (by omega)
        obtain ⟨⟨answer, left'⟩, hq, hle, hlt⟩ := h left (by simp [work] at he; omega)
        have hmono : left'.work ctx * (rightTuples.length + 2) ≤
            left.work ctx * (rightTuples.length + 2) := Nat.mul_le_mul_right _ hle
        simp only [hq, Option.bind_eq_bind, Option.bind_some]
        rcases answer with f | _ | t
        · exact ⟨_, rfl, by simpa [Progress, work] using hmono⟩
        · exact loop _ (by simp only [work, Option.isSome]; grind)
        · have hsucc : (left'.work ctx + 1) * (rightTuples.length + 2) ≤
              left.work ctx * (rightTuples.length + 2) := Nat.mul_le_mul_right _ (hlt t rfl)
          rw [Nat.succ_mul] at hsucc
          exact loop _ (by simp only [work, Option.isSome]; grind)
      · rename_i r hc
        have hlt := (List.getElem?_eq_some_iff.mp hc).1
        have hw : (join left right condition schema rightTuples (some l) (rightCursor + 1)).work ctx
            < (join left right condition schema rightTuples (some l) rightCursor).work ctx := by
          simp [work]; omega
        split
        · exact ⟨_, rfl, hw.le, fun _ _ => hw⟩
        · exact ⟨_, rfl, hw.le, fun _ _ => hw⟩
        · exact loop _ hw
  | hashAgg child groupBy aggFuncs childSchema groups groupKeys resultKeys cursor =>
    simp only [nextStep]
    split
    · exact ⟨_, rfl, by simp [Progress, pure, Except.pure]⟩
    · rename_i key hc
      have hlt := (List.getElem?_eq_some_iff.mp hc).1
      have hw : (hashAgg child groupBy aggFuncs childSchema groups groupKeys resultKeys
          (cursor + 1)).work ctx <
          (hashAgg child groupBy aggFuncs childSchema groups groupKeys resultKeys cursor).work
            ctx := by
        simp only [work]; omega
      exact ⟨_, rfl, hw.le, fun _ _ => hw⟩

/-- Fuel above the remaining work is enough for an answer. -/
theorem nextWithin_progress (ctx : ExecutionContext) {n : ℕ} (e : Executor)
    (he : e.work ctx < n) : ∃ p, nextWithin ctx n e = some p ∧ Progress ctx e p := by
  induction n generalizing e with
  | zero => omega
  | succ n ih => exact nextStep_progress ih e he

def next (ctx : ExecutionContext) (e : Executor) : Pull :=
  (nextWithin ctx (e.work ctx + 1) e).get <| by
    obtain ⟨p, hp, _⟩ := nextWithin_progress ctx e (Nat.lt_succ_self _)
    simp [hp]

theorem nextWithin_eq {ctx : ExecutionContext} {n : ℕ} {e : Executor} (h : e.work ctx < n) :
    nextWithin ctx n e = some (next ctx e) :=
  nextWithin_mono h e _ (Option.some_get _).symm

theorem next_progress (ctx : ExecutionContext) (e : Executor) : Progress ctx e (next ctx e) := by
  obtain ⟨p, hp, hpr⟩ := nextWithin_progress ctx e (Nat.lt_succ_self _)
  rw [nextWithin_eq (Nat.lt_succ_self _), Option.some_inj] at hp
  exact hp ▸ hpr

theorem some_next (ctx : ExecutionContext) (e : Executor) :
    some (next ctx e) = nextStep ctx (fun e => some (next ctx e)) e := by
  have hsound (n : ℕ) (e : Executor) (p : Pull) (h : nextWithin ctx n e = some p) :
      some (next ctx e) = some p := by
    rw [← nextWithin_mono (Nat.le_max_left n (e.work ctx + 1)) e p h]
    exact (nextWithin_eq (by omega)).symm
  exact (nextStep_mono (hsound _) e _ (nextWithin_eq (Nat.lt_succ_self _))).symm

end Executor

end VolcanoDb
