import VolcanoDb.Executor.Ordering

/-! # Restarting operators

No call changes what an operator is made of, and `init` prepares an operator in
the same way whatever state its tree is in. An operator that has been used is
therefore as good as a new one after another `init`.
-/

namespace VolcanoDb

namespace Executor

/--
The same operators in states of their own. Aggregations are left out: a hash map
that is filled again may be iterated in another order.
-/
inductive SameOperators : Executor → Executor → Prop where
  | dummyScan {done done' : Bool} : SameOperators (dummyScan done) (dummyScan done')
  | seqScan {tableName : String} {cursor cursor' : ℕ} :
      SameOperators (seqScan tableName cursor) (seqScan tableName cursor')
  | filter {child child' : Executor} {predicate : Expr} {schema : Schema} :
      SameOperators child child' →
      SameOperators (filter child predicate schema) (filter child' predicate schema)
  | project {child child' : Executor} {exprs : List Expr} {schema : Schema} :
      SameOperators child child' →
      SameOperators (project child exprs schema) (project child' exprs schema)
  | limit {child child' : Executor} {limitVal offset : Option ℕ} {cursor cursor' : ℕ} :
      SameOperators child child' →
      SameOperators (limit child limitVal offset cursor) (limit child' limitVal offset cursor')
  | sort {child child' : Executor} {orderBy : List (Expr × Bool)} {schema : Schema}
      {sorted sorted' : List Tuple} {cursor cursor' : ℕ} : SameOperators child child' →
      SameOperators (sort child orderBy schema sorted cursor)
        (sort child' orderBy schema sorted' cursor')
  | join {left left' right right' : Executor} {condition : Option Expr} {schema : Schema}
      {rightTuples rightTuples' : List Tuple} {leftTuple leftTuple' : Option Tuple}
      {cursor cursor' : ℕ} : SameOperators left left' → SameOperators right right' →
      SameOperators (join left right condition schema rightTuples leftTuple cursor)
        (join left' right' condition schema rightTuples' leftTuple' cursor')

inductive SameOutcome : Result Unit × Executor → Result Unit × Executor → Prop where
  | failed (f : Fault) (e e' : Executor) : SameOutcome (.error f, e) (.error f, e')
  | prepared (e : Executor) : SameOutcome (.ok (), e) (.ok (), e)

theorem SameOutcome.refl (x : Result Unit × Executor) : SameOutcome x x := by
  rcases x with ⟨f | _, e⟩
  · exact .failed f e e
  · exact .prepared e

section Calls

variable [BuildProfile] {ctx : ExecutionContext} {e e₀ : Executor}

theorem nextStep_sameOperators {next : Executor → Option Pull}
    (h : ∀ e p e₀, SameOperators e e₀ → next e = some p → SameOperators p.2 e₀)
    (he : SameOperators e e₀) {p : Pull} (hp : nextStep ctx next e = some p) :
    SameOperators p.2 e₀ := by
  cases he with
  | dummyScan =>
    cases hp
    split <;> exact .dummyScan
  | seqScan =>
    simp only [nextStep] at hp
    split at hp
    · cases hp
      exact .seqScan
    · split at hp
      · cases hp
        exact .seqScan
      · split at hp
        · cases hp
          exact .seqScan
        · exact h _ _ _ .seqScan hp
  | filter hc =>
    simp only [nextStep, Option.bind_eq_bind, Option.bind_eq_some_iff] at hp
    obtain ⟨⟨answer, child⟩, hq, hp⟩ := hp
    have hchild := h _ _ _ hc hq
    rcases answer with f | _ | t
    · cases hp
      exact .filter hchild
    · cases hp
      exact .filter hchild
    · dsimp only at hp
      split at hp
      · cases hp
        exact .filter hchild
      · split at hp
        · cases hp
          exact .filter hchild
        · exact h _ _ _ (.filter hchild) hp
  | project hc =>
    simp only [nextStep, Option.bind_eq_bind, Option.bind_eq_some_iff] at hp
    obtain ⟨⟨answer, child⟩, hq, hp⟩ := hp
    have hchild := h _ _ _ hc hq
    rcases answer with f | _ | t <;> cases hp <;> exact .project hchild
  | limit hc =>
    simp only [nextStep, Option.bind_eq_bind] at hp
    split at hp
    · obtain ⟨⟨answer, child⟩, hq, hp⟩ := Option.bind_eq_some_iff.mp hp
      have hchild := h _ _ _ hc hq
      rcases answer with f | _ | t
      · cases hp
        exact .limit hchild
      · cases hp
        exact .limit hchild
      · exact h _ _ _ (.limit hchild) hp
    · split at hp
      · cases hp
        exact .limit hc
      · cases hp
        exact .limit hc
      · obtain ⟨⟨answer, child⟩, hq, hp⟩ := Option.bind_eq_some_iff.mp hp
        have hchild := h _ _ _ hc hq
        rcases answer with f | _ | t <;> cases hp <;> exact .limit hchild
  | sort hc =>
    simp only [nextStep] at hp
    split at hp <;> cases hp <;> exact .sort hc
  | join hl hr =>
    simp only [nextStep, Option.bind_eq_bind] at hp
    split at hp
    · cases hp
      exact .join hl hr
    · split at hp
      · obtain ⟨⟨answer, left⟩, hq, hp⟩ := Option.bind_eq_some_iff.mp hp
        have hleft := h _ _ _ hl hq
        rcases answer with f | t
        · cases hp
          exact .join hleft hr
        · exact h _ _ _ (.join hleft hr) hp
      · split at hp
        · cases hp
          exact .join hl hr
        · cases hp
          exact .join hl hr
        · exact h _ _ _ (.join hl hr) hp

theorem SameOperators.next (h : SameOperators e e₀) : SameOperators (next ctx e).2 e₀ := by
  have hwithin (n : ℕ) (e : Executor) (p : Pull) (e₀ : Executor) (he : SameOperators e e₀)
      (hp : nextWithin ctx n e = some p) : SameOperators p.2 e₀ := by
    induction n generalizing e p e₀ with
    | zero => cases hp
    | succ n ih => exact nextStep_sameOperators ih he hp
  exact hwithin _ e _ e₀ h (nextWithin_eq (Nat.lt_succ_self _))

theorem SameOperators.drain (h : SameOperators e e₀) :
    SameOperators ((source ctx).drain e).2.2 e₀ := by
  refine ((source ctx).fold_invariant (p := (SameOperators · e₀)) (q := fun _ => True)
    (r := fun _ : List Tuple => True) (e := fun _ => True) (fun s hs => ?_) (fun l t _ _ => ?_) h
    trivial).2.2
  · exact ⟨hs.next, fun _ _ => trivial, fun _ _ => trivial⟩
  · exact ⟨trivial, fun _ _ => trivial⟩

omit [BuildProfile] in
theorem SameOperators.close (h : SameOperators e e₀) : SameOperators e.close e₀ := by
  induction h with
  | dummyScan => exact .dummyScan
  | seqScan => exact .seqScan
  | filter _ ih => exact .filter ih
  | project _ ih => exact .project ih
  | limit _ ih => exact .limit ih
  | sort _ ih => exact .sort ih
  | join _ _ ihl ihr => exact .join ihl ihr

variable [Collections]

theorem SameOperators.init (h : SameOperators e e₀) : SameOperators (e.init ctx).2 e₀ := by
  induction h with
  | dummyScan => exact .dummyScan
  | seqScan => exact .seqScan
  | filter _ ih => exact .filter ih
  | project _ ih => exact .project ih
  | limit _ ih =>
    unfold Executor.init
    split
    · rename_i hi
      rw [hi] at ih
      exact .limit ih
    · rename_i hi
      rw [hi] at ih
      exact .limit ih
  | sort _ ih =>
    unfold Executor.init
    split
    · rename_i hi
      rw [hi] at ih
      exact .sort ih
    · rename_i child' hi
      rw [hi] at ih
      have hdrain : SameOperators ((source ctx).drain child').2.2 _ := ih.drain
      split
      · rename_i hd
        rw [hd] at hdrain
        exact .sort hdrain
      · rename_i hd
        rw [hd] at hdrain
        split <;> exact .sort hdrain
  | join _ _ ihl ihr =>
    unfold Executor.init
    split
    · rename_i hl
      rw [hl] at ihl
      exact .join ihl ‹_›
    · rename_i left' hl
      rw [hl] at ihl
      have hnext : SameOperators (Executor.next ctx left').2 _ := ihl.next
      split
      · rename_i hr
        rw [hr] at ihr
        exact .join ihl ihr
      · rename_i right' hr
        rw [hr] at ihr
        have hdrain : SameOperators ((source ctx).drain right').2.2 _ := ihr.drain
        split
        · rename_i hd
          rw [hd] at hdrain
          exact .join ihl hdrain
        · rename_i hd
          rw [hd] at hdrain
          split
          · rename_i hn
            rw [hn] at hnext
            exact .join hnext hdrain
          · rename_i hn
            rw [hn] at hnext
            exact .join hnext hdrain

theorem SameOperators.sameOutcome (h : SameOperators e e₀) :
    SameOutcome (e.init ctx) (e₀.init ctx) := by
  induction h with
  | dummyScan => exact .prepared _
  | seqScan => exact .prepared _
  | @filter child child' _ _ _ ih | @project child child' _ _ _ ih =>
    simp only [Executor.init]
    generalize child.init ctx = x at ih
    generalize child'.init ctx = y at ih
    cases ih with
    | failed => exact .failed _ _ _
    | prepared => exact .prepared _
  | @limit child child' _ _ _ _ _ ih =>
    simp only [Executor.init]
    generalize child.init ctx = x at ih
    generalize child'.init ctx = y at ih
    cases ih with
    | failed => exact .failed _ _ _
    | prepared => exact .prepared _
  | @sort child child' _ _ _ _ _ _ _ ih =>
    simp only [Executor.init]
    generalize child.init ctx = x at ih
    generalize child'.init ctx = y at ih
    cases ih with
    | failed => exact .failed _ _ _
    | prepared => exact .refl _
  | @join left left' right right' _ _ _ _ _ _ _ _ _ _ ihl ihr =>
    simp only [Executor.init]
    generalize left.init ctx = x at ihl
    generalize left'.init ctx = y at ihl
    cases ihl with
    | failed => exact .failed _ _ _
    | prepared l =>
      generalize right.init ctx = x at ihr
      generalize right'.init ctx = y at ihr
      cases ihr with
      | failed => exact .failed _ _ _
      | prepared r =>
        -- a failure behind the first tuple of the outer relation leaves the old one in place
        dsimp only
        rcases (source ctx).drain r with ⟨f | _, rightTuples, r⟩
        · exact .failed _ _ _
        · rcases Executor.next ctx l with ⟨f | t, l⟩
          · exact .failed _ _ _
          · exact .prepared _

end Calls

inductive Call where
  | init
  | next
  | close
  deriving DecidableEq

section Restart

variable [BuildProfile] [Collections] (ctx : ExecutionContext)

def afterCall (e : Executor) : Call → Executor
  | .init => (e.init ctx).2
  | .next => (next ctx e).2
  | .close => e.close

def afterCalls (calls : List Call) (e : Executor) : Executor := calls.foldl (afterCall ctx) e

/-- Prepare an operator and drain it: the tuples handed out, and how that ends. -/
def run (e : Executor) : Result Unit × List Tuple :=
  match e.init ctx with
  | (.error f, _) => (.error f, [])
  | (.ok (), e) =>
    let (result, tuples, _) := (source ctx).drain e
    (result, tuples)

variable {ctx} {e e₀ : Executor}

theorem SameOperators.afterCall (h : SameOperators e e₀) (call : Call) :
    SameOperators (afterCall ctx e call) e₀ := by
  cases call with
  | init => exact h.init
  | next => exact h.next
  | close => exact h.close

theorem SameOperators.afterCalls (h : SameOperators e e₀) (calls : List Call) :
    SameOperators (afterCalls ctx calls e) e₀ := by
  induction calls generalizing e with
  | nil => exact h
  | cons call calls ih => exact ih (h.afterCall call)

/-- The same operators hand out the same tuples once they are prepared. -/
theorem SameOperators.run_eq (h : SameOperators e e₀) : run ctx e = run ctx e₀ := by
  have hinit : SameOutcome (e.init ctx) (e₀.init ctx) := h.sameOutcome
  unfold run
  generalize e.init ctx = x at hinit
  generalize e₀.init ctx = y at hinit
  cases hinit <;> rfl

end Restart

end Executor

def LogicalPlan.AggFree : LogicalPlan → Prop
  | dummyScan | scan _ _ => True
  | filter child _ | project child _ | limit child _ _ | sort child _ => child.AggFree
  | join left right _ => left.AggFree ∧ right.AggFree
  | agg _ _ _ => False

theorem LogicalPlan.AggFree.sameOperators {catalog : Catalog} {plan : LogicalPlan}
    (h : plan.AggFree) {e : Executor} (hb : buildExecutor catalog plan = .ok e) :
    Executor.SameOperators e e := by
  induction plan generalizing e with
  | dummyScan =>
    cases hb
    exact .dummyScan
  | scan tableName aliasName =>
    cases hb
    exact .seqScan
  | filter child predicate ih =>
    simp only [buildExecutor, Result.bind_eq_ok] at hb
    obtain ⟨c, hc, _, -, ⟨⟩⟩ := hb
    exact .filter (ih h hc)
  | project child exprs ih =>
    simp only [buildExecutor, Result.bind_eq_ok] at hb
    obtain ⟨c, hc, _, -, ⟨⟩⟩ := hb
    exact .project (ih h hc)
  | limit child limitVal offset ih =>
    obtain ⟨c, hc, ⟨⟩⟩ := Result.bind_eq_ok.mp hb
    exact .limit (ih h hc)
  | sort child orderBy ih =>
    simp only [buildExecutor, Result.bind_eq_ok] at hb
    obtain ⟨c, hc, _, -, ⟨⟩⟩ := hb
    exact .sort (ih h hc)
  | join left right condition ihl ihr =>
    simp only [buildExecutor, Result.bind_eq_ok] at hb
    obtain ⟨l, hl, r, hr, _, -, ⟨⟩⟩ := hb
    exact .join (ihl h.1 hl) (ihr h.2 hr)
  | agg child groupBy aggFuncs => cases h

/--
After any calls, preparing the operators of a plan without aggregations again
and draining them yields what it does for new operators: the same tuples and
the same end, be it regular or an error.
-/
theorem reinit_restarts [BuildProfile] [Collections] {ctx : ExecutionContext} {catalog : Catalog}
    {plan : LogicalPlan} (h : plan.AggFree) {e : Executor}
    (hb : buildExecutor catalog plan = .ok e) (calls : List Executor.Call) :
    Executor.run ctx (Executor.afterCalls ctx calls e) = Executor.run ctx e :=
  ((h.sameOperators hb).afterCalls calls).run_eq

section Sample

open Sample

theorem reinit_restarts_users :
    let _ : BuildProfile := ⟨true⟩
    let _ := insertionCollections
    let on : Expr := .binaryOp "<" (.colRef "t.id") (.colRef "u.id")
    let plan : LogicalPlan :=
      .sort (.join (.scan "t" none) (.scan "t" "u") (some on)) [(.colRef "u.name", true)]
    let tu : Schema :=
      ⟨[⟨"t.id", .int⟩, ⟨"t.name", .varchar⟩, ⟨"u.id", .int⟩, ⟨"u.name", .varchar⟩]⟩
    let e : Executor := .sort (.join (.seqScan "t" 0) (.seqScan "t" 0) (some on) tu [] none 0)
      [(.colRef "u.name", true)] tu [] 0
    buildExecutor userCatalog plan = .ok e ∧
      Executor.run userContext (Executor.afterCalls userContext [.init, .next, .close, .next] e) =
        Executor.run userContext e ∧
      Executor.run userContext e =
        (.ok (), [.new [.int 1, .varchar "a", .int 2, .varchar "b"]]) := by
  intro _ _ on plan tu e
  have hfree : plan.AggFree := ⟨trivial, trivial⟩
  have hb : buildExecutor userCatalog plan = .ok e := by decide +kernel
  exact ⟨hb, reinit_restarts hfree hb _, by decide +kernel⟩

end Sample

end VolcanoDb
