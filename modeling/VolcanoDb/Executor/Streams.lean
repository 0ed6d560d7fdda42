import VolcanoDb.Executor.Semantics

/-! # Streams

What a plan hands out, failures included: rows in order, and then a regular end
or a failure. A plan has no stream when its `init` fails. Nothing is assumed of
the collections of the standard library, and aggregations are included.
-/

namespace VolcanoDb

open PullSource (foldUntil)

/-- The rows that an operator hands out, and the failure at which it stops, if any. -/
structure Stream where
  rows : List Tuple
  stop : Option Fault := none
  deriving DecidableEq

namespace Stream

def all (s : Stream) : Result (List Tuple) :=
  match s.stop with
  | none => pure s.rows
  | some f => .error f

def cons (t : Tuple) (s : Stream) : Stream := { s with rows := t :: s.rows }

/-- The rows that satisfy a test, up to the first failure of the test. -/
def keepUntil (test : Tuple → Result Bool) (stop : Option Fault) : List Tuple → Stream
  | [] => ⟨[], stop⟩
  | t :: l =>
    match test t with
    | .error f => ⟨[], some f⟩
    | .ok true => cons t (keepUntil test stop l)
    | .ok false => keepUntil test stop l

/-- The results of a function, up to its first failure. -/
def mapUntil {α : Type} (f : α → Result Tuple) (stop : Option Fault) : List α → Stream
  | [] => ⟨[], stop⟩
  | a :: l =>
    match f a with
    | .error e => ⟨[], some e⟩
    | .ok t => cons t (mapUntil f stop l)

theorem keepUntil_eq {test : Tuple → Result Bool} {l l' : List Tuple}
    (h : keepRows test l = .ok l') (stop : Option Fault) : keepUntil test stop l = ⟨l', stop⟩ := by
  induction l generalizing l' with
  | nil => cases h; rfl
  | cons t l ih =>
    simp only [keepRows, Result.bind_eq_ok] at h
    obtain ⟨b, hb, l₁, hl₁, h⟩ := h
    cases h
    cases b <;> simp [keepUntil, cons, hb, ih hl₁]

theorem mapUntil_eq {α : Type} {f : α → Result Tuple} {l : List α} {l' : List Tuple}
    (h : l.mapM f = .ok l') (stop : Option Fault) : mapUntil f stop l = ⟨l', stop⟩ := by
  induction l generalizing l' with
  | nil => cases h; rfl
  | cons a l ih =>
    simp only [List.mapM_cons, Result.bind_eq_ok] at h
    obtain ⟨t, ht, l₁, hl₁, h⟩ := h
    cases h
    simp [mapUntil, cons, ht, ih hl₁]

theorem all_eq_ok {s : Stream} {l : List Tuple} : s.all = .ok l ↔ s = ⟨l, none⟩ := by
  rcases s with ⟨rows, _ | f⟩ <;> simp [all]

theorem mapUntil_eq_iff {α : Type} {f : α → Result Tuple} {stop : Option Fault} {l : List α}
    {l' : List Tuple} : mapUntil f stop l = ⟨l', none⟩ ↔ stop = none ∧ l.mapM f = .ok l' := by
  constructor
  · intro h
    induction l generalizing l' with
    | nil => cases h; exact ⟨rfl, rfl⟩
    | cons a l ih =>
      unfold mapUntil at h
      split at h
      · cases h
      · rename_i t ht
        rcases hs : mapUntil f stop l with ⟨rows, stop'⟩
        rw [hs] at h
        cases h
        obtain ⟨rfl, hl⟩ := ih hs
        exact ⟨rfl, by simp [ht, hl]⟩
  · rintro ⟨rfl, h⟩
    exact mapUntil_eq h none

theorem mapUntil_eq_map {α : Type} {f : α → Result Tuple} {g : α → Tuple} {l : List α}
    (h : ∀ a ∈ l, f a = .ok (g a)) (stop : Option Fault) : mapUntil f stop l = ⟨l.map g, stop⟩ :=
  mapUntil_eq (Result.mapM_eq_ok h) stop

/-- The rows behind an offset, as many as a limit allows; a full window ends regularly. -/
def window (limit offset : Option ℕ) (s : Stream) : Stream where
  rows := takeLimit limit (s.rows.drop (offset.getD 0))
  stop := if limit.any fun n => offset.getD 0 + n ≤ s.rows.length then none else s.stop

@[simp] theorem window_none (s : Stream) : s.window none none = s := rfl

end Stream

variable [BuildProfile]

def Stream.groups (groupBy : List Expr) (aggFuncs : List (String × Expr × String))
    (schema : Schema) (s : Stream) : Result Groups := do
  let (folded, g) := foldUntil (Groups.addTuple groupBy aggFuncs schema) s.rows .empty
  folded
  let _ ← s.all
  g.addGlobal groupBy aggFuncs

/-- What the operators of a plan hand out, or the failure of their `init`. -/
def LogicalPlan.stream [Collections] (ctx : ExecutionContext) (catalog : Catalog) :
    LogicalPlan → Result Stream
  | dummyScan => pure ⟨[Tuple.new []], none⟩
  | scan tableName _ =>
    match ctx.tables.lookup tableName with
    | none => pure ⟨[], some (.error (.tableNotInStorage tableName))⟩
    | some tuples => pure ⟨visibleRows ctx tuples, none⟩
  | filter child predicate => do
    let s ← child.stream ctx catalog
    let schema ← child.schema catalog
    pure (.keepUntil (fun t => Value.isTruthy <$> predicate.eval t schema) s.stop s.rows)
  | project child exprs => do
    let s ← child.stream ctx catalog
    let schema ← child.schema catalog
    pure (.mapUntil (projectRow schema (exprs.map Prod.fst)) s.stop s.rows)
  | limit child limitVal offset => do
    let s ← child.stream ctx catalog
    pure (s.window limitVal offset)
  | sort child orderBy => do
    let s ← child.stream ctx catalog
    let schema ← child.schema catalog
    let l ← s.all
    let sorted ← Collections.sortBy (fun a b => compareKeys schema a b orderBy) l
    pure ⟨sorted, none⟩
  | join left right condition => do
    let l ← left.stream ctx catalog
    let r ← right.stream ctx catalog
    let rightRows ← r.all
    let schema ← (join left right condition).schema catalog
    -- the first row of the outer relation is pulled by `init`
    match l.rows, l.stop with
    | [], some f => .error f
    | leftRows, stop =>
      pure (.keepUntil (joinMatches condition schema) stop (product leftRows rightRows))
  | agg child groupBy aggFuncs => do
    let s ← child.stream ctx catalog
    let schema ← child.schema catalog
    let g ← s.groups groupBy aggFuncs schema
    pure (.mapUntil (groupRow g.groups g.groupKeys) none (Collections.iterOrder g.groups.keys))

/-- The rows of a query, as a client that pulls to the end sees them. -/
def LogicalPlan.answer [Collections] (ctx : ExecutionContext) (catalog : Catalog)
    (plan : LogicalPlan) : Result (List Tuple) := do
  let s ← plan.stream ctx catalog
  s.all

end VolcanoDb
