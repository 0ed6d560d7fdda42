import VolcanoDb.Executor.Lifecycle
import VolcanoDb.Lib.StableSort

/-! # List semantics of plans

What a plan means, stated on whole lists of rows: the visible rows of a table,
filters, maps, a window, a stable sort and a filtered product. Aggregations are
outside this fragment.
-/

namespace VolcanoDb

open StableSort

variable [BuildProfile]

def keepRows (test : Tuple → Result Bool) : List Tuple → Result (List Tuple)
  | [] => pure []
  | t :: l => do
    let b ← test t
    let l ← keepRows test l
    pure (if b then t :: l else l)

/-- All pairs of rows, the left row varying slowest. -/
def product (left right : List Tuple) : List Tuple :=
  left.flatMap fun l => right.map (combine l)

def takeLimit (limit : Option ℕ) (l : List Tuple) : List Tuple :=
  match limit with
  | none => l
  | some n => l.take n

/-- The order of two rows under the comparator of a sort that does not panic. -/
def keyOrder (schema : Schema) (orderBy : List (Expr × Bool)) (a b : Tuple) : Ordering :=
  match compareKeys schema a b orderBy with
  | .ok ord => ord
  | .error _ => .eq

/-- The stable sort, where the comparator describes a total preorder on the rows. -/
def sortRows (schema : Schema) (orderBy : List (Expr × Bool)) (l : List Tuple) :
    Option (List Tuple) :=
  if (∀ a ∈ l, ∀ b ∈ l, compareKeys schema a b orderBy = .ok (keyOrder schema orderBy a b)) ∧
      OrdersOn (keyOrder schema orderBy) l then
    some (l.insertionSort fun a b => (keyOrder schema orderBy a b).isLE)
  else none

def visibleRows (ctx : ExecutionContext) (tuples : List Tuple) : List Tuple :=
  tuples.filter fun t => ctx.txMgr.isVisible t.txId ctx.sessionTxId ctx.crScn

def projectRow (schema : Schema) (exprs : List Expr) (t : Tuple) : Result Tuple :=
  Tuple.new <$> exprs.mapM fun expr => expr.eval t schema

/-- The result of a plan, if its evaluation succeeds. -/
def LogicalPlan.rows (ctx : ExecutionContext) (catalog : Catalog) :
    LogicalPlan → Option (List Tuple)
  | dummyScan => some [Tuple.new []]
  | scan tableName _ => (ctx.tables.lookup tableName).map (visibleRows ctx)
  | filter child predicate => do
    let l ← child.rows ctx catalog
    let schema ← (child.schema catalog).toOption
    (keepRows (fun t => Value.isTruthy <$> predicate.eval t schema) l).toOption
  | project child exprs => do
    let l ← child.rows ctx catalog
    let schema ← (child.schema catalog).toOption
    (l.mapM (projectRow schema (exprs.map Prod.fst))).toOption
  | limit child limitVal offset => do
    let l ← child.rows ctx catalog
    some (takeLimit limitVal (l.drop (offset.getD 0)))
  | sort child orderBy => do
    let l ← child.rows ctx catalog
    let schema ← (child.schema catalog).toOption
    sortRows schema orderBy l
  | join left right condition => do
    let leftRows ← left.rows ctx catalog
    let rightRows ← right.rows ctx catalog
    let schema ← ((join left right condition).schema catalog).toOption
    (keepRows (joinMatches condition schema) (product leftRows rightRows)).toOption
  | agg _ _ _ => none

/--
The assumption on `sort_by`: it sorts stably when its comparator does not panic
and describes a total preorder on the vector.
-/
def SortsStably [Collections] : Prop :=
  ∀ (cmp : Tuple → Tuple → Result Ordering) (ord : Tuple → Tuple → Ordering) (l : List Tuple),
    (∀ a ∈ l, ∀ b ∈ l, cmp a b = .ok (ord a b)) → OrdersOn ord l →
    ∃ l', Collections.sortBy cmp l = .ok l' ∧ IsStableSort (fun a b => (ord a b).isLE) l l'

omit [BuildProfile] in
/-- Collections that sort by insertion and iterate hash maps in the order of their keys. -/
@[reducible] def insertionCollections : Collections where
  sortBy cmp l := do
    let _ ← l.mapM fun a => l.mapM (cmp a)
    pure (l.insertionSort fun a b => ((cmp a b).toOption.getD .eq).isLE)
  iterOrder keys := keys

omit [BuildProfile] in
theorem sortsStably_insertionCollections : @SortsStably insertionCollections := by
  intro cmp ord l hcmp hord
  have hall : (l.mapM fun a => l.mapM (cmp a)) = .ok (l.map fun a => l.map (ord a)) :=
    Result.mapM_eq_ok fun a ha => Result.mapM_eq_ok (hcmp a ha)
  have hle (a : Tuple) (ha : a ∈ l) (b : Tuple) (hb : b ∈ l) :
      (ord a b).isLE ↔ ((cmp a b).toOption.getD .eq).isLE := by
    rw [hcmp a ha b hb]; rfl
  have hpre : PreorderOn (fun a b => ((cmp a b).toOption.getD .eq).isLE) l :=
    hord.preorderOn.congr hle
  refine ⟨_, ?_, (isStableSort_insertionSort hpre).congr fun a ha b hb => (hle a ha b hb).symm⟩
  change ((l.mapM fun a => l.mapM (cmp a)) >>= fun _ => _) = _
  rw [hall]
  rfl

theorem sortBy_of_sortRows [Collections] (h : SortsStably) {schema : Schema}
    {orderBy : List (Expr × Bool)} {l l' : List Tuple} (hl : sortRows schema orderBy l = some l') :
    Collections.sortBy (fun a b => compareKeys schema a b orderBy) l = .ok l' := by
  unfold sortRows at hl
  split at hl
  · rename_i hcmp
    obtain ⟨l₁, hl₁, hstable⟩ := h _ _ l hcmp.1 hcmp.2
    have hpre := hcmp.2.preorderOn
    rw [hl₁, hstable.unique hpre (isStableSort_insertionSort hpre), ← Option.some_inj.mp hl]
  · cases hl

end VolcanoDb
