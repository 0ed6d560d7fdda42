import Mathlib.Data.List.TakeWhile
import VolcanoDb.Lib.Kleene
import VolcanoDb.Executor.Ordering

/-! # NULL in predicates

The meaning of predicates under the three-valued logic of SQL, against their
two-valued evaluation. Whatever is TRUE is kept; a filter and a join also keep
an UNKNOWN row if one of its comparisons with NULL is taken for true and no
part of the predicate makes up for that.
-/

namespace VolcanoDb

open Kleene (Truth Approximates Exceeds)

namespace Value

def truth : Value → Truth
  | null => none
  | v => some v.isTruthy

def ofTruth : Truth → Value
  | none => null
  | some b => bool b

theorem truth_of_ne_null {v : Value} (h : v ≠ null) : v.truth = some v.isTruthy := by
  cases v with
  | null => exact absurd rfl h
  | _ => rfl

theorem truth_eq_some_true {v : Value} : v.truth = some true ↔ v.isTruthy = true := by
  cases v <;> simp [truth, isTruthy]

theorem ofTruth_eq_null {u : Truth} : ofTruth u = null ↔ u = none := by
  rcases u with _ | b <;> simp [ofTruth]

end Value

def comparisonOps : List String := ["=", "==", "!=", "<>", ">", ">=", "<", "<="]

namespace Expr

/-- Predicates of columns, constants, comparisons, `AND` and `OR`. -/
inductive IsPredicate : Expr → Prop where
  | colRef (name : String) : IsPredicate (.colRef name)
  | const (val : Value) : IsPredicate (.const val)
  | comparison {op : String} {left right : Expr} : op ∈ comparisonOps → IsPredicate left →
      IsPredicate right → IsPredicate (.binaryOp op left right)
  | and {left right : Expr} : IsPredicate left → IsPredicate right →
      IsPredicate (.binaryOp "and" left right)
  | or {left right : Expr} : IsPredicate left → IsPredicate right →
      IsPredicate (.binaryOp "or" left right)

end Expr

section Sql

variable [BuildProfile]

/-- An operator of SQL: a connective of three-valued logic, or NULL if an operand is. -/
def sqlBinaryOp (op : String) (left right : Value) : Result Value :=
  if op = "and" then pure (.ofTruth (Kleene.and left.truth right.truth))
  else if op = "or" then pure (.ofTruth (Kleene.or left.truth right.truth))
  else if left = .null ∨ right = .null then pure .null
  else evalBinaryOp op left right

namespace Expr

/-- The value of an expression in SQL. -/
def sqlEval : Expr → Tuple → Schema → Result Value
  | .binaryOp op left right, tuple, schema => do
    let lVal ← left.sqlEval tuple schema
    let rVal ← right.sqlEval tuple schema
    sqlBinaryOp op lVal rVal
  | e, tuple, schema => e.eval tuple schema

def sqlValue (e : Expr) (tuple : Tuple) (schema : Schema) : Value :=
  (e.sqlEval tuple schema).toOption.getD .null

def isTrue (p : Expr) (schema : Schema) (tuple : Tuple) : Bool :=
  (p.sqlValue tuple schema).isTruthy

omit [BuildProfile] in
/-- The value that the code works with in place of one of SQL: a predicate is never NULL. -/
def taken (mistaken : Bool) : Expr → Value → Value
  | .binaryOp _ _ _, .null => .bool mistaken
  | _, v => v

/-- An UNKNOWN predicate is taken for true on a tuple. -/
def mistaken : Expr → Tuple → Schema → Bool
  | .binaryOp op left right, tuple, schema =>
    let l := left.sqlValue tuple schema
    let r := right.sqlValue tuple schema
    let lWrong := left.mistaken tuple schema
    let rWrong := right.mistaken tuple schema
    if op = "and" then (l.isTruthy || lWrong) && (r.isTruthy || rWrong) && (lWrong || rWrong)
    else if op = "or" then (lWrong || rWrong) && !l.isTruthy && !r.isTruthy
    else (l = .null ∨ r = .null) ∧
      (evalBinaryOp op (left.taken lWrong l) (right.taken rWrong r)).toOption = some (.bool true)
  | _, _, _ => false

end Expr

end Sql

section Reading

variable [BuildProfile] {e p l r : Expr} {tuple : Tuple} {schema : Schema} {v s : Value}

/-- What the code makes of an expression whose value in SQL is known. -/
structure Expr.Reads (e : Expr) (tuple : Tuple) (schema : Schema) (v s : Value) : Prop where
  sql : e.sqlEval tuple schema = .ok s
  read : v = e.taken (e.mistaken tuple schema) s
  unknown : e.mistaken tuple schema = true → s = .null

theorem Expr.Reads.sqlValue (h : e.Reads tuple schema v s) : e.sqlValue tuple schema = s := by
  rw [Expr.sqlValue, h.sql]
  rfl

omit [BuildProfile] in
theorem Expr.taken_of_ne_null (mistaken : Bool) (h : s ≠ .null) : e.taken mistaken s = s := by
  cases s with
  | null => exact absurd rfl h
  | _ => cases e <;> rfl

theorem Expr.taken_null (e : Expr) (tuple : Tuple) (schema : Schema) :
    (e.taken (e.mistaken tuple schema) .null).isTruthy = e.mistaken tuple schema := by
  cases e <;> rfl

theorem Expr.Reads.approximates (h : e.Reads tuple schema v s) :
    Approximates s.truth v.isTruthy := by
  by_cases hs : s = .null
  · rw [hs]
    exact Kleene.approximates_none
  · rw [h.read, Expr.taken_of_ne_null _ hs, Value.truth_of_ne_null hs]
    exact Kleene.approximates_some

theorem Expr.Reads.exceeds_iff (h : e.Reads tuple schema v s) :
    Exceeds s.truth v.isTruthy ↔ e.mistaken tuple schema = true := by
  by_cases hs : s = .null
  · subst hs
    rw [h.read, Expr.taken_null]
    exact ⟨And.right, fun hm => ⟨rfl, hm⟩⟩
  · constructor
    · rintro ⟨hnone, -⟩
      rw [Value.truth_of_ne_null hs] at hnone
      cases hnone
    · intro hm
      exact absurd (h.unknown hm) hs

theorem Expr.Reads.of_same (hsql : e.sqlEval tuple schema = .ok v)
    (hm : e.mistaken tuple schema = false) (hatom : v = .null → ∀ b, e.taken b .null = .null) :
    e.Reads tuple schema v v := by
  refine ⟨hsql, ?_, fun h => absurd (hm.symm.trans h) Bool.false_ne_true⟩
  by_cases hv : v = .null
  · rw [hv]
    exact (hatom hv _).symm
  · exact (Expr.taken_of_ne_null _ hv).symm

theorem Expr.Reads.of_truth {op : String} {u : Truth} {b : Bool}
    (hsql : (Expr.binaryOp op l r).sqlEval tuple schema = .ok (.ofTruth u))
    (happ : Approximates u b)
    (hexc : Exceeds u b ↔ (Expr.binaryOp op l r).mistaken tuple schema = true) :
    (Expr.binaryOp op l r).Reads tuple schema (.bool b) (.ofTruth u) := by
  refine ⟨hsql, ?_, fun hm => Value.ofTruth_eq_null.mpr (hexc.mpr hm).1⟩
  rcases u with _ | c
  · have hb : (Expr.binaryOp op l r).mistaken tuple schema = b := by
      rw [Bool.eq_iff_iff, ← hexc]
      exact ⟨And.right, fun hb => ⟨rfl, hb⟩⟩
    rw [hb]
    rfl
  · rw [happ c rfl]
    rfl

theorem Expr.Reads.and {vl vr sl sr : Value} (hl : l.Reads tuple schema vl sl)
    (hr : r.Reads tuple schema vr sr) :
    (Expr.binaryOp "and" l r).Reads tuple schema (.bool (vl.isTruthy && vr.isTruthy))
      (.ofTruth (Kleene.and sl.truth sr.truth)) := by
  refine .of_truth ?_ (hl.approximates.and hr.approximates) ?_
  · simp [Expr.sqlEval, hl.sql, hr.sql, sqlBinaryOp]
  · rw [Kleene.exceeds_and hl.approximates hr.approximates, hl.exceeds_iff, hr.exceeds_iff,
      Value.truth_eq_some_true, Value.truth_eq_some_true]
    simp [Expr.mistaken, hl.sqlValue, hr.sqlValue, and_assoc]

theorem Expr.Reads.or {vl vr sl sr : Value} (hl : l.Reads tuple schema vl sl)
    (hr : r.Reads tuple schema vr sr) :
    (Expr.binaryOp "or" l r).Reads tuple schema (.bool (vl.isTruthy || vr.isTruthy))
      (.ofTruth (Kleene.or sl.truth sr.truth)) := by
  refine .of_truth ?_ (hl.approximates.or hr.approximates) ?_
  · simp [Expr.sqlEval, hl.sql, hr.sql, sqlBinaryOp]
  · rw [Kleene.exceeds_or hl.approximates hr.approximates, hl.exceeds_iff, hr.exceeds_iff,
      Ne, Ne, Value.truth_eq_some_true, Value.truth_eq_some_true]
    simp [Expr.mistaken, hl.sqlValue, hr.sqlValue, and_assoc]

theorem evalBinaryOp_comparison {op : String} (h : op ∈ comparisonOps)
    (a b : Value) : ∃ c, evalBinaryOp op a b = .ok (.bool c) := by
  simp only [comparisonOps, List.mem_cons, List.not_mem_nil, or_false] at h
  rcases h with rfl | rfl | rfl | rfl | rfl | rfl | rfl | rfl <;> exact ⟨_, rfl⟩

omit [BuildProfile] in
theorem ne_connective {op : String} (h : op ∈ comparisonOps) : op ≠ "and" ∧ op ≠ "or" := by
  constructor <;> rintro rfl <;> revert h <;> decide

theorem Expr.Reads.comparison {op : String} (hop : op ∈ comparisonOps) {vl vr sl sr : Value}
    (hl : l.Reads tuple schema vl sl) (hr : r.Reads tuple schema vr sr) {c : Bool}
    (hc : evalBinaryOp op vl vr = .ok (.bool c)) :
    ∃ s, (Expr.binaryOp op l r).Reads tuple schema (.bool c) s := by
  obtain ⟨hand, hor⟩ := ne_connective hop
  have hvl := hl.read
  have hvr := hr.read
  by_cases hnull : sl = .null ∨ sr = .null
  · refine ⟨.null, Expr.Reads.of_truth (u := none) ?_ Kleene.approximates_none ?_⟩
    · simp [Expr.sqlEval, hl.sql, hr.sql, sqlBinaryOp, hand, hor, hnull, Value.ofTruth]
    · simp [Expr.mistaken, hl.sqlValue, hr.sqlValue, hand, hor, hnull, ← hvl, ← hvr, hc, Exceeds]
  · obtain ⟨hsl, hsr⟩ := not_or.mp hnull
    rw [Expr.taken_of_ne_null _ hsl] at hvl
    rw [Expr.taken_of_ne_null _ hsr] at hvr
    subst hvl hvr
    refine ⟨.bool c, Expr.Reads.of_same ?_ ?_ fun h => by cases h⟩
    · simp [Expr.sqlEval, hl.sql, hr.sql, sqlBinaryOp, hand, hor, hnull, hc]
    · simp [Expr.mistaken, hl.sqlValue, hr.sqlValue, hand, hor, hnull]

/-- A predicate that the code evaluates has a value in SQL, and is read from it. -/
theorem Expr.IsPredicate.reads (hp : p.IsPredicate) (h : p.eval tuple schema = .ok v) :
    ∃ s, p.Reads tuple schema v s := by
  induction hp generalizing v with
  | colRef name | const val => exact ⟨v, .of_same h rfl fun _ _ => rfl⟩
  | comparison hop _ _ ihl ihr =>
    simp only [Expr.eval, Result.bind_eq_ok] at h
    obtain ⟨vl, hvl, vr, hvr, hv⟩ := h
    obtain ⟨sl, hl⟩ := ihl hvl
    obtain ⟨sr, hr⟩ := ihr hvr
    obtain ⟨c, hc⟩ := evalBinaryOp_comparison hop vl vr
    obtain rfl := Except.ok.inj (hc.symm.trans hv)
    exact hl.comparison hop hr hc
  | and _ _ ihl ihr =>
    simp only [Expr.eval, Result.bind_eq_ok] at h
    obtain ⟨vl, hvl, vr, hvr, hv⟩ := h
    obtain ⟨sl, hl⟩ := ihl hvl
    obtain ⟨sr, hr⟩ := ihr hvr
    cases hv
    exact ⟨_, hl.and hr⟩
  | or _ _ ihl ihr =>
    simp only [Expr.eval, Result.bind_eq_ok] at h
    obtain ⟨vl, hvl, vr, hvr, hv⟩ := h
    obtain ⟨sl, hl⟩ := ihl hvl
    obtain ⟨sr, hr⟩ := ihr hvr
    cases hv
    exact ⟨_, hl.or hr⟩

theorem Expr.IsPredicate.isTruthy_iff (hp : p.IsPredicate) (h : p.eval tuple schema = .ok v) :
    v.isTruthy = p.isTrue schema tuple ↔ p.mistaken tuple schema = false := by
  obtain ⟨s, hs⟩ := hp.reads h
  rw [Expr.isTrue, hs.sqlValue, Bool.eq_iff_iff, ← Value.truth_eq_some_true (v := s),
    hs.approximates.right_iff, hs.exceeds_iff, Bool.not_eq_true]

/--
A comparison of columns and constants is mistaken about two NULLs under an
operator that holds of equal values, and about one NULL under inequality.
-/
theorem Expr.mistaken_comparison {op : String} (hop : op ∈ comparisonOps) {a b : Value}
    (hl : l.Reads tuple schema a a) (hr : r.Reads tuple schema b b) :
    (Expr.binaryOp op l r).mistaken tuple schema = true ↔
      (a = .null ∧ b = .null ∧ op ∈ ["=", "==", ">=", "<="]) ∨
        (¬ (a = .null ↔ b = .null) ∧ op ∈ ["!=", "<>"]) := by
  obtain ⟨hand, hor⟩ := ne_connective hop
  simp only [Expr.mistaken, hl.sqlValue, hr.sqlValue, hand, hor, if_false, ← hl.read, ← hr.read,
    decide_eq_true_eq]
  have hops : op = "=" ∨ op = "==" ∨ op = "!=" ∨ op = "<>" ∨ op = ">" ∨ op = ">=" ∨ op = "<" ∨
      op = "<=" := by simpa [comparisonOps] using hop
  rcases hops with rfl | rfl | rfl | rfl | rfl | rfl | rfl | rfl <;> cases a <;> cases b <;>
    simp [evalBinaryOp, Value.eq, Value.gt, Value.ge, Value.lt, Value.le, Value.partialCmp]

end Reading

section Execution

variable [BuildProfile] {p : Expr} {schema : Schema}

def Expr.evaluated (p : Expr) (schema : Schema) (rows : List Tuple) : List Tuple :=
  rows.takeWhile fun t => (p.eval t schema).isOk

def Expr.keeps (p : Expr) (schema : Schema) (t : Tuple) : Bool :=
  (p.eval t schema).toOption.any Value.isTruthy

theorem Expr.isOk_of_mem_evaluated {rows : List Tuple} {t : Tuple}
    (h : t ∈ p.evaluated schema rows) : ∃ v, p.eval t schema = .ok v := by
  have hok := List.mem_takeWhile_imp h
  rcases hv : p.eval t schema with f | v
  · rw [hv] at hok
    cases hok
  · exact ⟨v, rfl⟩

theorem rows_keepUntil (p : Expr) (schema : Schema) (stop : Option Fault) (rows : List Tuple) :
    (Stream.keepUntil (fun t => Value.isTruthy <$> p.eval t schema) stop rows).rows =
      (p.evaluated schema rows).filter (p.keeps schema) := by
  induction rows with
  | nil => rfl
  | cons t rows ih =>
    unfold Expr.evaluated at ih ⊢
    rw [Stream.keepUntil]
    rcases hv : p.eval t schema with f | v
    · simp [hv, Except.isOk, Except.toBool]
    · rw [List.takeWhile_cons_of_pos (by simp [hv, Except.isOk, Except.toBool]), List.filter_cons,
        ← ih]
      cases ht : v.isTruthy <;> simp [hv, ht, Expr.keeps, Stream.cons]

omit [BuildProfile] in
theorem filter_eq_filter_iff {α : Type} {f g : α → Bool} {l : List α} :
    l.filter f = l.filter g ↔ ∀ a ∈ l, f a = g a := by
  constructor
  · intro h a ha
    have hmem : a ∈ l.filter f ↔ a ∈ l.filter g := by rw [h]
    simp only [List.mem_filter, ha, true_and] at hmem
    exact Bool.eq_iff_iff.mpr hmem
  · exact List.filter_congr

theorem Expr.IsPredicate.filter_eq_iff (hp : p.IsPredicate) (rows : List Tuple) :
    (p.evaluated schema rows).filter (p.keeps schema) =
        (p.evaluated schema rows).filter (p.isTrue schema) ↔
      ∀ t ∈ p.evaluated schema rows, p.mistaken t schema = false := by
  rw [filter_eq_filter_iff]
  apply forall₂_congr
  intro t ht
  obtain ⟨v, hv⟩ := Expr.isOk_of_mem_evaluated ht
  rw [← hp.isTruthy_iff hv, Expr.keeps, hv]
  rfl

variable [Collections] {ctx : ExecutionContext} {catalog : Catalog}

/-- The rows that an operator hands out after `init`, up to its end or its first failure. -/
def handedOut (ctx : ExecutionContext) (e : Executor) : List Tuple :=
  ((Executor.source ctx).drain (e.init ctx).2).2.1

theorem handedOut_of_starts {e : Executor} {s : Stream} (h : Executor.Starts ctx e (.ok s)) :
    handedOut ctx e = s.rows := by
  obtain ⟨e', hi, hh⟩ := h
  obtain ⟨e'', hd⟩ := hh.drain
  rw [handedOut, hi, hd]

theorem stream_of_init {plan : LogicalPlan} {e : Executor}
    (hb : buildExecutor catalog plan = .ok e) (hi : (e.init ctx).1 = .ok ()) :
    ∃ s, plan.stream ctx catalog = .ok s ∧ handedOut ctx e = s.rows := by
  have hstart : Executor.Starts ctx e (plan.stream ctx catalog) := Executor.starts_stream hb
  rcases hs : plan.stream ctx catalog with f | s
  · rw [hs] at hstart
    rw [show (e.init ctx).1 = .error f from hstart] at hi
    cases hi
  · exact ⟨s, rfl, handedOut_of_starts (hs ▸ hstart)⟩

theorem handedOut_filter {child : LogicalPlan} {c e : Executor}
    (hc : buildExecutor catalog child = .ok c)
    (he : buildExecutor catalog (.filter child p) = .ok e) (hi : (e.init ctx).1 = .ok ())
    (hs : child.schema catalog = .ok schema) :
    handedOut ctx e = (p.evaluated schema (handedOut ctx c)).filter (p.keeps schema) := by
  obtain ⟨s, hstream, hrows⟩ := stream_of_init he hi
  simp only [LogicalPlan.stream, hs, Result.bind_eq_ok] at hstream
  obtain ⟨sc, hsc, _, ⟨⟩, ⟨⟩⟩ := hstream
  have hchild : handedOut ctx c = sc.rows :=
    handedOut_of_starts (hsc ▸ Executor.starts_stream hc)
  rw [hrows, rows_keepUntil, hchild]

theorem handedOut_join {left right : LogicalPlan} {l r e : Executor}
    (hl : buildExecutor catalog left = .ok l) (hr : buildExecutor catalog right = .ok r)
    (he : buildExecutor catalog (.join left right (some p)) = .ok e)
    (hi : (e.init ctx).1 = .ok ())
    (hs : (LogicalPlan.join left right (some p)).schema catalog = .ok schema) :
    handedOut ctx e =
      (p.evaluated schema (product (handedOut ctx l) (handedOut ctx r))).filter
        (p.keeps schema) := by
  obtain ⟨s, hstream, hrows⟩ := stream_of_init he hi
  simp only [LogicalPlan.stream, hs, Result.bind_eq_ok] at hstream
  obtain ⟨sl, hsl, sr, hsr, rightRows, hall, _, ⟨⟩, hstream⟩ := hstream
  obtain rfl := Stream.all_eq_ok.mp hall
  have hleft : handedOut ctx l = sl.rows := handedOut_of_starts (hsl ▸ Executor.starts_stream hl)
  have hright : handedOut ctx r = rightRows :=
    handedOut_of_starts (hsr ▸ Executor.starts_stream hr)
  have hkeep :
      s = .keepUntil (joinMatches (some p) schema) sl.stop (product sl.rows rightRows) := by
    rcases sl with ⟨_ | ⟨t, rest⟩, _ | f⟩ <;> cases hstream <;> rfl
  rw [hrows, hkeep, hleft, hright]
  exact rows_keepUntil p schema _ _

/--
A filter hands out exactly the rows on which its predicate is TRUE, and a join
exactly the pairs on which its condition is, if and only if no UNKNOWN
predicate is taken for true on the rows that it is evaluated on.
-/
theorem keepsTrue_iff (hp : p.IsPredicate) :
    (∀ {child : LogicalPlan} {c e : Executor} {schema : Schema},
      buildExecutor catalog child = .ok c → buildExecutor catalog (.filter child p) = .ok e →
      (e.init ctx).1 = .ok () → child.schema catalog = .ok schema →
      let rows := p.evaluated schema (handedOut ctx c)
      handedOut ctx e = rows.filter (p.isTrue schema) ↔
        ∀ t ∈ rows, p.mistaken t schema = false) ∧
    (∀ {left right : LogicalPlan} {l r e : Executor} {schema : Schema},
      buildExecutor catalog left = .ok l → buildExecutor catalog right = .ok r →
      buildExecutor catalog (.join left right (some p)) = .ok e → (e.init ctx).1 = .ok () →
      (LogicalPlan.join left right (some p)).schema catalog = .ok schema →
      let rows := p.evaluated schema (product (handedOut ctx l) (handedOut ctx r))
      handedOut ctx e = rows.filter (p.isTrue schema) ↔
        ∀ t ∈ rows, p.mistaken t schema = false) := by
  constructor
  · intro child c e schema hc he hi hs rows
    rw [handedOut_filter hc he hi hs]
    exact hp.filter_eq_iff _
  · intro left right l r e schema hl hr he hi hs rows
    rw [handedOut_join hl hr he hi hs]
    exact hp.filter_eq_iff _

end Execution

section Sample

open Sample

theorem keepsTrue_users :
    let _ : BuildProfile := ⟨true⟩
    let _ := insertionCollections
    let p : Expr := .binaryOp ">" (.colRef "t.id") (.const (.int 1))
    let scanT : LogicalPlan := .scan "t" "t"
    let t : Schema := ⟨[⟨"t.id", .int⟩, ⟨"t.name", .varchar⟩]⟩
    let tu : Schema := ⟨t.columns ++ [⟨"u.id", .int⟩, ⟨"u.name", .varchar⟩]⟩
    (∃ c e, buildExecutor userCatalog scanT = .ok c ∧
      buildExecutor userCatalog (.filter scanT p) = .ok e ∧
      handedOut userContext e =
        (p.evaluated t (handedOut userContext c)).filter (p.isTrue t)) ∧
    ∃ l r e, buildExecutor userCatalog scanT = .ok l ∧
      buildExecutor userCatalog (.scan "t" "u") = .ok r ∧
      buildExecutor userCatalog (.join scanT (.scan "t" "u") (some p)) = .ok e ∧
      handedOut userContext e =
        (p.evaluated tu (product (handedOut userContext l) (handedOut userContext r))).filter
          (p.isTrue tu) := by
  intro _ _ p scanT t tu
  have hp : p.IsPredicate := .comparison (by decide) (.colRef _) (.const _)
  have hscan : buildExecutor userCatalog scanT = .ok (.seqScan "t" 0) := rfl
  have hscanU : buildExecutor userCatalog (.scan "t" "u") = .ok (.seqScan "t" 0) := rfl
  obtain ⟨hfilter, hjoin⟩ := @keepsTrue_iff _ p _ userContext userCatalog hp
  constructor
  · refine ⟨_, _, hscan, rfl, ?_⟩
    exact (hfilter hscan rfl (by decide +kernel) rfl).mpr (by decide +kernel)
  · refine ⟨_, _, _, hscan, hscanU, rfl, ?_⟩
    exact (hjoin hscan hscanU rfl (by decide +kernel) rfl).mpr (by decide +kernel)

/-- A NULL passes `WHERE a <> 1`, and two NULLs are joined `ON t.a = u.a`; neither is TRUE. -/
theorem null_comparison_kept :
    let _ : BuildProfile := ⟨true⟩
    let _ := insertionCollections
    let catalog := Catalog.new.addTable "t" ⟨[⟨"a", .int⟩]⟩
    let row : Tuple := ⟨[.null], none, 0⟩
    let context := { userContext with tables := AList.insert "t" [row] ∅ }
    let t : LogicalPlan := .scan "t" "t"
    let p : Expr := .binaryOp "!=" (.colRef "a") (.const (.int 1))
    let c : Expr := .binaryOp "=" (.colRef "t.a") (.colRef "u.a")
    let pair := Tuple.new [.null, .null]
    p.IsPredicate ∧ executeQuery context catalog (.filter t p) = .ok [row] ∧
      p.sqlEval row ⟨[⟨"t.a", .int⟩]⟩ = .ok .null ∧
      c.IsPredicate ∧ executeQuery context catalog (.join t (.scan "t" "u") (some c)) = .ok [pair] ∧
      c.sqlEval pair ⟨[⟨"t.a", .int⟩, ⟨"u.a", .int⟩]⟩ = .ok .null := by
  intro _ _ catalog row context t p c pair
  refine ⟨.comparison (by decide) (.colRef _) (.const _), by decide +kernel, by decide +kernel,
    .comparison (by decide) (.colRef _) (.colRef _), by decide +kernel, by decide +kernel⟩

end Sample

end VolcanoDb
