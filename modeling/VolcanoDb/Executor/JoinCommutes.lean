import Mathlib.Data.List.Rotate
import Mathlib.Data.Multiset.Bind
import VolcanoDb.Executor.Failures
import VolcanoDb.Executor.Resolution

/-! # Inner joins commute

A join of two scans hands out the pairs of rows that its condition keeps, if it
can be evaluated on all pairs. Exchanging the sides rotates the columns of the
pairs and of the schema alike, which an expression does not notice as long as
its references are unambiguous.
-/

namespace VolcanoDb

/-- A reference that names exactly one column. -/
def Schema.Unambiguous (s : Schema) (name : String) : Prop :=
  ∃! i : ℕ, ∃ col : Column, s.columns[i]? = some col ∧ col.NamedBy name

def moveColumns (n : ℕ) (t : Tuple) : Tuple := .new (t.values.drop n ++ t.values.take n)

section Rotation

variable {n : ℕ} {s s' : Schema} {t t' : Tuple}

theorem Schema.Unambiguous.found {name : String} (h : s.Unambiguous name)
    (hs : s'.columns = s.columns.rotate n) : ∃ j, j < s.columns.length ∧
      s'.findColIdx name = some j ∧ s.findColIdx name = some ((j + n) % s.columns.length) := by
  obtain ⟨i, ⟨col, hcol, hnamed⟩, hunique⟩ := h
  rcases hidx : s'.findColIdx name with _ | j
  · have hmem : col ∈ s'.columns := hs ▸ List.mem_rotate.mpr (List.mem_of_getElem? hcol)
    exact absurd hnamed (Schema.findColIdx_eq_none.mp hidx col hmem)
  · obtain ⟨col', hcol', hnamed', -⟩ := Schema.findColIdx_eq_some.mp hidx
    have hj : j < s.columns.length := by
      have hlt := Schema.findColIdx_lt hidx
      rwa [hs, List.length_rotate] at hlt
    rw [hs, List.getElem?_rotate hj] at hcol'
    refine ⟨j, hj, rfl, ?_⟩
    apply Schema.findColIdx_eq_some.mpr
    refine ⟨col', hcol', hnamed', fun k c hk hc hcn => ?_⟩
    have hsame := (hunique k ⟨c, hc, hcn⟩).trans (hunique _ ⟨col', hcol', hnamed'⟩).symm
    exact absurd hsame hk.ne

theorem Schema.unambiguous_of_nodup {name : String} (hdot : hasDot name)
    (hmem : name ∈ s.columns.map Column.name) (hnodup : (s.columns.map Column.name).Nodup) :
    s.Unambiguous name := by
  have hnamed (col : Column) : col.NamedBy name ↔ col.name = name := by
    rw [Column.NamedBy, NameFits, if_pos hdot]
  obtain ⟨i, hi, hname⟩ := List.getElem_of_mem hmem
  have hi' : i < s.columns.length := by rwa [List.length_map] at hi
  have hcol : s.columns[i].name = name := by rwa [List.getElem_map] at hname
  refine ⟨i, ⟨_, List.getElem?_eq_getElem hi', (hnamed _).mpr hcol⟩, ?_⟩
  rintro j ⟨col, hcolj, hcn⟩
  obtain ⟨hj', rfl⟩ := List.getElem?_eq_some_iff.mp hcolj
  have hj : j < (s.columns.map Column.name).length := by rwa [List.length_map]
  have hsame : (s.columns.map Column.name)[j] = (s.columns.map Column.name)[i] := by
    rw [List.getElem_map, hname]
    exact (hnamed _).mp hcn
  exact hnodup.getElem_inj_iff.mp hsame

/-- Rotating the columns of a row and its schema alike does not change an expression. -/
theorem Expr.eval_rotate [BuildProfile] {e : Expr} (hs : s'.columns = s.columns.rotate n)
    (ht : t'.values = t.values.rotate n) (hlen : t.values.length = s.columns.length)
    (hnames : ∀ name ∈ e.references, s.Unambiguous name) : e.eval t' s' = e.eval t s := by
  induction e with
  | star | const val | funcCall name arg => rfl
  | colRef name =>
    obtain ⟨j, hj, hidx', hidx⟩ := (hnames name (List.mem_singleton_self name)).found hs
    have hval : t'.values[j]? = t.values[(j + n) % s.columns.length]? := by
      rw [ht, List.getElem?_rotate (hlen ▸ hj), hlen]
    simp only [Expr.eval, hidx', hidx, hval]
  | binaryOp op left right ihl ihr =>
    obtain ⟨hl, hr⟩ := List.forall_mem_append.mp hnames
    simp only [Expr.eval, ihl hl, ihr hr]

theorem moveColumns_values (h : n ≤ t.values.length) :
    (moveColumns n t).values = t.values.rotate n :=
  (List.rotate_eq_drop_append_take h).symm

theorem moveColumns_combine {l r : Tuple} (h : l.values.length = n) :
    moveColumns n (combine l r) = combine r l := by
  subst h
  simp [moveColumns, combine, Tuple.new]

theorem product_moved {left right : List Tuple} (h : ∀ l ∈ left, l.values.length = n) :
    ((product left right).map (moveColumns n)).Perm (product right left) := by
  have hmoved : (product left right).map (moveColumns n) =
      left.flatMap fun l => right.map fun r => combine r l := by
    rw [product, List.map_flatMap]
    apply List.flatMap_congr
    intro l hl
    rw [List.map_map]
    exact List.map_congr_left fun r _ => moveColumns_combine (h l hl)
  have hcomm := Multiset.bind_map_comm (left : Multiset Tuple) (right : Multiset Tuple)
    (f := fun l r => combine r l)
  rw [hmoved, product]
  apply Multiset.coe_eq_coe.mp
  simpa [Multiset.coe_bind, Multiset.map_coe] using hcomm

end Rotation

def accepted (test : Tuple → Result Bool) (l : List Tuple) : List Tuple :=
  l.filter fun t => (test t).toOption.getD false

theorem Stream.keepUntil_eq_iff {test : Tuple → Result Bool} {stop : Option Fault}
    {l out : List Tuple} : keepUntil test stop l = ⟨out, none⟩ ↔
      stop = none ∧ (∀ t ∈ l, (test t).toOption.isSome) ∧ accepted test l = out := by
  induction l generalizing out with
  | nil => simpa [keepUntil, accepted] using And.comm
  | cons t l ih =>
    unfold accepted at ih ⊢
    rw [keepUntil, List.forall_mem_cons, List.filter_cons]
    rcases ht : test t with f | b
    · simp
    · rcases hk : keepUntil test stop l with ⟨rows, stop'⟩
      simp only [hk, Stream.mk.injEq] at ih
      cases b with
      | false => simpa [hk] using ih
      | true =>
        simp only [Result.toOption_ok, Option.getD_some, if_true, Option.isSome_some, true_and,
          Stream.cons, Stream.mk.injEq]
        constructor
        · rintro ⟨rfl, hstop⟩
          obtain ⟨hnone, hall, hrows⟩ := ih.mp ⟨rfl, hstop⟩
          exact ⟨hnone, hall, by rw [hrows]⟩
        · rintro ⟨hnone, hall, rfl⟩
          obtain ⟨rfl, hstop⟩ := ih.mpr ⟨hnone, hall, rfl⟩
          exact ⟨rfl, hstop⟩

namespace Expr

/-- Expressions that differ in the order of the sides of equalities. -/
inductive SwapsEqualities : Expr → Expr → Prop where
  | refl (e : Expr) : SwapsEqualities e e
  | swap {op : String} {left left' right right' : Expr} : op ∈ ["=", "=="] →
      SwapsEqualities left left' → SwapsEqualities right right' →
      SwapsEqualities (.binaryOp op left right) (.binaryOp op right' left')
  | binaryOp {op : String} {left left' right right' : Expr} : SwapsEqualities left left' →
      SwapsEqualities right right' →
      SwapsEqualities (.binaryOp op left right) (.binaryOp op left' right')

variable [BuildProfile]

theorem toOption_eval_binaryOp (op : String) (left right : Expr) (t : Tuple) (s : Schema) :
    ((Expr.binaryOp op left right).eval t s).toOption =
      (left.eval t s).toOption.bind fun l =>
        (right.eval t s).toOption.bind fun r => (evalBinaryOp op l r).toOption := by
  simp only [Expr.eval, Result.toOption_bind]
  rfl

theorem evalBinaryOp_equality {op : String} (h : op ∈ ["=", "=="]) (l r : Value) :
    evalBinaryOp op l r = .ok (.bool (l.eq r)) := by
  rcases List.mem_pair.mp h with rfl | rfl <;> rfl

theorem SwapsEqualities.eval {e e' : Expr} (h : e.SwapsEqualities e') (t : Tuple) (s : Schema) :
    (e'.eval t s).toOption = (e.eval t s).toOption := by
  induction h with
  | refl e => rfl
  | @swap op left left' right right' hop _ _ ihl ihr =>
    rw [toOption_eval_binaryOp, toOption_eval_binaryOp, ihl, ihr]
    rcases (left.eval t s).toOption with _ | l <;> rcases (right.eval t s).toOption with _ | r
    · rfl
    · rfl
    · rfl
    · change (evalBinaryOp op r l).toOption = (evalBinaryOp op l r).toOption
      rw [evalBinaryOp_equality hop, evalBinaryOp_equality hop, Value.eq_comm]
  | binaryOp _ _ ihl ihr =>
    rw [toOption_eval_binaryOp, toOption_eval_binaryOp, ihl, ihr]

end Expr

section Joins

variable [BuildProfile] [Collections] {ctx : ExecutionContext} {catalog : Catalog}
  {a b : String} {aliasA aliasB : Option String} {sA sB : Schema}

omit [BuildProfile] [Collections] in
theorem schema_join (hA : (LogicalPlan.scan a aliasA).schema catalog = .ok sA)
    (hB : (LogicalPlan.scan b aliasB).schema catalog = .ok sB) (condition : Option Expr) :
    (LogicalPlan.join (.scan a aliasA) (.scan b aliasB) condition).schema catalog =
      .ok ⟨sA.columns ++ sB.columns⟩ := by
  rw [LogicalPlan.schema, hA, hB]
  rfl

theorem executeQuery_join_scans (hA : (LogicalPlan.scan a aliasA).schema catalog = .ok sA)
    (hB : (LogicalPlan.scan b aliasB).schema catalog = .ok sB) {condition : Option Expr}
    {out : List Tuple} :
    executeQuery ctx catalog (.join (.scan a aliasA) (.scan b aliasB) condition) = .ok out ↔
      ∃ rowsA rowsB, ctx.tables.lookup a = some rowsA ∧ ctx.tables.lookup b = some rowsB ∧
        let pairs := product (visibleRows ctx rowsA) (visibleRows ctx rowsB)
        let test := joinMatches condition ⟨sA.columns ++ sB.columns⟩
        (∀ t ∈ pairs, (test t).toOption.isSome) ∧ accepted test pairs = out := by
  rw [← Result.toOption_eq_some, Executor.toOption_executeQuery, Result.toOption_eq_some,
    LogicalPlan.answer]
  rcases ha : ctx.tables.lookup a with _ | rowsA <;> rcases hb : ctx.tables.lookup b with _ | rowsB
  · simp [LogicalPlan.stream, ha, hb, Stream.all]
  · simp [LogicalPlan.stream, ha, hb, Stream.all, schema_join hA hB]
  · simp [LogicalPlan.stream, ha, hb, Stream.all]
  · have hstream :
        (LogicalPlan.join (.scan a aliasA) (.scan b aliasB) condition).stream ctx catalog =
          .ok (.keepUntil (joinMatches condition ⟨sA.columns ++ sB.columns⟩) none
            (product (visibleRows ctx rowsA) (visibleRows ctx rowsB))) := by
      simp only [LogicalPlan.stream, ha, hb, Result.pure_eq_ok, Result.ok_bind, Stream.all,
        schema_join hA hB]
      rcases visibleRows ctx rowsA with _ | ⟨t, rest⟩ <;> rfl
    rw [hstream, Result.ok_bind, Stream.all_eq_ok, Stream.keepUntil_eq_iff]
    simp

omit [Collections] in
theorem joinMatches_moved {cond : Expr} {t : Tuple}
    (ht : t.values.length = sA.columns.length + sB.columns.length)
    (hnames : ∀ name ∈ cond.references,
      (⟨sA.columns ++ sB.columns⟩ : Schema).Unambiguous name) :
    joinMatches (some cond) ⟨sB.columns ++ sA.columns⟩ (moveColumns sA.columns.length t) =
      joinMatches (some cond) ⟨sA.columns ++ sB.columns⟩ t := by
  have hvalues : (moveColumns sA.columns.length t).values = t.values.rotate sA.columns.length :=
    moveColumns_values (ht ▸ Nat.le_add_right _ _)
  have hcolumns : sB.columns ++ sA.columns =
      (sA.columns ++ sB.columns).rotate sA.columns.length :=
    (List.rotate_append_length_eq _ _).symm
  have heval : cond.eval (moveColumns sA.columns.length t) ⟨sB.columns ++ sA.columns⟩ =
      cond.eval t ⟨sA.columns ++ sB.columns⟩ :=
    Expr.eval_rotate hcolumns hvalues (ht.trans List.length_append.symm) hnames
  rw [joinMatches, joinMatches, heval]

omit [Collections] in
/-- The accepted pairs of rows, and whether all are decided, are the same in both orders. -/
theorem accepted_moved {cond : Expr} {left right : List Tuple}
    (hleft : ∀ t ∈ left, t.values.length = sA.columns.length)
    (hright : ∀ t ∈ right, t.values.length = sB.columns.length)
    (hnames : ∀ name ∈ cond.references,
      (⟨sA.columns ++ sB.columns⟩ : Schema).Unambiguous name) :
    let test := joinMatches (some cond) ⟨sA.columns ++ sB.columns⟩
    let test' := joinMatches (some cond) ⟨sB.columns ++ sA.columns⟩
    ((∀ t ∈ product left right, (test t).toOption.isSome) ↔
        ∀ t ∈ product right left, (test' t).toOption.isSome) ∧
      ((accepted test (product left right)).map (moveColumns sA.columns.length)).Perm
        (accepted test' (product right left)) := by
  intro test test'
  have hmoved : ((product left right).map (moveColumns sA.columns.length)).Perm
      (product right left) := product_moved hleft
  have htest : ∀ t ∈ product left right, test' (moveColumns sA.columns.length t) = test t := by
    intro t ht
    obtain ⟨l, hl, r, hr, rfl⟩ := mem_product.mp ht
    refine joinMatches_moved ?_ hnames
    rw [combine, Tuple.new, List.length_append, hleft l hl, hright r hr]
  constructor
  · calc (∀ t ∈ product left right, (test t).toOption.isSome)
        ↔ ∀ t ∈ product left right, (test' (moveColumns sA.columns.length t)).toOption.isSome :=
          forall₂_congr fun t ht => by rw [htest t ht]
      _ ↔ ∀ t ∈ (product left right).map (moveColumns sA.columns.length),
            (test' t).toOption.isSome := by rw [List.forall_mem_map]
      _ ↔ ∀ t ∈ product right left, (test' t).toOption.isSome :=
          forall_congr' fun t => by rw [hmoved.mem_iff]
  · have hfilter : (accepted test (product left right)).map (moveColumns sA.columns.length) =
        accepted test' ((product left right).map (moveColumns sA.columns.length)) := by
      rw [accepted, accepted, List.filter_map]
      congr 1
      apply List.filter_congr
      intro t ht
      rw [Function.comp_apply, htest t ht]
    rw [hfilter]
    exact hmoved.filter _

omit [Collections] in
theorem joinMatches_swapped {cond cond' : Expr} (h : cond.SwapsEqualities cond')
    (schema : Schema) (t : Tuple) : (joinMatches (some cond') schema t).toOption =
      (joinMatches (some cond) schema t).toOption := by
  have hmap (x : Result Value) :
      (Value.isTruthy <$> x).toOption = x.toOption.map Value.isTruthy := by
    rcases x with f | v <;> rfl
  rw [joinMatches, joinMatches, hmap, hmap, h.eval]

theorem executeQuery_join_swapped (hA : (LogicalPlan.scan a aliasA).schema catalog = .ok sA)
    (hB : (LogicalPlan.scan b aliasB).schema catalog = .ok sB) {cond cond' : Expr}
    (h : cond.SwapsEqualities cond') (out : List Tuple) :
    executeQuery ctx catalog (.join (.scan a aliasA) (.scan b aliasB) (some cond')) = .ok out ↔
      executeQuery ctx catalog (.join (.scan a aliasA) (.scan b aliasB) (some cond)) = .ok out := by
  rw [executeQuery_join_scans hA hB, executeQuery_join_scans hA hB]
  simp only [joinMatches_swapped h, accepted]

/--
The join of two scans commutes: it succeeds in one order if it does in the
other, with the same rows up to the order of the columns, if the references of
its condition are unambiguous. Swapping the sides of equalities changes nothing.
-/
theorem join_commutes (harity : ArityHolds ctx.tables catalog)
    (hA : (LogicalPlan.scan a aliasA).schema catalog = .ok sA)
    (hB : (LogicalPlan.scan b aliasB).schema catalog = .ok sB) {cond : Expr}
    (hnames : ∀ name ∈ cond.references,
      (⟨sA.columns ++ sB.columns⟩ : Schema).Unambiguous name) :
    let joinAB := LogicalPlan.join (.scan a aliasA) (.scan b aliasB)
    let joinBA := LogicalPlan.join (.scan b aliasB) (.scan a aliasA)
    ((∃ out, executeQuery ctx catalog (joinAB (some cond)) = .ok out) ↔
        ∃ out, executeQuery ctx catalog (joinBA (some cond)) = .ok out) ∧
      (∀ out out', executeQuery ctx catalog (joinAB (some cond)) = .ok out →
        executeQuery ctx catalog (joinBA (some cond)) = .ok out' →
        (out.map (moveColumns sA.columns.length)).Perm out') ∧
      ∀ cond', cond.SwapsEqualities cond' → ∀ out,
        executeQuery ctx catalog (joinAB (some cond')) = .ok out ↔
          executeQuery ctx catalog (joinAB (some cond)) = .ok out := by
  intro joinAB joinBA
  have hfit {name : String} {aliasName : Option String} {s : Schema} {rows : List Tuple}
      (hs : (LogicalPlan.scan name aliasName).schema catalog = .ok s)
      (hrows : ctx.tables.lookup name = some rows) :
      ∀ t ∈ visibleRows ctx rows, t.values.length = s.columns.length := by
    have hstream : (LogicalPlan.scan name aliasName).stream ctx catalog =
        .ok ⟨visibleRows ctx rows, none⟩ := by rw [LogicalPlan.stream, hrows]; rfl
    have hfrom : (LogicalPlan.scan name aliasName).IsFrom := trivial
    exact hfrom.length_eq harity hs hstream
  refine ⟨?_, ?_, fun cond' h out => executeQuery_join_swapped hA hB h out⟩
  · simp only [joinAB, joinBA, executeQuery_join_scans hA hB, executeQuery_join_scans hB hA]
    constructor
    · rintro ⟨_, rowsA, rowsB, ha, hb, hall, -⟩
      exact ⟨_, rowsB, rowsA, hb, ha,
        (accepted_moved (hfit hA ha) (hfit hB hb) hnames).1.mp hall, rfl⟩
    · rintro ⟨_, rowsB, rowsA, hb, ha, hall, -⟩
      exact ⟨_, rowsA, rowsB, ha, hb,
        (accepted_moved (hfit hA ha) (hfit hB hb) hnames).1.mpr hall, rfl⟩
  · intro out out' hout hout'
    obtain ⟨rowsA, rowsB, ha, hb, -, rfl⟩ := (executeQuery_join_scans hA hB).mp hout
    obtain ⟨_, _, hb', ha', -, rfl⟩ := (executeQuery_join_scans hB hA).mp hout'
    obtain rfl := Option.some_inj.mp (ha.symm.trans ha')
    obtain rfl := Option.some_inj.mp (hb.symm.trans hb')
    exact (accepted_moved (hfit hA ha) (hfit hB hb) hnames).2

end Joins

section Sample

open Sample

theorem join_commutes_users :
    let _ : BuildProfile := ⟨true⟩
    let _ := insertionCollections
    let on : Expr := .binaryOp "<" (.colRef "t.id") (.colRef "u.id")
    let pair := Tuple.new [.int 1, .varchar "a", .int 2, .varchar "b"]
    let moved := Tuple.new [.int 2, .varchar "b", .int 1, .varchar "a"]
    executeQuery userContext userCatalog (.join (.scan "t" none) (.scan "t" "u") (some on)) =
        .ok [pair] ∧
      executeQuery userContext userCatalog (.join (.scan "t" "u") (.scan "t" none) (some on)) =
        .ok [moved] ∧
      ([pair].map (moveColumns 2)).Perm [moved] := by
  intro _ _ on pair moved
  let t : Schema := ⟨[⟨"t.id", .int⟩, ⟨"t.name", .varchar⟩]⟩
  let u : Schema := ⟨[⟨"u.id", .int⟩, ⟨"u.name", .varchar⟩]⟩
  have hschemaT : (LogicalPlan.scan "t" none).schema userCatalog = .ok t := rfl
  have hschemaU : (LogicalPlan.scan "t" "u").schema userCatalog = .ok u := rfl
  have hnames : ∀ name ∈ on.references,
      (⟨t.columns ++ u.columns⟩ : Schema).Unambiguous name := by
    intro name hname
    rcases List.mem_pair.mp hname with rfl | rfl
    · exact Schema.unambiguous_of_nodup (by decide) (by decide) (by decide)
    · exact Schema.unambiguous_of_nodup (by decide) (by decide) (by decide)
  have hTU : executeQuery userContext userCatalog
      (.join (.scan "t" none) (.scan "t" "u") (some on)) = .ok [pair] := by decide +kernel
  have hUT : executeQuery userContext userCatalog
      (.join (.scan "t" "u") (.scan "t" none) (some on)) = .ok [moved] := by decide +kernel
  exact ⟨hTU, hUT,
    (join_commutes arityHolds_users hschemaT hschemaU hnames).2.1 [pair] [moved] hTU hUT⟩

namespace ShortRow

/-! A table of two columns with a row of one value, and a table with one column. -/

def catalog : Catalog :=
  (Catalog.new.addTable "t" ⟨[⟨"a", .int⟩, ⟨"b", .int⟩]⟩).addTable "u" ⟨[⟨"c", .int⟩]⟩

def context : ExecutionContext where
  tables := AList.insert "u" [Tuple.new [.int 2]] (AList.insert "t" [Tuple.new [.int 1]] ∅)
  txMgr := TransactionManager.new ⟨[]⟩
  sessionTxId := none
  crScn := 0

end ShortRow

open ShortRow in
/--
`t JOIN u ON t.b = 2` takes the value of `u.c` for that of `t.b`, which is missing, and
`u JOIN t` panics; an equality fails as the side that it has on the left.
-/
theorem join_not_commutes :
    let _ : BuildProfile := ⟨true⟩
    let _ := insertionCollections
    let on : Expr := .binaryOp "=" (.colRef "t.b") (.const (.int 2))
    let divides : Expr := .binaryOp "/" (.const (.int 1)) (.const (.int 0))
    let overflows : Expr := .binaryOp "+" (.const (.int Int64.maxValue)) (.const (.int 1))
    (∀ name ∈ on.references,
      (⟨[⟨"t.a", .int⟩, ⟨"t.b", .int⟩, ⟨"u.c", .int⟩]⟩ : Schema).Unambiguous name) ∧
    executeQuery context catalog (.join (.scan "t" none) (.scan "u" none) (some on)) =
      .ok [Tuple.new [.int 1, .int 2]] ∧
    executeQuery context catalog (.join (.scan "u" none) (.scan "t" none) (some on)) =
      panicking "index out of bounds" ∧
    executeQuery context catalog
      (.join (.scan "t" none) (.scan "u" none) (some (.binaryOp "=" divides overflows))) =
      err .divisionByZero ∧
    executeQuery context catalog
      (.join (.scan "t" none) (.scan "u" none) (some (.binaryOp "=" overflows divides))) =
      panicking "attempt to add with overflow" := by
  intro _ _ on divides overflows
  refine ⟨fun name hname => ?_, by decide +kernel, by decide +kernel, by decide +kernel,
    by decide +kernel⟩
  obtain rfl := List.mem_singleton.mp hname
  exact Schema.unambiguous_of_nodup (by decide) (by decide) (by decide)

end Sample

end VolcanoDb
