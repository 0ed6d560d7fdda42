import VolcanoDb.Executor.Clauses
import VolcanoDb.Executor.Typing
import Mathlib.Data.List.Permutation

/-! # Orders of results

What `ORDER BY` asks for: the rows of a query in the order of its keys, each of
which names an output column or is an expression over the row, or the group of
rows, that an output row comes from. The engine sorts the output rows instead,
and looks up the names of the keys among the output columns.
-/

namespace VolcanoDb

open StableSort

namespace Expr

/--
What an expression reads in a row whose columns hold expressions: every reference
stands for the first column that it fits.
-/
def readOff (columns : List (String × Expr)) : Expr → Option Expr
  | colRef name => (columns.find? fun col => NameFits name col.1).map Prod.snd
  | const val => some (const val)
  | binaryOp op left right => do
    let left ← left.readOff columns
    let right ← right.readOff columns
    some (binaryOp op left right)
  | funcCall _ _ | star => none

/-- Expressions that differ at most in how they refer to the columns of a schema. -/
def SameColumns (schema : Schema) : Expr → Expr → Prop
  | colRef name, colRef name' => schema.findColIdx name = schema.findColIdx name'
  | const val, const val' => val = val'
  | binaryOp op left right, binaryOp op' left' right' =>
    op = op' ∧ left.SameColumns schema left' ∧ right.SameColumns schema right'
  | funcCall name arg, funcCall name' arg' => name = name' ∧ arg.SameColumns schema arg'
  | star, star => True
  | _, _ => False

end Expr

section Keys

variable [BuildProfile]

/-- An expression over a group: aggregates run over its rows, and anything else reads the last. -/
def evalOver (schema : Schema) (rows : List Tuple) : Expr → Result Value
  | .funcCall name arg => AggState.finalize <$> aggregateOver schema (name, arg, "") rows
  | .binaryOp op left right => do
    let lVal ← evalOver schema rows left
    let rVal ← evalOver schema rows right
    evalBinaryOp op lVal rVal
  | e => e.eval (rows.getLast?.getD (Tuple.new [])) schema

omit [BuildProfile] in
def outputName : Expr × String → String
  | (.colRef name, aliasName) => if aliasName = name then baseName name else aliasName
  | (_, aliasName) => aliasName

omit [BuildProfile] in
/-- The expression that a key stands for; a bare name is first that of an output column. -/
def keyExpr [Unicode] (targets : List (Expr × String)) : Sql.Expr → Result Expr
  | .identifier ident =>
    match targets.find? fun target => outputName target = ident.value with
    | some target => pure target.1
    | none => pure (.colRef ident.value)
  | e => fullSqlExpr e

namespace Clauses

variable (catalog : Catalog) (c : Clauses)

omit [BuildProfile] in
def sortKeys : List (Expr × Bool) := c.orderBy.map fun key => (key.expr, key.asc)

/-- What the output rows come from: rows of `FROM` and `WHERE`, or groups of them. -/
def sources [Collections] (ctx : ExecutionContext) : Option (List (List Tuple)) := do
  let s ← c.filtered ctx catalog
  let schema ← c.source.schema catalog
  let rows ← s.all.toOption
  if c.Grouped then
    let g ← (Stream.groups c.groupBy [] schema ⟨rows, none⟩).toOption
    some ((Collections.iterOrder g.groups.keys).map fun key => members c.groupBy schema key rows)
  else some (rows.map fun t => [t])

def outputRow (rows : List Tuple) : Option Tuple := do
  let schema ← c.source.schema catalog
  if c.Grouped then
    let groupS ← groupSchema c.groupBy c.calls schema
    let t ← (groupTuple c.groupBy c.calls schema rows).toOption
    (projectRow groupS (c.groupTargets.map Prod.fst) t).toOption
  else
    let t ← rows.getLast?
    (projectRow schema (c.targets.map Prod.fst) t).toOption

omit [BuildProfile] in
def groupColumns : List (String × Expr) :=
  c.groupBy.map (fun e => (getExprName e, e)) ++
    c.calls.map fun f => (f.2.2, Expr.funcCall f.1 f.2.1)

omit [BuildProfile] in
/-- The expression over `FROM`, or over a group, that an expression reads in the output rows. -/
def readBack (e : Expr) : Option Expr :=
  if c.Grouped then do
    let e ← e.readOff (c.groupTargets.map Prod.swap)
    e.readOff c.groupColumns
  else e.readOff (c.targets.map Prod.swap)

variable [Unicode]

def keyValue (e : Sql.Expr) (rows : List Tuple) : Option Value := do
  let schema ← c.source.schema catalog
  let expr ← (keyExpr c.targets e).toOption
  (evalOver schema rows expr).toOption

/-- The lexicographic order of the keys, each in its direction. -/
def compareSources (a b : List Tuple) : List Sql.OrderByExpr → Ordering
  | [] => .eq
  | key :: keys =>
    let ord : Ordering := match c.keyValue catalog key.expr a, c.keyValue catalog key.expr b with
      | some valA, some valB => (valA.partialCmp valB).getD .eq
      | _, _ => .eq
    (if key.asc.getD true then ord else ord.swap).then (compareSources a b keys)

omit [BuildProfile] in
/-- Whether the key that the binder sorts by leads back to the expression that is asked for. -/
def ReadsKey (e : Sql.Expr) : Prop :=
  ∃ schema bound read own, c.source.schema catalog = some schema ∧ mapSqlExpr e = .ok bound ∧
    c.readBack bound = some read ∧ keyExpr c.targets e = .ok own ∧ read.SameColumns schema own

/-- Whether every key has values of one type, neither `NULL` nor NaN. -/
def KeysTyped (keys : List Sql.OrderByExpr) (sources : List (List Tuple)) : Prop :=
  ∀ key ∈ keys, ∃ dt, ∀ s ∈ sources, ∃ v, c.keyValue catalog key.expr s = some v ∧
    v.HasType dt ∧ v ≠ .null ∧ v ≠ .float .nan

/-- The rows are those of the sources in the order of the keys, as far as the window goes. -/
def OrderHonoured [Collections] (ctx : ExecutionContext) (keys : List Sql.OrderByExpr)
    (rows : List Tuple) : Prop :=
  ∃ sources sorted outputs, c.sources catalog ctx = some sources ∧ sorted.Perm sources ∧
    sorted.Pairwise (fun s s' => (c.compareSources catalog s s' keys).isLE) ∧
    List.Forall₂ (fun s t => c.outputRow catalog s = some t) sorted outputs ∧
    rows = takeLimit (literalCount c.limit) (outputs.drop ((literalCount c.offset).getD 0))

end Clauses

end Keys

namespace Value

theorem ordersOn_of_keys {α : Type} (c : α → α → Ordering) [Std.TransCmp c] (f : α → Value)
    (p : α → Prop) {l : List Value} (hl : ∀ v ∈ l, ∃ a, f a = v ∧ p a)
    (hc : ∀ a b, p a → p b → ((f a).partialCmp (f b)).getD .eq = c a b) :
    OrdersOn (fun v w => (v.partialCmp w).getD .eq) l := by
  constructor
  · intro v hv w hw
    obtain ⟨a, rfl, ha⟩ := hl v hv
    obtain ⟨b, rfl, hb⟩ := hl w hw
    rw [hc a b ha hb, hc b a hb ha]
    exact Std.OrientedCmp.eq_swap
  · intro v hv w hw x hx
    obtain ⟨a, rfl, ha⟩ := hl v hv
    obtain ⟨b, rfl, hb⟩ := hl w hw
    obtain ⟨d, rfl, hd⟩ := hl x hx
    rw [hc a b ha hb, hc b d hb hd, hc a d ha hd]
    exact Std.TransCmp.isLE_trans

theorem ordersOn (dt : DataType) {l : List Value}
    (h : ∀ v ∈ l, v.HasType dt ∧ v ≠ .null ∧ v ≠ .float .nan) :
    OrdersOn (fun a b => (a.partialCmp b).getD .eq) l := by
  cases dt with
  | int =>
    refine ordersOn_of_keys (compareOn Int64.toInt) .int (fun _ => True) (fun v hv => ?_)
      fun a b _ _ => rfl
    obtain ⟨ht, hn, -⟩ := h v hv
    cases v with
    | int i => exact ⟨i, rfl, trivial⟩
    | null => exact absurd rfl hn
    | float | varchar | bool => cases ht
  | float =>
    refine ordersOn_of_keys (compareLex (compareOn F64.tier) (compareOn F64.units)) .float
      (· ≠ .nan)
      (fun v hv => ?_) fun a b ha hb => ?_
    · obtain ⟨ht, hn, hnan⟩ := h v hv
      cases v with
      | float f => exact ⟨f, rfl, fun hf => hnan (congrArg float hf)⟩
      | null => exact absurd rfl hn
      | int | varchar | bool => cases ht
    · rw [partialCmp, F64.partialCmp_eq ha hb, Option.getD_some]
  | varchar =>
    refine ordersOn_of_keys compare .varchar (fun _ => True) (fun v hv => ?_) fun a b _ _ => rfl
    obtain ⟨ht, hn, -⟩ := h v hv
    cases v with
    | varchar s => exact ⟨s, rfl, trivial⟩
    | null => exact absurd rfl hn
    | int | float | bool => cases ht
  | bool =>
    refine ordersOn_of_keys compare .bool (fun _ => True) (fun v hv => ?_) fun a b _ _ => rfl
    obtain ⟨ht, hn, -⟩ := h v hv
    cases v with
    | bool b => exact ⟨b, rfl, trivial⟩
    | null => exact absurd rfl hn
    | int | float | varchar => cases ht

end Value

section Order

variable [BuildProfile] [Unicode] {catalog : Catalog} {c : Clauses}
  {keys : List Sql.OrderByExpr} {schema : Schema} {sources : List (List Tuple)}

theorem Clauses.ordersOn_compareSources (h : c.KeysTyped catalog keys sources) :
    OrdersOn (fun s s' => c.compareSources catalog s s' keys) sources := by
  induction keys with
  | nil => exact ⟨fun _ _ _ _ => rfl, fun _ _ _ _ _ _ _ _ => rfl⟩
  | cons key keys ih =>
    obtain ⟨⟨dt, hkey⟩, hkeys⟩ := List.forall_mem_cons.mp h
    let val (s : List Tuple) : Value := (c.keyValue catalog key.expr s).getD .null
    have hval (s : List Tuple) (hs : s ∈ sources) :
        c.keyValue catalog key.expr s = some (val s) := by
      obtain ⟨v, hv, -⟩ := hkey s hs
      simp [val, hv]
    have hord : OrdersOn (fun a b => ((val a).partialCmp (val b)).getD .eq) sources := by
      refine OrdersOn.comap (Value.ordersOn dt fun v hv => ?_)
      obtain ⟨s, hs, rfl⟩ := List.mem_map.mp hv
      obtain ⟨v, hv, h⟩ := hkey s hs
      obtain rfl := Option.some_inj.mp ((hval s hs).symm.trans hv)
      exact h
    have hdir : OrdersOn (fun a b => if key.asc.getD true then ((val a).partialCmp (val b)).getD .eq
        else (((val a).partialCmp (val b)).getD .eq).swap) sources := by
      cases key.asc.getD true
      · exact hord.opposite
      · exact hord
    refine (hdir.then (ih hkeys)).congr fun a ha b hb => ?_
    simp only [Clauses.compareSources, hval a ha, hval b hb]

/-- Keys that can be read off the output rows compare these as they compare their sources. -/
theorem Clauses.compareKeys_eq {sortKeys : List (Expr × Bool)} {s s' : List Tuple} {t t' : Tuple}
    (h : List.Forall₂ (fun (key : Sql.OrderByExpr) sortKey => sortKey.2 = key.asc.getD true ∧
      (∃ v, sortKey.1.eval t schema = .ok v ∧ c.keyValue catalog key.expr s = some v) ∧
      ∃ v, sortKey.1.eval t' schema = .ok v ∧ c.keyValue catalog key.expr s' = some v)
      keys sortKeys) :
    compareKeys schema t t' sortKeys = .ok (c.compareSources catalog s s' keys) := by
  induction h with
  | nil => rfl
  | @cons key sortKey _ _ hkey _ ih =>
    obtain ⟨hasc, ⟨v, hv, hkv⟩, v', hv', hkv'⟩ := hkey
    simp only [compareKeys, hv, hv', orNull, Result.ok_bind, ih, Clauses.compareSources, hkv, hkv']
    rcases (v.partialCmp v').getD .eq <;> cases hdir : key.asc.getD true <;> simp [hasc, hdir]

end Order

section Reading

variable [BuildProfile] {schema : Schema} {rows : List Tuple} {t : Tuple}

omit [BuildProfile] in
theorem names_of_mapM {α : Type} {name : α → String} {dataType : α → Result DataType} {l : List α}
    {cols : List Column} (h : (l.mapM fun a => Column.mk (name a) <$> dataType a) = .ok cols) :
    cols.map Column.name = l.map name := by
  have hall := Result.forall₂_of_mapM_eq_ok h
  clear h
  induction hall with
  | nil => rfl
  | cons hab _ ih =>
    obtain ⟨_, -, rfl⟩ := Result.map_eq_ok.mp hab
    rw [List.map_cons, List.map_cons, ih]

theorem Expr.eval_of_readOff {columns : List (String × Expr)} {f : Expr → Result Value}
    (hconst : ∀ v, f (const v) = .ok v)
    (hop : ∀ op left right, f (binaryOp op left right) = do
      let lVal ← f left
      let rVal ← f right
      evalBinaryOp op lVal rVal)
    (hnames : schema.columns.map Column.name = columns.map Prod.fst)
    (hvals : List.Forall₂ (fun col v => f col.2 = .ok v) columns t.values)
    {e read : Expr} (h : e.readOff columns = some read) : e.eval t schema = f read := by
  induction e generalizing read with
  | colRef name =>
    obtain ⟨col, hfind, rfl⟩ := Option.map_eq_some_iff.mp h
    obtain ⟨i, hidx, hcol⟩ := Schema.findColIdx_of_find? hnames hfind
    obtain ⟨hi, rfl⟩ := List.getElem?_eq_some_iff.mp hcol
    have hi' : i < t.values.length := hvals.length_eq ▸ hi
    have hval : f columns[i].2 = .ok t.values[i] := hvals.get hi hi'
    rw [hval]
    simp only [eval, hidx, List.getElem?_eq_getElem hi', Result.pure_eq_ok]
  | const v =>
    cases h
    exact (hconst v).symm
  | binaryOp op left right ihl ihr =>
    simp only [readOff, Option.bind_eq_bind, Option.bind_eq_some_iff, Option.some_inj] at h
    obtain ⟨left', hl, right', hr, rfl⟩ := h
    rw [hop, eval, ihl hl, ihr hr]
  | funcCall | star => cases h

theorem evalOver_of_eval (ht : rows.getLast? = some t) {e : Expr} {v : Value}
    (h : e.eval t schema = .ok v) : evalOver schema rows e = .ok v := by
  induction e generalizing v with
  | colRef | const | star => simpa [evalOver, ht] using h
  | binaryOp op left right ihl ihr =>
    obtain ⟨lVal, hl, h⟩ := Result.bind_eq_ok.mp h
    obtain ⟨rVal, hr, h⟩ := Result.bind_eq_ok.mp h
    simp [evalOver, ihl hl, ihr hr, h]
  | funcCall => cases h

theorem values_groupTuple {groupBy : List Expr} {calls : List (String × Expr × String)}
    (hcalls : ∀ f ∈ calls, distinctOf f.2.1 = none) (hrows : groupBy ≠ [] → rows ≠ [])
    (h : groupTuple groupBy calls schema rows = .ok t) :
    List.Forall₂ (fun col v => evalOver schema rows col.2 = .ok v)
      (groupBy.map (fun e => (getExprName e, e)) ++
        calls.map fun f => (f.2.2, Expr.funcCall f.1 f.2.1)) t.values := by
  obtain ⟨vals, hvals, h⟩ := Result.bind_eq_ok.mp h
  obtain ⟨states, hstates, h⟩ := Result.bind_eq_ok.mp h
  cases h
  refine List.rel_append ?_ ?_
  · rw [List.forall₂_map_left_iff]
    rcases hlast : rows.getLast? with _ | u
    · have hnil : rows = [] := List.getLast?_eq_none_iff.mp hlast
      obtain rfl : groupBy = [] := not_not.mp fun hne => hrows hne hnil
      rw [lastVals, hlast] at hvals
      cases hvals
      exact .nil
    · rw [lastVals, hlast] at hvals
      exact (Result.forall₂_of_mapM_eq_ok hvals).imp fun e v hv => evalOver_of_eval hlast hv
  · rw [List.forall₂_map_left_iff, List.forall₂_map_right_iff]
    have hall := (List.forall₂_and_left _ _).mpr ⟨hcalls, Result.forall₂_of_mapM_eq_ok hstates⟩
    refine hall.imp ?_
    rintro f state ⟨hf, hstate⟩
    have hover : aggregateOver schema (f.1, f.2.1, "") rows = .ok state := by
      simpa [aggregateOver, hf, accumulate] using hstate
    simp [evalOver, hover]

omit [BuildProfile] in
theorem toOption_foldlM {α σ : Type} {f g : σ → α → Result σ}
    (h : ∀ s a, (f s a).toOption = (g s a).toOption) (s : σ) (l : List α) :
    (l.foldlM f s).toOption = (l.foldlM g s).toOption := by
  induction l generalizing s with
  | nil => rfl
  | cons a l ih => simp only [List.foldlM_cons, Result.toOption_bind, h, ih]

omit [BuildProfile] in
theorem toOption_mapM {α β : Type} {f g : α → Result β}
    (h : ∀ a, (f a).toOption = (g a).toOption) (l : List α) :
    (l.mapM f).toOption = (l.mapM g).toOption := by
  induction l with
  | nil => rfl
  | cons a l ih => simp only [List.mapM_cons, Result.toOption_bind, h, ih]

namespace Expr.SameColumns

variable {e e' : Expr}

theorem eval (h : e.SameColumns schema e') (t : Tuple) :
    (e.eval t schema).toOption = (e'.eval t schema).toOption := by
  induction e generalizing e' with
  | colRef name =>
    cases e' with
    | colRef name' =>
      have hidx : schema.findColIdx name = schema.findColIdx name' := h
      simp only [Expr.eval, hidx]
      rcases schema.findColIdx name' with _ | i <;> rfl
    | _ => exact absurd h id
  | const val =>
    cases e' with
    | const val' =>
      obtain rfl : val = val' := h
      rfl
    | _ => exact absurd h id
  | binaryOp op left right ihl ihr =>
    cases e' with
    | binaryOp op' left' right' =>
      obtain ⟨rfl, hl, hr⟩ := h
      simp only [Expr.eval, Result.toOption_bind, ihl hl, ihr hr]
    | _ => exact absurd h id
  | funcCall name arg =>
    cases e' with
    | funcCall name' arg' => rfl
    | _ => exact absurd h id
  | star =>
    cases e' with
    | star => rfl
    | _ => exact absurd h id

theorem argValue (h : e.SameColumns schema e') (t : Tuple) :
    (argValue schema e t).toOption = (argValue schema e' t).toOption := by
  have hstar : e = .star ↔ e' = .star := by
    cases e <;> cases e' <;> simp_all [Expr.SameColumns]
  unfold VolcanoDb.argValue
  by_cases hs : e = .star
  · rw [if_pos hs, if_pos (hstar.mp hs)]
  · rw [if_neg hs, if_neg (mt hstar.mpr hs), h.eval t]

omit [BuildProfile] in
theorem distinctOf (h : e.SameColumns schema e') : (distinctOf e = none ∧ distinctOf e' = none) ∨
    ∃ arg arg', distinctOf e = some arg ∧ distinctOf e' = some arg' ∧
      arg.SameColumns schema arg' := by
  cases e with
  | funcCall name arg =>
    cases e' with
    | funcCall name' arg' =>
      obtain ⟨rfl, harg⟩ := h
      by_cases hname : name = "distinct"
      · exact .inr ⟨arg, arg', if_pos hname, if_pos hname, harg⟩
      · exact .inl ⟨if_neg hname, if_neg hname⟩
    | _ => exact absurd h id
  | _ => cases e' <;> first | exact .inl ⟨rfl, rfl⟩ | exact absurd h id

theorem aggregateOver (h : e.SameColumns schema e') (name : String) (rows : List Tuple) :
    (aggregateOver schema (name, e, "") rows).toOption =
      (aggregateOver schema (name, e', "") rows).toOption := by
  unfold VolcanoDb.aggregateOver
  rcases h.distinctOf with ⟨hnone, hnone'⟩ | ⟨arg, arg', harg, harg', hsame⟩
  · simp only [hnone, hnone', accumulate, Result.toOption_bind]
    refine bind_congr fun state => toOption_foldlM (fun state t => ?_) state rows
    simp only [Result.toOption_bind, h.argValue t]
  · simp only [harg, harg', Result.toOption_bind, toOption_mapM (fun t => hsame.eval t)]

theorem evalOver (h : e.SameColumns schema e') (rows : List Tuple) :
    (evalOver schema rows e).toOption = (evalOver schema rows e').toOption := by
  induction e generalizing e' with
  | binaryOp op left right ihl ihr =>
    cases e' with
    | binaryOp op' left' right' =>
      obtain ⟨rfl, hl, hr⟩ := h
      simp only [VolcanoDb.evalOver, Result.toOption_bind, ihl hl, ihr hr]
    | _ => exact absurd h id
  | funcCall name arg =>
    cases e' with
    | funcCall name' arg' =>
      obtain ⟨rfl, harg⟩ := h
      have hagg := harg.aggregateOver name rows
      simp only [VolcanoDb.evalOver, map_eq_pure_bind, Result.toOption_bind, hagg]
    | _ => exact absurd h id
  | _ => cases e' <;> first | exact h.eval _ | exact absurd h id

end Expr.SameColumns

end Reading

theorem filterMap_eq_of_forall₂ {α β : Type} {f : α → Option β} {l : List α} {l' : List β}
    (h : List.Forall₂ (fun a b => f a = some b) l l') : l.filterMap f = l' := by
  induction h with
  | nil => rfl
  | cons hab _ ih => rw [List.filterMap_cons_some hab, ih]

theorem forall₂_comp {α β γ : Type} {r : α → β → Prop} {r' : β → γ → Prop} {l₁ : List α}
    {l₂ : List β} {l₃ : List γ} (h : List.Forall₂ r l₁ l₂) (h' : List.Forall₂ r' l₂ l₃) :
    List.Forall₂ (fun a c => ∃ b, r a b ∧ r' b c) l₁ l₃ := by
  induction h generalizing l₃ with
  | nil => cases h'; exact .nil
  | cons hab _ ih =>
    cases h' with
    | cons hbc h' => exact .cons ⟨_, hab, hbc⟩ (ih h')

section Honoured

variable [BuildProfile] [Collections] {ctx : ExecutionContext} {catalog : Catalog} {c : Clauses}

theorem Clauses.Plain.forall₂_outputRow (h : c.Plain) (hiter : IteratesKeys) {i : Input}
    {l : List Tuple} (hi : c.input ctx catalog = some i) (hl : (i.output false).all = .ok l) :
    ∃ sources, c.sources catalog ctx = some sources ∧
      List.Forall₂ (fun s t => c.outputRow catalog s = some t) sources l := by
  simp only [Clauses.input, h.having, Option.bind_eq_bind, Option.bind_eq_some_iff] at hi
  obtain ⟨s, hs, schema, hschema, hi⟩ := hi
  split at hi
  · rename_i hgrouped
    simp only [Option.bind_eq_some_iff, Option.some_inj, h.groupRows_eq] at hi
    obtain ⟨rows, hrows, l₀, hl₀, groupS, hgroupS, rfl⟩ := hi
    obtain ⟨g, hg, hall⟩ := forall₂_of_groupRows hiter hl₀
    obtain ⟨-, hproj⟩ := Stream.mapUntil_eq_iff.mp (Stream.all_eq_ok.mp hl)
    refine ⟨(Collections.iterOrder g.groups.keys).map fun key => members c.groupBy schema key rows,
      by simp [Clauses.sources, hs, hschema, hrows, hgrouped, hg], ?_⟩
    refine (forall₂_comp hall (Result.forall₂_of_mapM_eq_ok hproj)).imp ?_
    rintro source t ⟨u, hu, ht⟩
    simp [Clauses.outputRow, hschema, hgrouped, hgroupS, hu, ht]
  · rename_i hgrouped
    cases hi
    have hstream := Stream.all_eq_ok.mp hl
    obtain ⟨hstop, hproj⟩ := Stream.mapUntil_eq_iff.mp hstream
    refine ⟨s.rows.map fun t => [t], ?_, List.forall₂_map_left_iff.mpr ?_⟩
    · have hrows : s.all = .ok s.rows := Stream.all_eq_ok.mpr (congrArg (Stream.mk s.rows) hstop)
      simp [Clauses.sources, hs, hschema, hgrouped, hrows]
    · refine (Result.forall₂_of_mapM_eq_ok hproj).imp fun t u htu => ?_
      simp [Clauses.outputRow, hschema, hgrouped, htu]

theorem Clauses.sources_ne_nil (hiter : IteratesKeys) {sources : List (List Tuple)}
    (h : c.sources catalog ctx = some sources) {s : List Tuple} (hs : s ∈ sources)
    (hgroupBy : c.groupBy ≠ []) : s ≠ [] := by
  simp only [Clauses.sources, Option.bind_eq_bind, Option.bind_eq_some_iff,
    Result.toOption_eq_some] at h
  obtain ⟨stream, -, schema, -, rows, -, h⟩ := h
  have hgrouped : c.Grouped := .inl hgroupBy
  simp only [hgrouped, if_true, Option.bind_eq_some_iff, Result.toOption_eq_some,
    Option.some_inj] at h
  obtain ⟨g, hg, rfl⟩ := h
  obtain ⟨key, hkey, rfl⟩ := List.mem_map.mp hs
  have hkey : key ∈ g.groups.keys := (hiter _).mem_iff.mp hkey
  by_cases hne : rows = []
  · subst hne
    rw [groups_nil, if_neg hgroupBy] at hg
    cases hg
    cases hkey
  · exact (collected_of_fold ((groups_eq_ok hne).mp hg)).mem_keys.mp hkey

omit [BuildProfile] [Collections] in
theorem groupSchema_names {groupBy : List Expr} {calls : List (String × Expr × String)}
    {schema groupS : Schema} (h : groupSchema groupBy calls schema = some groupS) :
    groupS.columns.map Column.name =
      (groupBy.map (fun e => (getExprName e, e)) ++
        calls.map fun f => (f.2.2, Expr.funcCall f.1 f.2.1)).map Prod.fst := by
  simp only [groupSchema, Option.bind_eq_bind, Option.bind_eq_some_iff, Result.toOption_eq_some,
    Option.some_inj] at h
  obtain ⟨keys, hkeys, aggs, haggs, rfl⟩ := h
  simp [names_of_mapM hkeys, names_of_mapM haggs, Function.comp_def]

omit [Collections] in
/-- What an expression reads off an output row is the value of what it leads back to. -/
theorem Clauses.Plain.eval_of_readBack (h : c.Plain) {schema outS : Schema}
    (hschema : c.source.schema catalog = some schema)
    (hnames : outS.columns.map Column.name = c.targets.map Prod.snd) {s : List Tuple} {t : Tuple}
    (hs : c.groupBy ≠ [] → s ≠ []) (ht : c.outputRow catalog s = some t) {e read : Expr}
    (hread : c.readBack e = some read) : e.eval t outS = evalOver schema s read := by
  have hswap (targets : List (Expr × String)) :
      (targets.map Prod.swap).map Prod.fst = targets.map Prod.snd := by simp
  simp only [Clauses.outputRow, hschema, Option.bind_eq_bind, Option.bind_some] at ht
  unfold Clauses.readBack at hread
  split at ht
  · rename_i hgrouped
    simp only [hgrouped, if_true, Option.bind_eq_bind, Option.bind_eq_some_iff] at hread
    obtain ⟨grouped, hgroup, hread⟩ := hread
    simp only [Option.bind_eq_some_iff, Result.toOption_eq_some] at ht
    obtain ⟨groupS, hgroupS, u, hu, ht⟩ := ht
    obtain ⟨vals, hvals, ht⟩ := Result.map_eq_ok.mp ht
    subst ht
    have htargets : List.Forall₂ (fun col v => col.2.eval u groupS = .ok v)
        (c.groupTargets.map Prod.swap) vals := by
      rw [List.forall₂_map_left_iff]
      exact List.forall₂_map_left_iff.mp (Result.forall₂_of_mapM_eq_ok hvals)
    have hout : outS.columns.map Column.name = (c.groupTargets.map Prod.swap).map Prod.fst := by
      rw [hnames, hswap, groupTargets, List.map_map]
      rfl
    calc e.eval (Tuple.new vals) outS
        = grouped.eval u groupS :=
          Expr.eval_of_readOff (f := fun e => e.eval u groupS) (fun _ => rfl) (fun _ _ _ => rfl)
            hout htargets hgroup
      _ = evalOver schema s read := Expr.eval_of_readOff (fun _ => rfl) (fun _ _ _ => rfl)
          (groupSchema_names hgroupS) (values_groupTuple h.distinctOf_calls hs hu) hread
  · rename_i hgrouped
    simp only [hgrouped, if_false] at hread
    obtain ⟨u, hu, ht⟩ := Option.bind_eq_some_iff.mp ht
    obtain ⟨vals, hvals, ht⟩ := Result.map_eq_ok.mp (Result.toOption_eq_some.mp ht)
    subst ht
    have htargets : List.Forall₂ (fun col v => evalOver schema s col.2 = .ok v)
        (c.targets.map Prod.swap) vals := by
      rw [List.forall₂_map_left_iff]
      exact (List.forall₂_map_left_iff.mp (Result.forall₂_of_mapM_eq_ok hvals)).imp
        fun target v hv => evalOver_of_eval hu hv
    exact Expr.eval_of_readOff (fun _ => rfl) (fun _ _ _ => rfl)
      (hnames.trans (hswap c.targets).symm) htargets hread

theorem Clauses.names_outputSchema {i : Input} (hi : c.input ctx catalog = some i) {outS : Schema}
    (h : i.outputSchema = some outS) :
    outS.columns.map Column.name = c.targets.map Prod.snd := by
  obtain ⟨columns, hcolumns, rfl⟩ := Result.map_eq_ok.mp (Result.toOption_eq_some.mp h)
  rw [names_of_mapM hcolumns]
  simp only [Clauses.input, Option.bind_eq_bind, Option.bind_eq_some_iff] at hi
  obtain ⟨s, -, schema, -, hi⟩ := hi
  split at hi
  · simp only [Option.bind_eq_some_iff, Option.some_inj] at hi
    obtain ⟨rows, -, l, -, groupS, -, rfl⟩ := hi
    simp [groupTargets]
  · cases hi
    rfl

variable [Unicode]

/-- The rows of a sort are its sources in the order of the keys. -/
theorem Clauses.honoured_of_sort (hsort : SortsStably)
    {keys : List Sql.OrderByExpr} {schema : Schema} {sources : List (List Tuple)}
    {l sorted : List Tuple}
    (hall : List.Forall₂ (fun s t => c.outputRow catalog s = some t) sources l)
    (hsorted : Collections.sortBy (fun a b => compareKeys schema a b c.sortKeys) l = .ok sorted)
    (htyped : c.KeysTyped catalog keys sources)
    (hread : List.Forall₂ (fun (key : Sql.OrderByExpr) sortKey => sortKey.2 = key.asc.getD true ∧
      ∀ s ∈ sources, ∀ t, c.outputRow catalog s = some t → ∃ v, sortKey.1.eval t schema = .ok v ∧
        c.keyValue catalog key.expr s = some v) keys c.sortKeys) :
    ∃ s', s'.Perm sources ∧
      s'.Pairwise (fun s s' => (c.compareSources catalog s s' keys).isLE) ∧
      List.Forall₂ (fun s t => c.outputRow catalog s = some t) s' sorted := by
  have hcmp {s s' : List Tuple} (hs : s ∈ sources) (hs' : s' ∈ sources) {t t' : Tuple}
      (ht : c.outputRow catalog s = some t) (ht' : c.outputRow catalog s' = some t') :
      compareKeys schema t t' c.sortKeys = .ok (c.compareSources catalog s s' keys) :=
    Clauses.compareKeys_eq <| hread.imp fun key sortKey hkey =>
      ⟨hkey.1, hkey.2 s hs t ht, hkey.2 s' hs' t' ht'⟩
  have horder {s s' : List Tuple} (hs : s ∈ sources) (hs' : s' ∈ sources) {t t' : Tuple}
      (ht : c.outputRow catalog s = some t) (ht' : c.outputRow catalog s' = some t') :
      keyOrder schema c.sortKeys t t' = c.compareSources catalog s s' keys := by
    rw [keyOrder, hcmp hs hs' ht ht']
  have hmem (t : Tuple) (ht : t ∈ l) : ∃ s ∈ sources, c.outputRow catalog s = some t := by
    rw [← filterMap_eq_of_forall₂ hall] at ht
    exact List.mem_filterMap.mp ht
  have hcomparable : ∀ t ∈ l, ∀ t' ∈ l,
      compareKeys schema t t' c.sortKeys = .ok (keyOrder schema c.sortKeys t t') := by
    intro t ht t' ht'
    obtain ⟨s, hs, hst⟩ := hmem t ht
    obtain ⟨s', hs', hst'⟩ := hmem t' ht'
    rw [hcmp hs hs' hst hst', horder hs hs' hst hst']
  have horders : OrdersOn (keyOrder schema c.sortKeys) l :=
    (Clauses.ordersOn_compareSources htyped).transfer
      (r := fun s t => c.outputRow catalog s = some t) hmem
      fun s hs s' hs' t t' ht ht' => horder hs hs' ht ht'
  obtain ⟨l', hl', hstable⟩ := hsort _ _ l hcomparable horders
  obtain rfl := Except.ok.inj (hsorted.symm.trans hl')
  refine hstable.exists_sorted hall fun s hs s' hs' t t' ht ht' hle => ?_
  rwa [horder hs hs' ht ht'] at hle

omit [BuildProfile] [Collections] in
theorem sortKeys_of_bound {q : Sql.Query} (hc : q.kept.clauses catalog = some c) :
    List.Forall₂ (fun (key : Sql.OrderByExpr) sortKey => sortKey.2 = key.asc.getD true ∧
      ∀ bound, mapSqlExpr key.expr = .ok bound → sortKey.1 = bound)
      (q.orderBy.getD []) c.sortKeys := by
  have hkeys := Result.forall₂_of_mapM_eq_ok (Sql.Query.orderBy_of_clauses hc)
  have hkept : q.kept.orderBy.getD [] = (q.orderBy.getD []).map Sql.OrderByExpr.kept := by
    simp only [Sql.Query.kept]
    rcases q.orderBy with _ | keys <;> rfl
  rw [hkept, List.forall₂_map_left_iff] at hkeys
  rw [Clauses.sortKeys, List.forall₂_map_right_iff]
  refine hkeys.imp fun key sortKey hkey => ?_
  obtain ⟨expr, hexpr, hkey⟩ := Result.bind_eq_ok.mp hkey
  cases hkey
  exact ⟨rfl, fun bound hbound => Except.ok.inj (hexpr.symm.trans (full_kept hbound).1)⟩

/--
A query with `ORDER BY` whose keys each lead back from the output columns to what they
ask for returns its rows in their order, or fails, on every database on which the keys
have values of one type each.
-/
theorem orderBy_honoured (hsort : SortsStably) (hiter : IteratesKeys) {q : Sql.Query}
    {plan : LogicalPlan} {rows : List Tuple} (hne : q.orderBy.getD [] ≠ [])
    (h : bindQuery q catalog = .ok plan) (hc : q.kept.clauses catalog = some c)
    (hreads : ∀ key ∈ q.orderBy.getD [], c.ReadsKey catalog key.expr)
    (htyped : ∀ sources, c.sources catalog ctx = some sources →
      c.KeysTyped catalog (q.orderBy.getD []) sources)
    (hrows : executeQuery ctx catalog plan = .ok rows) :
    c.OrderHonoured catalog ctx (q.orderBy.getD []) rows := by
  obtain ⟨c', hc', hplain, rfl⟩ := clauses_kept h
  obtain rfl := Option.some_inj.mp (hc.symm.trans hc')
  have hmeaning : c.meaning ctx catalog = some rows := by
    rw [← hplain.toOption_executeQuery ctx catalog hiter, hrows, Result.toOption_ok]
  simp only [Clauses.meaning, rowCount_eq hplain.limit, rowCount_eq hplain.offset, hplain.distinct,
    Option.bind_eq_bind, Option.bind_eq_some_iff, Option.bind_some] at hmeaning
  obtain ⟨i, hi, s, hs, hwindow⟩ := hmeaning
  obtain ⟨key, keys, hkey⟩ := List.exists_cons_of_ne_nil (Clauses.orderBy_ne_nil hc hne)
  have hcompare (schema : Schema) (a b : Tuple) :=
    compareSortKeys_eq schema a b (hkey ▸ hplain.orderBy)
  simp only [Clauses.ordered, hkey, hcompare, Option.bind_eq_bind, Option.bind_eq_some_iff,
    Result.toOption_eq_some, Option.some_inj] at hs
  obtain ⟨outS, houtS, l, hl, sorted, hsorted, rfl⟩ := hs
  obtain ⟨sources, hsources, hall⟩ := hplain.forall₂_outputRow hiter hi hl
  have hnames := Clauses.names_outputSchema hi houtS
  have hkeys' : c.sortKeys = (key :: keys).map fun key => (key.expr, key.asc) := by
    rw [Clauses.sortKeys, hkey]
  have htyped := htyped sources hsources
  have hread : List.Forall₂ (fun (key : Sql.OrderByExpr) sortKey =>
      sortKey.2 = key.asc.getD true ∧ ∀ s ∈ sources, ∀ t, c.outputRow catalog s = some t →
        ∃ v, sortKey.1.eval t outS = .ok v ∧ c.keyValue catalog key.expr s = some v)
      (q.orderBy.getD []) c.sortKeys := by
    refine ((List.forall₂_and_left _ _).mpr ⟨fun key hkey => hkey, sortKeys_of_bound hc⟩).imp ?_
    rintro key sortKey ⟨hmem, hasc, hbound⟩
    refine ⟨hasc, fun s hs t ht => ?_⟩
    obtain ⟨schema, bound, read, own, hschema, hmap, hback, hown, hsame⟩ := hreads key hmem
    obtain ⟨dt, hvalue⟩ := htyped key hmem
    obtain ⟨v, hv, -⟩ := hvalue s hs
    refine ⟨v, ?_, hv⟩
    rw [hbound bound hmap, hplain.eval_of_readBack hschema hnames
      (Clauses.sources_ne_nil hiter hsources hs) ht hback]
    rw [← Result.toOption_eq_some, hsame.evalOver s]
    simpa [Clauses.keyValue, hschema, hown] using hv
  obtain ⟨s', hperm, hpair, hout⟩ :=
    Clauses.honoured_of_sort hsort hall (hkeys' ▸ hsorted) htyped hread
  refine ⟨sources, s', sorted, hsources, hperm, hpair, hout, ?_⟩
  have hall := Stream.all_eq_ok.mp (Result.toOption_eq_some.mp hwindow)
  exact (congrArg Stream.rows hall).symm

end Honoured

namespace Sample

def userCatalog : Catalog := Catalog.new.addTable "t" ⟨[⟨"id", .int⟩, ⟨"name", .varchar⟩]⟩

def userRows : List Tuple :=
  [⟨[.int 2, .varchar "b"], none, 0⟩, ⟨[.int 1, .varchar "a"], none, 0⟩]

def userContext : ExecutionContext where
  tables := AList.insert "t" userRows ∅
  txMgr := TransactionManager.new ⟨[]⟩
  sessionTxId := none
  crScn := 0

def usersById (names : List String) : Sql.Query :=
  { selectFrom { fromT with projection := names.map fun name => .unnamedExpr (column name) } with
    orderBy := some [⟨column "id", none, none⟩] }

end Sample

open Sample in
theorem orderBy_honoured_sample :
    let _ : BuildProfile := ⟨true⟩
    let _ := insertionCollections
    let _ : Unicode := ⟨String.toUpper, String.toLower, fun _ => true⟩
    let q := usersById ["name", "id"]
    ∃ plan c rows, bindQuery q userCatalog = .ok plan ∧ q.kept.clauses userCatalog = some c ∧
      executeQuery userContext userCatalog plan = .ok rows ∧
      c.OrderHonoured userCatalog userContext (q.orderBy.getD []) rows := by
  intro _ _ _ q
  refine ⟨_, _, [.new [.varchar "a", .int 1], .new [.varchar "b", .int 2]], rfl, rfl,
    by decide +kernel, ?_⟩
  refine orderBy_honoured sortsStably_insertionCollections (fun l => .refl l) (q := q)
    (List.cons_ne_nil _ _) rfl rfl (fun key hkey => ?_) (fun sources hsources key hkey => ?_)
    (by decide +kernel)
  · obtain rfl := List.mem_singleton.mp hkey
    exact ⟨⟨[⟨"t.id", .int⟩, ⟨"t.name", .varchar⟩]⟩, .colRef "id", .colRef "id", .colRef "id",
      by decide +kernel, rfl, by decide +kernel, by decide +kernel, rfl⟩
  · obtain rfl : userRows.map (fun t => [t]) = sources :=
      Option.some_inj.mp (Eq.trans (by decide +kernel) hsources)
    obtain rfl := List.mem_singleton.mp hkey
    refine ⟨.int, fun s hs => ?_⟩
    rcases List.mem_pair.mp hs with rfl | rfl
    · exact ⟨.int 2, by decide +kernel⟩
    · exact ⟨.int 1, by decide +kernel⟩

open Sample in
/-- `SELECT name FROM t ORDER BY id` succeeds in the order of the table. -/
theorem orderBy_ignored :
    let _ : BuildProfile := ⟨true⟩
    let _ := insertionCollections
    let _ : Unicode := ⟨String.toUpper, String.toLower, fun _ => true⟩
    let q := usersById ["name"]
    ∃ plan c rows, bindQuery q userCatalog = .ok plan ∧ q.kept.clauses userCatalog = some c ∧
      executeQuery userContext userCatalog plan = .ok rows ∧
      (∀ t ∈ userRows, ∃ i, c.keyValue userCatalog (column "id") [t] = some (.int i)) ∧
      ¬ c.OrderHonoured userCatalog userContext (q.orderBy.getD []) rows := by
  intro _ _ _ q
  refine ⟨_, _, [.new [.varchar "b"], .new [.varchar "a"]], rfl, rfl, by decide +kernel, ?_, ?_⟩
  · intro t ht
    rcases List.mem_pair.mp ht with rfl | rfl
    · exact ⟨2, by decide +kernel⟩
    · exact ⟨1, by decide +kernel⟩
  · rintro ⟨sources, sorted, outputs, hsources, hperm, hpair, hout, hrows⟩
    obtain rfl : userRows.map (fun t => [t]) = sources :=
      Option.some_inj.mp (Eq.trans (by decide +kernel) hsources)
    have hmem := List.mem_permutations'.mpr hperm
    obtain rfl := filterMap_eq_of_forall₂ hout
    clear hout hperm hsources
    revert hrows hpair
    revert sorted
    decide +kernel

end VolcanoDb
