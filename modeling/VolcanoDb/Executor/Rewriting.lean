import VolcanoDb.Executor.Grouping
import VolcanoDb.Executor.Ordering
import VolcanoDb.Executor.Resolution

/-! # Rewriting of aggregates

The items of a grouped query are evaluated on the output of an aggregation, whose
columns have the printed names of the grouping expressions and of the aggregate
calls. An item keeps its meaning if each of its columns and calls is the first
output that its printed name denotes.
-/

namespace VolcanoDb

namespace Expr

def leaves : Expr → List Expr
  | binaryOp _ left right => left.leaves ++ right.leaves
  | const _ => []
  | e => [e]

/-- Whether a reference names the column that holds an expression. -/
def NamedBy (name : String) (e : Expr) : Prop := NameFits name (getExprName e)

instance (name : String) (e : Expr) : Decidable (e.NamedBy name) :=
  inferInstanceAs (Decidable (NameFits name (getExprName e)))

/-- The parts of an expression outside aggregate calls are constants or grouping expressions. -/
inductive Grouped (groupBy : List Expr) : Expr → Prop where
  | key {e : Expr} : e ∈ groupBy → Grouped groupBy e
  | const (val : Value) : Grouped groupBy (const val)
  | call {name : String} (arg : Expr) : isAggregate name → Grouped groupBy (funcCall name arg)
  | binaryOp (op : String) {left right : Expr} : Grouped groupBy left → Grouped groupBy right →
      Grouped groupBy (binaryOp op left right)

end Expr

section Collect

def aggCalls (aggFuncs : List (String × Expr × String)) : List Expr :=
  aggFuncs.map fun f => .funcCall f.1 f.2.1

def Printed (aggFuncs : List (String × Expr × String)) : Prop :=
  ∀ f ∈ aggFuncs, f.2.2 = getExprName (.funcCall f.1 f.2.1)

theorem Printed.addCall {aggFuncs : List (String × Expr × String)} (h : Printed aggFuncs)
    (call : String × Expr) : Printed (addCall aggFuncs call) := by
  unfold VolcanoDb.addCall
  dsimp only
  split
  · exact h
  · intro f hf
    rcases List.mem_append.mp hf with hf | hf
    · exact h f hf
    · rw [List.mem_singleton.mp hf]

theorem Printed.foldl {aggFuncs : List (String × Expr × String)} (h : Printed aggFuncs)
    (calls : List (String × Expr)) : Printed (calls.foldl VolcanoDb.addCall aggFuncs) := by
  induction calls generalizing aggFuncs with
  | nil => exact h
  | cons call calls ih => exact ih (h.addCall call)

theorem find?_foldl_addCall {aggFuncs : List (String × Expr × String)} (h : Printed aggFuncs)
    (calls : List (String × Expr)) (name : String) :
    (aggCalls (calls.foldl addCall aggFuncs)).find? (·.NamedBy name) =
      (aggCalls aggFuncs ++ calls.map fun call => Expr.funcCall call.1 call.2).find?
        (·.NamedBy name) := by
  induction calls generalizing aggFuncs with
  | nil => simp
  | cons call calls ih =>
    rw [List.foldl_cons, ih (h.addCall call)]
    unfold addCall
    dsimp only
    split
    · rename_i hany
      obtain ⟨f, hf, heq⟩ := List.any_eq_true.mp hany
      have heq : getExprName (.funcCall f.1 f.2.1) = getExprName (.funcCall call.1 call.2) :=
        (h f hf).symm.trans (of_decide_eq_true heq)
      rw [List.map_cons, List.find?_append, List.find?_append, List.find?_cons]
      rcases hfind : (aggCalls aggFuncs).find? (·.NamedBy name) with _ | o
      · have hnot := List.find?_eq_none.mp hfind (.funcCall f.1 f.2.1) (List.mem_map_of_mem hf)
        have hcall : ¬ (Expr.funcCall call.1 call.2).NamedBy name := by
          rw [Expr.NamedBy, ← heq]
          exact fun h => hnot (decide_eq_true h)
        simp [hcall]
      · rw [hfind, Option.some_or, Option.some_or]
    · simp [aggCalls]

end Collect

section Meaning

variable [BuildProfile] (groupBy : List Expr) (schema : Schema) (rows : List Tuple)

def keyValue (e : Expr) : Result Value :=
  match rows.getLast? with
  | some t => e.eval t schema
  | none => panicking "no row"

def callValue (name : String) (arg : Expr) : Result Value :=
  AggState.finalize <$> accumulate schema (name, arg, getExprName (.funcCall name arg)) rows

/--
An item on a group: its grouping expressions have the values of the group, and
its aggregate calls those of the aggregates of their arguments.
-/
def Expr.meaning : Expr → Result Value
  | .const val => pure val
  | .funcCall name arg => callValue schema rows name arg
  | .binaryOp op left right =>
    if .binaryOp op left right ∈ groupBy then keyValue schema rows (.binaryOp op left right)
    else do
      let lVal ← left.meaning
      let rVal ← right.meaning
      evalBinaryOp op lVal rVal
  | e => keyValue schema rows e

omit [BuildProfile] in
/-- An output that a column or call stands for: itself, or another name of the same column. -/
def Expr.SameOutput : Expr → Expr → Prop
  | .colRef name, .colRef name' => schema.findColIdx name = schema.findColIdx name'
  | e, e' => e = e'

def outputs (targets : List (Expr × String)) : List Expr :=
  groupBy ++ (targets.flatMap fun target => target.1.calls).map fun call =>
    Expr.funcCall call.1 call.2

/-- The columns and calls of the items are the first outputs that their printed names denote. -/
def FirstNamed (targets : List (Expr × String)) : Prop :=
  ∀ target ∈ targets, ∀ leaf ∈ target.1.leaves, ∃ o,
    (outputs groupBy targets).find? (·.NamedBy (getExprName leaf)) = some o ∧
      o.SameOutput schema leaf

end Meaning

section Output

variable [BuildProfile] {groupBy : List Expr} {schema : Schema} {rows : List Tuple}

omit [BuildProfile] in
theorem names_of_agg {catalog : Catalog} {child : LogicalPlan}
    {aggFuncs : List (String × Expr × String)} {aggSchema : Schema} (hprinted : Printed aggFuncs)
    (h : (LogicalPlan.agg child groupBy aggFuncs).schema catalog = .ok aggSchema) :
    aggSchema.columns.map Column.name = (groupBy ++ aggCalls aggFuncs).map getExprName := by
  obtain ⟨childSchema, -, h⟩ := Result.bind_eq_ok.mp h
  obtain ⟨keys, hkeys, h⟩ := Result.bind_eq_ok.mp h
  obtain ⟨aggs, haggs, h⟩ := Result.bind_eq_ok.mp h
  cases h
  have haggs : aggs.map Column.name = aggFuncs.map fun f => f.2.2 := names_of_mapM haggs
  rw [List.map_append, List.map_append, names_of_mapM hkeys, haggs, aggCalls, List.map_map]
  congr 1
  exact List.map_congr_left hprinted

def outputValue (schema : Schema) (rows : List Tuple) : Expr → Result Value
  | .funcCall name arg => callValue schema rows name arg
  | e => keyValue schema rows e

theorem values_of_groupTuple {aggFuncs : List (String × Expr × String)} {row : Tuple}
    (hrows : groupBy ≠ [] → rows ≠ []) (h : groupTuple groupBy aggFuncs schema rows = .ok row) :
    List.Forall₂ (fun e v => outputValue schema rows e = .ok v) (groupBy ++ aggCalls aggFuncs)
      row.values := by
  obtain ⟨vals, hvals, h⟩ := Result.bind_eq_ok.mp h
  obtain ⟨states, hstates, h⟩ := Result.bind_eq_ok.mp h
  cases h
  apply List.rel_append
  · unfold lastVals at hvals
    split at hvals
    · rename_i hlast
      cases hvals
      have hgb : groupBy = [] := by
        by_contra hne
        exact hrows hne (List.getLast?_eq_none_iff.mp hlast)
      rw [hgb]
      exact .nil
    · rename_i t hlast
      apply (Result.forall₂_of_mapM_eq_ok hvals).imp
      intro e v he
      have hkey : keyValue schema rows e = .ok v := by rw [keyValue, hlast]; exact he
      cases e with
      | funcCall name arg => cases he
      | _ => exact hkey
  · apply List.forall₂_map_left_iff.mpr
    apply List.forall₂_map_right_iff.mpr
    apply (Result.forall₂_of_mapM_eq_ok hstates).imp
    intro f state hacc
    change AggState.finalize <$> accumulate schema f rows = .ok state.finalize
    rw [hacc]
    rfl

theorem keyValue_isOk {aggFuncs : List (String × Expr × String)} {row : Tuple}
    (hrows : groupBy ≠ [] → rows ≠ []) (h : groupTuple groupBy aggFuncs schema rows = .ok row) :
    ∀ e ∈ groupBy, ∃ v, keyValue schema rows e = .ok v := by
  obtain ⟨vals, hvals, -⟩ := Result.bind_eq_ok.mp h
  intro e he
  obtain ⟨t, hlast⟩ : ∃ t, rows.getLast? = some t :=
    Option.ne_none_iff_exists'.mp fun hnone =>
      hrows (List.ne_nil_of_mem he) (List.getLast?_eq_none_iff.mp hnone)
  rw [lastVals, hlast] at hvals
  obtain ⟨v, hv⟩ := Result.exists_of_mapM_eq_ok hvals he
  exact ⟨v, by rw [keyValue, hlast]; exact hv⟩

/-- What the evaluation of items on an output row rests on. -/
structure OutputRow (schema : Schema) (rows : List Tuple) (outs : List Expr) (aggSchema : Schema)
    (row : Tuple) : Prop where
  names : aggSchema.columns.map Column.name = outs.map getExprName
  values : List.Forall₂ (fun e v => outputValue schema rows e = .ok v) outs row.values

variable {outs : List Expr} {aggSchema : Schema} {row : Tuple}

theorem keyValue_congr {name name' : String}
    (hidx : schema.findColIdx name = schema.findColIdx name') {v : Value}
    (h : keyValue schema rows (.colRef name) = .ok v) :
    keyValue schema rows (.colRef name') = .ok v := by
  unfold keyValue at h ⊢
  split at h
  · unfold Expr.eval at h ⊢
    rw [← hidx]
    split at h
    · exact h
    · cases h
  · cases h

theorem OutputRow.eval_colRef (h : OutputRow schema rows outs aggSchema row) {leaf o : Expr}
    (hfind : outs.find? (·.NamedBy (getExprName leaf)) = some o)
    (hsame : o.SameOutput schema leaf) :
    (Expr.colRef (getExprName leaf)).eval row aggSchema = outputValue schema rows leaf := by
  obtain ⟨i, hidx, ho⟩ := Schema.findColIdx_of_find? h.names hfind
  obtain ⟨hi, rfl⟩ := List.getElem?_eq_some_iff.mp ho
  have hi' : i < row.values.length := h.values.length_eq ▸ hi
  have hvalue : outputValue schema rows outs[i] = .ok row.values[i] := h.values.get hi hi'
  have heval : (Expr.colRef (getExprName leaf)).eval row aggSchema = .ok row.values[i] := by
    unfold Expr.eval
    rw [hidx]
    simp only [List.getElem?_eq_getElem hi']
    rfl
  rw [heval]
  generalize outs[i] = o at hsame hvalue
  unfold Expr.SameOutput at hsame
  split at hsame
  · exact (keyValue_congr hsame hvalue).symm
  · rw [← hsame, hvalue]

theorem OutputRow.eval_key (h : OutputRow schema rows outs aggSchema row) {e : Expr}
    (hleaves : ∀ leaf ∈ e.leaves, ∃ o, outs.find? (·.NamedBy (getExprName leaf)) = some o ∧
      o.SameOutput schema leaf) {v : Value} (hv : keyValue schema rows e = .ok v) :
    e.rewritten.eval row aggSchema = .ok v := by
  rcases hlast : rows.getLast? with _ | t
  · rw [keyValue, hlast] at hv
    cases hv
  have hkey (e : Expr) : keyValue schema rows e = e.eval t schema := by rw [keyValue, hlast]
  rw [hkey] at hv
  induction e generalizing v with
  | const val => exact hv
  | star | funcCall name arg => cases hv
  | colRef name =>
    obtain ⟨o, hfind, hsame⟩ := hleaves (.colRef name) (List.mem_singleton_self _)
    have heval : (Expr.colRef name).eval row aggSchema = keyValue schema rows (.colRef name) :=
      h.eval_colRef hfind hsame
    exact heval.trans ((hkey _).trans hv)
  | binaryOp op left right ihl ihr =>
    obtain ⟨l, hl, hv⟩ := Result.bind_eq_ok.mp hv
    obtain ⟨r, hr, hv⟩ := Result.bind_eq_ok.mp hv
    have hleft := ihl (fun leaf hleaf => hleaves leaf (List.mem_append_left _ hleaf)) hl
    have hright := ihr (fun leaf hleaf => hleaves leaf (List.mem_append_right _ hleaf)) hr
    simp only [Expr.rewritten, Expr.eval, hleft, hright, Result.ok_bind]
    exact hv

theorem Expr.meaning_key {e : Expr} (he : e ∈ groupBy) {v : Value}
    (hv : keyValue schema rows e = .ok v) : e.meaning groupBy schema rows = .ok v := by
  cases e with
  | colRef name | star => exact hv
  | binaryOp op left right => rw [Expr.meaning, if_pos he, hv]
  | const val | funcCall name arg =>
    unfold keyValue at hv
    split at hv <;> cases hv
    try rfl

/-- A rewritten item has the meaning of the item. -/
theorem OutputRow.eval_rewritten (h : OutputRow schema rows outs aggSchema row)
    (hkeys : ∀ e ∈ groupBy, ∃ v, keyValue schema rows e = .ok v) {e : Expr}
    (hgrouped : e.Grouped groupBy)
    (hleaves : ∀ leaf ∈ e.leaves, ∃ o, outs.find? (·.NamedBy (getExprName leaf)) = some o ∧
      o.SameOutput schema leaf) :
    e.rewritten.eval row aggSchema = e.meaning groupBy schema rows := by
  have hkey {e : Expr} (he : e ∈ groupBy)
      (hleaves : ∀ leaf ∈ e.leaves, ∃ o, outs.find? (·.NamedBy (getExprName leaf)) = some o ∧
        o.SameOutput schema leaf) :
      e.rewritten.eval row aggSchema = e.meaning groupBy schema rows := by
    obtain ⟨v, hv⟩ := hkeys e he
    rw [h.eval_key hleaves hv, Expr.meaning_key he hv]
  induction hgrouped with
  | key he => exact hkey he hleaves
  | const val => rfl
  | @call name arg hagg =>
    obtain ⟨o, hfind, hsame⟩ := hleaves (.funcCall name arg) (List.mem_singleton_self _)
    rw [Expr.rewritten, if_pos hagg, h.eval_colRef hfind hsame]
    rfl
  | @binaryOp op left right hl hr ihl ihr =>
    by_cases he : .binaryOp op left right ∈ groupBy
    · exact hkey he hleaves
    · have hleft := ihl fun leaf hleaf => hleaves leaf (List.mem_append_left _ hleaf)
      have hright := ihr fun leaf hleaf => hleaves leaf (List.mem_append_right _ hleaf)
      simp only [Expr.rewritten, Expr.eval, Expr.meaning, he, if_false, hleft, hright]

omit [BuildProfile] in
theorem mem_leaves_of_mem_calls {e : Expr} {call : String × Expr} (h : call ∈ e.calls) :
    .funcCall call.1 call.2 ∈ e.leaves := by
  induction e with
  | colRef name | const val | star => cases h
  | binaryOp op left right ihl ihr =>
    rcases List.mem_append.mp h with h | h
    · exact List.mem_append_left _ (ihl h)
    · exact List.mem_append_right _ (ihr h)
  | funcCall name arg =>
    unfold Expr.calls at h
    split at h
    · rw [List.mem_singleton.mp h]
      exact List.mem_singleton_self _
    · cases h

omit [BuildProfile] in
theorem find?_outputs (groupBy : List Expr) (targets : List (Expr × String)) (name : String) :
    (groupBy ++ aggCalls (extractTargets targets []).2).find? (·.NamedBy name) =
      (outputs groupBy targets).find? (·.NamedBy name) := by
  have hprinted : Printed [] := List.forall_mem_nil _
  rw [extractTargets_eq, outputs, List.find?_append, List.find?_append,
    find?_foldl_addCall hprinted]
  rfl

end Output

section Faithful

variable [BuildProfile]

/--
On a group, the rewritten items have the meaning of the items, and different
aggregate calls have different columns.
-/
structure RewritesFaithfully (groupBy : List Expr) (targets : List (Expr × String))
    (schema : Schema) (rows : List Tuple) (aggSchema : Schema) (row : Tuple) : Prop where
  items : List.Forall₂
    (fun target rewritten =>
      rewritten.1.eval row aggSchema = target.1.meaning groupBy schema rows)
    targets (extractTargets targets []).1
  columns : ∀ target ∈ targets, ∀ target' ∈ targets, ∀ call ∈ target.1.calls,
    ∀ call' ∈ target'.1.calls, call ≠ call' →
    aggSchema.findColIdx (getExprName (.funcCall call.1 call.2)) ≠
      aggSchema.findColIdx (getExprName (.funcCall call'.1 call'.2))

/-- Items whose columns and calls are the first outputs of their names keep their meaning. -/
theorem rewritesFaithfully_of_firstNamed {catalog : Catalog} {child : LogicalPlan}
    {groupBy : List Expr} {targets : List (Expr × String)} {schema aggSchema : Schema}
    {rows : List Tuple} {row : Tuple} (hgrouped : ∀ target ∈ targets, target.1.Grouped groupBy)
    (hschema : (LogicalPlan.agg child groupBy (extractTargets targets []).2).schema catalog =
      .ok aggSchema)
    (hrows : groupBy ≠ [] → rows ≠ [])
    (hrow : groupTuple groupBy (extractTargets targets []).2 schema rows = .ok row)
    (hfirst : FirstNamed groupBy schema targets) :
    RewritesFaithfully groupBy targets schema rows aggSchema row := by
  have hprinted : Printed (extractTargets targets []).2 := by
    rw [extractTargets_eq]
    exact Printed.foldl (List.forall_mem_nil _) _
  let outs := groupBy ++ aggCalls (extractTargets targets []).2
  have hout : OutputRow schema rows outs aggSchema row :=
    ⟨names_of_agg hprinted hschema, values_of_groupTuple hrows hrow⟩
  have hleaves {target : Expr × String} (htarget : target ∈ targets) :
      ∀ leaf ∈ target.1.leaves, ∃ o, outs.find? (·.NamedBy (getExprName leaf)) = some o ∧
        o.SameOutput schema leaf := by
    intro leaf hleaf
    rw [find?_outputs]
    exact hfirst target htarget leaf hleaf
  constructor
  · rw [extractTargets_eq]
    apply List.forall₂_map_right_iff.mpr
    apply List.forall₂_same.mpr
    intro target htarget
    exact hout.eval_rewritten (keyValue_isOk hrows hrow) (hgrouped target htarget)
      (hleaves htarget)
  · have hcall {target : Expr × String} (htarget : target ∈ targets) {call : String × Expr}
        (hc : call ∈ target.1.calls) :
        ∃ i, aggSchema.findColIdx (getExprName (.funcCall call.1 call.2)) = some i ∧
          outs[i]? = some (.funcCall call.1 call.2) := by
      obtain ⟨o, hfind, hsame⟩ := hleaves htarget _ (mem_leaves_of_mem_calls hc)
      obtain rfl : o = .funcCall call.1 call.2 := by cases o <;> exact hsame
      exact Schema.findColIdx_of_find? hout.names hfind
    intro target htarget target' htarget' call hc call' hc' hne heq
    obtain ⟨i, hi, ho⟩ := hcall htarget hc
    obtain ⟨i', hi', ho'⟩ := hcall htarget' hc'
    obtain rfl : i = i' := Option.some_inj.mp (hi.symm.trans (heq.trans hi'))
    obtain ⟨hname, harg⟩ := Expr.funcCall.inj (Option.some_inj.mp (ho.symm.trans ho'))
    exact hne (Prod.ext hname harg)

end Faithful

section Sample

open Sample

theorem rewritesFaithfully_users :
    let _ : BuildProfile := ⟨true⟩
    let targets : List (Expr × String) := [(.colRef "name", "name"),
      (.binaryOp "+" (.funcCall "count" .star) (.const (.int 1)), "n")]
    let schema : Schema := ⟨[⟨"t.id", .int⟩, ⟨"t.name", .varchar⟩]⟩
    let aggSchema : Schema := ⟨[⟨"name", .varchar⟩, ⟨"count(*)", .int⟩]⟩
    RewritesFaithfully [.colRef "name"] targets schema
      [⟨[.int 2, .varchar "b"], none, 0⟩] aggSchema (Tuple.new [.varchar "b", .int 1]) := by
  intro _ targets schema aggSchema
  have hgrouped : ∀ target ∈ targets, target.1.Grouped [.colRef "name"] := by
    intro target htarget
    rcases List.mem_pair.mp htarget with rfl | rfl
    · exact .key (List.mem_singleton_self _)
    · exact .binaryOp "+" (.call .star (by decide)) (.const _)
  have hfirst : FirstNamed [.colRef "name"] schema targets := by
    intro target htarget leaf hleaf
    rcases List.mem_pair.mp htarget with rfl | rfl
    · obtain rfl := List.mem_singleton.mp hleaf
      exact ⟨.colRef "name", by decide +kernel, rfl⟩
    · obtain rfl := List.mem_singleton.mp hleaf
      exact ⟨.funcCall "count" .star, by decide +kernel, rfl⟩
  have hschema : (LogicalPlan.agg (.scan "t" none) [.colRef "name"]
      (extractTargets targets []).2).schema userCatalog = .ok aggSchema := by decide +kernel
  exact rewritesFaithfully_of_firstNamed hgrouped hschema (fun _ => List.cons_ne_nil _ _)
    (by decide +kernel) hfirst

/-- `SELECT COUNT('a'), COUNT(a) FROM t` counts the string for both, and so a row without `a`. -/
theorem string_shares_count_of_column :
    let _ : BuildProfile := ⟨true⟩
    let _ := insertionCollections
    let catalog := Catalog.new.addTable "t" ⟨[⟨"a", .varchar⟩]⟩
    let rows : List Tuple := [⟨[.null], none, 0⟩]
    let context := { userContext with tables := AList.insert "t" rows ∅ }
    let targets : List (Expr × String) := [(.funcCall "count" (.const (.varchar "a")), "n"),
      (.funcCall "count" (.colRef "a"), "m")]
    let schema : Schema := ⟨[⟨"t.a", .varchar⟩]⟩
    let aggSchema : Schema := ⟨[⟨"count(a)", .int⟩]⟩
    (∀ target ∈ targets, target.1.Grouped []) ∧
    (LogicalPlan.agg (.scan "t" none) [] (extractTargets targets []).2).schema catalog =
      .ok aggSchema ∧
    groupTuple [] (extractTargets targets []).2 schema rows = .ok (Tuple.new [.int 1]) ∧
    executeQuery context catalog (bindProjection (.scan "t" none) targets []) =
      .ok [Tuple.new [.int 1, .int 1]] ∧
    (Expr.funcCall "count" (.colRef "a")).meaning [] schema rows = .ok (.int 0) ∧
    ¬ RewritesFaithfully [] targets schema rows aggSchema (Tuple.new [.int 1]) := by
  intro _ _ catalog rows context targets schema aggSchema
  have hgrouped : ∀ target ∈ targets, target.1.Grouped [] := by
    intro target htarget
    rcases List.mem_pair.mp htarget with rfl | rfl
    · exact .call _ (by decide)
    · exact .call _ (by decide)
  refine ⟨hgrouped, by decide +kernel, by decide +kernel, by decide +kernel, by decide +kernel,
    fun h => ?_⟩
  have hsecond := List.forall₂_cons.mp (List.forall₂_cons.mp h.items).2
  exact absurd hsecond.1 (by decide +kernel)

end Sample

end VolcanoDb
