import VolcanoDb.Executor.Clauses
import VolcanoDb.Executor.Reinit
import VolcanoDb.Executor.Resolution

/-! # The faults of an aggregation

The binder collects calls of known functions only, and the two maps of an aggregation have
the same keys and one accumulator for every function in each group, also after a failure.
An aggregation therefore fails only where its child, an expression or an addition does.
-/

namespace VolcanoDb

def LogicalPlan.aggs : LogicalPlan → List (LogicalPlan × List Expr × List (String × Expr × String))
  | dummyScan | scan _ _ => []
  | filter child _ | project child _ | limit child _ _ | sort child _ => child.aggs
  | join left right _ => left.aggs ++ right.aggs
  | agg child groupBy aggFuncs => (child, groupBy, aggFuncs) :: child.aggs

def KnownFunctions (aggFuncs : List (String × Expr × String)) : Prop :=
  ∀ a ∈ aggFuncs, ∃ s, AggState.new a.1 = .ok s

section Binding

theorem exists_new_of_isAggregate {name : String} (h : isAggregate name) :
    ∃ s, AggState.new name = .ok s := by
  simp only [isAggregate, decide_eq_true_eq] at h
  rcases h with rfl | rfl | rfl | rfl | rfl <;> exact ⟨_, rfl⟩

theorem KnownFunctions.append {l l' : List (String × Expr × String)} (h : KnownFunctions l)
    (h' : KnownFunctions l') : KnownFunctions (l ++ l') := by
  intro a ha
  rcases List.mem_append.mp ha with ha | ha
  · exact h a ha
  · exact h' a ha

theorem knownFunctions_extractAggregates (e : Expr) {aggFuncs : List (String × Expr × String)}
    (h : KnownFunctions aggFuncs) : KnownFunctions (extractAggregates e aggFuncs).2 := by
  induction e generalizing aggFuncs with
  | const | colRef | star => exact h
  | binaryOp op left right ihl ihr => exact ihr (ihl h)
  | funcCall name arg =>
    unfold extractAggregates
    split
    · rename_i hname
      dsimp only
      split
      · exact h
      · refine h.append fun a ha => ?_
        obtain rfl := List.mem_singleton.mp ha
        exact exists_new_of_isAggregate hname
    · exact h

theorem knownFunctions_extractTargets (targets : List (Expr × String))
    {aggFuncs : List (String × Expr × String)} (h : KnownFunctions aggFuncs) :
    KnownFunctions (extractTargets targets aggFuncs).2 := by
  induction targets generalizing aggFuncs with
  | nil => exact h
  | cons target targets ih => exact ih (knownFunctions_extractAggregates target.1 h)

theorem LogicalPlan.IsFrom.aggs_eq_nil {plan : LogicalPlan} (h : plan.IsFrom) :
    plan.aggs = [] := by
  induction plan with
  | dummyScan | scan => rfl
  | filter child predicate ih => exact ih h
  | join left right condition ihl ihr => rw [aggs, ihl h.1, ihr h.2]; rfl
  | project | limit | sort | agg => cases h

theorem filterBy_aggs (plan : LogicalPlan) (selection : Option Expr) :
    (filterBy plan selection).aggs = plan.aggs := by
  cases selection <;> rfl

theorem bindOrderBy_aggs [Unicode] {plan sorted : LogicalPlan}
    {orderBy : Option (List Sql.OrderByExpr)} (h : bindOrderBy plan orderBy = .ok sorted) :
    sorted.aggs = plan.aggs := by
  unfold bindOrderBy at h
  split at h
  · cases h
    rfl
  · cases h
    rfl
  · obtain ⟨keys, -, hsorted⟩ := Result.bind_eq_ok.mp h
    cases hsorted
    rfl

/-- The functions of every aggregation of a bound query are known. -/
theorem knownFunctions_of_bindQuery [Unicode] {q : Sql.Query} {catalog : Catalog}
    {plan : LogicalPlan} (h : bindQuery q catalog = .ok plan) {child : LogicalPlan}
    {groupBy : List Expr} {aggFuncs : List (String × Expr × String)}
    (hagg : (child, groupBy, aggFuncs) ∈ plan.aggs) : KnownFunctions aggFuncs := by
  obtain ⟨select, source, schema, selection, targets, groups, sorted, limit, offset, -, hsource, -,
    -, -, -, hsorted, -, -, rfl⟩ := bindQuery_eq_ok h
  have hsource : (filterBy source selection).aggs = [] := by
    rw [filterBy_aggs, (bindFrom_isFrom hsource).aggs_eq_nil]
  have hlimit : (if limit.isSome ∨ offset.isSome then .limit sorted limit offset
      else sorted : LogicalPlan).aggs = sorted.aggs := by
    split <;> rfl
  rw [hlimit, bindOrderBy_aggs hsorted] at hagg
  unfold bindProjection at hagg
  split at hagg
  · simp only [LogicalPlan.aggs, hsource, List.mem_singleton] at hagg
    cases hagg
    exact knownFunctions_extractTargets _ fun a ha => absurd ha List.not_mem_nil
  · rw [LogicalPlan.aggs, hsource] at hagg
    cases hagg

end Binding

section Groups

variable [BuildProfile] {groupBy : List Expr} {aggFuncs : List (String × Expr × String)}
  {schema : Schema} {g : Groups} {t : Tuple} {states : List AggState} {f : Fault}

/-- The maps of an aggregation have the same keys, and an accumulator for every function. -/
structure Groups.Consistent (aggFuncs : List (String × Expr × String)) (g : Groups) : Prop where
  keys : ∀ key, (g.groups.lookup key).isSome = (g.groupKeys.lookup key).isSome
  lengths : ∀ key states, g.groups.lookup key = some states → states.length = aggFuncs.length

inductive TupleFault (groupBy : List Expr) (aggFuncs : List (String × Expr × String))
    (schema : Schema) (t : Tuple) : Fault → Prop where
  | key {expr : Expr} {f : Fault} : expr ∈ groupBy → expr.eval t schema = .error f →
      TupleFault groupBy aggFuncs schema t f
  | argument {a : String × Expr × String} {f : Fault} : a ∈ aggFuncs →
      a.2.1.eval t schema = .error f → TupleFault groupBy aggFuncs schema t f
  | overflow : TupleFault groupBy aggFuncs schema t (.panic "attempt to add with overflow")

omit [BuildProfile] in
theorem Groups.consistent_empty (aggFuncs : List (String × Expr × String)) :
    Groups.empty.Consistent aggFuncs := by
  constructor
  · exact fun key => rfl
  · rintro key states ⟨⟩

omit [BuildProfile] in
theorem Groups.Consistent.congr {g' : Groups} (h : g.Consistent aggFuncs)
    (hgroups : g'.groups = g.groups) (hkeys : g'.groupKeys = g.groupKeys) :
    g'.Consistent aggFuncs := by
  constructor
  · rw [hgroups, hkeys]
    exact h.keys
  · rw [hgroups]
    exact h.lengths

omit [BuildProfile] in
theorem Groups.Consistent.insert (h : g.Consistent aggFuncs) {key : String} {vals : List Value}
    (hlen : states.length = aggFuncs.length) (childHasTuples : Bool) :
    Groups.Consistent aggFuncs
      ⟨g.groups.insert key states, g.groupKeys.insert key vals, childHasTuples⟩ := by
  constructor
  · intro key'
    by_cases hkey : key' = key
    · rw [hkey, AList.lookup_insert, AList.lookup_insert]
      rfl
    · rw [AList.lookup_insert_ne hkey, AList.lookup_insert_ne hkey]
      exact h.keys key'
  · intro key' states' hlookup
    by_cases hkey : key' = key
    · rw [hkey, AList.lookup_insert, Option.some_inj] at hlookup
      exact hlookup ▸ hlen
    · rw [AList.lookup_insert_ne hkey] at hlookup
      exact h.lengths key' states' hlookup

theorem i64Add_fault {a b : Int64} (h : i64Add a b = .error f) :
    f = .panic "attempt to add with overflow" := by
  unfold i64Add checkedInt at h
  split at h
  · cases h
    rfl
  · cases h

theorem addTo_fault {sum val : Value} (h : AggState.addTo sum val = .error f) :
    f = .panic "attempt to add with overflow" := by
  unfold AggState.addTo at h
  split at h
  · cases h
  · rename_i s v
    rcases hadd : i64Add s v with f' | n <;> rw [hadd] at h <;> cases h
    exact i64Add_fault hadd
  all_goals cases h

theorem update_fault {state : AggState} {val : Value} (h : state.update val = .error f) :
    f = .panic "attempt to add with overflow" := by
  unfold AggState.update at h
  split at h
  · cases h
  · split at h
    · rename_i n
      rcases hadd : i64Add n 1 with f' | m <;> rw [hadd] at h <;> cases h
      exact i64Add_fault hadd
    · rename_i s
      rcases hadd : AggState.addTo s val with f' | v <;> rw [hadd] at h <;> cases h
      exact addTo_fault hadd
    · rename_i s n
      rcases hcount : i64Add n 1 with f' | m <;> rw [hcount] at h
      · cases h
        exact i64Add_fault hcount
      · rcases hadd : AggState.addTo s val with f' | v <;> rw [hadd] at h <;> cases h
        exact addTo_fault hadd
    all_goals cases h

theorem updateStates_length (schema : Schema) (t : Tuple)
    (aggFuncs : List (String × Expr × String)) (states : List AggState) :
    (updateStates schema t aggFuncs states).2.length = states.length := by
  induction aggFuncs generalizing states with
  | nil => rfl
  | cons a aggFuncs ih =>
    rcases states with _ | ⟨state, states⟩
    · rfl
    · unfold updateStates
      dsimp only
      split
      · rfl
      · exact congrArg Nat.succ (ih states)

theorem updateStates_fault (hlen : states.length = aggFuncs.length)
    (h : (updateStates schema t aggFuncs states).1 = .error f) :
    (∃ a ∈ aggFuncs, a.2.1.eval t schema = .error f) ∨
      f = .panic "attempt to add with overflow" := by
  induction aggFuncs generalizing states with
  | nil => cases h
  | cons a aggFuncs ih =>
    rcases states with _ | ⟨state, states⟩
    · cases hlen
    · unfold updateStates at h
      dsimp only at h
      split at h
      · rename_i hfail
        cases h
        rcases Result.bind_eq_error.mp hfail with hval | ⟨val, -, hupdate⟩
        · split at hval
          · cases hval
          · exact .inl ⟨a, List.mem_cons_self, hval⟩
        · exact .inr (update_fault hupdate)
      · rcases ih (Nat.succ.inj hlen) h with ⟨a', ha', heval⟩ | hf
        · exact .inl ⟨a', List.mem_cons_of_mem _ ha', heval⟩
        · exact .inr hf

omit [BuildProfile] in
theorem KnownFunctions.newStates (h : KnownFunctions aggFuncs) :
    ∃ states, Groups.newStates aggFuncs = .ok states ∧ states.length = aggFuncs.length := by
  rcases hnew : Groups.newStates aggFuncs with f | states
  · obtain ⟨a, ha, hfail⟩ := Result.exists_of_mapM_eq_error hnew
    have hfail : AggState.new a.1 = .error f := hfail
    obtain ⟨s, hs⟩ := h a ha
    rw [hs] at hfail
    cases hfail
  · exact ⟨states, rfl, (Result.forall₂_of_mapM_eq_ok hnew).length_eq.symm⟩

omit [BuildProfile] in
theorem Groups.Consistent.statesOf (h : g.Consistent aggFuncs) (hknown : KnownFunctions aggFuncs)
    (key : String) :
    ∃ states, g.statesOf aggFuncs key = .ok states ∧ states.length = aggFuncs.length := by
  unfold Groups.statesOf
  split
  · rename_i states hlookup
    exact ⟨states, rfl, h.lengths key states hlookup⟩
  · exact hknown.newStates

/-- A tuple is added, or fails by an expression or an overflow; the maps stay consistent. -/
theorem Groups.Consistent.addTuple (h : g.Consistent aggFuncs)
    (hknown : KnownFunctions aggFuncs) (t : Tuple) :
    (g.addTuple groupBy aggFuncs schema t).2.Consistent aggFuncs ∧
      ∀ f, (g.addTuple groupBy aggFuncs schema t).1 = .error f →
        TupleFault groupBy aggFuncs schema t f := by
  unfold Groups.addTuple
  split
  · rename_i f hkey
    refine ⟨h.congr rfl rfl, ?_⟩
    rintro _ ⟨⟩
    obtain ⟨expr, hexpr, heval⟩ := Result.exists_of_mapM_eq_error hkey
    exact .key hexpr heval
  · rename_i groupVals hkey
    obtain ⟨states, hstates, hlen⟩ := h.statesOf hknown (makeGroupKey groupVals)
    dsimp only
    rw [hstates]
    dsimp only
    constructor
    · exact h.insert ((updateStates_length schema t aggFuncs states).trans hlen) true
    · intro f hf
      rcases updateStates_fault hlen hf with ⟨a, ha, heval⟩ | rfl
      · exact .argument ha heval
      · exact .overflow

omit [BuildProfile] in
theorem Groups.Consistent.addGlobal (h : g.Consistent aggFuncs)
    (hknown : KnownFunctions aggFuncs) :
    ∃ g', g.addGlobal groupBy aggFuncs = .ok g' ∧ g'.Consistent aggFuncs := by
  unfold Groups.addGlobal
  split
  · obtain ⟨states, hstates, hlen⟩ := hknown.newStates
    rw [hstates]
    exact ⟨_, rfl, h.insert hlen false⟩
  · exact ⟨g, rfl, h⟩

end Groups

namespace Executor

variable [BuildProfile] [Collections] {ctx : ExecutionContext} {groupBy : List Expr}
  {aggFuncs : List (String × Expr × String)} {schema : Schema} {e : Executor}

def child : Executor → Executor
  | hashAgg child .. => child
  | e => e

inductive InitFault (ctx : ExecutionContext) (child : Executor) (groupBy : List Expr)
    (aggFuncs : List (String × Expr × String)) (schema : Schema) : Fault → Prop where
  | init {f : Fault} : (child.init ctx).1 = .error f → InitFault ctx child groupBy aggFuncs schema f
  | next {f : Fault} (n : ℕ) : (source ctx).nth (child.init ctx).2 n = .error f →
      InitFault ctx child groupBy aggFuncs schema f
  | tuple {f : Fault} (n : ℕ) {t : Tuple} :
      (source ctx).nth (child.init ctx).2 n = .ok (some t) →
      TupleFault groupBy aggFuncs schema t f → InitFault ctx child groupBy aggFuncs schema f

/-- An aggregation with a child, consistent maps and keys of groups to hand out. -/
inductive ConsistentAgg (groupBy : List Expr) (aggFuncs : List (String × Expr × String))
    (schema : Schema) : Executor → Prop where
  | intro (child : Executor) (g : Groups) (resultKeys : List String) (cursor : ℕ) :
      g.Consistent aggFuncs → (∀ key ∈ resultKeys, (g.groups.lookup key).isSome) →
      ConsistentAgg groupBy aggFuncs schema
        (hashAgg child groupBy aggFuncs schema g.groups g.groupKeys resultKeys cursor)

omit [Collections] in
theorem next_hashAgg (child : Executor) (g : Groups) (resultKeys : List String) (cursor : ℕ) :
    next ctx (hashAgg child groupBy aggFuncs schema g.groups g.groupKeys resultKeys cursor) =
      match resultKeys[cursor]? with
      | none => (pure none,
          hashAgg child groupBy aggFuncs schema g.groups g.groupKeys resultKeys cursor)
      | some key => (some <$> groupRow g.groups g.groupKeys key,
          hashAgg child groupBy aggFuncs schema g.groups g.groupKeys resultKeys (cursor + 1)) := by
  apply Option.some_inj.mp
  rw [some_next]
  rcases hkey : resultKeys[cursor]? with _ | key
  · simp only [nextStep, hkey]
  · simp only [nextStep, hkey]

omit [Collections] in
theorem ConsistentAgg.next (h : ConsistentAgg groupBy aggFuncs schema e)
    (ctx : ExecutionContext) :
    ConsistentAgg groupBy aggFuncs schema (e.next ctx).2 ∧
      ∃ answer, (e.next ctx).1 = .ok answer := by
  obtain ⟨child, g, resultKeys, cursor, hg, hkeys⟩ := h
  rw [next_hashAgg]
  rcases hkey : resultKeys[cursor]? with _ | key
  · exact ⟨.intro child g resultKeys cursor hg hkeys, none, rfl⟩
  · refine ⟨.intro child g resultKeys (cursor + 1) hg hkeys, ?_⟩
    have hsome := hkeys key (List.mem_of_getElem? hkey)
    obtain ⟨states, hstates⟩ := Option.isSome_iff_exists.mp hsome
    obtain ⟨vals, hvals⟩ := Option.isSome_iff_exists.mp (hg.keys key ▸ hsome)
    dsimp only
    rw [groupRow, hvals, hstates]
    exact ⟨_, rfl⟩

theorem fold_addTuple (hknown : KnownFunctions aggFuncs) (ctx : ExecutionContext)
    (child : Executor) (groupBy : List Expr) (schema : Schema) :
    let body := Groups.addTuple groupBy aggFuncs schema
    (∀ f, ((source ctx).fold body (child.init ctx).2 .empty).1 = .error f →
        InitFault ctx child groupBy aggFuncs schema f) ∧
      ((source ctx).fold body (child.init ctx).2 .empty).2.1.Consistent aggFuncs := by
  intro body
  let reached (e : Executor) : Prop :=
    ∃ n, e = (fun s => ((source ctx).next s).2)^[n] (child.init ctx).2
  have hnext : ∀ e, reached e → reached ((source ctx).next e).2 ∧
      (∀ f, ((source ctx).next e).1 = .error f → InitFault ctx child groupBy aggFuncs schema f) ∧
      ∀ t, ((source ctx).next e).1 = .ok (some t) →
        ∃ n, (source ctx).nth (child.init ctx).2 n = .ok (some t) := by
    rintro _ ⟨n, rfl⟩
    refine ⟨⟨n + 1, ?_⟩, fun f hf => .next n hf, fun t ht => ⟨n, ht⟩⟩
    exact (Function.iterate_succ_apply' (fun s => ((source ctx).next s).2) n _).symm
  have hadd : ∀ g t, Groups.Consistent aggFuncs g →
      (∃ n, (source ctx).nth (child.init ctx).2 n = .ok (some t)) →
      (body g t).2.Consistent aggFuncs ∧
        ∀ f, (body g t).1 = .error f → InitFault ctx child groupBy aggFuncs schema f := by
    rintro g t hg ⟨n, hn⟩
    obtain ⟨hconsistent, hfault⟩ := hg.addTuple hknown t
    exact ⟨hconsistent, fun f hf => .tuple n hn (hfault f hf)⟩
  obtain ⟨hfault, hconsistent, -⟩ := (source ctx).fold_invariant hnext hadd ⟨0, rfl⟩
    (Groups.consistent_empty aggFuncs)
  exact ⟨hfault, hconsistent⟩

theorem ConsistentAgg.init (h : ConsistentAgg groupBy aggFuncs schema e) (hiter : IteratesKeys)
    (hknown : KnownFunctions aggFuncs) (ctx : ExecutionContext) :
    ConsistentAgg groupBy aggFuncs schema (e.init ctx).2 ∧
      ∀ f, (e.init ctx).1 = .error f → InitFault ctx e.child groupBy aggFuncs schema f := by
  obtain ⟨child, g, resultKeys, cursor, hg, hkeys⟩ := h
  have hfold := fold_addTuple hknown ctx child groupBy schema
  unfold Executor.init
  dsimp only
  split
  · rename_i f child' hinit
    constructor
    · exact .intro child' ⟨g.groups, g.groupKeys, false⟩ resultKeys cursor (hg.congr rfl rfl) hkeys
    · rintro _ ⟨⟩
      exact .init (congrArg Prod.fst hinit)
  · rename_i child' hinit
    rw [hinit] at hfold
    obtain ⟨hfault, hconsistent⟩ := hfold
    split
    · rename_i f g' child'' hrun
      rw [hrun] at hfault hconsistent
      constructor
      · exact .intro child'' g' [] 0 hconsistent (List.forall_mem_nil _)
      · rintro _ ⟨⟩
        exact hfault _ rfl
    · rename_i g' child'' hrun
      rw [hrun] at hconsistent
      obtain ⟨g'', hglobal, hg''⟩ := hconsistent.addGlobal hknown
      rw [hglobal]
      constructor
      · refine .intro child'' g'' _ 0 hg'' fun key hkey => ?_
        exact AList.lookup_isSome.mpr ((hiter _).mem_iff.mp hkey)
      · rintro _ ⟨⟩

omit [BuildProfile] [Collections] in
theorem ConsistentAgg.close (h : ConsistentAgg groupBy aggFuncs schema e) :
    ConsistentAgg groupBy aggFuncs schema e.close := by
  obtain ⟨child, g, resultKeys, cursor, -, -⟩ := h
  exact .intro child.close .empty [] cursor (Groups.consistent_empty aggFuncs)
    (List.forall_mem_nil _)

theorem ConsistentAgg.call (h : ConsistentAgg groupBy aggFuncs schema e)
    (hiter : IteratesKeys) (hknown : KnownFunctions aggFuncs) (ctx : ExecutionContext)
    (call : Call) : ConsistentAgg groupBy aggFuncs schema (afterCall ctx e call) := by
  cases call with
  | init => exact (h.init hiter hknown ctx).1
  | next => exact (h.next ctx).1
  | close => exact h.close

theorem ConsistentAgg.calls (h : ConsistentAgg groupBy aggFuncs schema e)
    (hiter : IteratesKeys) (hknown : KnownFunctions aggFuncs)
    (calls : List (ExecutionContext × Call)) :
    ConsistentAgg groupBy aggFuncs schema
      (calls.foldl (fun e call => afterCall call.1 e call.2) e) := by
  induction calls generalizing e with
  | nil => exact h
  | cons call calls ih => exact ih (h.call hiter hknown call.1 call.2)

end Executor

/--
An aggregation of a bound query, over any child and after any calls, answers every `next`,
and its `init` fails only by its child, an expression on a tuple or an overflow.
-/
theorem hashAgg_never_panics [Unicode] [BuildProfile] [Collections] (hiter : IteratesKeys)
    {q : Sql.Query} {catalog : Catalog} {plan : LogicalPlan} (h : bindQuery q catalog = .ok plan)
    {childPlan : LogicalPlan} {groupBy : List Expr} {aggFuncs : List (String × Expr × String)}
    (hagg : (childPlan, groupBy, aggFuncs) ∈ plan.aggs) (child : Executor) (schema : Schema)
    (calls : List (ExecutionContext × Executor.Call)) (ctx : ExecutionContext) :
    let e := calls.foldl (fun e call => Executor.afterCall call.1 e call.2)
      (.hashAgg child groupBy aggFuncs schema ∅ ∅ [] 0)
    KnownFunctions aggFuncs ∧ Executor.ConsistentAgg groupBy aggFuncs schema e ∧
      (∃ answer, (e.next ctx).1 = .ok answer) ∧
      ∀ f, (e.init ctx).1 = .error f → e.child.InitFault ctx groupBy aggFuncs schema f := by
  intro e
  have hknown : KnownFunctions aggFuncs := knownFunctions_of_bindQuery h hagg
  have hstart : Executor.ConsistentAgg groupBy aggFuncs schema
      (.hashAgg child groupBy aggFuncs schema ∅ ∅ [] 0) :=
    .intro child .empty [] 0 (Groups.consistent_empty aggFuncs) (List.forall_mem_nil _)
  have he := hstart.calls hiter hknown calls
  exact ⟨hknown, he, (he.next ctx).2, (he.init hiter hknown ctx).2⟩

open Sample in
theorem hashAgg_never_panics_sum :
    let _ : Unicode := ⟨String.toUpper, String.toLower, fun _ => true⟩
    let _ : BuildProfile := ⟨true⟩
    let _ := insertionCollections
    let q : Sql.Query := selectFrom
      { projection :=
          [.unnamedExpr (.function [⟨"sum", none⟩] (.list false [.expr (column "b")]))]
        from_ := [tableItem "u"] }
    let sum : String × Expr × String := ("sum", .colRef "b", "sum(b)")
    let unloaded := { pairContext with tables := ∅ }
    let calls : List (ExecutionContext × Executor.Call) :=
      [(unloaded, .init), (unloaded, .next), (pairContext, .init)]
    let e := calls.foldl (fun e call => Executor.afterCall call.1 e call.2)
      (.hashAgg (.seqScan "u" 0) [] [sum] ⟨[⟨"b", .int⟩]⟩ ∅ ∅ [] 0)
    let plan : LogicalPlan :=
      .project (.agg (.scan "u" none) [] [sum]) [(.colRef "sum(b)", "sum(b)")]
    bindQuery q pairCatalog = .ok plan ∧
      Executor.ConsistentAgg [] [sum] ⟨[⟨"b", .int⟩]⟩ e ∧
      (e.next pairContext).1 = .ok (some (.new [.int 7])) := by
  intro _ _ _ q sum unloaded calls e plan
  have hplan : bindQuery q pairCatalog = .ok plan := by decide +kernel
  refine ⟨hplan, ?_, by decide +kernel⟩
  exact (hashAgg_never_panics (fun l => .refl l) hplan (List.mem_singleton_self _)
    (.seqScan "u" 0) ⟨[⟨"b", .int⟩]⟩ calls pairContext).2.1

end VolcanoDb
