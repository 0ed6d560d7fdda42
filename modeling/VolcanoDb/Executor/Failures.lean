import VolcanoDb.Executor.AggFaults
import VolcanoDb.Executor.Reached
import VolcanoDb.Executor.Soundness

/-! # Failures of plans

The failures of typing a plan, of building its operators and of executing it. A
kind of failure that contains those of the expressions that the operators reach
and the missing tables contains every failure of a stream, as long as it contains
the failures that have nothing to do with names or there are none of these.
-/

namespace VolcanoDb

open PullSource (foldUntil)

open Result (FailsWith)

section Plans

theorem LogicalPlan.schema_failsWith (catalog : Catalog) (plan : LogicalPlan) :
    FailsWith (fun f => ∀ name ∈ f.unknownTable, name ∈ plan.scans ∧
      catalog.getSchema name = none) (plan.schema catalog) := by
  have hnone {f : Fault} {names : List String} (hf : f.unknownTable = none) :
      ∀ name ∈ f.unknownTable, name ∈ names ∧ catalog.getSchema name = none := by simp [hf]
  induction plan with
  | dummyScan => exact .ok _
  | scan tableName aliasName =>
    unfold LogicalPlan.schema
    split
    · exact .ok _
    · rename_i hget
      refine failsWith_err fun name hname => ?_
      cases hname
      exact ⟨List.mem_singleton_self tableName, hget⟩
  | filter child predicate ih => exact ih
  | limit child limitVal offset ih => exact ih
  | sort child orderBy ih => exact ih
  | project child exprs ih =>
    refine ih.bind fun childSchema _ => FailsWith.bind ?_ fun columns _ => .ok _
    refine FailsWith.mapM fun e _ => ?_
    exact ((getExprType_failsWith e.1 childSchema).imp fun f hf => hnone hf).map _
  | join left right condition ihl ihr =>
    refine (ihl.imp fun f hf name hname => ?_).bind fun leftS _ =>
      (ihr.imp fun f hf name hname => ?_).bind fun rightS _ => .ok _
    · exact ⟨List.mem_append_left _ (hf name hname).1, (hf name hname).2⟩
    · exact ⟨List.mem_append_right _ (hf name hname).1, (hf name hname).2⟩
  | agg child groupBy aggFuncs ih =>
    refine ih.bind fun childSchema _ => FailsWith.bind ?_ fun keys _ =>
      FailsWith.bind ?_ fun aggs _ => .ok _
    · refine FailsWith.mapM fun e _ => ?_
      exact ((getExprType_failsWith e childSchema).imp fun f hf => hnone hf).map _
    · refine FailsWith.mapM fun f _ => ?_
      exact ((aggColumnType_failsWith f.1 f.2.1 childSchema).imp fun f hf => hnone hf).map _

/-- Building the operators of a plan misses only tables that its typing misses. -/
theorem buildExecutor_failsWith (catalog : Catalog) (plan : LogicalPlan) :
    FailsWith (fun f => ∀ name ∈ f.unknownTable, name ∈ plan.scans ∧
      catalog.getSchema name = none) (buildExecutor catalog plan) := by
  induction plan with
  | dummyScan | scan tableName aliasName => exact .ok _
  | filter child predicate ih | project child exprs ih | sort child orderBy ih | agg child _ _ ih =>
    exact ih.bind fun _ _ => (child.schema_failsWith catalog).bind fun _ _ => .ok _
  | limit child limitVal offset ih => exact ih.bind fun _ _ => .ok _
  | join left right condition ihl ihr =>
    refine (ihl.imp fun f hf name hname => ?_).bind fun _ _ =>
      (ihr.imp fun f hf name hname => ?_).bind fun _ _ =>
        (LogicalPlan.schema_failsWith catalog (.join left right condition)).bind fun _ _ => .ok _
    · exact ⟨List.mem_append_left _ (hf name hname).1, (hf name hname).2⟩
    · exact ⟨List.mem_append_right _ (hf name hname).1, (hf name hname).2⟩

end Plans

section Reached

variable [BuildProfile]

/-- A property of the expressions that are reached when some are evaluated in order. -/
def ReachedAll (q : Expr → Schema → Prop) (schema : Schema) : List Expr → Prop
  | [] => True
  | e :: l => q e schema ∧ ((e.forecast schema).isSome → ReachedAll q schema l)

theorem reachedAll_of_forall {q : Expr → Schema → Prop} {schema : Schema} {l : List Expr}
    (h : ∀ e ∈ l, q e schema) : ReachedAll q schema l := by
  induction l with
  | nil => trivial
  | cons e l ih =>
    obtain ⟨he, hl⟩ := List.forall_mem_cons.mp h
    exact ⟨he, fun _ => ih hl⟩

omit [BuildProfile] in
def arguments : List (String × Expr × String) → List Expr
  | [] => []
  | f :: aggFuncs => if f.2.1 = .star then arguments aggFuncs else f.2.1 :: arguments aggFuncs

namespace LogicalPlan

variable (catalog : Catalog) (q : Expr → Schema → Prop) (other : Prop)

/-- A plan of tables that has no row, as far as is known without the rows. -/
def Barren : LogicalPlan → Prop
  | filter child predicate =>
    child.Barren ∨ ∀ s, child.schema catalog = .ok s → predicate.NeverTrue s
  | join left right condition =>
    left.Barren ∨ right.Barren ∨
      ∃ e ∈ condition, ∀ s, (join left right condition).schema catalog = .ok s → e.NeverTrue s
  | _ => False

/--
A property of the expressions that are reached while rows are handed out. A plan that
can fail in ways that have nothing to do with expressions needs these to be admitted.
-/
def HandsOut : LogicalPlan → Prop
  | dummyScan | scan _ _ | sort _ _ => True
  | filter child predicate =>
    child.HandsOut ∧ (child.Barren catalog ∨ ∀ s, child.schema catalog = .ok s → q predicate s)
  | project child exprs =>
    child.HandsOut ∧ (child.Barren catalog ∨
      ∀ s, child.schema catalog = .ok s → ReachedAll q s (exprs.map Prod.fst))
  -- nothing is pulled for an empty window at the front
  | limit child limitVal offset => (limitVal = some 0 ∧ offset.getD 0 = 0) ∨ child.HandsOut
  | join left right condition =>
    left.HandsOut ∧ (left.Barren catalog ∨ right.Barren catalog ∨
      ∀ s, (join left right condition).schema catalog = .ok s → ∀ e ∈ condition, q e s)
  | agg _ _ _ => other

/-- A property of the expressions that are reached by `init`. -/
def Prepares : LogicalPlan → Prop
  | dummyScan | scan _ _ => True
  | filter child _ | project child _ | limit child _ _ => child.Prepares
  -- the comparator of a sort swallows errors
  | sort child _ => other ∧ child.Prepares ∧ child.HandsOut catalog q other
  -- the right side is read to its end, and the left side up to its first row
  | join left right _ => left.Prepares ∧ right.Prepares ∧ left.HandsOut catalog q other ∧
      right.HandsOut catalog q other
  | agg child groupBy aggFuncs =>
    child.Prepares ∧ child.HandsOut catalog q other ∧ (other ∨ KnownFunctions aggFuncs) ∧
      (child.Barren catalog ∨ (other ∨ ¬ BuildProfile.overflowChecks) ∧
        ∀ s, child.schema catalog = .ok s → ReachedAll q s (groupBy ++ arguments aggFuncs))

variable {q other} {catalog}

theorem handsOut_of_forall (h : ∀ e s, q e s) (hother : other) (plan : LogicalPlan) :
    plan.HandsOut catalog q other := by
  induction plan with
  | dummyScan | scan | sort => trivial
  | filter child predicate ih => exact ⟨ih, .inr fun s _ => h predicate s⟩
  | project child exprs ih => exact ⟨ih, .inr fun s _ => reachedAll_of_forall fun e _ => h e s⟩
  | limit child limitVal offset ih => exact .inr ih
  | join left right condition ihl ihr => exact ⟨ihl, .inr (.inr fun s _ e _ => h e s)⟩
  | agg => exact hother

theorem prepares_of_forall (h : ∀ e s, q e s) (hother : other) (plan : LogicalPlan) :
    plan.Prepares catalog q other := by
  have hout (plan : LogicalPlan) : plan.HandsOut catalog q other := handsOut_of_forall h hother plan
  induction plan with
  | dummyScan | scan => trivial
  | filter child _ ih | project child _ ih | limit child _ _ ih => exact ih
  | sort child orderBy ih => exact ⟨hother, ih, hout child⟩
  | join left right condition ihl ihr => exact ⟨ihl, ihr, hout left, hout right⟩
  | agg child groupBy aggFuncs ih =>
    exact ⟨ih, hout child, .inl hother, .inr ⟨.inl hother,
      fun s _ => reachedAll_of_forall fun e _ => h e s⟩⟩

end LogicalPlan

end Reached

section Streams

variable {p : Fault → Prop}

def Stream.StopsWith (p : Fault → Prop) (s : Stream) : Prop := ∀ f ∈ s.stop, p f

namespace Stream.StopsWith

theorem none : ∀ f ∈ (Option.none : Option Fault), p f := by
  rintro f ⟨⟩

theorem all {s : Stream} (h : s.StopsWith p) : FailsWith p s.all := by
  rcases s with ⟨rows, _ | f⟩
  · exact .ok rows
  · exact .error (h f rfl)

theorem keepUntil {test : Tuple → Result Bool} {stop : Option Fault} {l : List Tuple}
    (hstop : ∀ f ∈ stop, p f) (htest : ∀ t ∈ l, FailsWith p (test t)) :
    (Stream.keepUntil test stop l).StopsWith p := by
  induction l with
  | nil => exact hstop
  | cons t l ih =>
    obtain ⟨ht, hl⟩ := List.forall_mem_cons.mp htest
    unfold Stream.keepUntil
    split
    · rename_i f hf
      rintro _ ⟨⟩
      exact ht f hf
    · exact ih hl
    · exact ih hl

theorem mapUntil {α : Type} {g : α → Result Tuple} {stop : Option Fault} {l : List α}
    (hstop : ∀ f ∈ stop, p f) (hg : ∀ a ∈ l, FailsWith p (g a)) :
    (Stream.mapUntil g stop l).StopsWith p := by
  induction l with
  | nil => exact hstop
  | cons a l ih =>
    obtain ⟨ha, hl⟩ := List.forall_mem_cons.mp hg
    unfold Stream.mapUntil
    split
    · rename_i f hf
      rintro _ ⟨⟩
      exact ha f hf
    · exact ih hl

theorem window {s : Stream} (h : s.StopsWith p) (limit offset : Option ℕ) :
    (s.window limit offset).StopsWith p := by
  unfold Stream.window Stream.StopsWith
  dsimp only
  split
  · rintro f ⟨⟩
  · exact h

end Stream.StopsWith

variable [BuildProfile]

theorem compareKeys_failsWith (hpanic : ∀ m, p (.panic m)) (schema : Schema) (a b : Tuple)
    (orderBy : List (Expr × Bool)) : FailsWith p (compareKeys schema a b orderBy) := by
  have horNull (x : Result Value) : FailsWith p (orNull x) := by
    rcases x with (e | m) | v
    · exact .ok _
    · exact .error (hpanic m)
    · exact .ok v
  induction orderBy with
  | nil => exact .ok _
  | cons key orderBy ih =>
    refine (horNull _).bind fun x _ => (horNull _).bind fun y _ => ?_
    split
    · exact ih
    · exact .ok _

theorem sortBy_failsWith [Collections] (hsort : SortsByComparing) (hpanic : ∀ m, p (.panic m))
    (schema : Schema) (orderBy : List (Expr × Bool)) (l : List Tuple) :
    FailsWith p (Collections.sortBy (fun a b => compareKeys schema a b orderBy) l) := by
  intro f hf
  rcases hsort.failure hf with ⟨a, -, b, -, hcmp⟩ | rfl
  · exact compareKeys_failsWith hpanic schema a b orderBy f hcmp
  · exact hpanic _

theorem addTo_failsWith (hother : ∀ f : Fault, f.Other → p f) (sum val : Value) :
    FailsWith p (AggState.addTo sum val) := by
  unfold AggState.addTo
  split
  case h_2 => exact ((checkedInt_failsWith _ _ _).imp hother).map _
  all_goals exact .ok _

theorem update_failsWith (hother : ∀ f : Fault, f.Other → p f) (state : AggState) (val : Value) :
    FailsWith p (state.update val) := by
  have hadd (n : Int64) : FailsWith p (i64Add n 1) := (checkedInt_failsWith _ _ _).imp hother
  unfold AggState.update
  split
  · exact .ok _
  · cases state with
    | count n => exact (hadd n).map _
    | sum s => exact (addTo_failsWith hother s val).map _
    | avg s n => exact (hadd n).bind fun _ _ => (addTo_failsWith hother s val).bind fun _ _ => .ok _
    | min m => cases m <;> exact .ok _
    | max m => cases m <;> exact .ok _

omit [BuildProfile] in
theorem newStates_failsWith (hpanic : ∀ m, p (.panic m))
    (aggFuncs : List (String × Expr × String)) : FailsWith p (Groups.newStates aggFuncs) := by
  refine FailsWith.mapM fun f _ => ?_
  obtain ⟨func, arg, name⟩ := f
  dsimp only
  unfold AggState.new
  split
  case h_6 => exact .error (hpanic _)
  all_goals exact .ok _

theorem update_of_unchecked (hchecks : ¬ BuildProfile.overflowChecks) (state : AggState)
    (val : Value) : FailsWith p (state.update val) := by
  have hadd (a b : Int64) : i64Add a b = .ok (a + b) := if_neg fun h => hchecks h.1
  have haddTo (sum : Value) : ∃ v, AggState.addTo sum val = .ok v := by
    unfold AggState.addTo
    split
    case h_2 => exact ⟨_, by rw [hadd]; rfl⟩
    all_goals exact ⟨_, rfl⟩
  unfold AggState.update
  split
  · exact .ok _
  · cases state with
    | count n => simp only [hadd]; exact .ok _
    | sum s =>
      obtain ⟨v, hv⟩ := haddTo s
      simp only [hv]
      exact .ok _
    | avg s n =>
      obtain ⟨v, hv⟩ := haddTo s
      simp only [hadd, hv]
      exact .ok _
    | min m => cases m <;> exact .ok _
    | max m => cases m <;> exact .ok _

section Rows

variable {q : Expr → Schema → Prop} {other : Prop} {schema : Schema} {groupBy : List Expr}
  {aggFuncs : List (String × Expr × String)}

namespace ReachedAll

variable {l l' : List Expr} {t : Tuple}

theorem append_left (h : ReachedAll q schema (l ++ l')) : ReachedAll q schema l := by
  induction l with
  | nil => trivial
  | cons e l ih => exact ⟨h.1, fun he => ih (h.2 he)⟩

theorem append_right (h : ReachedAll q schema (l ++ l')) {vals : List Value}
    (hvals : (l.mapM fun e => e.eval t schema) = .ok vals) : ReachedAll q schema l' := by
  induction l generalizing vals with
  | nil => exact h
  | cons e l ih =>
    rw [List.mapM_cons] at hvals
    obtain ⟨v, hv, hvals⟩ := Result.bind_eq_ok.mp hvals
    obtain ⟨vs, hvs, -⟩ := Result.bind_eq_ok.mp hvals
    obtain ⟨a, ha, -⟩ := Expr.forecast_of_ok hv
    exact ih (h.2 (by rw [ha]; rfl)) hvs

theorem mapM (h : ReachedAll q schema l) (hq : ∀ e, q e schema → FailsWith p (e.eval t schema)) :
    FailsWith p (l.mapM fun e => e.eval t schema) := by
  induction l with
  | nil => exact .ok _
  | cons e l ih =>
    rw [List.mapM_cons]
    refine (hq e h.1).bind fun v hv => ?_
    obtain ⟨a, ha, -⟩ := Expr.forecast_of_ok hv
    exact (ih (h.2 (by rw [ha]; rfl))).bind fun _ _ => .ok _

theorem updateStates {states : List AggState} (h : ReachedAll q schema (arguments aggFuncs))
    (hq : ∀ e, q e schema → FailsWith p (e.eval t schema))
    (hupdate : ∀ state val, FailsWith p (AggState.update state val))
    (hlen : (∀ m, p (.panic m)) ∨ states.length = aggFuncs.length) :
    FailsWith p (updateStates schema t aggFuncs states).1 := by
  induction aggFuncs generalizing states with
  | nil => exact .ok _
  | cons f aggFuncs ih =>
    cases states with
    | nil => exact .error (hlen.resolve_right (by rintro ⟨⟩) _)
    | cons state states =>
      have hlen := hlen.imp_right Nat.succ.inj
      unfold arguments at h
      unfold VolcanoDb.updateStates
      dsimp only
      split at h
      · rename_i hstar
        rw [if_pos hstar]
        split
        · rename_i g hg
          exact .error (hupdate state (.int 1) g hg)
        · exact ih h hlen
      · rename_i hstar
        rw [if_neg hstar]
        rcases hv : f.2.1.eval t schema with g | v
        · exact .error (hq _ h.1 g hv)
        · obtain ⟨a, ha, -⟩ := Expr.forecast_of_ok hv
          rw [Result.ok_bind]
          split
          · rename_i g hg
            exact .error (hupdate state v g hg)
          · exact ih (h.2 (by rw [ha]; rfl)) hlen

end ReachedAll

section Groups

variable (hother : other → ∀ f : Fault, f.Other → p f)
  (hknown : other ∨ KnownFunctions aggFuncs)
include hother hknown

omit [BuildProfile] in
theorem newStates_failsWith_of : FailsWith p (Groups.newStates aggFuncs) := by
  rcases hknown with ho | hknown
  · exact newStates_failsWith (fun m => hother ho _ (Fault.other_panic m)) aggFuncs
  · obtain ⟨states, hstates, -⟩ := hknown.newStates
    rw [hstates]
    exact .ok _

variable (hcalm : other ∨ ¬ BuildProfile.overflowChecks)
  (hreached : ReachedAll q schema (groupBy ++ arguments aggFuncs))
  (hq : ∀ e, q e schema → ∀ t, FailsWith p (e.eval t schema))
include hcalm hreached hq

theorem addTuple_failsWith {g : Groups} (hg : other ∨ g.Consistent aggFuncs) (t : Tuple) :
    FailsWith p (g.addTuple groupBy aggFuncs schema t).1 := by
  have hpanic (ho : other) (m : String) : p (.panic m) := hother ho _ (Fault.other_panic m)
  have hupdate (state : AggState) (val : Value) : FailsWith p (state.update val) :=
    hcalm.elim (fun ho => update_failsWith (hother ho) state val)
      fun hchecks => update_of_unchecked hchecks state val
  unfold Groups.addTuple
  split
  · rename_i f hf
    exact .error (hreached.append_left.mapM (fun e he => hq e he t) f hf)
  rename_i vals hvals
  dsimp only
  split
  · rename_i f hf
    refine .error ?_
    unfold Groups.statesOf at hf
    split at hf
    · cases hf
    · exact newStates_failsWith_of hother hknown f hf
  · rename_i states hstates
    refine (hreached.append_right hvals).updateStates (fun e he => hq e he t) hupdate ?_
    rcases hg with ho | hg
    · exact .inl (hpanic ho)
    rcases hknown with ho | hknown
    · exact .inl (hpanic ho)
    · obtain ⟨states', hstates', hlen⟩ := hg.statesOf hknown (makeGroupKey vals)
      obtain rfl := Except.ok.inj (hstates.symm.trans hstates')
      exact .inr hlen

theorem fold_addTuple_failsWith {g : Groups} (hg : other ∨ g.Consistent aggFuncs)
    (l : List Tuple) :
    FailsWith p (foldUntil (Groups.addTuple groupBy aggFuncs schema) l g).1 := by
  induction l generalizing g with
  | nil => exact .ok _
  | cons t l ih =>
    have hfails := addTuple_failsWith hother hknown hcalm hreached hq hg t
    have hg' : other ∨ (g.addTuple groupBy aggFuncs schema t).2.Consistent aggFuncs := by
      rcases hg with ho | hg
      · exact .inl ho
      · exact hknown.imp_right fun hknown => (hg.addTuple hknown t).1
    unfold foldUntil
    rcases ha : g.addTuple groupBy aggFuncs schema t with ⟨f | _, g'⟩
    · exact .error (hfails f (congrArg Prod.fst ha))
    · rw [ha] at hg'
      exact ih hg'

end Groups

theorem groups_failsWith (hother : other → ∀ f : Fault, f.Other → p f)
    (hknown : other ∨ KnownFunctions aggFuncs) {s : Stream} (hs : s.StopsWith p)
    (hrows : s.rows = [] ∨ (other ∨ ¬ BuildProfile.overflowChecks) ∧
      ReachedAll q schema (groupBy ++ arguments aggFuncs))
    (hq : ∀ e, q e schema → ∀ t, FailsWith p (e.eval t schema)) :
    FailsWith p (s.groups groupBy aggFuncs schema) := by
  have hfold : FailsWith p
      (foldUntil (Groups.addTuple groupBy aggFuncs schema) s.rows .empty).1 := by
    rcases hrows with hempty | ⟨hcalm, hreached⟩
    · rw [hempty]
      exact .ok _
    · exact fold_addTuple_failsWith hother hknown hcalm hreached hq
        (.inr (Groups.consistent_empty aggFuncs)) s.rows
  unfold Stream.groups
  dsimp only
  refine hfold.bind fun _ _ => hs.all.bind fun _ _ => ?_
  unfold Groups.addGlobal
  split
  · exact (newStates_failsWith_of hother hknown).bind fun _ _ => .ok _
  · exact .ok _

end Rows

omit [BuildProfile] in
theorem Stream.keepUntil_rows_eq_nil {test : Tuple → Result Bool} {stop : Option Fault}
    {l : List Tuple} (h : ∀ t, test t ≠ .ok true) : (Stream.keepUntil test stop l).rows = [] := by
  induction l with
  | nil => rfl
  | cons t l ih =>
    unfold Stream.keepUntil
    split
    · rfl
    · rename_i htrue
      exact absurd htrue (h t)
    · exact ih

namespace LogicalPlan

variable [Collections] {ctx : ExecutionContext} {catalog : Catalog} {plan : LogicalPlan}

theorem Barren.rows (h : plan.Barren catalog) {s : Stream}
    (hs : plan.stream ctx catalog = .ok s) : s.rows = [] := by
  induction plan generalizing s with
  | dummyScan | scan | project | limit | sort | agg => cases h
  | filter child predicate ih =>
    obtain ⟨s', hs', hs⟩ := Result.bind_eq_ok.mp hs
    obtain ⟨schema, hschema, hs⟩ := Result.bind_eq_ok.mp hs
    cases hs
    rcases h with h | h
    · rw [ih h hs']
      rfl
    · exact Stream.keepUntil_rows_eq_nil (h schema hschema).not_true
  | join left right condition ihl ihr =>
    obtain ⟨l, hl, hs⟩ := Result.bind_eq_ok.mp hs
    obtain ⟨r, hr, hs⟩ := Result.bind_eq_ok.mp hs
    obtain ⟨rightRows, hright, hs⟩ := Result.bind_eq_ok.mp hs
    obtain ⟨schema, hschema, hs⟩ := Result.bind_eq_ok.mp hs
    have hstream : ∃ stop, s =
        .keepUntil (joinMatches condition schema) stop (product l.rows rightRows) := by
      split at hs
      · cases hs
      · cases hs
        exact ⟨_, rfl⟩
    obtain ⟨stop, rfl⟩ := hstream
    rcases h with h | h | ⟨e, rfl, h⟩
    · rw [ihl h hl]
      rfl
    · obtain rfl : r = ⟨rightRows, none⟩ := Stream.all_eq_ok.mp hright
      obtain rfl : rightRows = [] := ihr h hr
      have hproduct : product l.rows [] = [] := by simp [product]
      rw [hproduct]
      rfl
    · exact Stream.keepUntil_rows_eq_nil (h schema hschema).not_true

/-- What a plan fails with, before its first row and after some rows. -/
structure Fails (p : Fault → Prop) (ctx : ExecutionContext) (catalog : Catalog)
    (q : Expr → Schema → Prop) (other : Prop) (plan : LogicalPlan) : Prop where
  init : FailsWith p (plan.stream ctx catalog)
  stops : plan.HandsOut catalog q other → ∀ s, plan.stream ctx catalog = .ok s → s.StopsWith p

namespace Fails

variable {q : Expr → Schema → Prop} {other : Prop} {schema : Schema}
  {child left right : LogicalPlan}

theorem dummyScan : LogicalPlan.dummyScan.Fails p ctx catalog q other := by
  refine ⟨.ok _, fun _ => ?_⟩
  rintro _ ⟨⟩
  exact Stream.StopsWith.none

theorem scan {tableName : String} {aliasName : Option String}
    (hstorage : ctx.tables.lookup tableName = none → p (.error (.tableNotInStorage tableName))) :
    (LogicalPlan.scan tableName aliasName).Fails p ctx catalog q other := by
  constructor
  · unfold LogicalPlan.stream
    split <;> exact .ok _
  · intro _ s hs
    unfold LogicalPlan.stream at hs
    split at hs
    · rename_i ht
      cases hs
      rintro _ ⟨⟩
      exact hstorage ht
    · cases hs
      exact Stream.StopsWith.none

theorem filter {predicate : Expr} (hs : child.schema catalog = .ok schema)
    (hq : ∀ e s, q e s → ∀ t, FailsWith p (e.eval t s)) (h : child.Fails p ctx catalog q other) :
    (LogicalPlan.filter child predicate).Fails p ctx catalog q other := by
  constructor
  · simp only [LogicalPlan.stream, hs, Result.ok_bind]
    exact h.init.bind fun _ _ => .ok _
  · rintro ⟨hout, hpred⟩ _ hall
    simp only [LogicalPlan.stream, hs, Result.ok_bind] at hall
    obtain ⟨s, hstream, ⟨⟩⟩ := Result.bind_eq_ok.mp hall
    refine .keepUntil (h.stops hout s hstream) fun t ht => ?_
    rcases hpred with hbarren | hpred
    · rw [hbarren.rows hstream] at ht
      cases ht
    · exact (hq _ _ (hpred _ hs) t).map _

theorem project {exprs : List (Expr × String)} (hs : child.schema catalog = .ok schema)
    (hq : ∀ e s, q e s → ∀ t, FailsWith p (e.eval t s)) (h : child.Fails p ctx catalog q other) :
    (LogicalPlan.project child exprs).Fails p ctx catalog q other := by
  constructor
  · simp only [LogicalPlan.stream, hs, Result.ok_bind]
    exact h.init.bind fun _ _ => .ok _
  · rintro ⟨hout, hexprs⟩ _ hall
    simp only [LogicalPlan.stream, hs, Result.ok_bind] at hall
    obtain ⟨s, hstream, ⟨⟩⟩ := Result.bind_eq_ok.mp hall
    refine .mapUntil (h.stops hout s hstream) fun t ht => ?_
    rcases hexprs with hbarren | hexprs
    · rw [hbarren.rows hstream] at ht
      cases ht
    · exact ((hexprs _ hs).mapM fun e he => hq e schema he t).map _

theorem limit {limitVal offset : Option ℕ} (h : child.Fails p ctx catalog q other) :
    (LogicalPlan.limit child limitVal offset).Fails p ctx catalog q other := by
  constructor
  · unfold LogicalPlan.stream
    exact h.init.bind fun _ _ => .ok _
  · intro hout _ hall
    unfold LogicalPlan.stream at hall
    obtain ⟨s, hstream, ⟨⟩⟩ := Result.bind_eq_ok.mp hall
    rcases hout with ⟨rfl, hoff⟩ | hout
    · simp only [Stream.StopsWith, Stream.window, hoff, Option.any_some, Nat.add_zero,
        Nat.zero_le, decide_true, if_true]
      exact Stream.StopsWith.none
    · exact (h.stops hout s hstream).window limitVal offset

theorem sort {orderBy : List (Expr × Bool)} (hs : child.schema catalog = .ok schema)
    (hsort : SortsByComparing) (hpanic : ∀ m, p (.panic m))
    (hout : child.HandsOut catalog q other) (h : child.Fails p ctx catalog q other) :
    (LogicalPlan.sort child orderBy).Fails p ctx catalog q other := by
  constructor
  · simp only [LogicalPlan.stream, hs, Result.ok_bind]
    exact h.init.bind fun s hstream => (h.stops hout s hstream).all.bind fun l _ =>
      (sortBy_failsWith hsort hpanic schema orderBy l).bind fun _ _ => .ok _
  · intro _ _ hstream
    simp only [LogicalPlan.stream, hs, Result.ok_bind] at hstream
    obtain ⟨s, -, hstream⟩ := Result.bind_eq_ok.mp hstream
    obtain ⟨l, -, hstream⟩ := Result.bind_eq_ok.mp hstream
    obtain ⟨sorted, -, ⟨⟩⟩ := Result.bind_eq_ok.mp hstream
    exact Stream.StopsWith.none

theorem join {condition : Option Expr}
    (hs : (LogicalPlan.join left right condition).schema catalog = .ok schema)
    (hq : ∀ e s, q e s → ∀ t, FailsWith p (e.eval t s))
    (houtL : left.HandsOut catalog q other) (houtR : right.HandsOut catalog q other)
    (hl : left.Fails p ctx catalog q other) (hr : right.Fails p ctx catalog q other) :
    (LogicalPlan.join left right condition).Fails p ctx catalog q other := by
  constructor
  · simp only [LogicalPlan.stream, hs, Result.ok_bind]
    refine hl.init.bind fun s hstream => hr.init.bind fun s' hstream' =>
      (hr.stops houtR s' hstream').all.bind fun rightRows _ => ?_
    have hstop := hl.stops houtL s hstream
    rcases s with ⟨leftRows, stop⟩
    dsimp only
    split
    · exact .error (hstop _ rfl)
    · exact .ok _
  · rintro ⟨-, hcond⟩ _ hall
    simp only [LogicalPlan.stream, hs, Result.ok_bind] at hall
    obtain ⟨s, hstream, hmatch⟩ := Result.bind_eq_ok.mp hall
    obtain ⟨s', hstream', hmatch⟩ := Result.bind_eq_ok.mp hmatch
    obtain ⟨rightRows, hrightRows, hmatch⟩ := Result.bind_eq_ok.mp hmatch
    have hstop := hl.stops houtL s hstream
    split at hmatch
    · cases hmatch
    cases hmatch
    refine .keepUntil hstop fun t ht => ?_
    rcases hcond with hbarren | hbarren | hcond
    · rw [hbarren.rows hstream] at ht
      cases ht
    · obtain rfl : s' = ⟨rightRows, none⟩ := Stream.all_eq_ok.mp hrightRows
      obtain rfl : rightRows = [] := hbarren.rows hstream'
      simp [product] at ht
    · cases condition with
      | none => exact .ok true
      | some cond => exact (hq _ _ (hcond _ hs cond rfl) t).map _

theorem agg {groupBy : List Expr} {aggFuncs : List (String × Expr × String)}
    (hs : child.schema catalog = .ok schema) (hother : other → ∀ f : Fault, f.Other → p f)
    (hq : ∀ e s, q e s → ∀ t, FailsWith p (e.eval t s))
    (hprepares : (LogicalPlan.agg child groupBy aggFuncs).Prepares catalog q other)
    (h : child.Fails p ctx catalog q other) :
    (LogicalPlan.agg child groupBy aggFuncs).Fails p ctx catalog q other := by
  obtain ⟨-, hout, hknown, hrows⟩ := hprepares
  constructor
  · simp only [LogicalPlan.stream, hs, Result.ok_bind]
    refine h.init.bind fun s hstream => FailsWith.bind ?_ fun _ _ => .ok _
    exact groups_failsWith hother hknown (h.stops hout s hstream)
      (hrows.imp (fun hbarren => hbarren.rows hstream) fun h => ⟨h.1, h.2 _ hs⟩)
      fun e he t => hq e schema he t
  · intro ho _ hstream
    simp only [LogicalPlan.stream, hs, Result.ok_bind] at hstream
    obtain ⟨s, -, hstream⟩ := Result.bind_eq_ok.mp hstream
    obtain ⟨g, -, ⟨⟩⟩ := Result.bind_eq_ok.mp hstream
    refine .mapUntil Stream.StopsWith.none fun key _ => ?_
    unfold groupRow
    split
    · exact .ok _
    · exact .error (hother ho _ (Fault.other_panic _))

end Fails

/--
A plan whose operators can be built fails, before its first row or after some
rows, with a failure of the expressions that are reached, a missing table or
something else, if it is not ruled out.
-/
theorem stream_failsWith (hsort : SortsByComparing) {q : Expr → Schema → Prop} {other : Prop}
    {e : Executor} (hb : buildExecutor catalog plan = .ok e)
    (hother : other → ∀ f : Fault, f.Other → p f)
    (hstorage : ∀ name ∈ plan.scans, ctx.tables.lookup name = none →
      p (.error (.tableNotInStorage name)))
    (hq : ∀ e s, q e s → ∀ t, FailsWith p (e.eval t s)) (hinit : plan.Prepares catalog q other) :
    plan.Fails p ctx catalog q other := by
  induction plan generalizing e with
  | dummyScan => exact .dummyScan
  | scan tableName aliasName =>
    exact .scan (hstorage tableName (List.mem_singleton_self tableName))
  | filter child predicate ih =>
    simp only [buildExecutor, Result.bind_eq_ok] at hb
    obtain ⟨c, hc, schema, hs, -⟩ := hb
    exact .filter hs hq (ih hc hstorage hinit)
  | project child exprs ih =>
    simp only [buildExecutor, Result.bind_eq_ok] at hb
    obtain ⟨c, hc, schema, hs, -⟩ := hb
    exact .project hs hq (ih hc hstorage hinit)
  | limit child limitVal offset ih =>
    obtain ⟨c, hc, -⟩ := Result.bind_eq_ok.mp hb
    exact .limit (ih hc hstorage hinit)
  | sort child orderBy ih =>
    simp only [buildExecutor, Result.bind_eq_ok] at hb
    obtain ⟨c, hc, schema, hs, -⟩ := hb
    obtain ⟨ho, hprepares, hout⟩ := hinit
    exact .sort hs hsort (fun m => hother ho _ (Fault.other_panic m)) hout
      (ih hc hstorage hprepares)
  | join left right condition ihl ihr =>
    simp only [buildExecutor, Result.bind_eq_ok] at hb
    obtain ⟨l, hl, r, hr, schema, hs, -⟩ := hb
    obtain ⟨hinitL, hinitR, houtL, houtR⟩ := hinit
    exact .join hs hq houtL houtR
      (ihl hl (fun n hn => hstorage n (List.mem_append_left _ hn)) hinitL)
      (ihr hr (fun n hn => hstorage n (List.mem_append_right _ hn)) hinitR)
  | agg child groupBy aggFuncs ih =>
    simp only [buildExecutor, Result.bind_eq_ok] at hb
    obtain ⟨c, hc, schema, hs, -⟩ := hb
    exact .agg hs hother hq hinit (ih hc hstorage hinit.1)

end LogicalPlan

end Streams

end VolcanoDb
