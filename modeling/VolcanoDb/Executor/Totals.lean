import Mathlib.Algebra.BigOperators.Group.List.Basic
import VolcanoDb.Executor.Accumulators
import VolcanoDb.Executor.GroupKeys

/-! # Totals over groups

Whichever rows a hash aggregation puts into one group, every row is in exactly one of
them. So the counts of the groups add up to the number of the rows that are counted,
and the sums of the groups to the sum over all rows.
-/

namespace VolcanoDb

section Weights

variable [BuildProfile] {schema : Schema} {arg : Expr} {name : String} {rows : List Tuple}

def Value.toTotal : Value → ℤ
  | .int n => n.toInt
  | _ => 0

variable (schema arg) in
/-- Whether an aggregate counts a row: its argument is not `NULL`. -/
def counted (t : Tuple) : Bool :=
  match argValue schema arg t with
  | .ok v => !v.eq .null
  | .error _ => false

omit [BuildProfile] in
theorem sum_map_ite_one {α : Type} {p : α → Bool} {l : List α} :
    (l.countP p : ℤ) = (l.map fun a => if p a then (1 : ℤ) else 0).sum := by
  induction l with
  | nil => rfl
  | cons a l ih =>
    rw [List.countP_cons, List.map_cons, List.sum_cons, Nat.cast_add, ih]
    split <;> simp [add_comm]

theorem accumulate_count (hlen : InI64 rows.length) {s : AggState}
    (h : accumulate schema ("count", arg, name) rows = .ok s) :
    s = .count (Int64.ofInt (rows.countP (counted schema arg))) := by
  induction rows using List.reverseRecOn generalizing s with
  | nil => cases h; rfl
  | append_singleton rows t ih =>
    have hrows : InI64 rows.length :=
      inI64_of_le (Int.natCast_nonneg _) (by simp) hlen
    have hcount : InI64 (rows.countP (counted schema arg) + 1 : ℤ) := by
      have hle : rows.countP (counted schema arg) ≤ rows.length := List.countP_le_length
      rw [List.length_append, List.length_singleton] at hlen
      exact inI64_of_le (by omega) (by omega) hlen
    rw [accumulate_concat] at h
    obtain ⟨s', hs', h⟩ := Result.bind_eq_ok.mp h
    obtain ⟨v, hv, h⟩ := Result.bind_eq_ok.mp h
    obtain rfl := ih hrows hs'
    rw [List.countP_append, List.countP_singleton, counted, hv]
    by_cases hnull : v.eq .null
    · simp only [AggState.update, hnull, if_true] at h
      cases h
      simp [hnull]
    · simp only [AggState.update, hnull, Bool.false_eq_true, if_false] at h
      have hadd := i64Add_exactWithin (Int64.ofInt (rows.countP (counted schema arg))) 1
      have hone : (1 : Int64).toInt = 1 := rfl
      rw [toInt_ofInt (inI64_of_le (Int.natCast_nonneg _) (by omega) hcount), hone] at hadd
      rw [hadd.exact hcount] at h
      cases h
      simp [hnull]

theorem accumulate_eq_aggregate {func : String} {vals : List Value}
    (h : rows.mapM (argValue schema arg) = .ok vals) :
    accumulate schema (func, arg, name) rows = aggregate func vals := by
  unfold accumulate aggregate
  congr 1
  funext state
  induction rows generalizing vals state with
  | nil => cases h; rfl
  | cons t rows ih =>
    rw [List.mapM_cons] at h
    obtain ⟨v, hv, h⟩ := Result.bind_eq_ok.mp h
    obtain ⟨vals', hvals, h⟩ := Result.bind_eq_ok.mp h
    cases h
    simp only [List.foldlM_cons, hv, Result.ok_bind]
    congr 1
    funext state'
    exact ih hvals state'

omit [BuildProfile] in
theorem toTotal_sumValue {l : List Int64} (h : InI64 (exactSum l)) :
    (sumValue l).toTotal = exactSum l := by
  unfold sumValue
  split
  · rename_i hnil
    rw [hnil]
    rfl
  · exact toInt_ofInt h

omit [BuildProfile] in
theorem exactSum_reduceOption (l : List (Option Int64)) :
    exactSum l.reduceOption = (l.map fun o => (o.elim .null Value.int).toTotal).sum := by
  induction l with
  | nil => rfl
  | cons o l ih =>
    rcases o with _ | n
    · simpa [Value.toTotal] using ih
    · rw [List.reduceOption_cons_of_some, List.map_cons, List.sum_cons, ← ih]
      rfl

theorem accumulate_sum (hcheck : BuildProfile.overflowChecks)
    (hint : ∀ t ∈ rows, ∃ o : Option Int64, argValue schema arg t = .ok (o.elim .null .int))
    {s : AggState} (h : accumulate schema ("sum", arg, name) rows = .ok s) :
    s.finalize.toTotal =
      (rows.map fun t => ((argValue schema arg t).toOption.getD .null).toTotal).sum := by
  choose! value hvalue using hint
  have hargs : rows.mapM (argValue schema arg) =
      .ok (rows.map fun t => (value t).elim .null .int) := Result.mapM_eq_ok hvalue
  have hnullable : (rows.map fun t => (value t).elim .null Value.int) =
      nullable .int (rows.map value) := by
    rw [nullable, List.map_map]
    rfl
  rw [accumulate_eq_aggregate hargs, hnullable, aggregate_nullable, ← feed_eq_aggregate] at h
  have hrange := runsInRange_of_feed hcheck (by simp) h
  rw [feed_of_runsInRange (by simp) hrange] at h
  cases h
  calc (fedState "sum" (rows.map value).reduceOption).finalize.toTotal
      = exactSum (rows.map value).reduceOption :=
        toTotal_sumValue (hrange _ List.prefix_rfl).1
    _ = ((rows.map value).map fun o => (o.elim .null Value.int).toTotal).sum :=
        exactSum_reduceOption _
    _ = (rows.map fun t => ((argValue schema arg t).toOption.getD .null).toTotal).sum := by
        rw [List.map_map]
        congr 1
        apply List.map_congr_left
        intro t ht
        rw [hvalue t ht]
        rfl

end Weights

section Columns

variable [BuildProfile] {groupBy : List Expr} {aggFuncs : List (String × Expr × String)}
  {schema : Schema} {rows out : List Tuple} {groups : List (List Tuple)}

def columnTotal (j : ℕ) (l : List Tuple) : ℤ :=
  (l.map fun t => (t.values.getD j .null).toTotal).sum

theorem groupTuple_getD {part : List Tuple} {t : Tuple}
    (h : groupTuple groupBy aggFuncs schema part = .ok t) (hne : groupBy = [] ∨ part ≠ [])
    {j : ℕ} {f : String × Expr × String} (hf : aggFuncs[j]? = some f) :
    ∃ s, accumulate schema f part = .ok s ∧
      t.values.getD (groupBy.length + j) .null = s.finalize := by
  obtain ⟨vals, hvals, h⟩ := Result.bind_eq_ok.mp h
  obtain ⟨states, hstates, h⟩ := Result.bind_eq_ok.mp h
  cases h
  have hlen : vals.length = groupBy.length := by
    unfold lastVals at hvals
    split at hvals
    · rename_i hlast
      cases hvals
      rcases hne with rfl | hne
      · rfl
      · exact absurd (List.getLast?_eq_none_iff.mp hlast) hne
    · exact length_groupVals hvals
  have hall := Result.forall₂_of_mapM_eq_ok hstates
  obtain ⟨hj, rfl⟩ := List.getElem?_eq_some_iff.mp hf
  have hj' : j < states.length := hall.length_eq ▸ hj
  refine ⟨states[j], List.Forall₂.get hall hj hj', ?_⟩
  simp [Tuple.new, List.getD_eq_getElem?_getD, ← hlen, hj']

/--
If the aggregate of every group is the weight of its rows, then the column of the
aggregate has the weight of all rows as its total.
-/
theorem columnTotal_eq {j : ℕ} {f : String × Expr × String} {weight : Tuple → ℤ}
    (hf : aggFuncs[j]? = some f)
    (hout : List.Forall₂ (fun s t => groupTuple groupBy aggFuncs schema s = .ok t) groups out)
    (hne : groupBy = [] ∨ [] ∉ groups)
    (hweight : ∀ part ∈ groups, ∀ s, accumulate schema f part = .ok s →
      s.finalize.toTotal = (part.map weight).sum) :
    columnTotal (groupBy.length + j) out = (groups.flatten.map weight).sum := by
  induction hout with
  | nil => rfl
  | @cons part t groups out hrow _ ih =>
    have hpart : groupBy = [] ∨ part ≠ [] := by
      rcases hne with hne | hne
      · exact .inl hne
      · exact .inr fun hnil => hne (hnil ▸ List.mem_cons_self)
    obtain ⟨s, hs, hcell⟩ := groupTuple_getD hrow hpart hf
    have ih := ih (hne.imp_right fun h hmem => h (List.mem_cons_of_mem _ hmem))
      fun part' hpart' => hweight part' (List.mem_cons_of_mem _ hpart')
    unfold columnTotal at ih ⊢
    rw [List.map_cons, List.sum_cons, List.flatten_cons, List.map_append, List.sum_append, ih,
      hcell, hweight part List.mem_cons_self s hs]

end Columns

section Queries

variable [BuildProfile] [Collections] {ctx : ExecutionContext} {catalog : Catalog}
  {child : LogicalPlan} {groupBy : List Expr} {aggFuncs : List (String × Expr × String)}
  {out : List Tuple}

theorem groups_of_executeQuery (hiter : IteratesKeys)
    (h : executeQuery ctx catalog (.agg child groupBy aggFuncs) = .ok out) :
    ∃ schema rows groups, child.schema catalog = .ok schema ∧
      executeQuery ctx catalog child = .ok rows ∧
      groups.flatten.Perm rows ∧ (∀ part ∈ groups, part.Sublist rows) ∧
      (groupBy = [] ∨ [] ∉ groups) ∧
      List.Forall₂ (fun s t => groupTuple groupBy aggFuncs schema s = .ok t) groups out := by
  have hanswer : (executeQuery ctx catalog (.agg child groupBy aggFuncs)).toOption =
      ((LogicalPlan.agg child groupBy aggFuncs).answer ctx catalog).toOption :=
    Executor.toOption_executeQuery _
  rw [h] at hanswer
  obtain ⟨s, hs, -⟩ := Result.bind_eq_ok.mp (Result.toOption_eq_some.mp hanswer.symm)
  obtain ⟨sc, hsc, hs⟩ := Result.bind_eq_ok.mp hs
  obtain ⟨schema, hschema, hs⟩ := Result.bind_eq_ok.mp hs
  obtain ⟨g, hg, -⟩ := Result.bind_eq_ok.mp hs
  obtain ⟨rows, hall⟩ : ∃ rows, sc.all = .ok rows := by
    obtain ⟨_, -, hg'⟩ := Result.bind_eq_ok.mp hg
    obtain ⟨rows, hall, -⟩ := Result.bind_eq_ok.mp hg'
    exact ⟨rows, hall⟩
  obtain rfl := Stream.all_eq_ok.mp hall
  have hchild : executeQuery ctx catalog child = .ok rows := by
    apply Result.toOption_eq_some.mp
    rw [Executor.toOption_executeQuery, LogicalPlan.answer, hsc]
    rfl
  obtain ⟨out', hout', hrows⟩ := executeQuery_agg hiter hschema hchild hg
  obtain rfl := Except.ok.inj (h.symm.trans hout')
  let keys := Collections.iterOrder g.groups.keys
  have hmem {key : String} : key ∈ keys ↔ key ∈ g.groups.keys := (hiter _).mem_iff
  have hkeys : ∀ t ∈ rows, ∃ key ∈ keys, rowKey groupBy schema t = some key := by
    intro t ht
    have hc := collected_of_fold ((groups_eq_ok (List.ne_nil_of_mem ht)).mp hg)
    obtain ⟨vals, hvals⟩ := hc.vals t ht
    have hk : rowKey groupBy schema t = some (makeGroupKey vals) := by simp [rowKey, hvals]
    exact ⟨_, hmem.mpr ((mem_keys_iff hg).mpr (.inl ⟨t, ht, hk⟩)), hk⟩
  refine ⟨schema, rows, keys.map fun key => members groupBy schema key rows, hschema, hchild,
    ?_, ?_, ?_, hrows⟩
  · rw [members_eq_withKey]
    exact flatten_withKey_perm ((hiter _).nodup_iff.mpr g.groups.keys_nodup) hkeys
  · exact List.forall_mem_map.mpr fun key _ => List.filter_sublist
  · by_cases hgb : groupBy = []
    · exact .inl hgb
    · right
      intro hnil
      obtain ⟨key, hkey, hm⟩ := List.mem_map.mp hnil
      exact members_ne_nil hg hgb (hmem.mp hkey) hm

/--
The counts in the rows of a hash aggregation add up to the number of the rows
below it in which the argument of the count is not `NULL`, as long as there are no
more than 2⁶³ - 1 rows.
-/
theorem counts_add_up (hiter : IteratesKeys)
    (h : executeQuery ctx catalog (.agg child groupBy aggFuncs) = .ok out) :
    ∃ schema rows, child.schema catalog = .ok schema ∧
      executeQuery ctx catalog child = .ok rows ∧
      ∀ j arg name, aggFuncs[j]? = some ("count", arg, name) → InI64 rows.length →
        columnTotal (groupBy.length + j) out = rows.countP (counted schema arg) := by
  obtain ⟨schema, rows, groups, hschema, hchild, hperm, hsub, hne, hout⟩ :=
    groups_of_executeQuery hiter h
  refine ⟨schema, rows, hschema, hchild, ?_⟩
  intro j arg name hf hlen
  let weight (t : Tuple) : ℤ := if counted schema arg t then 1 else 0
  have hweight : ∀ part ∈ groups, ∀ s, accumulate schema ("count", arg, name) part = .ok s →
      s.finalize.toTotal = (part.map weight).sum := by
    intro part hpart s hs
    have hle := (hsub part hpart).length_le
    have hcount : part.countP (counted schema arg) ≤ part.length := List.countP_le_length
    rw [accumulate_count (inI64_of_le (Int.natCast_nonneg _) (by omega) hlen) hs]
    calc (Int64.ofInt (part.countP (counted schema arg))).toInt
        = part.countP (counted schema arg) :=
          toInt_ofInt (inI64_of_le (Int.natCast_nonneg _) (by omega) hlen)
      _ = (part.map weight).sum := sum_map_ite_one
  calc columnTotal (groupBy.length + j) out
      = (groups.flatten.map weight).sum := columnTotal_eq hf hout hne hweight
    _ = (rows.map weight).sum := (hperm.map weight).sum_eq
    _ = rows.countP (counted schema arg) := sum_map_ite_one.symm

omit [BuildProfile] [Collections] in
open Sample in
theorem counts_add_up_users :
    let _ : BuildProfile := ⟨true⟩
    let _ := insertionCollections
    ∃ out, executeQuery userContext userCatalog usersByName = .ok out ∧ out.length = 2 ∧
      columnTotal 1 out = 2 := by
  intro _ _
  let out := [Tuple.new [.varchar "a", .int 1], Tuple.new [.varchar "b", .int 1]]
  have hout : executeQuery userContext userCatalog usersByName = .ok out := by decide +kernel
  obtain ⟨schema, rows, hschema, hrows, htotal⟩ := counts_add_up (fun l => .refl l) hout
  have hscan : executeQuery userContext userCatalog (.scan "t" "t") = .ok userRows := by
    decide +kernel
  obtain rfl := Except.ok.inj (hrows.symm.trans hscan)
  cases hschema
  refine ⟨out, hout, rfl, ?_⟩
  have h := htotal 0 .star "count(*)" rfl (by decide)
  exact h.trans (by decide +kernel)

/--
The checked sums in the rows of a hash aggregation over integers and `NULL`s add up
to the sum of the argument over all rows below it.
-/
theorem sums_add_up (hcheck : BuildProfile.overflowChecks) (hiter : IteratesKeys)
    (h : executeQuery ctx catalog (.agg child groupBy aggFuncs) = .ok out) :
    ∃ schema rows, child.schema catalog = .ok schema ∧
      executeQuery ctx catalog child = .ok rows ∧
      ∀ j arg name, aggFuncs[j]? = some ("sum", arg, name) →
        (∀ t ∈ rows, ∃ o : Option Int64,
          argValue schema arg t = .ok (o.elim .null .int)) →
        columnTotal (groupBy.length + j) out =
          (rows.map fun t => ((argValue schema arg t).toOption.getD .null).toTotal).sum := by
  obtain ⟨schema, rows, groups, hschema, hchild, hperm, hsub, hne, hout⟩ :=
    groups_of_executeQuery hiter h
  refine ⟨schema, rows, hschema, hchild, ?_⟩
  intro j arg name hf hint
  have htotal := columnTotal_eq hf hout hne fun part hpart s hs =>
    accumulate_sum hcheck (fun t ht => hint t ((hsub part hpart).subset ht)) hs
  rw [htotal]
  exact (hperm.map _).sum_eq

omit [BuildProfile] [Collections] in
open Sample in
theorem sums_add_up_users :
    let _ : BuildProfile := ⟨true⟩
    let _ := insertionCollections
    ∃ out, executeQuery userContext userCatalog
        (.agg (.scan "t" "t") [.colRef "name"] [("sum", .colRef "id", "sum(id)")]) = .ok out ∧
      out.length = 2 ∧ columnTotal 1 out = 3 := by
  intro _ _
  let out := [Tuple.new [.varchar "a", .int 1], Tuple.new [.varchar "b", .int 2]]
  have hout : executeQuery userContext userCatalog
      (.agg (.scan "t" "t") [.colRef "name"] [("sum", .colRef "id", "sum(id)")]) = .ok out := by
    decide +kernel
  obtain ⟨schema, rows, hschema, hrows, htotal⟩ := sums_add_up rfl (fun l => .refl l) hout
  have hscan : executeQuery userContext userCatalog (.scan "t" "t") = .ok userRows := by
    decide +kernel
  obtain rfl := Except.ok.inj (hrows.symm.trans hscan)
  cases hschema
  refine ⟨out, hout, rfl, ?_⟩
  have hids : ∀ t ∈ userRows, ∃ o : Option Int64,
      argValue ⟨[⟨"t.id", .int⟩, ⟨"t.name", .varchar⟩]⟩ (.colRef "id") t =
        .ok (o.elim .null .int) := by
    intro t ht
    rcases List.mem_pair.mp ht with rfl | rfl
    · exact ⟨some 2, by decide +kernel⟩
    · exact ⟨some 1, by decide +kernel⟩
  have h := htotal 0 (.colRef "id") "sum(id)" rfl hids
  exact h.trans (by decide +kernel)

end Queries

end VolcanoDb
