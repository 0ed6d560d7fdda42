import VolcanoDb.Executor.Grouping
import VolcanoDb.Executor.JoinCommutes

/-! # The order of hash maps

Every execution of a statement makes its hash maps with random keys of its own, and a
grouping hands its groups out in the order in which its map is iterated. What a plan
hands out otherwise is the same in any two executions.
-/

namespace VolcanoDb

def LogicalPlan.Unsorted : LogicalPlan → Prop
  | dummyScan | scan _ _ => True
  | filter child _ | project child _ | limit child _ _ | agg child _ _ => child.Unsorted
  | join left right _ => left.Unsorted ∧ right.Unsorted
  | sort _ _ => False

/-- Plans without windows that group only rows of tables, as they come. -/
def LogicalPlan.Unwindowed : LogicalPlan → Prop
  | dummyScan | scan _ _ => True
  | filter child _ | project child _ | sort child _ => child.Unwindowed
  | join left right _ => left.Unwindowed ∧ right.Unwindowed
  | agg child _ _ => child.IsFrom
  | limit _ _ _ => False

/-- Plans that make one group at most of the rows that they aggregate. -/
def LogicalPlan.Ungrouped : LogicalPlan → Prop
  | dummyScan | scan _ _ => True
  | filter child _ | project child _ | sort child _ | limit child _ _ => child.Ungrouped
  | join left right _ => left.Ungrouped ∧ right.Ungrouped
  | agg child groupBy _ => groupBy = [] ∧ child.Ungrouped

/--
The collections of two executions by one program: the same sort, and hash maps whose
iteration meets every key once, in any order.
-/
structure SameStd (c c' : Collections) : Prop where
  sortBy : c.sortBy = c'.sortBy
  sorts : @SortsByComparing c
  iterates : @IteratesKeys c
  iterates' : @IteratesKeys c'

theorem SameStd.sorts' {c c' : Collections} (h : SameStd c c') : @SortsByComparing c' := by
  have hperm := @SortsByComparing.perm c h.sorts
  have hfailure := @SortsByComparing.failure c h.sorts
  rw [h.sortBy] at hperm hfailure
  exact @SortsByComparing.mk c' hperm hfailure

section Ends

variable [BuildProfile] {c : Collections} {ctx : ExecutionContext} {catalog : Catalog}
  {l : List Tuple}

theorem stream_filter {child : LogicalPlan} {predicate : Expr}
    (h : (LogicalPlan.filter child predicate).stream ctx catalog = .ok ⟨l, none⟩) :
    ∃ rows schema, child.stream ctx catalog = .ok ⟨rows, none⟩ ∧
      child.schema catalog = .ok schema ∧
      .keepUntil (fun t => Value.isTruthy <$> predicate.eval t schema) none rows =
        (⟨l, none⟩ : Stream) := by
  obtain ⟨⟨rows, stop⟩, hs, h⟩ := Result.bind_eq_ok.mp h
  obtain ⟨schema, hschema, h⟩ := Result.bind_eq_ok.mp h
  have hkeep := Except.ok.inj h
  obtain ⟨rfl, -⟩ := Stream.keepUntil_eq_iff.mp hkeep
  exact ⟨rows, schema, hs, hschema, hkeep⟩

theorem stream_project {child : LogicalPlan} {exprs : List (Expr × String)}
    (h : (LogicalPlan.project child exprs).stream ctx catalog = .ok ⟨l, none⟩) :
    ∃ rows schema, child.stream ctx catalog = .ok ⟨rows, none⟩ ∧
      child.schema catalog = .ok schema ∧
      .mapUntil (projectRow schema (exprs.map Prod.fst)) none rows = (⟨l, none⟩ : Stream) := by
  obtain ⟨⟨rows, stop⟩, hs, h⟩ := Result.bind_eq_ok.mp h
  obtain ⟨schema, hschema, h⟩ := Result.bind_eq_ok.mp h
  have hmap := Except.ok.inj h
  obtain ⟨rfl, -⟩ := Stream.mapUntil_eq_iff.mp hmap
  exact ⟨rows, schema, hs, hschema, hmap⟩

theorem stream_sort {child : LogicalPlan} {orderBy : List (Expr × Bool)}
    (h : (LogicalPlan.sort child orderBy).stream ctx catalog = .ok ⟨l, none⟩) :
    ∃ rows schema, child.stream ctx catalog = .ok ⟨rows, none⟩ ∧
      child.schema catalog = .ok schema ∧
      Collections.sortBy (fun a b => compareKeys schema a b orderBy) rows = .ok l := by
  obtain ⟨s, hs, h⟩ := Result.bind_eq_ok.mp h
  obtain ⟨schema, hschema, h⟩ := Result.bind_eq_ok.mp h
  obtain ⟨rows, hall, h⟩ := Result.bind_eq_ok.mp h
  obtain ⟨sorted, hsorted, h⟩ := Result.bind_eq_ok.mp h
  cases h
  exact ⟨rows, schema, Stream.all_eq_ok.mp hall ▸ hs, hschema, hsorted⟩

theorem stream_join {left right : LogicalPlan} {condition : Option Expr}
    (h : (LogicalPlan.join left right condition).stream ctx catalog = .ok ⟨l, none⟩) :
    ∃ leftRows rightRows schema, left.stream ctx catalog = .ok ⟨leftRows, none⟩ ∧
      right.stream ctx catalog = .ok ⟨rightRows, none⟩ ∧
      (LogicalPlan.join left right condition).schema catalog = .ok schema ∧
      .keepUntil (joinMatches condition schema) none (product leftRows rightRows) =
        (⟨l, none⟩ : Stream) := by
  obtain ⟨⟨leftRows, stop⟩, hl, h⟩ := Result.bind_eq_ok.mp h
  obtain ⟨r, hr, h⟩ := Result.bind_eq_ok.mp h
  obtain ⟨rightRows, hall, h⟩ := Result.bind_eq_ok.mp h
  obtain ⟨schema, hschema, h⟩ := Result.bind_eq_ok.mp h
  split at h
  · cases h
  · have hkeep := Except.ok.inj h
    obtain ⟨rfl, -⟩ := Stream.keepUntil_eq_iff.mp hkeep
    exact ⟨_, rightRows, schema, hl, Stream.all_eq_ok.mp hall ▸ hr, hschema, hkeep⟩

end Ends

section Binding

variable [Unicode] {catalog : Catalog}

omit [Unicode] in
theorem LogicalPlan.IsFrom.unwindowed {plan : LogicalPlan} (h : plan.IsFrom) :
    plan.Unwindowed := by
  induction plan with
  | dummyScan | scan => trivial
  | filter child _ ih => exact ih h
  | join left right _ ihl ihr => exact ⟨ihl h.1, ihr h.2⟩
  | project | limit | sort | agg => exact absurd h id

theorem bindQuery_unwindowed {q : Sql.Query} {plan : LogicalPlan}
    (h : bindQuery q catalog = .ok plan) (hlimit : ∀ child n k, plan ≠ .limit child n k) :
    plan.Unwindowed := by
  obtain ⟨select, source, schema, selection, targets, groupBy, sorted, limit, offset, -, hsource,
    -, -, -, -, hsorted, -, -, hplan⟩ := bindQuery_eq_ok h
  have hfrom : (filterBy source selection).IsFrom := by
    have hsource := bindFrom_isFrom hsource
    cases selection with
    | none => exact hsource
    | some predicate => exact hsource
  have hprojection : (bindProjection (filterBy source selection) targets.flatten
      groupBy).Unwindowed := by
    unfold bindProjection
    split
    · exact hfrom
    · exact hfrom.unwindowed
  have hsorted : sorted.Unwindowed := by
    unfold bindOrderBy at hsorted
    split at hsorted
    · cases hsorted
      exact hprojection
    · cases hsorted
      exact hprojection
    · obtain ⟨keys, -, hsorted⟩ := Result.bind_eq_ok.mp hsorted
      cases hsorted
      exact hprojection
  split at hplan
  · exact absurd hplan (hlimit _ _ _)
  · exact hplan ▸ hsorted

end Binding

section Rows

variable {l l' out : List Tuple}

theorem Stream.keepUntil_perm {test : Tuple → Result Bool}
    (h : keepUntil test none l = ⟨out, none⟩) (hp : l.Perm l') :
    ∃ out', keepUntil test none l' = ⟨out', none⟩ ∧ out.Perm out' := by
  obtain ⟨-, hall, rfl⟩ := keepUntil_eq_iff.mp h
  exact ⟨_, keepUntil_eq_iff.mpr ⟨rfl, fun t ht => hall t (hp.mem_iff.mpr ht), rfl⟩,
    hp.filter _⟩

theorem Stream.mapUntil_perm {α : Type} {f : α → Result Tuple} {l l' : List α}
    (h : mapUntil f none l = ⟨out, none⟩) (hp : l.Perm l') :
    ∃ out', mapUntil f none l' = ⟨out', none⟩ ∧ out.Perm out' := by
  obtain ⟨-, hmap⟩ := mapUntil_eq_iff.mp h
  let g (a : α) : Tuple := (f a).toOption.getD (.new [])
  have hg (a : α) (ha : a ∈ l) : f a = .ok (g a) := by
    obtain ⟨t, ht⟩ := Result.exists_of_mapM_eq_ok hmap ha
    simp [g, ht]
  have hout : out = l.map g := Except.ok.inj (hmap.symm.trans (Result.mapM_eq_ok hg))
  exact ⟨l'.map g, mapUntil_eq_map (fun a ha => hg a (hp.mem_iff.mpr ha)) none,
    hout ▸ hp.map g⟩

end Rows

section Groups

variable [BuildProfile] {aggFuncs : List (String × Expr × String)} {schema : Schema}

theorem groups_keys_length_le_one {s : Stream} {g : Groups}
    (h : s.groups [] aggFuncs schema = .ok g) : g.groups.keys.length ≤ 1 := by
  obtain ⟨rows, stop⟩ := s
  obtain rfl : stop = none := by
    cases stop with
    | none => rfl
    | some f =>
      obtain ⟨_, -, h⟩ := Result.bind_eq_ok.mp h
      cases h
  by_cases hne : rows = []
  · subst hne
    rw [groups_nil, if_pos rfl] at h
    obtain ⟨states, -, h⟩ := Result.bind_eq_ok.mp h
    cases h
    exact le_refl 1
  · have hcollected := collected_of_fold ((groups_eq_ok hne).mp h)
    have hone : g.groups.keys ⊆ [makeGroupKey []] := by
      intro key hkey
      obtain ⟨t, ht⟩ := List.exists_mem_of_ne_nil _ (hcollected.mem_keys.mp hkey)
      have hmem := (List.mem_filter.mp ht).2
      exact List.mem_singleton.mpr ((hasKey_iff rfl).mp hmem).symm
    exact (List.subperm_of_subset g.groups.nodupKeys hone).length_le

omit [BuildProfile] in
theorem iterOrder_eq {c c' : Collections} (hiter : @IteratesKeys c) (hiter' : @IteratesKeys c')
    {κ : Type} {l : List κ} (hl : l.length ≤ 1) : c.iterOrder l = c'.iterOrder l := by
  have hone (c : Collections) (hiter : @IteratesKeys c) : c.iterOrder l = l := by
    match l, hl with
    | [], _ => exact List.perm_nil.mp (hiter _)
    | [a], _ => exact List.perm_singleton.mp (hiter _)
  rw [hone c hiter, hone c' hiter']

end Groups

section Plans

variable [BuildProfile] {c c' : Collections} {ctx : ExecutionContext} {catalog : Catalog}

theorem LogicalPlan.IsFrom.stream_eq {plan : LogicalPlan} (h : plan.IsFrom) :
    @stream _ c ctx catalog plan = @stream _ c' ctx catalog plan := by
  induction plan with
  | dummyScan | scan => rfl
  | filter child _ ih => simp only [stream, ih h]
  | join left right _ ihl ihr => simp only [stream, ihl h.1, ihr h.2]
  | project | limit | sort | agg => exact absurd h id

/--
A plan without windows that hands out all its rows does so in any order of the hash
maps, up to the order of the rows, unless a sort panics over them.
-/
theorem LogicalPlan.stream_any_order (hsort : @SortsByComparing c) (hsort' : @SortsByComparing c')
    (hiter : @IteratesKeys c) (hiter' : @IteratesKeys c') {plan : LogicalPlan}
    (hp : plan.Unwindowed) {l : List Tuple}
    (h : @stream _ c ctx catalog plan = .ok ⟨l, none⟩) :
    (¬ plan.Unsorted ∧ ∃ message, @stream _ c' ctx catalog plan = .error (.panic message)) ∨
      ∃ l', @stream _ c' ctx catalog plan = .ok ⟨l', none⟩ ∧ l.Perm l' := by
  induction plan generalizing l with
  | dummyScan => exact .inr ⟨l, h, .refl _⟩
  | scan tableName aliasName => exact .inr ⟨l, h, .refl _⟩
  | filter child predicate ih =>
    obtain ⟨rows, schema, hs, hschema, hkeep⟩ := stream_filter h
    rcases ih hp hs with ⟨hsorted, message, hpanic⟩ | ⟨rows', hs', hperm⟩
    · exact .inl ⟨hsorted, message, by rw [stream, hpanic]; rfl⟩
    · obtain ⟨out', hkeep', hout⟩ := Stream.keepUntil_perm hkeep hperm
      exact .inr ⟨out', by simp [stream, hs', hschema, hkeep'], hout⟩
  | project child exprs ih =>
    obtain ⟨rows, schema, hs, hschema, hmap⟩ := stream_project h
    rcases ih hp hs with ⟨hsorted, message, hpanic⟩ | ⟨rows', hs', hperm⟩
    · exact .inl ⟨hsorted, message, by rw [stream, hpanic]; rfl⟩
    · obtain ⟨out', hmap', hout⟩ := Stream.mapUntil_perm hmap hperm
      exact .inr ⟨out', by simp [stream, hs', hschema, hmap'], hout⟩
  | sort child orderBy ih =>
    obtain ⟨rows, schema, hs, hschema, hsorted⟩ := stream_sort h
    rcases ih hp hs with ⟨-, message, hpanic⟩ | ⟨rows', hs', hperm⟩
    · exact .inl ⟨id, message, by rw [stream, hpanic]; rfl⟩
    · let cmp (a b : Tuple) : Result Ordering := compareKeys schema a b orderBy
      have hfails : Result.FailsWith (fun f => ∃ message, f = .panic message)
          (@Collections.sortBy c' cmp rows') :=
        sortBy_failsWith hsort' (fun m => ⟨m, rfl⟩) schema orderBy rows'
      rcases hsorted' : @Collections.sortBy c' cmp rows' with f | sorted'
      · obtain ⟨message, rfl⟩ := hfails f hsorted'
        refine .inl ⟨id, message, ?_⟩
        rw [stream, hs', Result.ok_bind, hschema, Result.ok_bind, Stream.all, Result.pure_eq_ok,
          Result.ok_bind, hsorted']
        rfl
      · refine .inr ⟨sorted', ?_, ?_⟩
        · rw [stream, hs', Result.ok_bind, hschema, Result.ok_bind, Stream.all, Result.pure_eq_ok,
            Result.ok_bind, hsorted']
          rfl
        · have hperm₁ : l.Perm rows := @SortsByComparing.perm c hsort _ _ _ hsorted
          exact hperm₁.trans (hperm.trans (hsort'.perm hsorted').symm)
  | join left right condition ihl ihr =>
    obtain ⟨leftRows, rightRows, schema, hl, hr, hschema, hkeep⟩ := stream_join h
    rcases ihl hp.1 hl with ⟨hsorted, message, hpanic⟩ | ⟨leftRows', hl', hpermL⟩
    · exact .inl ⟨fun hu => hsorted hu.1, message, by rw [stream, hpanic]; rfl⟩
    rcases ihr hp.2 hr with ⟨hsorted, message, hpanic⟩ | ⟨rightRows', hr', hpermR⟩
    · exact .inl ⟨fun hu => hsorted hu.2, message, by rw [stream, hl', hpanic]; rfl⟩
    obtain ⟨out', hkeep', hout⟩ :=
      Stream.keepUntil_perm hkeep (hpermL.flatMap fun a _ => hpermR.map (combine a))
    have hkeep' : .keepUntil (joinMatches condition schema) none (product leftRows' rightRows') =
        (⟨out', none⟩ : Stream) := hkeep'
    exact .inr ⟨out', by simp [stream, hl', hr', hschema, Stream.all, hkeep'], hout⟩
  | agg child groupBy aggFuncs ih =>
    obtain ⟨s, hs, h⟩ := Result.bind_eq_ok.mp h
    obtain ⟨schema, hschema, h⟩ := Result.bind_eq_ok.mp h
    obtain ⟨g, hg, h⟩ := Result.bind_eq_ok.mp h
    have hmap := Except.ok.inj h
    have hs' : @stream _ c' ctx catalog child = .ok s := by rw [← hs, IsFrom.stream_eq hp]
    have hkeys : (@Collections.iterOrder c _ g.groups.keys).Perm
        (@Collections.iterOrder c' _ g.groups.keys) := (hiter _).trans (hiter' _).symm
    obtain ⟨out', hmap', hout⟩ := Stream.mapUntil_perm hmap hkeys
    exact .inr ⟨out', by simp [stream, hs', hschema, hg, hmap'], hout⟩
  | limit child _ _ ih => exact absurd hp id

theorem LogicalPlan.stream_ungrouped (hstd : SameStd c c') {plan : LogicalPlan}
    (hp : plan.Ungrouped) :
    @stream _ c ctx catalog plan = @stream _ c' ctx catalog plan := by
  induction plan with
  | dummyScan | scan => rfl
  | filter child _ ih | project child _ ih | limit child _ _ ih => simp only [stream, ih hp]
  | sort child orderBy ih => simp only [stream, ih hp, hstd.sortBy]
  | join left right _ ihl ihr => simp only [stream, ihl hp.1, ihr hp.2]
  | agg child groupBy aggFuncs ih =>
    obtain ⟨rfl, hp⟩ := hp
    simp only [stream, ih hp]
    apply bind_congr
    intro s
    apply bind_congr
    intro schema
    rcases hg : s.groups [] aggFuncs schema with f | g
    · rfl
    · simp only [Result.ok_bind, iterOrder_eq hstd.iterates hstd.iterates'
        (groups_keys_length_le_one hg)]

end Plans

end VolcanoDb
