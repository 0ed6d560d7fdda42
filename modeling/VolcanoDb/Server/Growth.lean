import VolcanoDb.Lib.Relational
import VolcanoDb.Server.Isolation

/-! # Answers over changing data

Queries without windows and groups treat related tables alike: over more rows they
return more rows, and over rearranged tables the same rows in some order. The tables
that sessions are shown only grow, and are those of a serial history up to order.
-/

namespace VolcanoDb

open History Relational

/-- Plans of selections, projections, joins and sorts, without windows and groups. -/
def LogicalPlan.RowByRow : LogicalPlan → Prop
  | dummyScan | scan _ _ => True
  | filter child _ | project child _ | sort child _ => child.RowByRow
  | join left right _ => left.RowByRow ∧ right.RowByRow
  | limit _ _ _ | agg _ _ _ => False

section Values

variable {test : Tuple → Result Bool} {l out : List Tuple}

theorem Stream.values_keepUntil (htest : ∀ t : Tuple, test (.new t.values) = test t)
    {stop : Option Fault} (h : keepUntil test stop l = ⟨out, none⟩) :
    out.map Tuple.values = (l.map Tuple.values).filterMap fun vals =>
      if (test (.new vals)).toOption.getD false then some vals else none := by
  obtain ⟨-, -, rfl⟩ := keepUntil_eq_iff.mp h
  simp only [accepted, List.filterMap_map, ← List.filterMap_eq_filter, List.map_filterMap]
  congr 1
  funext t
  simp only [Function.comp_apply, htest, Option.guard]
  split <;> simp_all

theorem Stream.values_mapUntil {f : Tuple → Result Tuple}
    (hf : ∀ t : Tuple, f (.new t.values) = f t) {stop : Option Fault}
    (h : mapUntil f stop l = ⟨out, none⟩) :
    out.map Tuple.values = (l.map Tuple.values).filterMap fun vals =>
      (Tuple.values <$> f (.new vals)).toOption := by
  obtain ⟨-, hmap⟩ := mapUntil_eq_iff.mp h
  clear h
  induction l generalizing out with
  | nil => cases hmap; rfl
  | cons t l ih =>
    rw [List.mapM_cons, Result.bind_eq_ok] at hmap
    obtain ⟨t', ht, hmap⟩ := hmap
    obtain ⟨out', hout, hmap⟩ := Result.bind_eq_ok.mp hmap
    cases hmap
    rw [List.map_cons, List.map_cons, List.filterMap_cons, hf, ht, ← ih hout]
    rfl

theorem Stream.keepUntil_succeeds (htest : ∀ t : Tuple, test (.new t.values) = test t)
    (h : keepUntil test none l = ⟨out, none⟩) {l' : List Tuple}
    (hsub : l'.map Tuple.values ⊆ l.map Tuple.values) :
    ∃ out', keepUntil test none l' = ⟨out', none⟩ := by
  obtain ⟨-, hall, -⟩ := keepUntil_eq_iff.mp h
  refine ⟨accepted test l', keepUntil_eq_iff.mpr ⟨rfl, fun t' ht' => ?_, rfl⟩⟩
  obtain ⟨t, ht, hvals⟩ := List.mem_map.mp (hsub (List.mem_map_of_mem ht'))
  rw [← htest t', ← hvals, htest t]
  exact hall t ht

theorem Stream.mapUntil_succeeds {f : Tuple → Result Tuple}
    (hf : ∀ t : Tuple, f (.new t.values) = f t) (h : mapUntil f none l = ⟨out, none⟩)
    {l' : List Tuple} (hsub : l'.map Tuple.values ⊆ l.map Tuple.values) :
    ∃ out', mapUntil f none l' = ⟨out', none⟩ := by
  obtain ⟨-, hmap⟩ := mapUntil_eq_iff.mp h
  have hall (t' : Tuple) (ht' : t' ∈ l') : ∃ t'', f t' = .ok t'' := by
    obtain ⟨t, ht, hvals⟩ := List.mem_map.mp (hsub (List.mem_map_of_mem ht'))
    rw [← hf t', ← hvals, hf t]
    exact Result.exists_of_mapM_eq_ok hmap ht
  choose! g hg using hall
  exact ⟨l'.map g, mapUntil_eq_map hg none⟩

theorem values_product (left right : List Tuple) : (product left right).map Tuple.values =
    (left.map Tuple.values).flatMap fun l => (right.map Tuple.values).map fun r => l ++ r := by
  simp [product, combine, List.map_flatMap, List.flatMap_map, Function.comp_def, Tuple.new]

variable [BuildProfile]

theorem Expr.eval_new (e : Expr) (t : Tuple) (schema : Schema) :
    e.eval (.new t.values) schema = e.eval t schema := by
  induction e with
  | star | const | funcCall => rfl
  | colRef name => rfl
  | binaryOp op left right ihl ihr => simp only [Expr.eval, ihl, ihr]

theorem projectRow_new (schema : Schema) (exprs : List Expr) (t : Tuple) :
    projectRow schema exprs (.new t.values) = projectRow schema exprs t := by
  simp only [projectRow, Expr.eval_new]

theorem joinMatches_new (condition : Option Expr) (schema : Schema) (t : Tuple) :
    joinMatches condition schema (.new t.values) = joinMatches condition schema t := by
  cases condition with
  | none => rfl
  | some cond => simp only [joinMatches, Expr.eval_new]

end Values

section Plans

variable {ctx ctx' : ExecutionContext} {catalog catalog' : Catalog} {l : List Tuple}
  {R : {α : Type} → List α → List α → Prop}

/-- Two databases with the same schemas whose tables, as far as a plan reads them, are related. -/
structure Relates (R : {α : Type} → List α → List α → Prop) (plan : LogicalPlan)
    (ctx ctx' : ExecutionContext) (catalog catalog' : Catalog) : Prop where
  schemas : ∀ name ∈ plan.scans, catalog.getSchema name = catalog'.getSchema name
  rows : ∀ name ∈ plan.scans, ∀ rows rows', ctx.reads name = some rows →
    ctx'.reads name = some rows' → R (rows.map Tuple.values) (rows'.map Tuple.values)

theorem Relates.left {left right : LogicalPlan} {condition : Option Expr}
    (h : Relates R (.join left right condition) ctx ctx' catalog catalog') :
    Relates R left ctx ctx' catalog catalog' :=
  ⟨fun name hn => h.schemas name (List.mem_append_left _ hn),
    fun name hn => h.rows name (List.mem_append_left _ hn)⟩

theorem Relates.right {left right : LogicalPlan} {condition : Option Expr}
    (h : Relates R (.join left right condition) ctx ctx' catalog catalog') :
    Relates R right ctx ctx' catalog catalog' :=
  ⟨fun name hn => h.schemas name (List.mem_append_right _ hn),
    fun name hn => h.rows name (List.mem_append_right _ hn)⟩

variable [BuildProfile] {c c' : Collections}

/-- The rows of a plan over related tables are related, if they are all handed out. -/
theorem LogicalPlan.stream_related (hR : Respects R) {plan : LogicalPlan} (hp : plan.RowByRow)
    (hsort : plan.Unsorted ∨ @SortsByComparing c ∧ @SortsByComparing c' ∧ Unordered R)
    (hrel : Relates R plan ctx ctx' catalog catalog') {l' : List Tuple}
    (h : @stream _ c ctx catalog plan = .ok ⟨l, none⟩)
    (h' : @stream _ c' ctx' catalog' plan = .ok ⟨l', none⟩) :
    R (l.map Tuple.values) (l'.map Tuple.values) := by
  induction plan generalizing l l' with
  | dummyScan =>
    cases h
    cases h'
    exact hR.refl _
  | scan tableName aliasName =>
    rw [@stream_scan _ _ _ c] at h
    rw [stream_scan] at h'
    split at h
    · cases h
    split at h'
    · cases h'
    cases h
    cases h'
    exact hrel.rows tableName (List.mem_singleton_self _) _ _ ‹_› ‹_›
  | filter child predicate ih =>
    obtain ⟨rows, schema, hs, hschema, hkeep⟩ := stream_filter h
    obtain ⟨rows', schema', hs', hschema', hkeep'⟩ := stream_filter h'
    rw [← child.schema_congr hrel.schemas, hschema] at hschema'
    cases hschema'
    have htest (t : Tuple) : (Value.isTruthy <$> predicate.eval (.new t.values) schema) =
        Value.isTruthy <$> predicate.eval t schema := by rw [Expr.eval_new]
    rw [Stream.values_keepUntil htest hkeep, Stream.values_keepUntil htest hkeep']
    exact hR.filterMap _ (ih hp hsort ⟨hrel.schemas, hrel.rows⟩ hs hs')
  | project child exprs ih =>
    obtain ⟨rows, schema, hs, hschema, hmap⟩ := stream_project h
    obtain ⟨rows', schema', hs', hschema', hmap'⟩ := stream_project h'
    rw [← child.schema_congr hrel.schemas, hschema] at hschema'
    cases hschema'
    rw [Stream.values_mapUntil (projectRow_new schema _) hmap,
      Stream.values_mapUntil (projectRow_new schema _) hmap']
    exact hR.filterMap _ (ih hp hsort ⟨hrel.schemas, hrel.rows⟩ hs hs')
  | sort child orderBy ih =>
    obtain ⟨hcompare, hcompare', hunordered⟩ := hsort.resolve_left id
    obtain ⟨rows, schema, hs, -, hsorted⟩ := stream_sort h
    obtain ⟨rows', schema', hs', -, hsorted'⟩ := stream_sort h'
    exact hunordered ((@SortsByComparing.perm c hcompare _ _ _ hsorted).map _)
      ((hcompare'.perm hsorted').map _)
      (ih hp (.inr ⟨hcompare, hcompare', hunordered⟩) ⟨hrel.schemas, hrel.rows⟩ hs hs')
  | join left right condition ihl ihr =>
    obtain ⟨leftRows, rightRows, schema, hl, hr, hschema, hkeep⟩ := stream_join h
    obtain ⟨leftRows', rightRows', schema', hl', hr', hschema', hkeep'⟩ := stream_join h'
    rw [← LogicalPlan.schema_congr hrel.schemas, hschema] at hschema'
    cases hschema'
    rw [Stream.values_keepUntil (joinMatches_new condition schema) hkeep,
      Stream.values_keepUntil (joinMatches_new condition schema) hkeep',
      values_product, values_product]
    exact hR.filterMap _ <| hR.product _ (ihl hp.1 (hsort.imp_left And.left) hrel.left hl hl')
      (ihr hp.2 (hsort.imp_left And.right) hrel.right hr hr')
  | limit child _ _ ih | agg child _ _ ih => exact absurd hp id

/-- A plan without sorts hands out all its rows if it does so over tables with more of them. -/
theorem LogicalPlan.stream_succeeds {plan : LogicalPlan} (hp : plan.RowByRow)
    (hunsorted : plan.Unsorted)
    (hrel : Relates (fun l l' => l' ⊆ l) plan ctx ctx' catalog catalog')
    (hstored : ∀ name ∈ plan.scans, (ctx'.reads name).isSome)
    (h : @stream _ c ctx catalog plan = .ok ⟨l, none⟩) :
    ∃ l', @stream _ c' ctx' catalog' plan = .ok ⟨l', none⟩ := by
  induction plan generalizing l with
  | dummyScan => exact ⟨_, rfl⟩
  | scan tableName aliasName =>
    obtain ⟨rows', hrows'⟩ := Option.isSome_iff_exists.mp (hstored _ (List.mem_singleton_self _))
    exact ⟨rows', by rw [stream_scan, hrows']⟩
  | filter child predicate ih =>
    obtain ⟨rows, schema, hs, hschema, hkeep⟩ := stream_filter h
    have hchild : Relates (fun l l' => l' ⊆ l) child ctx ctx' catalog catalog' :=
      ⟨hrel.schemas, hrel.rows⟩
    have hpc : child.RowByRow := hp
    obtain ⟨rows', hs'⟩ := ih hpc hunsorted hchild hstored hs
    have hsub := stream_related respects_superset hpc (.inl hunsorted) hchild hs hs'
    have htest (t : Tuple) : (Value.isTruthy <$> predicate.eval (.new t.values) schema) =
        Value.isTruthy <$> predicate.eval t schema := by rw [Expr.eval_new]
    obtain ⟨out', hout'⟩ := Stream.keepUntil_succeeds htest hkeep hsub
    rw [child.schema_congr hrel.schemas] at hschema
    exact ⟨out', by simp only [stream, hs', hschema, Result.ok_bind, hout', Result.pure_eq_ok]⟩
  | project child exprs ih =>
    obtain ⟨rows, schema, hs, hschema, hmap⟩ := stream_project h
    have hchild : Relates (fun l l' => l' ⊆ l) child ctx ctx' catalog catalog' :=
      ⟨hrel.schemas, hrel.rows⟩
    have hpc : child.RowByRow := hp
    obtain ⟨rows', hs'⟩ := ih hpc hunsorted hchild hstored hs
    have hsub := stream_related respects_superset hpc (.inl hunsorted) hchild hs hs'
    obtain ⟨out', hout'⟩ := Stream.mapUntil_succeeds (projectRow_new schema _) hmap hsub
    rw [child.schema_congr hrel.schemas] at hschema
    exact ⟨out', by simp only [stream, hs', hschema, Result.ok_bind, hout', Result.pure_eq_ok]⟩
  | join left right condition ihl ihr =>
    obtain ⟨leftRows, rightRows, schema, hl, hr, hschema, hkeep⟩ := stream_join h
    obtain ⟨leftRows', hl'⟩ := ihl hp.1 hunsorted.1 hrel.left
      (fun name hn => hstored name (List.mem_append_left _ hn)) hl
    obtain ⟨rightRows', hr'⟩ := ihr hp.2 hunsorted.2 hrel.right
      (fun name hn => hstored name (List.mem_append_right _ hn)) hr
    have hsub : (product leftRows' rightRows').map Tuple.values ⊆
        (product leftRows rightRows).map Tuple.values := by
      rw [values_product, values_product]
      exact respects_superset.product _
        (stream_related respects_superset hp.1 (.inl hunsorted.1) hrel.left hl hl')
        (stream_related respects_superset hp.2 (.inl hunsorted.2) hrel.right hr hr')
    obtain ⟨out', hout'⟩ := Stream.keepUntil_succeeds (joinMatches_new condition schema) hkeep hsub
    rw [LogicalPlan.schema_congr hrel.schemas] at hschema
    refine ⟨out', ?_⟩
    simp only [stream, hl', hr', hschema, Stream.all, Result.ok_bind, Result.pure_eq_ok, hout']
  | sort child _ ih => exact absurd hunsorted id
  | limit child _ _ ih | agg child _ _ ih => exact absurd hp id

end Plans

section Answers

variable [BuildProfile] [Unicode] [SqlParser] [ComfyTable] {c c' : Collections}
  {w w' : Server} {h g : List DbEvent}

theorem query_succeeds {session session' : SessionState} {sql : String} (hc : ¬ IsControl sql)
    {plan : LogicalPlan} (hp : plan.RowByRow) (hunsorted : plan.Unsorted)
    (hb : bindStatement sql w.db.catalog = .ok (.query plan))
    (hb' : bindStatement sql w'.db.catalog = .ok (.query plan))
    (hrel : Relates (fun l l' => l' ⊆ l) plan (w.readContext session) (w'.readContext session')
      w.db.catalog w'.db.catalog)
    (hstored : ∀ name ∈ plan.scans, ((w'.readContext session').reads name).isSome)
    (h : ∃ reply, (@innerHandle _ _ c _ _ w.db session sql).1 = .ok reply) :
    ∃ reply', (@innerHandle _ _ c' _ _ w'.db session' sql).1 = .ok reply' := by
  obtain ⟨reply, h⟩ := h
  obtain ⟨schema, rows, hschema, hrows, -⟩ := query_answered hc hb h
  obtain ⟨rows', hrows'⟩ := LogicalPlan.stream_succeeds hp hunsorted hrel hstored hrows
  rw [plan.schema_congr hrel.schemas] at hschema
  exact ⟨_, query_answers hc hb' hschema hrows'⟩

omit [BuildProfile] [Unicode] [SqlParser] [ComfyTable] in
theorem Reached.reads_values (hr : Reached KeepsPositions w.world h) {session : SessionState}
    (hopen : ∀ i, session.currentTxId = some i → Open h i) {name : String} {rows : List Tuple}
    (hreads : (w.readContext session).reads name = some rows) :
    rows.map Tuple.values = (onTable name (snapshot h session.currentTxId)).map Prod.snd := by
  have ht : (w.db.tables.lookup name).isSome := by
    rcases ht : w.db.tables.lookup name with _ | rows'
    · rw [ExecutionContext.reads, Server.readContext, queryContext, ht] at hreads
      cases hreads
    · rfl
  rw [hr.reads_eq_rows session ht] at hreads
  cases hreads
  rw [← hr.snapshot_eq hopen name, List.map_map]
  rfl

/--
A query without windows and groups that has been answered is answered later, to any
session, with at least the same rows, unless it fails or the first session's own
transaction has been rolled back or given up. Without a sort they keep their order.
-/
theorem answers_grow (hsort : @SortsByComparing c) (hsort' : @SortsByComparing c')
    (hr : Runs KeepsPositions Server.fresh w h)
    (hr' : Runs KeepsPositions w w' g) {id id' : ℕ} {session session' : SessionState}
    (hs : w.sessions.lookup id = some session) (hs' : w'.sessions.lookup id' = some session')
    (htx : ∀ i, session.currentTxId = some i →
      session'.currentTxId = some i ∨ .commit i ∈ h ++ g)
    {sql : String} (hc : ¬ IsControl sql) {plan : LogicalPlan} (hp : plan.RowByRow)
    (hb : bindStatement sql w.db.catalog = .ok (.query plan)) {reply reply' : String}
    (hreply : (@innerHandle _ _ c _ _ w.db session sql).1 = .ok reply)
    (hreply' : (@innerHandle _ _ c' _ _ w'.db session' sql).1 = .ok reply') :
    ∃ schema rows rows', reply = resultText schema rows ∧ reply' = resultText schema rows' ∧
      (rows.map Tuple.values).Subperm (rows'.map Tuple.values) ∧
      (plan.Unsorted → (rows.map Tuple.values).Sublist (rows'.map Tuple.values)) := by
  have hr₁ : Reached KeepsPositions w.world h := hr.keeps
  have hr₂ : Reached KeepsPositions w'.world (h ++ g) := hr₁.trans hr'.keeps
  have hmono (name : String) (s : Schema) (hget : w.db.catalog.getSchema name = some s) :
      w'.db.catalog.getSchema name = some s := Reaches.getSchema hr'.keeps hget
  obtain ⟨hb', hschemas⟩ := bindStatement_mono hmono hb
  obtain ⟨schema, rows, hschema, hrows, rfl⟩ := query_answered hc hb hreply
  obtain ⟨schema', rows', hschema', hrows', rfl⟩ := query_answered hc hb' hreply'
  rw [← plan.schema_congr hschemas, hschema] at hschema'
  cases hschema'
  have htables (name : String) (old new : List Tuple)
      (hold : (w.readContext session).reads name = some old)
      (hnew : (w'.readContext session').reads name = some new) :
      (old.map Tuple.values).Sublist (new.map Tuple.values) := by
    rw [hr₁.reads_values (hr₁.open_of_session hs) hold,
      hr₂.reads_values (hr₂.open_of_session hs') hnew]
    exact ((snapshot_sublist htx).filterMap _).map _
  refine ⟨schema, rows, rows', rfl, rfl, ?_, fun hunsorted => ?_⟩
  · exact LogicalPlan.stream_related respects_subperm hp (.inr ⟨hsort, hsort', unordered_subperm⟩)
      ⟨hschemas, fun name _ old new hold hnew => (htables name old new hold hnew).subperm⟩
      hrows hrows'
  · exact LogicalPlan.stream_related respects_sublist hp (.inl hunsorted)
      ⟨hschemas, fun name _ => htables name⟩ hrows hrows'

end Answers

namespace Reading

def commitment : List Event := [.statement 1 "COMMIT"]

def third : Server := (first.after commitment).1

theorem third_runs : Runs KeepsPositions first third (first.after commitment).2 := by
  have hmeets : first.Meets LastRows commitment := by decide +kernel
  exact .of_lastRows hmeets

theorem third_session : third.sessions.lookup 2 = some ⟨2, none, 0⟩ := by decide +kernel

theorem plan_rowByRow : plan.RowByRow := trivial

theorem first_answers :
    (@innerHandle _ _ insertionCollections _ _ first.db ⟨2, none, 0⟩ "SELECT a FROM t").1 =
      .ok (resultText ⟨[⟨"a", .int⟩]⟩ [.new [.int 1]]) :=
  query_answers not_control (bound (by decide +kernel)) rfl (by decide +kernel)

theorem third_answers :
    (@innerHandle _ _ backwards _ _ third.db ⟨2, none, 0⟩ "SELECT a FROM t").1 =
      .ok (resultText ⟨[⟨"a", .int⟩]⟩ [.new [.int 1], .new [.int 2]]) :=
  query_answers not_control (bound (by decide +kernel)) rfl (by decide +kernel)

end Reading

open Reading in
theorem answers_grow_sample : ∃ schema rows rows',
    resultText ⟨[⟨"a", .int⟩]⟩ [.new [.int 1]] = resultText schema rows ∧
      resultText ⟨[⟨"a", .int⟩]⟩ [.new [.int 1], .new [.int 2]] = resultText schema rows' ∧
      (rows.map Tuple.values).Subperm (rows'.map Tuple.values) ∧
      (plan.Unsorted → (rows.map Tuple.values).Sublist (rows'.map Tuple.values)) :=
  answers_grow sortsByComparing_insertionCollections sameStd_backwards.sorts' first_runs third_runs
    first_session third_session (by simp) not_control plan_rowByRow (bound (by decide +kernel))
    first_answers third_answers

end VolcanoDb
