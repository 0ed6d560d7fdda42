import VolcanoDb.Executor.Ordering

/-! # Resolution of column references

A reference is looked up by name at run time, in the columns of the operator
below, and stands for the first column that it names. A wildcard is expanded to
the qualified names of all columns, which are looked up again.
-/

namespace VolcanoDb

/-- Whether a reference names a column: exactly if it has a dot, else by the last component. -/
def Column.NamedBy (name : String) (col : Column) : Prop := NameFits name col.name

instance (name : String) (col : Column) : Decidable (col.NamedBy name) :=
  inferInstanceAs (Decidable (NameFits name col.name))

namespace Schema

variable {s : Schema} {name : String} {i : ℕ}

/-- A reference is found at the first column that it names. -/
theorem findColIdx_eq_some :
    s.findColIdx name = some i ↔ ∃ col, s.columns[i]? = some col ∧ col.NamedBy name ∧
      ∀ j col', j < i → s.columns[j]? = some col' → ¬ col'.NamedBy name := by
  rw [findColIdx_eq, List.findIdx?_eq_some_iff_getElem]
  constructor
  · rintro ⟨hi, hcol, hfirst⟩
    refine ⟨_, List.getElem?_eq_getElem hi, of_decide_eq_true hcol, fun j col' hj hcol' => ?_⟩
    obtain ⟨hj', rfl⟩ := List.getElem?_eq_some_iff.mp hcol'
    simpa [Column.NamedBy] using hfirst j hj
  · rintro ⟨col, hcol, hname, hfirst⟩
    obtain ⟨hi, rfl⟩ := List.getElem?_eq_some_iff.mp hcol
    refine ⟨hi, decide_eq_true hname, fun j hj => ?_⟩
    simpa [Column.NamedBy] using hfirst j _ hj (List.getElem?_eq_getElem (hj.trans hi))

theorem findColIdx_eq_none :
    s.findColIdx name = none ↔ ∀ col ∈ s.columns, ¬ col.NamedBy name := by
  rw [findColIdx_eq, List.findIdx?_eq_none_iff]
  simp [Column.NamedBy]

theorem findColIdx_getElem (hdot : ∀ col ∈ s.columns, hasDot col.name)
    (hnodup : (s.columns.map Column.name).Nodup) (hi : i < s.columns.length) :
    s.findColIdx s.columns[i].name = some i := by
  have hnamed (col : Column) : col.NamedBy s.columns[i].name ↔ col.name = s.columns[i].name := by
    rw [Column.NamedBy, NameFits, if_pos (hdot _ (List.getElem_mem hi))]
  refine findColIdx_eq_some.mpr ⟨_, List.getElem?_eq_getElem hi, (hnamed _).mpr rfl, ?_⟩
  rintro j col hj hcol hname
  obtain ⟨hj', rfl⟩ := List.getElem?_eq_some_iff.mp hcol
  have hpair := List.pairwise_iff_getElem.mp (List.pairwise_map.mp hnodup)
  exact hpair j i hj' hi hj ((hnamed _).mp hname)

end Schema

/-! ### The rows of a `FROM` clause -/

/-- A plan of scans and joins, possibly filtered. -/
def LogicalPlan.IsFrom : LogicalPlan → Prop
  | dummyScan | scan _ _ => True
  | filter child _ => child.IsFrom
  | join left right _ => left.IsFrom ∧ right.IsFrom
  | _ => False

theorem bindTableFactor_isFrom {factor : Sql.TableFactor} {plan : LogicalPlan}
    (h : bindTableFactor factor = .ok plan) : plan.IsFrom := by
  cases factor <;> cases h
  trivial

theorem bindFrom_isFrom [Unicode] {items : List Sql.TableWithJoins} {plan : LogicalPlan}
    (h : bindFrom items = .ok plan) : plan.IsFrom := by
  rcases items with _ | ⟨⟨relation, joins⟩, items⟩
  · cases h
    trivial
  obtain ⟨p, hp, hjoins⟩ := Result.bind_eq_ok.mp h
  replace hp := bindTableFactor_isFrom hp
  clear h
  dsimp only at hjoins
  induction joins generalizing p with
  | nil =>
    cases hjoins
    exact hp
  | cons join joins ih =>
    rw [List.foldlM_cons] at hjoins
    obtain ⟨p', hp', hjoins⟩ := Result.bind_eq_ok.mp hjoins
    refine ih p' hjoins ?_
    obtain ⟨right, hright, hp'⟩ := Result.bind_eq_ok.mp hp'
    have hright := bindTableFactor_isFrom hright
    rcases hop : join.joinOperator with expr | _ | debug
    · rw [hop] at hp'
      obtain ⟨cond, -, hp'⟩ := Result.bind_eq_ok.mp hp'
      cases hp'
      exact ⟨hp, hright⟩
    · rw [hop] at hp'
      cases hp'
      exact ⟨hp, hright⟩
    · rw [hop] at hp'
      cases hp'

theorem hasDot_qualified (qualifier name : String) : hasDot s!"{qualifier}.{name}" := by
  have hpoint : '.' ∈ (toString ".").toList := by decide
  simp [hasDot, hpoint]

theorem LogicalPlan.IsFrom.hasDot {catalog : Catalog} {plan : LogicalPlan} {schema : Schema}
    (h : plan.IsFrom) (hs : plan.schema catalog = .ok schema) :
    ∀ col ∈ schema.columns, hasDot col.name := by
  induction plan generalizing schema with
  | dummyScan => cases hs; simp
  | scan tableName aliasName =>
    simp only [LogicalPlan.schema] at hs
    split at hs
    · cases hs
      rintro col hcol
      obtain ⟨col, -, rfl⟩ := List.mem_map.mp hcol
      dsimp only
      split
      · assumption
      · exact hasDot_qualified _ _
    · cases hs
  | filter child predicate ih => exact ih h hs
  | join left right condition ihl ihr =>
    obtain ⟨ls, hls, hs⟩ := Result.bind_eq_ok.mp hs
    obtain ⟨rs, hrs, hs⟩ := Result.bind_eq_ok.mp hs
    cases hs
    intro col hcol
    rcases List.mem_append.mp hcol with hcol | hcol
    · exact ihl h.1 hls col hcol
    · exact ihr h.2 hrs col hcol
  | project | limit | sort | agg => exact h.elim

theorem filterBy_isFrom {source : LogicalPlan} (h : source.IsFrom) (selection : Option Expr) :
    (filterBy source selection).IsFrom := by
  cases selection <;> exact h

theorem schema_filterBy {catalog : Catalog} (source : LogicalPlan) (selection : Option Expr) :
    (filterBy source selection).schema catalog = source.schema catalog := by
  cases selection <;> rfl

section Arity

variable [BuildProfile] [Collections] {ctx : ExecutionContext} {catalog : Catalog}

/-- Every stored row has as many values as its table has columns. -/
def ArityHolds (tables : FinMap String (List Tuple)) (catalog : Catalog) : Prop :=
  ∀ name schema rows, catalog.getSchema name = some schema → tables.lookup name = some rows →
    ∀ t ∈ rows, t.values.length = schema.columns.length

omit [BuildProfile] [Collections] in
theorem Stream.mem_keepUntil {test : Tuple → Result Bool} {stop : Option Fault} {l : List Tuple}
    {t : Tuple} (h : t ∈ (keepUntil test stop l).rows) : t ∈ l := by
  induction l with
  | nil => cases h
  | cons u l ih =>
    unfold keepUntil at h
    split at h
    · cases h
    · rcases List.mem_cons.mp h with rfl | h
      · exact List.mem_cons_self
      · exact List.mem_cons_of_mem _ (ih h)
    · exact List.mem_cons_of_mem _ (ih h)

omit [BuildProfile] [Collections] in
theorem mem_product {t : Tuple} {left right : List Tuple} :
    t ∈ product left right ↔ ∃ l ∈ left, ∃ r ∈ right, combine l r = t := by
  simp [product]

theorem LogicalPlan.IsFrom.length_eq {plan : LogicalPlan} {schema : Schema} {s : Stream}
    (h : plan.IsFrom) (harity : ArityHolds ctx.tables catalog)
    (hs : plan.schema catalog = .ok schema) (hstream : plan.stream ctx catalog = .ok s) :
    ∀ t ∈ s.rows, t.values.length = schema.columns.length := by
  induction plan generalizing schema s with
  | dummyScan =>
    cases hs
    cases hstream
    simp [Tuple.new]
  | scan tableName aliasName =>
    simp only [LogicalPlan.schema] at hs
    simp only [LogicalPlan.stream] at hstream
    split at hs
    · rename_i tableSchema hget
      cases hs
      split at hstream
      · cases hstream
        simp
      · rename_i rows hrows
        cases hstream
        intro t ht
        simpa [qualify] using harity _ _ _ hget hrows t (List.mem_of_mem_filter ht)
    · cases hs
  | filter child predicate ih =>
    obtain ⟨s', hs', hstream⟩ := Result.bind_eq_ok.mp hstream
    obtain ⟨schema', -, hstream⟩ := Result.bind_eq_ok.mp hstream
    cases hstream
    exact fun t ht => ih h hs hs' t (Stream.mem_keepUntil ht)
  | join left right condition ihl ihr =>
    obtain ⟨ls, hls, hs⟩ := Result.bind_eq_ok.mp hs
    obtain ⟨rs, hrs, hs⟩ := Result.bind_eq_ok.mp hs
    cases hs
    simp only [LogicalPlan.stream, Result.bind_eq_ok] at hstream
    obtain ⟨sl, hsl, sr, hsr, rightRows, hright, _, -, hstream⟩ := hstream
    obtain rfl := Stream.all_eq_ok.mp hright
    have hrows : ∀ t ∈ s.rows, t ∈ product sl.rows rightRows := by
      split at hstream
      · cases hstream
      · cases hstream
        exact fun t ht => Stream.mem_keepUntil ht
    intro t ht
    obtain ⟨l, hl, r, hr, rfl⟩ := mem_product.mp (hrows t ht)
    simp [combine, Tuple.new, ihl h.1 hls hsl l hl, ihr h.2 hrs hsr r hr]
  | project | limit | sort | agg => exact h.elim

/-- A reference evaluates to the first column that it names, and to an error if there is none. -/
def Resolves (schema : Schema) (t : Tuple) (name : String) : Prop :=
  (∀ (i : ℕ) (col : Column), schema.columns[i]? = some col → col.NamedBy name →
    (∀ (j : ℕ) (col' : Column), j < i → schema.columns[j]? = some col' → ¬ col'.NamedBy name) →
    ∃ v, t.values[i]? = some v ∧ (Expr.colRef name).eval t schema = .ok v) ∧
  ((∀ col ∈ schema.columns, ¬ col.NamedBy name) →
    (Expr.colRef name).eval t schema =
      err (.columnNotFound name (schema.columns.map Column.name)))

omit [Collections] in
theorem resolves_of_length {schema : Schema} {t : Tuple}
    (h : t.values.length = schema.columns.length) (name : String) : Resolves schema t name := by
  constructor
  · intro i col hcol hname hfirst
    have hidx := Schema.findColIdx_eq_some.mpr ⟨col, hcol, hname, hfirst⟩
    have hi : i < t.values.length := h ▸ (List.getElem?_eq_some_iff.mp hcol).1
    refine ⟨t.values[i], List.getElem?_eq_getElem hi, ?_⟩
    simp [Expr.eval, hidx, List.getElem?_eq_getElem hi]
  · intro hnone
    simp [Expr.eval, Schema.findColIdx_eq_none.mpr hnone]

omit [Collections] in
theorem projectRow_columns {schema : Schema} {t : Tuple}
    (hdot : ∀ col ∈ schema.columns, hasDot col.name)
    (hnodup : (schema.columns.map Column.name).Nodup)
    (h : t.values.length = schema.columns.length) :
    projectRow schema (schema.columns.map fun col => .colRef col.name) t =
      .ok (.new t.values) := by
  have hvals : (schema.columns.map fun col => Expr.colRef col.name).mapM
      (fun expr => expr.eval t schema) = .ok t.values := by
    refine Result.mapM_eq_ok_of_forall₂ (List.forall₂_map_left_iff.mpr ?_)
    refine List.forall₂_of_length_eq_of_get h.symm fun i hi hi' => ?_
    simp [Expr.eval, Schema.findColIdx_getElem hdot hnodup hi, List.getElem?_eq_getElem hi']
  rw [projectRow, hvals]
  rfl

end Arity

section Star

variable [BuildProfile] [Collections] [Unicode] {ctx : ExecutionContext} {catalog : Catalog}

structure IsSelectStar (q : Sql.Query) (select : Sql.Select) : Prop where
  body : q.body = .select select
  projection : select.projection = [.wildcard]
  groupBy : select.groupBy = .expressions []
  orderBy : q.orderBy = none
  limit : q.limit = none
  offset : q.offset = none

omit [Unicode] in
theorem answer_project_columns {child : LogicalPlan} {schema : Schema} (hfrom : child.IsFrom)
    (harity : ArityHolds ctx.tables catalog) (hschema : child.schema catalog = .ok schema)
    (hnodup : (schema.columns.map Column.name).Nodup) :
    (LogicalPlan.project child (schema.columns.map fun col => (.colRef col.name, col.name))).answer
      ctx catalog = (List.map fun t => Tuple.new t.values) <$> child.answer ctx catalog := by
  have hexprs : (schema.columns.map fun col => (Expr.colRef col.name, col.name)).map Prod.fst =
      schema.columns.map fun col => Expr.colRef col.name := by simp
  simp only [LogicalPlan.answer, LogicalPlan.stream, hschema, hexprs]
  rcases hs : child.stream ctx catalog with f | s
  · rfl
  · have hmap := Stream.mapUntil_eq_map (fun t ht => projectRow_columns (hfrom.hasDot hschema)
      hnodup (hfrom.length_eq harity hschema hs t ht)) s.stop
    rcases s with ⟨rows, _ | f⟩ <;> simp [hmap, Stream.all]

theorem selectStar_unchanged (harity : ArityHolds ctx.tables catalog) {q : Sql.Query}
    {select : Sql.Select} {plan source : LogicalPlan} {schema : Schema}
    (hq : IsSelectStar q select) (h : bindQuery q catalog = .ok plan)
    (hsource : bindFrom select.from_ = .ok source) (hschema : source.schema catalog = .ok schema)
    (hnodup : (schema.columns.map Column.name).Nodup) :
    ∃ selection, select.selection.mapM mapSqlExpr = .ok selection ∧
      (executeQuery ctx catalog plan).toOption =
        ((filterBy source selection).answer ctx catalog).toOption.map
          (List.map fun t => Tuple.new t.values) := by
  obtain ⟨select', source', schema', selection, targets, groupBy, sorted, limit, offset, hbody,
    hsource', hschema', hsel, htargets, hgb, hob, hlimit, hoffset, rfl⟩ := bindQuery_eq_ok h
  obtain rfl := Sql.SetExpr.select.inj (hq.body.symm.trans hbody)
  obtain rfl := Except.ok.inj (hsource.symm.trans hsource')
  obtain rfl := Except.ok.inj (hschema.symm.trans hschema')
  rw [hq.projection] at htargets
  rw [hq.groupBy] at hgb
  rw [hq.orderBy] at hob
  rw [hq.limit] at hlimit
  rw [hq.offset] at hoffset
  obtain rfl : [schema.columns.map fun col => (Expr.colRef col.name, col.name)] = targets :=
    Except.ok.inj htargets
  obtain rfl : [] = groupBy := Except.ok.inj hgb
  cases hob
  cases hlimit
  cases hoffset
  have hnoagg : ((schema.columns.map fun col => (Expr.colRef col.name, col.name)).any
      fun t => hasAggFuncs t.1) = false := by
    rw [List.any_map, List.any_eq_false]
    exact fun col _ => Bool.false_ne_true
  refine ⟨selection, hsel, ?_⟩
  have hplan : bindProjection (filterBy source selection)
      [schema.columns.map fun col => (Expr.colRef col.name, col.name)].flatten [] =
      .project (filterBy source selection)
        (schema.columns.map fun col => (Expr.colRef col.name, col.name)) := by
    simp [bindProjection, hnoagg]
  have hanswer := answer_project_columns
    (filterBy_isFrom (bindFrom_isFrom hsource) selection) harity
    ((schema_filterBy source selection).trans hschema) hnodup
  rw [Executor.toOption_executeQuery, if_neg (by simp), hplan, hanswer]
  rcases (filterBy source selection).answer ctx catalog with f | rows <;> rfl

/--
A reference evaluates to the first column of its input that it names, and to an
error if it names none. A query for all columns returns the rows of `FROM` and
`WHERE` unchanged when no two columns of `FROM` have one qualified name.
-/
theorem references_first_match (harity : ArityHolds ctx.tables catalog) :
    (∀ items source schema s, bindFrom items = .ok source → source.schema catalog = .ok schema →
      source.stream ctx catalog = .ok s → ∀ t ∈ s.rows, ∀ name, Resolves schema t name) ∧
    ∀ q select plan source schema, IsSelectStar q select → bindQuery q catalog = .ok plan →
      bindFrom select.from_ = .ok source → source.schema catalog = .ok schema →
      (schema.columns.map Column.name).Nodup →
      ∃ selection, select.selection.mapM mapSqlExpr = .ok selection ∧
        (executeQuery ctx catalog plan).toOption =
          ((filterBy source selection).answer ctx catalog).toOption.map
            (List.map fun t => Tuple.new t.values) := by
  constructor
  · intro items source schema s hsource hschema hs t ht
    exact resolves_of_length ((bindFrom_isFrom hsource).length_eq harity hschema hs t ht)
  · intro q select plan source schema hq h hsource hschema hnodup
    exact selectStar_unchanged harity hq h hsource hschema hnodup

end Star

namespace Sample

def usersTwice (aliasName : Option String) : List Sql.TableWithJoins :=
  [⟨.table [⟨"t", none⟩] none,
    [⟨.table [⟨"t", none⟩] (aliasName.map fun name => ⟨name, none⟩), .crossJoin⟩]⟩]

theorem arityHolds_users : ArityHolds userContext.tables userCatalog := by
  intro name schema rows hschema hrows t ht
  rw [userCatalog, Catalog.getSchema_addTable] at hschema
  split at hschema
  · subst name
    cases hschema
    have hlookup : userContext.tables.lookup "t" = some userRows := AList.lookup_insert ∅
    obtain rfl := Option.some_inj.mp (hlookup.symm.trans hrows)
    revert t
    decide
  · cases hschema

end Sample

open Sample in
theorem references_first_match_sample :
    let _ : BuildProfile := ⟨true⟩
    let _ := insertionCollections
    let _ : Unicode := ⟨String.toUpper, String.toLower, fun _ => true⟩
    let select : Sql.Select := { projection := [.wildcard], from_ := usersTwice (some "u") }
    ∃ plan, bindQuery (selectFrom select) userCatalog = .ok plan ∧
      (executeQuery userContext userCatalog plan).toOption =
        some (product userRows userRows) := by
  intro _ _ _ select
  refine ⟨_, rfl, ?_⟩
  obtain ⟨selection, hsel, h⟩ := (references_first_match arityHolds_users).2 (selectFrom select)
    select _ _ _ ⟨rfl, rfl, rfl, rfl, rfl, rfl⟩ rfl rfl rfl (by decide)
  cases hsel
  rw [h]
  decide +kernel

open Sample in
/--
`SELECT id FROM t CROSS JOIN t u` is answered though two columns have the name,
and `SELECT * FROM t CROSS JOIN t` returns every left row twice.
-/
theorem ambiguous_references_accepted :
    let _ : BuildProfile := ⟨true⟩
    let _ := insertionCollections
    let _ : Unicode := ⟨String.toUpper, String.toLower, fun _ => true⟩
    (∃ plan rows, bindQuery (selectFrom
        { projection := [.unnamedExpr (column "id")], from_ := usersTwice (some "u") })
        userCatalog = .ok plan ∧
      executeQuery userContext userCatalog plan = .ok rows ∧
      ∃ source schema, bindFrom (usersTwice (some "u")) = .ok source ∧
        source.schema userCatalog = .ok schema ∧
        (schema.columns.filter fun col => col.NamedBy "id").length = 2) ∧
    ∃ plan rows, bindQuery (selectFrom { projection := [.wildcard], from_ := usersTwice none })
        userCatalog = .ok plan ∧
      executeQuery userContext userCatalog plan = .ok rows ∧
      rows ≠ product userRows userRows := by
  intro _ _ _
  refine ⟨⟨_, [.new [.int 2], .new [.int 2], .new [.int 1], .new [.int 1]], rfl, by decide +kernel,
    _, _, rfl, rfl, by decide +kernel⟩, _, [.new [.int 2, .varchar "b", .int 2, .varchar "b"],
    .new [.int 2, .varchar "b", .int 2, .varchar "b"],
    .new [.int 1, .varchar "a", .int 1, .varchar "a"],
    .new [.int 1, .varchar "a", .int 1, .varchar "a"]], rfl, by decide +kernel, by decide +kernel⟩

end VolcanoDb
