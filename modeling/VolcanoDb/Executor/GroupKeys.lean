import VolcanoDb.Executor.Grouping
import VolcanoDb.Executor.Ordering
import VolcanoDb.Executor.Refinement
import VolcanoDb.Lib.Partition

/-! # Group keys

A hash aggregation finds the group of a row by a text, the texts of its group
values with commas between them. Equal keys are equal group values, and the
groups the classes of `==`, unless a NaN is grouped with itself, equal numbers
have different texts or a string with a comma spells the cells behind it.
-/

namespace VolcanoDb

namespace Value

/-- The text of a cell in a group key. -/
def keyText : Value → String
  | null => "null"
  | int i => s!"i:{i.toInt}"
  | float f => s!"f:{f.toDecimal}"
  | varchar s => s!"s:{s}"
  | bool b => s!"b:{(bool b).display}"

def pieces (v : Value) : List (List Char) := v.keyText.toList.splitOn ','

theorem eq_or_keyText_ne {a b : Value} (h : a.eq b) :
    a = b ∨ ∀ x y, a.keyText.toList ++ x ≠ b.keyText.toList ++ y := by
  cases a with
  | null => cases b <;> simp_all [Value.eq]
  | varchar s => cases b <;> simp_all [Value.eq]
  | bool s => cases b <;> simp_all [Value.eq]
  | int i =>
    cases b with
    | int j => exact .inl (congrArg int (of_decide_eq_true h))
    | float f => exact .inr fun x y => by simp [keyText, toString]
    | _ => cases h
  | float f =>
    cases b with
    | int j => exact .inr fun x y => by simp [keyText, toString]
    | float g =>
      rcases F64.eq_or_zeros h with rfl | ⟨s, k, hc, rfl, rfl⟩
      · exact .inl rfl
      · right
        intro x y
        cases s <;> simp [keyText, toString, F64.toDecimal]
    | _ => cases h

end Value

def EqVals (v w : List Value) : Prop := List.Forall₂ (fun a b => a.eq b) v w

instance (v w : List Value) : Decidable (EqVals v w) :=
  inferInstanceAs (Decidable (List.Forall₂ _ v w))

theorem makeGroupKey_toList (vals : List Value) :
    (makeGroupKey vals).toList = [','].intercalate (vals.map fun v => v.keyText.toList) := by
  have hkey : makeGroupKey vals = ",".intercalate (vals.map Value.keyText) := rfl
  rw [hkey, String.toList_intercalate, List.map_map]
  rfl

theorem splitOn_makeGroupKey {vals : List Value} (hne : vals ≠ []) :
    (makeGroupKey vals).toList.splitOn ',' = vals.flatMap Value.pieces := by
  rw [makeGroupKey_toList]
  induction vals with
  | nil => exact absurd rfl hne
  | cons v vals ih =>
    cases vals with
    | nil => simp [Value.pieces]
    | cons w vals =>
      have ih := ih (List.cons_ne_nil w vals)
      simp only [List.map_cons, List.intercalate_cons_cons, List.singleton_append,
        List.append_assoc, List.flatMap_cons] at ih ⊢
      rw [List.splitOn_append_cons_self, ih]
      rfl

/-- Two keys are the same if the cells cut at commas are. -/
theorem makeGroupKey_eq_iff {v w : List Value} (hlen : v.length = w.length) :
    makeGroupKey v = makeGroupKey w ↔ v.flatMap Value.pieces = w.flatMap Value.pieces := by
  by_cases hv : v = []
  · subst hv
    obtain rfl : w = [] := List.length_eq_zero_iff.mp hlen.symm
    exact iff_of_true rfl rfl
  · have hw : w ≠ [] := by
      rintro rfl
      exact hv (List.length_eq_zero_iff.mp hlen)
    rw [← splitOn_makeGroupKey hv, ← splitOn_makeGroupKey hw]
    constructor
    · intro h
      rw [h]
    · intro h
      have h := congrArg (fun l => [','].intercalate l) h
      simp only [List.intercalate_splitOn] at h
      exact String.toList_inj.mp h

theorem eq_of_eqVals {v w : List Value} (h : EqVals v w) (hkey : makeGroupKey v = makeGroupKey w) :
    v = w := by
  replace hkey := congrArg String.toList hkey
  rw [makeGroupKey_toList, makeGroupKey_toList] at hkey
  unfold EqVals at h
  induction h with
  | nil => rfl
  | @cons a b v w hab h ih =>
    cases h with
    | nil =>
      rcases Value.eq_or_keyText_ne hab with rfl | hne
      · rfl
      · exact absurd (by simpa using hkey) (hne [] [])
    | cons hab' h =>
      simp only [List.map_cons, List.intercalate_cons_cons, List.singleton_append,
        List.append_assoc] at hkey ih
      rcases Value.eq_or_keyText_ne hab with rfl | hne
      · obtain ⟨-, hkey⟩ := List.cons.inj (List.append_cancel_left hkey)
        rw [ih hkey]
      · exact absurd hkey (hne _ _)

theorem eqVals_self_iff {v : List Value} : EqVals v v ↔ .float .nan ∉ v := by
  unfold EqVals
  rw [List.forall₂_same]
  constructor
  · intro h hmem
    exact absurd (h _ hmem) (by decide)
  · intro h a ha
    cases a with
    | float f =>
      have hf : f ≠ .nan := by
        rintro rfl
        exact h ha
      exact F64.eq_iff.mpr ⟨hf, hf, rfl, rfl⟩
    | _ => simp [Value.eq]

/-- Group values that a key neither confuses nor separates. -/
structure KeptApart (v w : List Value) : Prop where
  nan : v = w → .float .nan ∉ v
  /-- No integer meets an equal double, and no zero the other one. -/
  numbers : EqVals v w → v = w
  /-- No string goes on behind a comma as the other values do. -/
  commas : v.flatMap Value.pieces = w.flatMap Value.pieces → v = w

/-- Keys tell two vectors of group values apart exactly as `==` does. -/
theorem keptApart_iff {v w : List Value} (hlen : v.length = w.length) :
    KeptApart v w ↔ (makeGroupKey v = makeGroupKey w ↔ EqVals v w) := by
  constructor
  · intro h
    constructor
    · intro hkey
      obtain rfl := h.commas ((makeGroupKey_eq_iff hlen).mp hkey)
      exact eqVals_self_iff.mpr (h.nan rfl)
    · intro heq
      rw [h.numbers heq]
  · intro h
    constructor
    · rintro rfl
      exact eqVals_self_iff.mp (h.mp rfl)
    · intro heq
      exact eq_of_eqVals heq (h.mpr heq)
    · intro hpieces
      have hkey := (makeGroupKey_eq_iff hlen).mpr hpieces
      exact eq_of_eqVals (h.mp hkey) hkey

section Partition

variable [BuildProfile] [Collections] (groupBy : List Expr)
  (aggFuncs : List (String × Expr × String)) (schema : Schema)

def formedGroups (rows : List Tuple) : Result (List (List Tuple)) := do
  let g ← Stream.groups groupBy aggFuncs schema ⟨rows, none⟩
  pure ((Collections.iterOrder g.groups.keys).map fun key => members groupBy schema key rows)

/-- The key of a row whose grouping expressions evaluate. -/
def rowKey (t : Tuple) : Option String := (makeGroupKey <$> groupVals groupBy schema t).toOption

/-- Two rows have equal values under all grouping expressions. -/
def SameGroupVals (t t' : Tuple) : Prop :=
  ∃ v w, groupVals groupBy schema t = .ok v ∧ groupVals groupBy schema t' = .ok w ∧ EqVals v w

/-- The keys of two rows neither confuse nor separate their group values. -/
def RowsKeptApart (t t' : Tuple) : Prop :=
  ∀ v w, groupVals groupBy schema t = .ok v → groupVals groupBy schema t' = .ok w → KeptApart v w

/--
The groups of a hash aggregation are the classes of rows with equal values. Each
has one row in the output, with its values and its aggregates in the order of
the input.
-/
structure PartitionsExactly (rows : List Tuple) (groups : List (List Tuple)) (out : List Tuple) :
    Prop where
  partition : PartitionsBy (SameGroupVals groupBy schema) rows groups
  tuples : List.Forall₂ (fun s t => groupTuple groupBy aggFuncs schema s = .ok t) groups out
  nonempty : groupBy ≠ [] → [] ∉ groups
  /-- Without `GROUP BY` there is one row, even of an empty input. -/
  global : groupBy = [] → out.length = 1
  empty : groupBy ≠ [] → rows = [] → out = []

variable {groupBy aggFuncs schema}

omit [Collections] in
theorem members_eq_withKey (rows : List Tuple) :
    (fun key => members groupBy schema key rows) = withKey (rowKey groupBy schema) rows := by
  funext key
  apply List.filter_congr
  intro t _
  unfold hasKey rowKey
  rcases groupVals groupBy schema t with f | vals <;> simp

omit [Collections] in
theorem length_groupVals {t : Tuple} {vals : List Value}
    (h : groupVals groupBy schema t = .ok vals) : vals.length = groupBy.length :=
  (Result.forall₂_of_mapM_eq_ok h).length_eq.symm

omit [Collections] in
theorem mem_keys_iff {rows : List Tuple} {g : Groups}
    (h : Stream.groups groupBy aggFuncs schema ⟨rows, none⟩ = .ok g) {key : String} :
    key ∈ g.groups.keys ↔
      (∃ t ∈ rows, rowKey groupBy schema t = some key) ∨ (rows = [] ∧ groupBy = [] ∧ key = "") := by
  by_cases hne : rows = []
  · subst hne
    rw [groups_nil] at h
    split at h
    · rename_i hgb
      obtain ⟨states, -, hg⟩ := Result.bind_eq_ok.mp h
      cases hg
      simp [hgb]
    · rename_i hgb
      cases h
      simp [hgb, Groups.empty]
  · have hc := collected_of_fold ((groups_eq_ok hne).mp h)
    have hm : members groupBy schema key rows = withKey (rowKey groupBy schema) rows key :=
      congrFun (members_eq_withKey rows) key
    rw [hc.mem_keys, hm]
    constructor
    · intro h
      obtain ⟨t, ht⟩ := List.exists_mem_of_ne_nil _ h
      exact .inl ⟨t, mem_withKey.mp ht⟩
    · rintro (⟨t, ht⟩ | ⟨h, -⟩)
      · exact List.ne_nil_of_mem (mem_withKey.mpr ht)
      · exact absurd h hne

omit [Collections] in
theorem members_ne_nil {rows : List Tuple} {g : Groups}
    (h : Stream.groups groupBy aggFuncs schema ⟨rows, none⟩ = .ok g) (hgb : groupBy ≠ [])
    {key : String} (hkey : key ∈ g.groups.keys) : members groupBy schema key rows ≠ [] := by
  rcases (mem_keys_iff h).mp hkey with ⟨t, ht⟩ | ⟨-, hnil, -⟩
  · rw [congrFun (members_eq_withKey rows) key]
    exact List.ne_nil_of_mem (mem_withKey.mpr ht)
  · exact absurd hnil hgb

omit [Collections] in
theorem length_keys_global {rows : List Tuple} {g : Groups}
    (h : Stream.groups [] aggFuncs schema ⟨rows, none⟩ = .ok g) : g.groups.keys.length = 1 := by
  have hkey (t : Tuple) : rowKey [] schema t = some "" := rfl
  have hperm : g.groups.keys.Perm [""] := by
    rw [List.perm_ext_iff_of_nodup g.groups.keys_nodup (List.nodup_singleton "")]
    intro key
    rw [mem_keys_iff h, List.mem_singleton]
    simp only [hkey, Option.some_inj, true_and]
    constructor
    · rintro (⟨t, -, rfl⟩ | ⟨-, rfl⟩) <;> rfl
    · rintro rfl
      cases rows with
      | nil => exact .inr ⟨rfl, rfl⟩
      | cons t rows => exact .inl ⟨t, List.mem_cons_self, rfl⟩
  exact hperm.length_eq

omit [Collections] in
theorem groups_isOk_of_accumulate {rows : List Tuple}
    (hvals : ∀ t ∈ rows, ∃ vals, groupVals groupBy schema t = .ok vals)
    (hacc : ∀ key, ∃ states,
      accumulateAll schema aggFuncs (members groupBy schema key rows) = .ok states) :
    ∃ g, Stream.groups groupBy aggFuncs schema ⟨rows, none⟩ = .ok g := by
  by_cases hne : rows = []
  · subst hne
    obtain ⟨states, hs⟩ := hacc ""
    have hs : accumulateAll schema aggFuncs [] = .ok states := hs
    rw [groups_nil, hs]
    split
    · exact ⟨_, rfl⟩
    · exact ⟨_, rfl⟩
  · obtain ⟨g, hg⟩ := fold_addTuple_isOk hvals hacc
    exact ⟨g, (groups_eq_ok hne).mpr hg⟩

omit [Collections] in
theorem sameGroupVals_symm : Std.Symm (SameGroupVals groupBy schema) := by
  constructor
  rintro t t' ⟨v, w, hv, hw, heq⟩
  exact ⟨w, v, hw, hv, List.Forall₂.flip (heq.imp fun _ _ => Value.eq_symm)⟩

omit [Collections] in
theorem rowKey_iff {t t' : Tuple} {v w : List Value} (hv : groupVals groupBy schema t = .ok v)
    (hw : groupVals groupBy schema t' = .ok w) :
    (rowKey groupBy schema t = rowKey groupBy schema t' ↔ SameGroupVals groupBy schema t t') ↔
      RowsKeptApart groupBy schema t t' := by
  have hkey : rowKey groupBy schema t = rowKey groupBy schema t' ↔
      makeGroupKey v = makeGroupKey w := by simp [rowKey, hv, hw]
  have hsame : SameGroupVals groupBy schema t t' ↔ EqVals v w := by simp [SameGroupVals, hv, hw]
  have hapart : RowsKeptApart groupBy schema t t' ↔ KeptApart v w := by
    simp [RowsKeptApart, hv, hw]
  rw [hkey, hsame, hapart, keptApart_iff ((length_groupVals hv).trans (length_groupVals hw).symm)]

theorem executeQuery_agg (hiter : IteratesKeys) {ctx : ExecutionContext} {catalog : Catalog}
    {child : LogicalPlan} {rows : List Tuple} (hs : child.schema catalog = .ok schema)
    (hchild : executeQuery ctx catalog child = .ok rows) {g : Groups}
    (hg : Stream.groups groupBy aggFuncs schema ⟨rows, none⟩ = .ok g) :
    ∃ out, executeQuery ctx catalog (.agg child groupBy aggFuncs) = .ok out ∧
      List.Forall₂ (fun s t => groupTuple groupBy aggFuncs schema s = .ok t)
        ((Collections.iterOrder g.groups.keys).map fun key => members groupBy schema key rows)
        out := by
  obtain ⟨out, hrows, hstream⟩ := groupRows_of_groups hiter hg
  obtain ⟨⟨g₀, hg₀, hkeys, -⟩, -⟩ := groups_spec hg
  obtain ⟨g₁, hg₁, hout⟩ := forall₂_of_groupRows hiter hrows
  obtain rfl := Except.ok.inj (hg₀.symm.trans hg₁)
  refine ⟨out, ?_, hkeys ▸ hout⟩
  have hanswer : (executeQuery ctx catalog child).toOption = (child.answer ctx catalog).toOption :=
    Executor.toOption_executeQuery child
  rw [hchild] at hanswer
  obtain ⟨s, hstreamC, hall⟩ := Result.bind_eq_ok.mp (Result.toOption_eq_some.mp hanswer.symm)
  obtain rfl := Stream.all_eq_ok.mp hall
  apply Result.toOption_eq_some.mp
  rw [Executor.toOption_executeQuery]
  simp [LogicalPlan.answer, LogicalPlan.stream, hstreamC, hs, hg, hstream, Stream.all]

/--
A hash aggregation whose expressions evaluate partitions its rows by the equality
of their group values exactly if any two rows are kept apart by their keys.
-/
theorem partitionsExactly_iff (hiter : IteratesKeys) {ctx : ExecutionContext} {catalog : Catalog}
    {child : LogicalPlan} {rows : List Tuple} (hs : child.schema catalog = .ok schema)
    (hchild : executeQuery ctx catalog child = .ok rows)
    (hvals : ∀ t ∈ rows, ∃ vals, groupVals groupBy schema t = .ok vals)
    (hacc : ∀ key, ∃ states,
      accumulateAll schema aggFuncs (members groupBy schema key rows) = .ok states) :
    ∃ groups out, formedGroups groupBy aggFuncs schema rows = .ok groups ∧
      executeQuery ctx catalog (.agg child groupBy aggFuncs) = .ok out ∧
      (PartitionsExactly groupBy aggFuncs schema rows groups out ↔
        rows.Pairwise (RowsKeptApart groupBy schema)) := by
  obtain ⟨g, hg⟩ := groups_isOk_of_accumulate hvals hacc
  obtain ⟨out, hout, htuples⟩ := executeQuery_agg hiter hs hchild hg
  let keys := Collections.iterOrder g.groups.keys
  have hmem {key : String} : key ∈ keys ↔ key ∈ g.groups.keys := (hiter _).mem_iff
  have hnodup : keys.Nodup := (hiter _).nodup_iff.mpr g.groups.keys_nodup
  have hkeys : ∀ t ∈ rows, ∃ key ∈ keys, rowKey groupBy schema t = some key := by
    intro t ht
    obtain ⟨vals, hv⟩ := hvals t ht
    have hk : rowKey groupBy schema t = some (makeGroupKey vals) := by simp [rowKey, hv]
    exact ⟨_, hmem.mpr ((mem_keys_iff hg).mpr (.inl ⟨t, ht, hk⟩)), hk⟩
  have hpart : PartitionsBy (SameGroupVals groupBy schema) rows
      (keys.map fun key => members groupBy schema key rows) ↔
        rows.Pairwise (RowsKeptApart groupBy schema) := by
    have hsymm : Std.Symm (SameGroupVals groupBy schema) := sameGroupVals_symm
    rw [members_eq_withKey, partitionsBy_withKey_iff hnodup hkeys]
    apply List.Pairwise.iff_of_mem
    intro t t' ht ht'
    obtain ⟨v, hv⟩ := hvals t ht
    obtain ⟨w, hw⟩ := hvals t' ht'
    exact rowKey_iff hv hw
  have hlen : out.length = g.groups.keys.length := by
    rw [← htuples.length_eq, List.length_map, (hiter _).length_eq]
  refine ⟨_, out, by rw [formedGroups, hg]; rfl, hout, fun h => hpart.mp h.partition, fun h => ?_⟩
  refine ⟨hpart.mpr h, htuples, ?_, ?_, ?_⟩
  · intro hgb hnil
    obtain ⟨key, hkey, hm⟩ := List.mem_map.mp hnil
    exact members_ne_nil hg hgb (hmem.mp hkey) hm
  · rintro rfl
    exact hlen.trans (length_keys_global hg)
  · rintro hgb rfl
    have hkeys : g.groups.keys = [] :=
      List.eq_nil_iff_forall_not_mem.mpr fun key hkey => members_ne_nil hg hgb hkey rfl
    rw [hkeys] at hlen
    exact List.length_eq_zero_iff.mp hlen

end Partition

section Sample

open Sample

def usersByName : LogicalPlan :=
  .agg (.scan "t" "t") [.colRef "name"] [("count", .star, "count(*)")]

theorem partitionsExactly_users :
    let _ : BuildProfile := ⟨true⟩
    let _ := insertionCollections
    ∃ schema groups out,
      executeQuery userContext userCatalog (.scan "t" "t") = .ok userRows ∧
      executeQuery userContext userCatalog usersByName = .ok out ∧
      PartitionsExactly [.colRef "name"] [("count", .star, "count(*)")] schema userRows groups
        out := by
  intro _ _
  let schema : Schema := ⟨[⟨"t.id", .int⟩, ⟨"t.name", .varchar⟩]⟩
  have hvals : ∀ t ∈ userRows, ∃ vals, groupVals [.colRef "name"] schema t = .ok vals := by
    intro t ht
    rcases List.mem_pair.mp ht with rfl | rfl
    · exact ⟨[.varchar "b"], by decide +kernel⟩
    · exact ⟨[.varchar "a"], by decide +kernel⟩
  have hacc (key : String) : ∃ states, accumulateAll schema [("count", .star, "count(*)")]
      (members [.colRef "name"] schema key userRows) = .ok states := by
    unfold members userRows
    simp only [List.filter_cons, List.filter_nil]
    split <;> split <;> exact ⟨_, rfl⟩
  have hschema : (LogicalPlan.scan "t" "t").schema userCatalog = .ok schema := rfl
  have hrows : executeQuery userContext userCatalog (.scan "t" "t") = .ok userRows := by
    decide +kernel
  obtain ⟨groups, out, -, hout, hiff⟩ :=
    partitionsExactly_iff (fun l => .refl l) hschema hrows hvals hacc
  refine ⟨schema, groups, out, hrows, hout, hiff.mpr ?_⟩
  have hpair : RowsKeptApart [.colRef "name"] schema ⟨[.int 2, .varchar "b"], none, 0⟩
      ⟨[.int 1, .varchar "a"], none, 0⟩ := by
    intro v w hv hw
    have hv' : groupVals [.colRef "name"] schema ⟨[.int 2, .varchar "b"], none, 0⟩ =
        .ok [.varchar "b"] := by decide +kernel
    have hw' : groupVals [.colRef "name"] schema ⟨[.int 1, .varchar "a"], none, 0⟩ =
        .ok [.varchar "a"] := by decide +kernel
    obtain rfl := Except.ok.inj (hv'.symm.trans hv)
    obtain rfl := Except.ok.inj (hw'.symm.trans hw)
    have hkey : makeGroupKey [.varchar "b"] = makeGroupKey [.varchar "a"] ↔
        EqVals [.varchar "b"] [.varchar "a"] := by decide +kernel
    have hlen : [Value.varchar "b"].length = [Value.varchar "a"].length := rfl
    exact (keptApart_iff hlen).mpr hkey
  exact .cons (List.forall_mem_singleton.mpr hpair) (List.pairwise_singleton _ _)

/-- Two pairs of strings that make the same key. -/
def commaRows : List Tuple :=
  [⟨[.varchar "a,s:b", .varchar "c"], none, 0⟩, ⟨[.varchar "a", .varchar "b,s:c"], none, 0⟩]

/-- `GROUP BY x, y` counts the rows `('a,s:b', 'c')` and `('a', 'b,s:c')` in one group. -/
theorem comma_merges_groups :
    let _ : BuildProfile := ⟨true⟩
    let _ := insertionCollections
    let catalog := Catalog.new.addTable "t" ⟨[⟨"x", .varchar⟩, ⟨"y", .varchar⟩]⟩
    let context := { userContext with tables := AList.insert "t" commaRows ∅ }
    let groupBy : List Expr := [.colRef "x", .colRef "y"]
    let aggFuncs : List (String × Expr × String) := [("count", .star, "count(*)")]
    let schema : Schema := ⟨[⟨"t.x", .varchar⟩, ⟨"t.y", .varchar⟩]⟩
    let out := [Tuple.new [.varchar "a", .varchar "b,s:c", .int 2]]
    executeQuery context catalog (.scan "t" "t") = .ok commaRows ∧
    executeQuery context catalog (.agg (.scan "t" "t") groupBy aggFuncs) = .ok out ∧
    formedGroups groupBy aggFuncs schema commaRows = .ok [commaRows] ∧
    ¬ PartitionsExactly groupBy aggFuncs schema commaRows [commaRows] out := by
  intro _ _ catalog context groupBy aggFuncs schema out
  refine ⟨by decide +kernel, by decide +kernel, by decide +kernel, fun h => ?_⟩
  have hwithin := h.partition.within commaRows (List.mem_singleton_self _)
  obtain ⟨hpair, -⟩ := List.pairwise_cons.mp hwithin
  obtain ⟨v, w, hv, hw, heq⟩ := hpair _ (List.mem_singleton_self _)
  have hv' : groupVals groupBy schema ⟨[.varchar "a,s:b", .varchar "c"], none, 0⟩ =
      .ok [.varchar "a,s:b", .varchar "c"] := by decide +kernel
  have hw' : groupVals groupBy schema ⟨[.varchar "a", .varchar "b,s:c"], none, 0⟩ =
      .ok [.varchar "a", .varchar "b,s:c"] := by decide +kernel
  obtain rfl := Except.ok.inj (hv'.symm.trans hv)
  obtain rfl := Except.ok.inj (hw'.symm.trans hw)
  exact absurd heq (by decide)

end Sample

end VolcanoDb
