import VolcanoDb.Executor.Semantics
import VolcanoDb.Executor.Typing

/-! # Soundness of plan types

An operator tree is well typed when every row that it holds or can reach keeps
to the schema at which it was built. `next` and `init` keep trees well typed and
never index out of bounds, so that every row of a plan fits its schema.
-/

namespace VolcanoDb

/--
What `sort_by` does for every comparator: it permutes the vector, and a panic is
one of the comparator or the report of an inconsistent order.
-/
structure SortsByComparing [Collections] : Prop where
  perm {cmp : Tuple → Tuple → Result Ordering} {l l' : List Tuple} :
    Collections.sortBy cmp l = .ok l' → l'.Perm l
  failure {cmp : Tuple → Tuple → Result Ordering} {l : List Tuple} {f : Fault} :
    Collections.sortBy cmp l = .error f → (∃ a ∈ l, ∃ b ∈ l, cmp a b = .error f) ∨
      f = .panic "user-provided comparison function does not correctly implement a total order"

theorem sortsByComparing_insertionCollections : @SortsByComparing insertionCollections := by
  let _ := insertionCollections
  constructor
  · intro cmp l l' h
    obtain ⟨_, -, h⟩ := Result.bind_eq_ok.mp h
    exact Except.ok.inj h ▸ List.perm_insertionSort _ _
  · intro cmp l f h
    rcases hm : (l.mapM fun a => l.mapM (cmp a)) with e | m
    · simp only [Collections.sortBy, hm, Result.error_bind] at h
      cases h
      obtain ⟨a, ha, h'⟩ := Result.exists_of_mapM_eq_error hm
      obtain ⟨b, hb, h''⟩ := Result.exists_of_mapM_eq_error h'
      exact .inl ⟨a, ha, b, hb, h''⟩
    · simp only [Collections.sortBy, hm, Result.ok_bind] at h
      cases h

variable [BuildProfile] {d : Discipline} {ctx : ExecutionContext} {schema : Schema}

theorem compareKeys_safe {a b : Tuple} (ha : a.Fits d schema) (hb : b.Fits d schema)
    (orderBy : List (Expr × Bool)) :
    Safe (fun _ => True) (compareKeys schema a b orderBy) := by
  have horNull {t : Tuple} (ht : t.Fits d schema) (e : Expr) :
      Safe (fun _ => True) (orNull (e.eval t schema)) := by
    rcases he : e.eval t schema with (_ | m) | v
    · trivial
    · have h := eval_safe ht e
      rwa [he] at h
    · trivial
  induction orderBy with
  | nil => trivial
  | cons key orderBy ih =>
    refine (horNull ha _).bind fun x _ => (horNull hb _).bind fun y _ => ?_
    split
    · exact ih
    · trivial

variable (d) in
def StatesFit (schema : Schema) (aggFuncs : List (String × Expr × String))
    (states : List AggState) : Prop :=
  List.Forall₂ (fun f state => ∃ dt, aggColumnType f.1 f.2.1 schema = .ok dt ∧
    AggState.Fits d (getExprType f.2.1 schema) dt state) aggFuncs states

/-- The columns of an aggregation over rows of a schema. -/
structure AggColumns (schema : Schema) (groupBy : List Expr)
    (aggFuncs : List (String × Expr × String)) (keys aggs : List Column) : Prop where
  keys : List.Forall₂ (fun e (col : Column) => getExprType e schema = .ok col.dataType) groupBy keys
  aggs : List.Forall₂ (fun f (col : Column) =>
    aggColumnType f.1 f.2.1 schema = .ok col.dataType) aggFuncs aggs

variable (d) in
structure GroupsFit (schema : Schema) (aggFuncs : List (String × Expr × String))
    (keys : List Column) (groups : FinMap String (List AggState))
    (groupKeys : FinMap String (List Value)) : Prop where
  states {key : String} {states : List AggState} :
    groups.lookup key = some states → StatesFit d schema aggFuncs states
  vals {key : String} {vals : List Value} : groupKeys.lookup key = some vals →
    List.Forall₂ (fun (col : Column) v => d.fits col.dataType v) keys vals

variable (d ctx) in
/-- An operator tree whose rows keep to a schema. -/
inductive WellTyped : Executor → Schema → Prop where
  | dummyScan {done : Bool} : WellTyped (.dummyScan done) ⟨[]⟩
  | seqScan {tableName : String} {cursor : ℕ} {schema : Schema} :
      (∀ tuples, ctx.tables.lookup tableName = some tuples → ∀ t ∈ tuples, t.Fits d schema) →
      WellTyped (.seqScan tableName cursor) schema
  | filter {child : Executor} {predicate : Expr} {schema : Schema} :
      WellTyped child schema → WellTyped (.filter child predicate schema) schema
  | project {child : Executor} {exprs : List Expr} {childSchema schema : Schema} :
      WellTyped child childSchema →
      List.Forall₂ (fun e (col : Column) => getExprType e childSchema = .ok col.dataType)
        exprs schema.columns →
      WellTyped (.project child exprs childSchema) schema
  | limit {child : Executor} {limitVal offset : Option ℕ} {cursor : ℕ} {schema : Schema} :
      WellTyped child schema → WellTyped (.limit child limitVal offset cursor) schema
  | sort {child : Executor} {orderBy : List (Expr × Bool)} {schema : Schema}
      {sortedTuples : List Tuple} {cursor : ℕ} :
      WellTyped child schema → (∀ t ∈ sortedTuples, t.Fits d schema) →
      WellTyped (.sort child orderBy schema sortedTuples cursor) schema
  | join {left right : Executor} {condition : Option Expr} {leftS rightS : Schema}
      {rightTuples : List Tuple} {leftTuple : Option Tuple} {rightCursor : ℕ} :
      WellTyped left leftS → WellTyped right rightS →
      (∀ t ∈ rightTuples, t.Fits d rightS) → (∀ t, leftTuple = some t → t.Fits d leftS) →
      WellTyped (.join left right condition ⟨leftS.columns ++ rightS.columns⟩ rightTuples leftTuple
        rightCursor) ⟨leftS.columns ++ rightS.columns⟩
  | hashAgg {child : Executor} {groupBy : List Expr} {aggFuncs : List (String × Expr × String)}
      {childSchema : Schema} {keys aggs : List Column} {groups : FinMap String (List AggState)}
      {groupKeys : FinMap String (List Value)} {resultKeys : List String} {cursor : ℕ} :
      WellTyped child childSchema → AggColumns childSchema groupBy aggFuncs keys aggs →
      GroupsFit d childSchema aggFuncs keys groups groupKeys →
      WellTyped (.hashAgg child groupBy aggFuncs childSchema groups groupKeys resultKeys cursor)
        ⟨keys ++ aggs⟩

variable (d ctx) in
/-- An answer of a well-typed operator, and the operator after it. -/
def PullFits (schema : Schema) (p : Pull) : Prop :=
  Safe (fun answer => ∀ t, answer = some t → t.Fits d schema) p.1 ∧ WellTyped d ctx p.2 schema

theorem PullFits.error {f : Fault} {e : Executor} (hf : f ≠ outOfBounds)
    (he : WellTyped d ctx e schema) : PullFits d ctx schema (.error f, e) := ⟨hf, he⟩

theorem PullFits.none {e : Executor} (he : WellTyped d ctx e schema) :
    PullFits d ctx schema (.ok none, e) := by
  refine ⟨?_, he⟩
  rintro t ⟨⟩

theorem PullFits.some {t : Tuple} {e : Executor} (ht : t.Fits d schema)
    (he : WellTyped d ctx e schema) : PullFits d ctx schema (.ok (some t), e) :=
  ⟨fun _ h => Option.some_inj.mp h ▸ ht, he⟩

theorem combine_fits {leftS rightS : Schema} {l r : Tuple} (hl : l.Fits d leftS)
    (hr : r.Fits d rightS) : (combine l r).Fits d ⟨leftS.columns ++ rightS.columns⟩ :=
  List.rel_append hl hr

theorem joinMatches_safe {t : Tuple} (ht : t.Fits d schema) (condition : Option Expr) :
    Safe (fun _ => True) (joinMatches condition schema t) := by
  cases condition with
  | none => trivial
  | some cond => exact (eval_safe ht cond).map fun _ _ => trivial

theorem limitReached_safe (limitVal : Option ℕ) (offset cursor : ℕ) :
    Safe (fun _ => True) (limitReached limitVal offset cursor) := by
  have hsub : Safe (fun _ => True) (usizeSub cursor offset) := by
    unfold usizeSub
    split
    · trivial
    · split
      · intro h
        exact absurd (Fault.panic.inj h) (by decide)
      · trivial
  cases limitVal with
  | none => trivial
  | some n => exact hsub.bind fun _ _ => trivial

theorem groupRow_safe {groupBy : List Expr} {aggFuncs : List (String × Expr × String)}
    {keys aggs : List Column} {groups : FinMap String (List AggState)}
    {groupKeys : FinMap String (List Value)} (hc : AggColumns schema groupBy aggFuncs keys aggs)
    (hg : GroupsFit d schema aggFuncs keys groups groupKeys) (key : String) :
    Safe (Tuple.Fits d ⟨keys ++ aggs⟩) (groupRow groups groupKeys key) := by
  have hfinal (states : List AggState) (hs : StatesFit d schema aggFuncs states) :
      List.Forall₂ (fun (col : Column) v => d.fits col.dataType v) aggs
        (states.map AggState.finalize) := by
    have haggs := hc.aggs
    clear hc hg
    induction hs generalizing aggs with
    | nil => cases haggs; exact .nil
    | cons hstate _ ih =>
      cases haggs with
      | cons hcol hcols =>
        obtain ⟨dt, hdt, hfit⟩ := hstate
        obtain rfl := Except.ok.inj (hcol.symm.trans hdt)
        exact .cons (AggState.finalize_fits hfit) (ih hcols)
  unfold groupRow
  split
  · rename_i vals states hvals hstates
    exact List.rel_append (hg.vals hvals) (hfinal states (hg.states hstates))
  · intro h
    exact absurd (Fault.panic.inj h) (by decide)

theorem updateStates_fits {t : Tuple} (ht : t.Fits d schema)
    {aggFuncs : List (String × Expr × String)} {states : List AggState}
    (hs : StatesFit d schema aggFuncs states) :
    Safe (fun _ => True) (updateStates schema t aggFuncs states).1 ∧
      StatesFit d schema aggFuncs (updateStates schema t aggFuncs states).2 := by
  induction hs with
  | nil => exact ⟨trivial, .nil⟩
  | @cons f state aggFuncs states hstate hs ih =>
    obtain ⟨func, arg, name⟩ := f
    obtain ⟨dt, hdt, hfit⟩ := hstate
    have harg : Safe (fun v => ∀ dt, getExprType arg schema = .ok dt → d.fits dt v)
        (if arg = .star then pure (.int 1) else arg.eval t schema) := by
      split
      · rename_i hstar
        rintro dt hdt
        rw [hstar] at hdt
        cases hdt
      · exact eval_safe ht arg
    have hupd := harg.bind fun v hv => AggState.update_safe hfit hv
    simp only [updateStates]
    split
    · rename_i f hf
      rw [hf] at hupd
      exact ⟨hupd, .cons ⟨dt, hdt, hfit⟩ hs⟩
    · rename_i state' hf
      rw [hf] at hupd
      exact ⟨ih.1, .cons ⟨dt, hdt, hupd⟩ ih.2⟩

theorem newStates_safe {groupBy : List Expr} {aggFuncs : List (String × Expr × String)}
    {keys aggs : List Column} (hc : AggColumns schema groupBy aggFuncs keys aggs) :
    Safe (StatesFit d schema aggFuncs) (Groups.newStates aggFuncs) := by
  have haggs := hc.aggs
  clear hc
  induction haggs with
  | nil => exact .nil
  | @cons f col aggFuncs cols hcol _ ih =>
    rw [Groups.newStates, List.mapM_cons]
    have hnew : Safe (AggState.Fits d (getExprType f.2.1 schema) col.dataType)
        (AggState.new f.1) := AggState.new_safe hcol
    refine hnew.bind fun state hstate => ih.bind fun states hstates => ?_
    exact .cons ⟨col.dataType, hcol, hstate⟩ hstates

theorem GroupsFit.insert {aggFuncs : List (String × Expr × String)} {keys : List Column}
    {groups : FinMap String (List AggState)} {groupKeys : FinMap String (List Value)}
    (hg : GroupsFit d schema aggFuncs keys groups groupKeys) {states : List AggState}
    (hs : StatesFit d schema aggFuncs states) {vals : List Value}
    (hv : List.Forall₂ (fun (col : Column) v => d.fits col.dataType v) keys vals) (key : String) :
    GroupsFit d schema aggFuncs keys (groups.insert key states) (groupKeys.insert key vals) where
  states {key' states'} h := by
    rw [FinMap.lookup_insert_eq] at h
    split at h
    · exact Option.some_inj.mp h ▸ hs
    · exact hg.states h
  vals {key' vals'} h := by
    rw [FinMap.lookup_insert_eq] at h
    split at h
    · exact Option.some_inj.mp h ▸ hv
    · exact hg.vals h

theorem GroupsFit.empty {aggFuncs : List (String × Expr × String)} {keys : List Column} :
    GroupsFit d schema aggFuncs keys ∅ ∅ where
  states h := by cases h
  vals h := by cases h

theorem addTuple_fits {groupBy : List Expr} {aggFuncs : List (String × Expr × String)}
    {keys aggs : List Column} (hc : AggColumns schema groupBy aggFuncs keys aggs) {g : Groups}
    (hg : GroupsFit d schema aggFuncs keys g.groups g.groupKeys) {t : Tuple}
    (ht : t.Fits d schema) :
    Safe (fun _ => True) (g.addTuple groupBy aggFuncs schema t).1 ∧
      GroupsFit d schema aggFuncs keys (g.addTuple groupBy aggFuncs schema t).2.groups
        (g.addTuple groupBy aggFuncs schema t).2.groupKeys := by
  have hvals := mapM_eval_safe ht hc.keys
  unfold Groups.addTuple
  split
  · rename_i f hf
    rw [hf] at hvals
    exact ⟨hvals, hg⟩
  · rename_i vals hv
    rw [hv] at hvals
    have hstates : Safe (StatesFit d schema aggFuncs)
        (g.statesOf aggFuncs (makeGroupKey vals)) := by
      unfold Groups.statesOf
      split
      · rename_i states hl
        exact hg.states hl
      · exact newStates_safe hc
    dsimp only
    split
    · rename_i f hf
      rw [hf] at hstates
      exact ⟨hstates, hg⟩
    · rename_i states hs
      rw [hs] at hstates
      obtain ⟨hsafe, hfit⟩ := updateStates_fits ht hstates
      exact ⟨hsafe, hg.insert hfit hvals _⟩

theorem addGlobal_safe {groupBy : List Expr} {aggFuncs : List (String × Expr × String)}
    {keys aggs : List Column} (hc : AggColumns schema groupBy aggFuncs keys aggs) {g : Groups}
    (hg : GroupsFit d schema aggFuncs keys g.groups g.groupKeys) :
    Safe (fun g => GroupsFit d schema aggFuncs keys g.groups g.groupKeys)
      (g.addGlobal groupBy aggFuncs) := by
  unfold Groups.addGlobal
  split
  · rename_i h
    have hkeys : keys = [] := by
      have hk := hc.keys
      rw [h.2] at hk
      cases hk
      rfl
    subst hkeys
    exact (newStates_safe hc).bind fun states hs => hg.insert hs .nil _
  · exact hg

namespace Executor

theorem nextStep_fits {next : Executor → Option Pull}
    (h : ∀ e s p, WellTyped d ctx e s → next e = some p → PullFits d ctx s p) {e : Executor}
    (he : WellTyped d ctx e schema) {p : Pull} (hp : nextStep ctx next e = some p) :
    PullFits d ctx schema p := by
  cases he with
  | @dummyScan done =>
    cases done with
    | true => cases hp; exact .none .dummyScan
    | false => cases hp; exact .some .nil .dummyScan
  | @seqScan tableName cursor _ hrows =>
    simp only [nextStep] at hp
    split at hp
    · cases hp
      exact .error (by intro hf; cases hf) (.seqScan hrows)
    · rename_i tuples ht
      split at hp
      · cases hp
        exact .none (.seqScan hrows)
      · rename_i t hc
        split at hp
        · cases hp
          exact .some (hrows tuples ht t (List.mem_of_getElem? hc)) (.seqScan hrows)
        · exact h _ _ _ (.seqScan hrows) hp
  | @filter child predicate _ hchild =>
    simp only [nextStep, Option.bind_eq_bind, Option.bind_eq_some_iff] at hp
    obtain ⟨⟨answer, child'⟩, hq, hp⟩ := hp
    obtain ⟨hans, hchild'⟩ := h _ _ _ hchild hq
    rcases answer with f | _ | t
    · cases hp
      exact .error hans (.filter hchild')
    · cases hp
      exact .none (.filter hchild')
    · have heval := eval_safe (hans t rfl) predicate
      dsimp only at hp
      split at hp
      · rename_i f hf
        cases hp
        rw [hf] at heval
        exact .error heval (.filter hchild')
      · split at hp
        · cases hp
          exact .some (hans t rfl) (.filter hchild')
        · exact h _ _ _ (.filter hchild') hp
  | @project child exprs childSchema _ hchild hcols =>
    simp only [nextStep, Option.bind_eq_bind, Option.bind_eq_some_iff] at hp
    obtain ⟨⟨answer, child'⟩, hq, hp⟩ := hp
    obtain ⟨hans, hchild'⟩ := h _ _ _ hchild hq
    rcases answer with f | _ | t
    · cases hp
      exact .error hans (.project hchild' hcols)
    · cases hp
      exact .none (.project hchild' hcols)
    · cases hp
      refine ⟨?_, .project hchild' hcols⟩
      exact (mapM_eval_safe (hans t rfl) hcols).map fun vals hvals t ht =>
        Option.some_inj.mp ht ▸ hvals
  | @limit child limitVal offset cursor _ hchild =>
    simp only [nextStep, Option.bind_eq_bind] at hp
    split at hp
    · simp only [Option.bind_eq_some_iff] at hp
      obtain ⟨⟨answer, child'⟩, hq, hp⟩ := hp
      obtain ⟨hans, hchild'⟩ := h _ _ _ hchild hq
      rcases answer with f | _ | t
      · cases hp
        exact .error hans (.limit hchild')
      · cases hp
        exact .none (.limit hchild')
      · exact h _ _ _ (.limit hchild') hp
    · have hlim := limitReached_safe limitVal (offset.getD 0) cursor
      split at hp
      · rename_i f hf
        cases hp
        rw [hf] at hlim
        exact .error hlim (.limit hchild)
      · cases hp
        exact .none (.limit hchild)
      · simp only [Option.bind_eq_some_iff] at hp
        obtain ⟨⟨answer, child'⟩, hq, hp⟩ := hp
        obtain ⟨hans, hchild'⟩ := h _ _ _ hchild hq
        rcases answer with f | _ | t
        · cases hp
          exact .error hans (.limit hchild')
        · cases hp
          exact .none (.limit hchild')
        · cases hp
          exact .some (hans t rfl) (.limit hchild')
  | @sort child orderBy _ sortedTuples cursor hchild hsorted =>
    simp only [nextStep] at hp
    split at hp
    · rename_i t hc
      cases hp
      exact .some (hsorted t (List.mem_of_getElem? hc)) (.sort hchild hsorted)
    · cases hp
      exact .none (.sort hchild hsorted)
  | @join left right condition leftS rightS rightTuples leftTuple rightCursor hl hr hrs hlt =>
    simp only [nextStep, Option.bind_eq_bind] at hp
    split at hp
    · cases hp
      exact .none (.join hl hr hrs hlt)
    · rename_i l
      have hlfit := hlt l rfl
      split at hp
      · simp only [Option.bind_eq_some_iff] at hp
        obtain ⟨⟨answer, left'⟩, hq, hp⟩ := hp
        obtain ⟨hans, hl'⟩ := h _ _ _ hl hq
        rcases answer with f | l'
        · cases hp
          exact .error hans (.join hl' hr hrs hlt)
        · exact h _ _ _ (.join hl' hr hrs hans) hp
      · rename_i r hc
        have hfit := combine_fits hlfit (hrs r (List.mem_of_getElem? hc))
        have hcond := joinMatches_safe hfit condition
        split at hp
        · rename_i f hf
          cases hp
          rw [hf] at hcond
          exact .error hcond (.join hl hr hrs hlt)
        · cases hp
          exact .some hfit (.join hl hr hrs hlt)
        · exact h _ _ _ (.join hl hr hrs hlt) hp
  | @hashAgg child groupBy aggFuncs childSchema keys aggs groups groupKeys resultKeys cursor
      hchild hc hg =>
    simp only [nextStep] at hp
    split at hp
    · cases hp
      exact .none (.hashAgg hchild hc hg)
    · rename_i key hk
      cases hp
      refine ⟨?_, .hashAgg hchild hc hg⟩
      exact (groupRow_safe hc hg key).map fun t ht t' ht' => Option.some_inj.mp ht' ▸ ht

theorem nextWithin_fits {n : ℕ} {e : Executor} (he : WellTyped d ctx e schema) {p : Pull}
    (hp : nextWithin ctx n e = some p) : PullFits d ctx schema p := by
  induction n generalizing e schema p with
  | zero => cases hp
  | succ n ih => exact nextStep_fits (fun _ _ _ he hp => ih he hp) he hp

/-- A pull from a well-typed operator is in bounds and keeps to the schema. -/
theorem next_fits {e : Executor} (he : WellTyped d ctx e schema) :
    PullFits d ctx schema (next ctx e) :=
  nextWithin_fits he (nextWithin_eq (Nat.lt_succ_self _))

theorem next_invariant {e : Executor} (he : WellTyped d ctx e schema) :
    WellTyped d ctx ((source ctx).next e).2 schema ∧
      (∀ f, ((source ctx).next e).1 = .error f → f ≠ outOfBounds) ∧
      ∀ t, ((source ctx).next e).1 = .ok (some t) → t.Fits d schema := by
  obtain ⟨hans, he'⟩ := next_fits he
  refine ⟨he', fun f hf => ?_, fun t ht => ?_⟩
  · rw [show (next ctx e).1 = .error f from hf] at hans
    exact hans
  · rw [show (next ctx e).1 = .ok (some t) from ht] at hans
    exact hans t rfl

theorem drain_fits {e : Executor} (he : WellTyped d ctx e schema) :
    (∀ f, ((source ctx).drain e).1 = .error f → f ≠ outOfBounds) ∧
      (∀ t ∈ ((source ctx).drain e).2.1, t.Fits d schema) ∧
      WellTyped d ctx ((source ctx).drain e).2.2 schema := by
  refine (source ctx).fold_invariant (p := (WellTyped d ctx · schema)) (q := Tuple.Fits d schema)
    (r := fun l : List Tuple => ∀ t ∈ l, t.Fits d schema) ?_ ?_ he (by simp)
  · exact fun s hs => next_invariant hs
  · intro l t hl ht
    refine ⟨?_, by rintro _ ⟨⟩⟩
    simpa [or_imp, forall_and] using ⟨hl, ht⟩

theorem fold_addTuple_fits {groupBy : List Expr} {aggFuncs : List (String × Expr × String)}
    {keys aggs : List Column} (hc : AggColumns schema groupBy aggFuncs keys aggs) {e : Executor}
    (he : WellTyped d ctx e schema) :
    let r := (source ctx).fold (Groups.addTuple groupBy aggFuncs schema) e .empty
    (∀ f, r.1 = .error f → f ≠ outOfBounds) ∧
      GroupsFit d schema aggFuncs keys r.2.1.groups r.2.1.groupKeys ∧
      WellTyped d ctx r.2.2 schema := by
  refine (source ctx).fold_invariant (p := (WellTyped d ctx · schema)) (q := Tuple.Fits d schema)
    (r := fun g : Groups => GroupsFit d schema aggFuncs keys g.groups g.groupKeys) ?_ ?_ he .empty
  · exact fun s hs => next_invariant hs
  · intro g t hg ht
    obtain ⟨hsafe, hfit⟩ := addTuple_fits hc hg ht
    refine ⟨hfit, fun f hf => ?_⟩
    rw [hf] at hsafe
    exact hsafe

theorem init_fits [Collections] (hsort : SortsByComparing) {e : Executor}
    (he : WellTyped d ctx e schema) :
    Safe (fun _ => True) (e.init ctx).1 ∧ WellTyped d ctx (e.init ctx).2 schema := by
  induction he with
  | dummyScan => exact ⟨trivial, .dummyScan⟩
  | seqScan hrows => exact ⟨trivial, .seqScan hrows⟩
  | filter _ ih => exact ⟨ih.1, .filter ih.2⟩
  | project _ hcols ih => exact ⟨ih.1, .project ih.2 hcols⟩
  | @limit child limitVal offset cursor _ _ ih =>
    simp only [init]
    rcases hi : child.init ctx with ⟨f | _, child'⟩ <;> rw [hi] at ih
    · exact ⟨ih.1, .limit ih.2⟩
    · exact ⟨trivial, .limit ih.2⟩
  | @sort child orderBy schema sortedTuples cursor hchild hsorted ih =>
    simp only [init]
    rcases hi : child.init ctx with ⟨f | _, child'⟩ <;> rw [hi] at ih <;> dsimp only
    · exact ⟨ih.1, .sort ih.2 hsorted⟩
    · have hd := drain_fits ih.2
      rcases hdr : (source ctx).drain child' with ⟨f | _, tuples, child''⟩ <;> rw [hdr] at hd <;>
        dsimp only
      · exact ⟨hd.1 f rfl, .sort hd.2.2 hd.2.1⟩
      · split
        · rename_i f hf
          refine ⟨?_, .sort hd.2.2 hd.2.1⟩
          rcases hsort.failure hf with ⟨a, ha, b, hb, hcmp⟩ | rfl
          · have hsafe := compareKeys_safe (hd.2.1 a ha) (hd.2.1 b hb) orderBy
            rw [hcmp] at hsafe
            exact hsafe
          · intro h
            exact absurd (Fault.panic.inj h) (by decide)
        · rename_i sorted hs
          exact ⟨trivial, .sort hd.2.2 fun t ht => hd.2.1 t ((hsort.perm hs).mem_iff.mp ht)⟩
  | @join left right condition leftS rightS rightTuples leftTuple rightCursor _ _ hrs hlt ihl ihr =>
    simp only [init]
    rcases hil : left.init ctx with ⟨f | _, left'⟩ <;> rw [hil] at ihl <;> dsimp only
    · exact ⟨ihl.1, .join ihl.2 ‹_› hrs hlt⟩
    · rcases hir : right.init ctx with ⟨f | _, right'⟩ <;> rw [hir] at ihr <;> dsimp only
      · exact ⟨ihr.1, .join ihl.2 ihr.2 hrs hlt⟩
      · have hd := drain_fits ihr.2
        rcases hdr : (source ctx).drain right' with ⟨f | _, tuples, right''⟩ <;>
          rw [hdr] at hd <;> dsimp only
        · exact ⟨hd.1 f rfl, .join ihl.2 hd.2.2 hd.2.1 hlt⟩
        · obtain ⟨hans, hleft⟩ := next_fits ihl.2
          rcases hn : next ctx left' with ⟨f | first, left''⟩ <;> rw [hn] at hans hleft <;>
            dsimp only
          · exact ⟨hans, .join hleft hd.2.2 hd.2.1 hlt⟩
          · exact ⟨trivial, .join hleft hd.2.2 hd.2.1 hans⟩
  | @hashAgg child groupBy aggFuncs childSchema keys aggs groups groupKeys resultKeys cursor
      _ hc hg ih =>
    simp only [init]
    rcases hi : child.init ctx with ⟨f | _, child'⟩ <;> rw [hi] at ih <;> dsimp only
    · exact ⟨ih.1, .hashAgg ih.2 hc hg⟩
    · have hf := fold_addTuple_fits hc ih.2
      rcases hfold : (source ctx).fold (Groups.addTuple groupBy aggFuncs childSchema) child' .empty
        with ⟨f | _, g, child''⟩ <;> rw [hfold] at hf <;> dsimp only
      · exact ⟨hf.1 f rfl, .hashAgg hf.2.2 hc hf.2.1⟩
      · have hglobal := addGlobal_safe hc hf.2.1
        split
        · rename_i f hf'
          rw [hf'] at hglobal
          exact ⟨hglobal, .hashAgg hf.2.2 hc hf.2.1⟩
        · rename_i g' hg'
          rw [hg'] at hglobal
          exact ⟨trivial, .hashAgg hf.2.2 hc hglobal⟩

end Executor

def LogicalPlan.scans : LogicalPlan → List String
  | dummyScan => []
  | scan tableName _ => [tableName]
  | filter child _ | project child _ | limit child _ _ | sort child _ | agg child _ _ => child.scans
  | join left right _ => left.scans ++ right.scans

variable (d ctx) in
/-- The rows of the tables that a plan reads keep to the schemas of those tables. -/
def TablesFit (catalog : Catalog) (plan : LogicalPlan) : Prop :=
  ∀ name ∈ plan.scans, ∀ schema tuples, catalog.getSchema name = some schema →
    ctx.tables.lookup name = some tuples → ∀ t ∈ tuples, t.Fits d schema

theorem Tuple.fits_qualify {t : Tuple} {qualifier : String} :
    t.Fits d (qualify qualifier schema) ↔ t.Fits d schema := by
  simp only [Tuple.Fits, qualify, List.forall₂_map_left_iff]

/-- The tree of a plan is typed by the schema of the plan. -/
theorem buildExecutor_wellTyped {catalog : Catalog} {plan : LogicalPlan} {e : Executor}
    (hs : plan.schema catalog = .ok schema) (ht : TablesFit d ctx catalog plan)
    (hb : buildExecutor catalog plan = .ok e) : WellTyped d ctx e schema := by
  induction plan generalizing schema e with
  | dummyScan =>
    cases hs
    cases hb
    exact .dummyScan
  | scan tableName aliasName =>
    cases hb
    simp only [LogicalPlan.schema] at hs
    split at hs
    · rename_i s hget
      cases hs
      refine .seqScan fun tuples hl t hmem => Tuple.fits_qualify.mpr ?_
      exact ht tableName (by simp [LogicalPlan.scans]) s tuples hget hl t hmem
    · cases hs
  | filter child predicate ih =>
    simp only [LogicalPlan.schema] at hs
    simp only [buildExecutor, hs, Result.bind_eq_ok] at hb
    obtain ⟨c, hc, _, ⟨⟩, hb⟩ := hb
    cases hb
    exact .filter (ih hs ht hc)
  | project child exprs ih =>
    simp only [LogicalPlan.schema, Result.bind_eq_ok] at hs
    obtain ⟨childSchema, hcs, columns, hcols, hs⟩ := hs
    cases hs
    simp only [buildExecutor, hcs, Result.bind_eq_ok] at hb
    obtain ⟨c, hc, _, ⟨⟩, hb⟩ := hb
    cases hb
    refine .project (ih hcs ht hc) ?_
    rw [List.forall₂_map_left_iff]
    refine (Result.forall₂_of_mapM_eq_ok hcols).imp fun p col h => ?_
    obtain ⟨dt, hdt, rfl⟩ := Result.map_eq_ok.mp h
    exact hdt
  | limit child limitVal offset ih =>
    obtain ⟨c, hc, hb⟩ := Result.bind_eq_ok.mp hb
    cases hb
    exact .limit (ih hs ht hc)
  | sort child orderBy ih =>
    simp only [LogicalPlan.schema] at hs
    simp only [buildExecutor, hs, Result.bind_eq_ok] at hb
    obtain ⟨c, hc, _, ⟨⟩, hb⟩ := hb
    cases hb
    exact .sort (ih hs ht hc) (by simp)
  | join left right condition ihl ihr =>
    simp only [buildExecutor, hs, Result.bind_eq_ok] at hb
    obtain ⟨l, hl, r, hr, _, ⟨⟩, hb⟩ := hb
    cases hb
    simp only [LogicalPlan.schema, Result.bind_eq_ok] at hs
    obtain ⟨leftS, hls, rightS, hrs, hs⟩ := hs
    cases hs
    refine .join (ihl hls (fun name h => ht name (List.mem_append_left _ h)) hl)
      (ihr hrs (fun name h => ht name (List.mem_append_right _ h)) hr) (by simp) (by simp)
  | agg child groupBy aggFuncs ih =>
    simp only [LogicalPlan.schema, Result.bind_eq_ok] at hs
    obtain ⟨childSchema, hcs, keys, hkeys, aggs, haggs, hs⟩ := hs
    cases hs
    simp only [buildExecutor, hcs, Result.bind_eq_ok] at hb
    obtain ⟨c, hc, _, ⟨⟩, hb⟩ := hb
    cases hb
    refine .hashAgg (ih hcs ht hc) ⟨?_, ?_⟩ .empty
    · refine (Result.forall₂_of_mapM_eq_ok hkeys).imp fun p col h => ?_
      obtain ⟨dt, hdt, rfl⟩ := Result.map_eq_ok.mp h
      exact hdt
    · refine (Result.forall₂_of_mapM_eq_ok haggs).imp fun p col h => ?_
      obtain ⟨dt, hdt, rfl⟩ := Result.map_eq_ok.mp h
      exact hdt

/-- The execution of a plan over fitting tables is in bounds and keeps to the schema. -/
theorem execution_fits [Collections] (hsort : SortsByComparing) {catalog : Catalog}
    {plan : LogicalPlan} (hs : plan.schema catalog = .ok schema)
    (ht : TablesFit d ctx catalog plan) :
    ∃ e, buildExecutor catalog plan = .ok e ∧ (e.init ctx).1 ≠ .error outOfBounds ∧
      ∀ n, (Executor.source ctx).nth (e.init ctx).2 n ≠ .error outOfBounds ∧
        ∀ t, (Executor.source ctx).nth (e.init ctx).2 n = .ok (some t) → t.Fits d schema := by
  obtain ⟨e, hb⟩ := exists_buildExecutor hs
  obtain ⟨hinit, he'⟩ := Executor.init_fits hsort (buildExecutor_wellTyped hs ht hb)
  have hrun (n : ℕ) :
      WellTyped d ctx ((fun e => (Executor.next ctx e).2)^[n] (e.init ctx).2) schema := by
    induction n with
    | zero => exact he'
    | succ n ih =>
      rw [Function.iterate_succ_apply']
      exact (Executor.next_fits ih).2
  refine ⟨e, hb, fun h => ?_, fun n => ⟨fun h => ?_, ?_⟩⟩
  · rw [h] at hinit
    exact hinit rfl
  · exact (Executor.next_invariant (hrun n)).2.1 _ h rfl
  · exact (Executor.next_invariant (hrun n)).2.2

omit [BuildProfile] in
/-- A row matches a schema: one value for each column, `NULL` or exactly of its type. -/
def Tuple.Matches (schema : Schema) (t : Tuple) : Prop :=
  t.values.length = schema.columns.length ∧
    ∀ (i : ℕ) (v : Value) (col : Column), t.values[i]? = some v →
      schema.columns[i]? = some col → v.HasType col.dataType

theorem Tuple.fits_exact {t : Tuple} : t.Fits .exact schema ↔ t.Matches schema := by
  rw [Tuple.Fits, List.forall₂_iff_get]
  constructor
  · rintro ⟨hlen, h⟩
    refine ⟨hlen.symm, fun i v col hv hcol => ?_⟩
    obtain ⟨hi, rfl⟩ := List.getElem?_eq_some_iff.mp hv
    obtain ⟨hj, rfl⟩ := List.getElem?_eq_some_iff.mp hcol
    exact h i hj hi
  · rintro ⟨hlen, h⟩
    refine ⟨hlen.symm, fun i hi hj => ?_⟩
    exact h i _ _ (List.getElem?_eq_getElem hj) (List.getElem?_eq_getElem hi)

/--
Every row of a plan has the columns of its schema with `NULL` or values of their
types, if the rows of the tables that the plan reads do; no column is out of
bounds.
-/
theorem plan_types_sound [Collections] (hsort : SortsByComparing) (ctx : ExecutionContext)
    (catalog : Catalog) (plan : LogicalPlan) (schema : Schema)
    (hs : plan.schema catalog = .ok schema)
    (hrows : ∀ name ∈ plan.scans, ∀ tableSchema tuples,
      catalog.getSchema name = some tableSchema → ctx.tables.lookup name = some tuples →
      ∀ t ∈ tuples, t.Matches tableSchema) :
    ∃ e, buildExecutor catalog plan = .ok e ∧ (e.init ctx).1 ≠ .error outOfBounds ∧
      ∀ n, (Executor.source ctx).nth (e.init ctx).2 n ≠ .error outOfBounds ∧
        ∀ t, (Executor.source ctx).nth (e.init ctx).2 n = .ok (some t) → t.Matches schema := by
  obtain ⟨e, hb, hinit, hnth⟩ := execution_fits (d := .exact) hsort hs
    fun name hname s tuples hget hl t ht =>
      Tuple.fits_exact.mpr (hrows name hname s tuples hget hl t ht)
  exact ⟨e, hb, hinit, fun n => ⟨(hnth n).1, fun t ht => Tuple.fits_exact.mp ((hnth n).2 t ht)⟩⟩

omit [BuildProfile] in
theorem plan_types_sound_grouped :
    let _ : BuildProfile := ⟨true⟩
    let _ := insertionCollections
    let catalog := (Catalog.new.addTable "t" ⟨[⟨"a", .int⟩, ⟨"b", .float⟩]⟩)
    let tables := AList.insert "t" [⟨[.int 4, .float (.zero false)], none, 0⟩,
      ⟨[.null, .float .nan], none, 0⟩] ∅
    let ctx : ExecutionContext := ⟨tables, .new ⟨[]⟩, none, 0⟩
    let plan := LogicalPlan.project (.agg (.join (.scan "t" none) (.scan "t" (some "u")) none)
      [.binaryOp "<" (.colRef "t.b") (.const (.int 1))] [("avg", .colRef "u.a", "avg(u.a)")])
      [(.colRef "avg(u.a)", "mean"), (.const .null, "nothing")]
    ∃ e, buildExecutor catalog plan = .ok e ∧ (e.init ctx).1 ≠ .error outOfBounds ∧
      ∀ n, (Executor.source ctx).nth (e.init ctx).2 n ≠ .error outOfBounds ∧
        ∀ t, (Executor.source ctx).nth (e.init ctx).2 n = .ok (some t) →
          t.Matches ⟨[⟨"mean", .float⟩, ⟨"nothing", .varchar⟩]⟩ := by
  intro _ _ catalog tables ctx plan
  refine plan_types_sound sortsByComparing_insertionCollections ctx catalog plan _ rfl ?_
  intro name hname tableSchema tuples hget hl t ht
  obtain rfl : name = "t" := by simpa [plan, LogicalPlan.scans] using hname
  cases hget
  cases hl
  simp only [List.mem_cons, List.not_mem_nil, or_false] at ht
  rcases ht with rfl | rfl <;> refine ⟨rfl, fun i v col hv hcol => ?_⟩ <;>
    rcases i with _ | _ | i <;> cases hv <;> cases hcol <;> decide

end VolcanoDb
