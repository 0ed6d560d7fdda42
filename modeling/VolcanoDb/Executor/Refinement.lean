import VolcanoDb.Executor.Streams

/-! # Operators refine their streams

For every operator, the tuples that `next` hands out are those of its stream
function on what its children hand out, also when one of them fails. An
induction on the plan composes these facts. Where the list semantics of a plan
has a result, its stream is that list.
-/

namespace VolcanoDb

namespace Executor

variable [BuildProfile] {ctx : ExecutionContext}

theorem next_eq {e : Executor} {p : Pull}
    (h : nextStep ctx (fun e => some (next ctx e)) e = some p) : next ctx e = p :=
  Option.some_inj.mp ((some_next ctx e).trans h)

theorem ended_of_child {child : Executor} (op : Executor → Executor)
    (hop : ∀ c c', next ctx c = (.ok none, c') → next ctx (op c) = (.ok none, op c'))
    (h : (source ctx).Ended child) : (source ctx).Ended (op child) := by
  refine .of_invariant (p := fun e => ∃ c, e = op c ∧ (source ctx).Ended c) ?_ ⟨child, rfl, h⟩
  rintro _ ⟨c, rfl, hc⟩
  have hnext := hop c _ (Prod.ext hc.next rfl)
  exact ⟨congrArg Prod.fst hnext, _, congrArg Prod.snd hnext, hc.tail⟩

theorem ended_of_next {e : Executor} (h : next ctx e = (.ok none, e)) : (source ctx).Ended e := by
  refine .of_invariant (p := (· = e)) ?_ rfl
  rintro _ rfl
  exact ⟨congrArg Prod.fst h, congrArg Prod.snd h⟩

variable (ctx) in
/-- An operator whose tuples, and whose failure if there is one, are those of a stream. -/
def Hands (s : Stream) (e : Executor) : Prop := (source ctx).Produces s.rows s.stop e

theorem hands_ended {e : Executor} (h : (source ctx).Ended e) : Hands ctx ⟨[], none⟩ e :=
  .ended h

theorem hands_failed {e e' : Executor} {f : Fault}
    (h : nextStep ctx (fun e => some (next ctx e)) e = some (.error f, e')) :
    Hands ctx ⟨[], some f⟩ e :=
  .failed (congrArg Prod.fst (next_eq h))

theorem hands_cons {e e' : Executor} {t : Tuple} {s : Stream}
    (h : nextStep ctx (fun e => some (next ctx e)) e = some (.ok (some t), e'))
    (hs : Hands ctx s e') : Hands ctx (s.cons t) e :=
  .item (next_eq h) hs

theorem hands_loop {e e' : Executor} {s : Stream}
    (h : nextStep ctx (fun e => some (next ctx e)) e = some (next ctx e'))
    (hs : Hands ctx s e') : Hands ctx s e :=
  .congr (next_eq h) hs

theorem hands_dummyScan : Hands ctx ⟨[Tuple.new []], none⟩ (dummyScan false) :=
  hands_cons rfl (hands_ended (ended_of_next (next_eq rfl)))

theorem hands_seqScan {tableName : String} {tuples : List Tuple}
    (h : ctx.tables.lookup tableName = some tuples) (cursor : ℕ) :
    Hands ctx ⟨visibleRows ctx (tuples.drop cursor), none⟩ (seqScan tableName cursor) := by
  induction hd : tuples.drop cursor generalizing cursor with
  | nil =>
    have hlen : tuples[cursor]? = none := by simpa using List.drop_eq_nil_iff.mp hd
    exact hands_ended (ended_of_next (next_eq (by simp [nextStep, h, hlen])))
  | cons t rest ih =>
    have hget : tuples[cursor]? = some t := by rw [← List.head?_drop, hd]; rfl
    have hrest : tuples.drop (cursor + 1) = rest := by rw [← List.tail_drop, hd]; rfl
    unfold visibleRows
    rw [List.filter_cons]
    split
    · rename_i hv
      exact hands_cons (by simp [nextStep, h, hget, hv]) (ih _ hrest)
    · rename_i hv
      exact hands_loop (by simp [nextStep, h, hget, hv]) (ih _ hrest)

theorem seqScan_mem {tableName : String} {cursor : ℕ} {t : Tuple}
    (hn : (next ctx (seqScan tableName cursor)).1 = .ok (some t)) :
    ∃ tuples, ctx.tables.lookup tableName = some tuples ∧ t ∈ tuples ∧
      ctx.txMgr.isVisible t.txId ctx.sessionTxId ctx.crScn := by
  rcases h : ctx.tables.lookup tableName with _ | tuples
  · have hnone : next ctx (seqScan tableName cursor) =
        (err (.tableNotInStorage tableName), seqScan tableName cursor) :=
      next_eq (by simp [nextStep, h])
    rw [hnone] at hn
    cases hn
  · have hy := (source ctx).yields_iff.mpr (hands_seqScan h cursor)
    have hhead : .ok (some t) = Except.ok (visibleRows ctx (tuples.drop cursor))[0]? :=
      hn.symm.trans (hy.nth 0)
    have hmem := List.mem_of_getElem? (Except.ok.inj hhead).symm
    obtain ⟨hdrop, hv⟩ := List.mem_filter.mp hmem
    exact ⟨tuples, rfl, List.mem_of_mem_drop hdrop, hv⟩

theorem hands_filter {child : Executor} {predicate : Expr} {schema : Schema} {s : Stream}
    (h : Hands ctx s child) :
    Hands ctx (.keepUntil (fun t => Value.isTruthy <$> predicate.eval t schema) s.stop s.rows)
      (filter child predicate schema) := by
  obtain ⟨l, stop⟩ := s
  unfold Hands at h
  dsimp only at h ⊢
  induction h with
  | ended he =>
    refine hands_ended (ended_of_child (filter · predicate schema) ?_ he)
    intro c c' hc
    exact next_eq (by simp [nextStep, hc])
  | @failed c f hf =>
    obtain ⟨c', hn⟩ : ∃ c', next ctx c = (.error f, c') := ⟨_, Prod.ext hf rfl⟩
    exact hands_failed (by simp only [nextStep, hn]; rfl)
  | @item c c' t l stop hn _ ih =>
    have hn : next ctx c = (.ok (some t), c') := hn
    simp only [Stream.keepUntil]
    rcases hv : predicate.eval t schema with f | v
    · have hstep : nextStep ctx (fun e => some (next ctx e)) (filter c predicate schema) =
          some (.error f, filter c' predicate schema) := by simp [nextStep, hn, hv]
      exact hands_failed hstep
    · cases ht : v.isTruthy with
      | true =>
        simp only [Result.map_ok, ht]
        exact hands_cons (by simp [nextStep, hn, hv, ht]) ih
      | false =>
        simp only [Result.map_ok, ht]
        exact hands_loop (by simp [nextStep, hn, hv, ht]) ih

theorem hands_project {child : Executor} {exprs : List Expr} {schema : Schema} {s : Stream}
    (h : Hands ctx s child) :
    Hands ctx (.mapUntil (projectRow schema exprs) s.stop s.rows) (project child exprs schema) := by
  obtain ⟨l, stop⟩ := s
  unfold Hands at h
  dsimp only at h ⊢
  induction h with
  | ended he =>
    refine hands_ended (ended_of_child (project · exprs schema) ?_ he)
    intro c c' hc
    exact next_eq (by simp [nextStep, hc])
  | @failed c f hf =>
    obtain ⟨c', hn⟩ : ∃ c', next ctx c = (.error f, c') := ⟨_, Prod.ext hf rfl⟩
    exact hands_failed (by simp only [nextStep, hn]; rfl)
  | @item c c' t l stop hn _ ih =>
    have hn : next ctx c = (.ok (some t), c') := hn
    rcases hv : (exprs.mapM fun expr => expr.eval t schema) with f | vals
    · have hrow : projectRow schema exprs t = .error f := by simp [projectRow, hv]
      have hstep : nextStep ctx (fun e => some (next ctx e)) (project c exprs schema) =
          some (.error f, project c' exprs schema) := by simp [nextStep, hn, hv]
      simpa only [Stream.mapUntil, hrow] using hands_failed hstep
    · have hrow : projectRow schema exprs t = .ok (Tuple.new vals) := by simp [projectRow, hv]
      have hstep : nextStep ctx (fun e => some (next ctx e)) (project c exprs schema) =
          some (.ok (some (Tuple.new vals)), project c' exprs schema) := by simp [nextStep, hn, hv]
      simpa only [Stream.mapUntil, hrow] using hands_cons hstep ih

/-- The subtraction in a limit check does not underflow once the offset is consumed. -/
theorem limitReached_eq (limitVal : Option ℕ) {offset cursor : ℕ} (h : offset ≤ cursor) :
    limitReached limitVal offset cursor = .ok (limitVal.any (· ≤ cursor - offset)) := by
  cases limitVal <;> simp [limitReached, usizeSub, h]

omit [BuildProfile] in
/-- What a window still lets through when some rows have been consumed. -/
def windowFrom (limitVal offset : Option ℕ) (cursor : ℕ) (l : List Tuple) (stop : Option Fault) :
    Stream where
  rows := takeLimit (limitVal.map (· - (cursor - offset.getD 0))) (l.drop (offset.getD 0 - cursor))
  stop := if limitVal.any fun n => offset.getD 0 + n ≤ cursor + l.length then none else stop

omit [BuildProfile] in
theorem windowFrom_zero (limitVal offset : Option ℕ) (s : Stream) :
    windowFrom limitVal offset 0 s.rows s.stop = s.window limitVal offset := by
  cases limitVal <;> simp [windowFrom, Stream.window]

omit [BuildProfile] in
theorem windowFrom_skip {limitVal offset : Option ℕ} {cursor : ℕ} (h : cursor < offset.getD 0)
    (t : Tuple) (l : List Tuple) (stop : Option Fault) :
    windowFrom limitVal offset cursor (t :: l) stop =
      windowFrom limitVal offset (cursor + 1) l stop := by
  have hoff : offset.getD 0 - cursor = offset.getD 0 - (cursor + 1) + 1 := by omega
  have hcur : cursor - offset.getD 0 = cursor + 1 - offset.getD 0 := by omega
  have hlen : cursor + (t :: l).length = cursor + 1 + l.length := by simp; omega
  rw [windowFrom, windowFrom, hoff, hcur, List.drop_succ_cons, hlen]

omit [BuildProfile] in
theorem windowFrom_full {limitVal offset : Option ℕ} {cursor : ℕ} (h : offset.getD 0 ≤ cursor)
    (hmax : limitVal.any (· ≤ cursor - offset.getD 0)) (l : List Tuple) (stop : Option Fault) :
    windowFrom limitVal offset cursor l stop = ⟨[], none⟩ := by
  cases limitVal with
  | none => cases hmax
  | some n =>
    have hn : n ≤ cursor - offset.getD 0 := by simpa using hmax
    have hzero : n - (cursor - offset.getD 0) = 0 := Nat.sub_eq_zero_of_le hn
    have hle : offset.getD 0 + n ≤ cursor + l.length := by omega
    simp [windowFrom, takeLimit, hzero, hle]

omit [BuildProfile] in
theorem windowFrom_cons {limitVal offset : Option ℕ} {cursor : ℕ} (h : offset.getD 0 ≤ cursor)
    (hmax : ¬ limitVal.any (· ≤ cursor - offset.getD 0)) (t : Tuple) (l : List Tuple)
    (stop : Option Fault) :
    windowFrom limitVal offset cursor (t :: l) stop =
      (windowFrom limitVal offset (cursor + 1) l stop).cons t := by
  have hoff : offset.getD 0 - cursor = 0 := by omega
  have hoff' : offset.getD 0 - (cursor + 1) = 0 := by omega
  have hlen : cursor + (t :: l).length = cursor + 1 + l.length := by simp; omega
  cases limitVal with
  | none => simp [windowFrom, Stream.cons, takeLimit, hoff, hoff']
  | some n =>
    have hlt : ¬ n ≤ cursor - offset.getD 0 := by simpa using hmax
    have hn : n - (cursor - offset.getD 0) = n - (cursor + 1 - offset.getD 0) + 1 := by omega
    simp only [windowFrom, Stream.cons, takeLimit, Option.map_some, hn, hoff, hoff', List.drop_zero,
      List.take_succ_cons, hlen]

omit [BuildProfile] in
theorem windowFrom_nil {limitVal offset : Option ℕ} {cursor : ℕ}
    (h : cursor < offset.getD 0 ∨ ¬ limitVal.any (· ≤ cursor - offset.getD 0))
    (stop : Option Fault) : windowFrom limitVal offset cursor [] stop = ⟨[], stop⟩ := by
  cases limitVal with
  | none => simp [windowFrom, takeLimit]
  | some n =>
    have hlt : cursor < offset.getD 0 ∨ ¬ n ≤ cursor - offset.getD 0 := by simpa using h
    have hnot : ¬ offset.getD 0 + n ≤ cursor := by omega
    simp [windowFrom, takeLimit, hnot]

theorem hands_limit {child : Executor} {limitVal offset : Option ℕ} {s : Stream}
    (h : Hands ctx s child) (cursor : ℕ) :
    Hands ctx (windowFrom limitVal offset cursor s.rows s.stop)
      (limit child limitVal offset cursor) := by
  obtain ⟨l, stop⟩ := s
  unfold Hands at h
  dsimp only at h ⊢
  induction h generalizing cursor with
  | @ended c he =>
    by_cases hskip : cursor < offset.getD 0
    · rw [windowFrom_nil (.inl hskip)]
      refine hands_ended (ended_of_child (limit · limitVal offset cursor) ?_ he)
      intro c c' hc
      exact next_eq (by simp [nextStep, hskip, hc])
    have hlim := limitReached_eq limitVal (Nat.le_of_not_lt hskip)
    by_cases hmax : limitVal.any (· ≤ cursor - offset.getD 0)
    · rw [windowFrom_full (Nat.le_of_not_lt hskip) hmax]
      exact hands_ended (ended_of_next (next_eq (by simp [nextStep, hskip, hlim, hmax])))
    · rw [windowFrom_nil (.inr hmax)]
      refine hands_ended (ended_of_child (limit · limitVal offset cursor) ?_ he)
      intro c c' hc
      exact next_eq (by simp [nextStep, hskip, hlim, hmax, hc])
  | @failed c f hf =>
    obtain ⟨c', hn⟩ : ∃ c', next ctx c = (.error f, c') := ⟨_, Prod.ext hf rfl⟩
    by_cases hskip : cursor < offset.getD 0
    · rw [windowFrom_nil (.inl hskip)]
      have hstep : nextStep ctx (fun e => some (next ctx e)) (limit c limitVal offset cursor) =
          some (.error f, limit c' limitVal offset cursor) := by simp [nextStep, hskip, hn]
      exact hands_failed hstep
    have hlim := limitReached_eq limitVal (Nat.le_of_not_lt hskip)
    by_cases hmax : limitVal.any (· ≤ cursor - offset.getD 0)
    · rw [windowFrom_full (Nat.le_of_not_lt hskip) hmax]
      exact hands_ended (ended_of_next (next_eq (by simp [nextStep, hskip, hlim, hmax])))
    · rw [windowFrom_nil (.inr hmax)]
      have hstep : nextStep ctx (fun e => some (next ctx e)) (limit c limitVal offset cursor) =
          some (.error f, limit c' limitVal offset cursor) := by
        simp [nextStep, hskip, hlim, hmax, hn]
      exact hands_failed hstep
  | @item c c' t l stop hn _ ih =>
    have hn : next ctx c = (.ok (some t), c') := hn
    by_cases hskip : cursor < offset.getD 0
    · rw [windowFrom_skip hskip]
      exact hands_loop (by simp [nextStep, hskip, hn]) (ih _)
    have hlim := limitReached_eq limitVal (Nat.le_of_not_lt hskip)
    by_cases hmax : limitVal.any (· ≤ cursor - offset.getD 0)
    · rw [windowFrom_full (Nat.le_of_not_lt hskip) hmax]
      exact hands_ended (ended_of_next (next_eq (by simp [nextStep, hskip, hlim, hmax])))
    · rw [windowFrom_cons (Nat.le_of_not_lt hskip) hmax]
      exact hands_cons (by simp [nextStep, hskip, hlim, hmax, hn]) (ih _)

theorem hands_sort {child : Executor} {orderBy : List (Expr × Bool)} {schema : Schema}
    {sortedTuples : List Tuple} (cursor : ℕ) :
    Hands ctx ⟨sortedTuples.drop cursor, none⟩
      (sort child orderBy schema sortedTuples cursor) := by
  induction hd : sortedTuples.drop cursor generalizing cursor with
  | nil =>
    have hlen : sortedTuples[cursor]? = none := by simpa using List.drop_eq_nil_iff.mp hd
    exact hands_ended (ended_of_next (next_eq (by simp [nextStep, hlen])))
  | cons t rest ih =>
    have hget : sortedTuples[cursor]? = some t := by rw [← List.head?_drop, hd]; rfl
    have hrest : sortedTuples.drop (cursor + 1) = rest := by rw [← List.tail_drop, hd]; rfl
    exact hands_cons (by simp [nextStep, hget]) (ih _ hrest)

theorem hands_hashAgg {child : Executor} {groupBy : List Expr}
    {aggFuncs : List (String × Expr × String)} {schema : Schema}
    {groups : FinMap String (List AggState)} {groupKeys : FinMap String (List Value)}
    {resultKeys : List String} (cursor : ℕ) :
    Hands ctx (.mapUntil (groupRow groups groupKeys) none (resultKeys.drop cursor))
      (hashAgg child groupBy aggFuncs schema groups groupKeys resultKeys cursor) := by
  induction hd : resultKeys.drop cursor generalizing cursor with
  | nil =>
    have hlen : resultKeys[cursor]? = none := by simpa using List.drop_eq_nil_iff.mp hd
    exact hands_ended (ended_of_next (next_eq (by simp [nextStep, hlen])))
  | cons key rest ih =>
    have hget : resultKeys[cursor]? = some key := by rw [← List.head?_drop, hd]; rfl
    have hrest : resultKeys.drop (cursor + 1) = rest := by rw [← List.tail_drop, hd]; rfl
    simp only [Stream.mapUntil]
    rcases hrow : groupRow groups groupKeys key with f | t
    · have hstep : nextStep ctx (fun e => some (next ctx e))
          (hashAgg child groupBy aggFuncs schema groups groupKeys resultKeys cursor) =
          some (.error f,
            hashAgg child groupBy aggFuncs schema groups groupKeys resultKeys (cursor + 1)) := by
        simp [nextStep, hget, hrow]
      exact hands_failed hstep
    · exact hands_cons (by simp [nextStep, hget, hrow]) (ih _ hrest)

section Join

variable {condition : Option Expr} {schema : Schema} {rightTuples : List Tuple}

omit [BuildProfile] in
theorem product_cons (l : Tuple) (ls rs : List Tuple) :
    product (l :: ls) rs = (rs.drop 0).map (combine l) ++ product ls rs := rfl

theorem hands_joinInner {left : Executor} {l : Tuple} {stop : Option Fault} (rest : List Tuple)
    (hrest : ∀ cursor, rightTuples.length ≤ cursor →
      Hands ctx (.keepUntil (joinMatches condition schema) stop rest)
        (join left right condition schema rightTuples (some l) cursor))
    (cursor : ℕ) :
    Hands ctx (.keepUntil (joinMatches condition schema) stop
        ((rightTuples.drop cursor).map (combine l) ++ rest))
      (join left right condition schema rightTuples (some l) cursor) := by
  induction hd : rightTuples.drop cursor generalizing cursor with
  | nil => exact hrest cursor (List.drop_eq_nil_iff.mp hd)
  | cons r rs ih =>
    have hget : rightTuples[cursor]? = some r := by rw [← List.head?_drop, hd]; rfl
    have htail : rightTuples.drop (cursor + 1) = rs := by rw [← List.tail_drop, hd]; rfl
    have ih' := ih (cursor + 1) htail
    simp only [List.map_cons, List.cons_append, Stream.keepUntil]
    rcases hb : joinMatches condition schema (combine l r) with f | _ | _
    · have hstep : nextStep ctx (fun e => some (next ctx e))
          (join left right condition schema rightTuples (some l) cursor) =
          some (.error f, join left right condition schema rightTuples (some l) (cursor + 1)) := by
        simp [nextStep, hget, hb]
      exact hands_failed hstep
    · exact hands_loop (by simp [nextStep, hget, hb]) ih'
    · exact hands_cons (by simp [nextStep, hget, hb]) ih'

theorem hands_join {left right : Executor} {l : Tuple} {s : Stream} (h : Hands ctx s left) :
    Hands ctx (.keepUntil (joinMatches condition schema) s.stop (product (l :: s.rows) rightTuples))
      (join left right condition schema rightTuples (some l) 0) := by
  obtain ⟨ls, stop⟩ := s
  unfold Hands at h
  dsimp only at h ⊢
  induction h generalizing l with
  | @ended left he =>
    rw [product_cons]
    refine hands_joinInner [] (fun cursor hc => ?_) 0
    have hget : rightTuples[cursor]? = none := by simpa using hc
    obtain ⟨left', hn⟩ : ∃ left', next ctx left = (.ok none, left') :=
      ⟨_, Prod.ext he.next rfl⟩
    have hend : Hands ctx ⟨[], none⟩ (join left' right condition schema rightTuples none 0) :=
      hands_ended (ended_of_next (next_eq rfl))
    exact hands_loop (by simp [nextStep, hget, hn]) hend
  | @failed left f hf =>
    rw [product_cons]
    refine hands_joinInner [] (fun cursor hc => ?_) 0
    have hget : rightTuples[cursor]? = none := by simpa using hc
    obtain ⟨left', hn⟩ : ∃ left', next ctx left = (.error f, left') := ⟨_, Prod.ext hf rfl⟩
    have hstep : nextStep ctx (fun e => some (next ctx e))
        (join left right condition schema rightTuples (some l) cursor) =
        some (.error f, join left' right condition schema rightTuples (some l) cursor) := by
      simp [nextStep, hget, hn]
    exact hands_failed hstep
  | @item left left' t ls stop hn _ ih =>
    have hn : next ctx left = (.ok (some t), left') := hn
    rw [product_cons]
    refine hands_joinInner _ (fun cursor hc => ?_) 0
    have hget : rightTuples[cursor]? = none := by simpa using hc
    exact hands_loop (by simp [nextStep, hget, hn]) ih

end Join

variable [Collections] {catalog : Catalog}

variable (ctx) in
/-- An operator whose `init` fails as a result does, or prepares it to hand out that stream. -/
def Starts (e : Executor) : Result Stream → Prop
  | .error f => (e.init ctx).1 = .error f
  | .ok s => ∃ e', e.init ctx = (.ok (), e') ∧ Hands ctx s e'

theorem Starts.bind {child e : Executor} {r : Result Stream} {k : Stream → Result Stream}
    (h : Starts ctx child r)
    (hfail : ∀ f child', child.init ctx = (.error f, child') → (e.init ctx).1 = .error f)
    (hok : ∀ s child', child.init ctx = (.ok (), child') → Hands ctx s child' →
      Starts ctx e (k s)) : Starts ctx e (r >>= k) := by
  cases r with
  | error f => exact hfail f _ (Prod.ext h rfl)
  | ok s =>
    obtain ⟨child', hi, hs⟩ := h
    exact hok s child' hi hs

omit [Collections] in
theorem Hands.drain {e : Executor} {s : Stream} (h : Hands ctx s e) :
    ∃ e', (source ctx).drain e = (PullSource.ending s.stop, s.rows, e') :=
  PullSource.Produces.drain h

/-- The operator tree of a plan hands out the stream of the plan. -/
theorem starts_stream {plan : LogicalPlan} {e : Executor}
    (hb : buildExecutor catalog plan = .ok e) : Starts ctx e (plan.stream ctx catalog) := by
  induction plan generalizing e with
  | dummyScan =>
    cases hb
    exact ⟨_, rfl, hands_dummyScan⟩
  | scan tableName aliasName =>
    cases hb
    simp only [LogicalPlan.stream]
    split
    · rename_i ht
      have hstep : nextStep ctx (fun e => some (next ctx e)) (seqScan tableName 0) =
          some (err (.tableNotInStorage tableName), seqScan tableName 0) := by simp [nextStep, ht]
      exact ⟨_, rfl, hands_failed hstep⟩
    · rename_i tuples ht
      exact ⟨_, rfl, hands_seqScan ht 0⟩
  | filter child predicate ih =>
    simp only [buildExecutor, Result.bind_eq_ok] at hb
    obtain ⟨c, hc, schema, hs, hb⟩ := hb
    cases hb
    refine (ih hc).bind (fun f c' hi => by simp [init, hi]) fun s c' hi hh => ?_
    simp only [hs]
    exact ⟨filter c' predicate schema, by simp [init, hi], hands_filter hh⟩
  | project child exprs ih =>
    simp only [buildExecutor, Result.bind_eq_ok] at hb
    obtain ⟨c, hc, schema, hs, hb⟩ := hb
    cases hb
    refine (ih hc).bind (fun f c' hi => by simp [init, hi]) fun s c' hi hh => ?_
    simp only [hs]
    exact ⟨project c' (exprs.map Prod.fst) schema, by simp [init, hi], hands_project hh⟩
  | limit child limitVal offset ih =>
    simp only [buildExecutor, Result.bind_eq_ok] at hb
    obtain ⟨c, hc, hb⟩ := hb
    cases hb
    refine (ih hc).bind (fun f c' hi => by simp [init, hi]) fun s c' hi hh => ?_
    refine ⟨limit c' limitVal offset 0, by simp [init, hi], ?_⟩
    exact windowFrom_zero limitVal offset s ▸ hands_limit hh 0
  | sort child orderBy ih =>
    simp only [buildExecutor, Result.bind_eq_ok] at hb
    obtain ⟨c, hc, schema, hs, hb⟩ := hb
    cases hb
    refine (ih hc).bind (fun f c' hi => by simp [init, hi]) fun s c' hi hh => ?_
    obtain ⟨c'', hd⟩ := hh.drain
    simp only [hs, Result.ok_bind, Stream.all]
    rcases s with ⟨l, _ | f⟩
    · simp only [Result.pure_eq_ok, Result.ok_bind]
      rcases hsort : Collections.sortBy (fun a b => compareKeys schema a b orderBy) l
        with f | sorted
      · simp [Starts, init, hi, hd, PullSource.ending, hsort]
      · refine ⟨sort c'' orderBy schema sorted 0, ?_, hands_sort 0⟩
        simp [init, hi, hd, PullSource.ending, hsort]
    · simp [Starts, init, hi, hd, PullSource.ending]
  | join left right condition ihl ihr =>
    simp only [buildExecutor, Result.bind_eq_ok] at hb
    obtain ⟨l, hl, r, hr, schema, hs, hb⟩ := hb
    cases hb
    refine (ihl hl).bind (fun f l' hi => by simp [init, hi]) fun sl l' hil hhl => ?_
    refine (ihr hr).bind (fun f r' hi => by simp [init, hil, hi]) fun sr r' hir hhr => ?_
    obtain ⟨r'', hd⟩ := hhr.drain
    simp only [hs, Stream.all]
    rcases sr with ⟨rightRows, _ | f⟩
    · simp only [Result.pure_eq_ok, Result.ok_bind]
      rcases sl with ⟨leftRows, stop⟩
      cases hhl with
      | ended he =>
        obtain ⟨l'', hn⟩ : ∃ l'', next ctx l' = (.ok none, l'') := ⟨_, Prod.ext he.next rfl⟩
        refine ⟨join l'' r'' condition schema rightRows none 0, ?_,
          hands_ended (ended_of_next (next_eq rfl))⟩
        simp [init, hil, hir, hd, PullSource.ending, hn]
      | failed hf =>
        obtain ⟨l'', hn⟩ : ∃ l'', next ctx l' = (.error _, l'') := ⟨_, Prod.ext hf rfl⟩
        simp [Starts, init, hil, hir, hd, PullSource.ending, hn]
      | @item _ l'' t rest _ hn hrest =>
        have hn : next ctx l' = (.ok (some t), l'') := hn
        refine ⟨join l'' r'' condition schema rightRows (some t) 0, ?_,
          hands_join (s := ⟨rest, stop⟩) hrest⟩
        simp [init, hil, hir, hd, PullSource.ending, hn]
    · simp [Starts, init, hil, hir, hd, PullSource.ending]
  | agg child groupBy aggFuncs ih =>
    simp only [buildExecutor, Result.bind_eq_ok] at hb
    obtain ⟨c, hc, schema, hs, hb⟩ := hb
    cases hb
    refine (ih hc).bind (fun f c' hi => by simp [init, hi]) fun s c' hi hh => ?_
    obtain ⟨c'', hfold⟩ :=
      PullSource.Produces.fold (Groups.addTuple groupBy aggFuncs schema) hh .empty
    simp only [hs, Result.ok_bind, Stream.groups]
    rcases hu : PullSource.foldUntil (Groups.addTuple groupBy aggFuncs schema) s.rows .empty
      with ⟨f | _, g⟩
    · simp [Starts, init, hi, hfold, hu]
    · rcases s with ⟨l, _ | f⟩
      · simp only [Stream.all, Result.pure_eq_ok, Result.ok_bind]
        rcases hg : g.addGlobal groupBy aggFuncs with f | g'
        · simp [Starts, init, hi, hfold, hu, PullSource.ending, hg]
        · refine ⟨hashAgg c'' groupBy aggFuncs schema g'.groups g'.groupKeys
            (Collections.iterOrder g'.groups.keys) 0, ?_, hands_hashAgg 0⟩
          simp [init, hi, hfold, hu, PullSource.ending, hg]
      · simp [Starts, init, hi, hfold, hu, PullSource.ending, Stream.all]

theorem exists_buildExecutor_of_stream {plan : LogicalPlan} {s : Stream}
    (h : plan.stream ctx catalog = .ok s) : ∃ e, buildExecutor catalog plan = .ok e := by
  induction plan generalizing s with
  | dummyScan | scan tableName aliasName => exact ⟨_, rfl⟩
  | filter child predicate ih =>
    simp only [LogicalPlan.stream, Result.bind_eq_ok] at h
    obtain ⟨s₁, h₁, schema, hs, -⟩ := h
    obtain ⟨e, he⟩ := ih h₁
    exact ⟨.filter e predicate schema, by simp [buildExecutor, he, hs]⟩
  | project child exprs ih =>
    simp only [LogicalPlan.stream, Result.bind_eq_ok] at h
    obtain ⟨s₁, h₁, schema, hs, -⟩ := h
    obtain ⟨e, he⟩ := ih h₁
    exact ⟨.project e (exprs.map Prod.fst) schema, by simp [buildExecutor, he, hs]⟩
  | limit child limitVal offset ih =>
    simp only [LogicalPlan.stream, Result.bind_eq_ok] at h
    obtain ⟨s₁, h₁, -⟩ := h
    obtain ⟨e, he⟩ := ih h₁
    exact ⟨.limit e limitVal offset 0, by simp [buildExecutor, he]⟩
  | sort child orderBy ih =>
    simp only [LogicalPlan.stream, Result.bind_eq_ok] at h
    obtain ⟨s₁, h₁, schema, hs, -⟩ := h
    obtain ⟨e, he⟩ := ih h₁
    exact ⟨.sort e orderBy schema [] 0, by simp [buildExecutor, he, hs]⟩
  | join left right condition ihl ihr =>
    simp only [LogicalPlan.stream, Result.bind_eq_ok] at h
    obtain ⟨s₁, h₁, s₂, h₂, _, -, schema, hs, -⟩ := h
    obtain ⟨e, he⟩ := ihl h₁
    obtain ⟨e', he'⟩ := ihr h₂
    exact ⟨.join e e' condition schema [] none 0, by simp [buildExecutor, he, he', hs]⟩
  | agg child groupBy aggFuncs ih =>
    simp only [LogicalPlan.stream, Result.bind_eq_ok] at h
    obtain ⟨s₁, h₁, schema, hs, -⟩ := h
    obtain ⟨e, he⟩ := ih h₁
    exact ⟨.hashAgg e groupBy aggFuncs schema ∅ ∅ [] 0, by simp [buildExecutor, he, hs]⟩

theorem executeQuery_of_build {plan : LogicalPlan} {e : Executor}
    (hb : buildExecutor catalog plan = .ok e) :
    executeQuery ctx catalog plan = plan.answer ctx catalog := by
  have hstart : Starts ctx e (plan.stream ctx catalog) := starts_stream hb
  simp only [executeQuery, hb, LogicalPlan.answer, Result.ok_bind]
  rcases hs : plan.stream ctx catalog with f | s <;> rw [hs] at hstart
  · have hf : (e.init ctx).1 = .error f := hstart
    simp [hf]
  · obtain ⟨e', hi, hh⟩ := hstart
    obtain ⟨e'', hd⟩ := hh.drain
    rcases s with ⟨l, _ | f⟩ <;> simp [hi, hd, PullSource.ending, Stream.all]

/-- Executing a query succeeds with exactly the rows that its plan denotes. -/
theorem toOption_executeQuery (plan : LogicalPlan) :
    (executeQuery ctx catalog plan).toOption = (plan.answer ctx catalog).toOption := by
  rcases hb : buildExecutor catalog plan with f | e
  · have hstream : (plan.stream ctx catalog).toOption = none := by
      rcases hs : plan.stream ctx catalog with f' | s
      · rfl
      · obtain ⟨e, he⟩ := exists_buildExecutor_of_stream hs
        rw [hb] at he
        cases he
    simp [executeQuery, hb, LogicalPlan.answer, Result.toOption_bind, hstream]
  · rw [executeQuery_of_build hb]

theorem stream_of_rows (hsort : SortsStably) {plan : LogicalPlan} {l : List Tuple}
    (hl : plan.rows ctx catalog = some l) : plan.stream ctx catalog = .ok ⟨l, none⟩ := by
  induction plan generalizing l with
  | dummyScan => cases hl; rfl
  | scan tableName aliasName =>
    obtain ⟨tuples, ht, rfl⟩ := Option.map_eq_some_iff.mp hl
    simp [LogicalPlan.stream, ht]
  | filter child predicate ih =>
    simp only [LogicalPlan.rows, Option.bind_eq_bind, Option.bind_eq_some_iff,
      Result.toOption_eq_some] at hl
    obtain ⟨l₁, hl₁, schema, hs, hkeep⟩ := hl
    simp [LogicalPlan.stream, ih hl₁, hs, Stream.keepUntil_eq hkeep]
  | project child exprs ih =>
    simp only [LogicalPlan.rows, Option.bind_eq_bind, Option.bind_eq_some_iff,
      Result.toOption_eq_some] at hl
    obtain ⟨l₁, hl₁, schema, hs, hmap⟩ := hl
    simp [LogicalPlan.stream, ih hl₁, hs, Stream.mapUntil_eq hmap]
  | limit child limitVal offset ih =>
    simp only [LogicalPlan.rows, Option.bind_eq_bind, Option.bind_eq_some_iff,
      Option.some_inj] at hl
    obtain ⟨l₁, hl₁, rfl⟩ := hl
    simp [LogicalPlan.stream, ih hl₁, Stream.window]
  | sort child orderBy ih =>
    simp only [LogicalPlan.rows, Option.bind_eq_bind, Option.bind_eq_some_iff,
      Result.toOption_eq_some] at hl
    obtain ⟨l₁, hl₁, schema, hs, hrows⟩ := hl
    simp [LogicalPlan.stream, ih hl₁, hs, Stream.all, sortBy_of_sortRows hsort hrows]
  | join left right condition ihl ihr =>
    simp only [LogicalPlan.rows, Option.bind_eq_bind, Option.bind_eq_some_iff,
      Result.toOption_eq_some] at hl
    obtain ⟨l₁, hl₁, r₁, hr₁, schema, hs, hkeep⟩ := hl
    simp [LogicalPlan.stream, ihl hl₁, ihr hr₁, hs, Stream.all, Stream.keepUntil_eq hkeep]
  | agg child groupBy aggFuncs ih => cases hl

/--
Executing a plan refines its list semantics: every call of `next` answers with
the next row of the result, and with nothing once the result is exhausted.
-/
theorem execution_refines_rows (hsort : SortsStably) {plan : LogicalPlan} {schema : Schema}
    {l : List Tuple} (hs : plan.schema catalog = .ok schema)
    (hl : plan.rows ctx catalog = some l) :
    ∃ e e', buildExecutor catalog plan = .ok e ∧ e.init ctx = (.ok (), e') ∧
      ∀ n, (next ctx ((fun e => (next ctx e).2)^[n] e')).1 = .ok l[n]? := by
  obtain ⟨e, hb⟩ := exists_buildExecutor hs
  have hstart : Starts ctx e (plan.stream ctx catalog) := starts_stream hb
  rw [stream_of_rows hsort hl] at hstart
  obtain ⟨e', hi, hh⟩ := hstart
  exact ⟨e, e', hb, hi, ((source ctx).yields_iff.mpr hh).nth⟩

omit [BuildProfile] [Collections] in
theorem execution_refines_rows_window :
    let _ : BuildProfile := ⟨true⟩
    let _ := insertionCollections
    let catalog := Catalog.new.addTable "t" ⟨[⟨"a", .int⟩]⟩
    let txMgr := (TransactionManager.new ⟨[]⟩).begin.2
    let tables := AList.insert "t" [⟨[.int 4], none, 0⟩, ⟨[.int 1], none, 0⟩, ⟨[.int 2], some 1, 0⟩,
      ⟨[.int 3], none, 0⟩] ∅
    let ctx : ExecutionContext := ⟨tables, txMgr, none, 0⟩
    let plan := LogicalPlan.limit (.sort (.filter (.scan "t" none)
      (.binaryOp ">" (.colRef "a") (.const (.int 1)))) [(.colRef "a", true)]) (some 1) (some 1)
    ∃ e e', buildExecutor catalog plan = .ok e ∧ e.init ctx = (.ok (), e') ∧
      ∀ n, (next ctx ((fun e => (next ctx e).2)^[n] e')).1 =
        .ok [Tuple.mk [.int 4] none 0][n]? := by
  intro _ _ catalog txMgr tables ctx plan
  have hs : plan.schema catalog = .ok ⟨[⟨"t.a", .int⟩]⟩ := rfl
  exact execution_refines_rows sortsStably_insertionCollections hs (by decide +kernel)

end Executor

end VolcanoDb
