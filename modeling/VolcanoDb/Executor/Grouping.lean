import VolcanoDb.Executor.Streams
import Mathlib.Data.List.Induction

/-! # Grouping

The hash aggregation as grouping: the rows with one key, in the order in which
they arrive, are the members of a group, and each accumulator of the group is
folded over exactly its members.
-/

namespace VolcanoDb

open PullSource (foldUntil foldUntil_concat)

variable [BuildProfile]

section Members

variable (groupBy : List Expr) (schema : Schema)

def groupVals (t : Tuple) : Result (List Value) := groupBy.mapM fun e => e.eval t schema

def hasKey (key : String) (t : Tuple) : Bool :=
  match groupVals groupBy schema t with
  | .ok vals => makeGroupKey vals = key
  | .error _ => false

def members (key : String) (l : List Tuple) : List Tuple := l.filter (hasKey groupBy schema key)

def lastVals (rows : List Tuple) : Result (List Value) :=
  match rows.getLast? with
  | none => pure []
  | some t => groupVals groupBy schema t

end Members

section Accumulators

variable (schema : Schema)

def argValue (arg : Expr) (t : Tuple) : Result Value :=
  if arg = .star then pure (.int 1) else arg.eval t schema

/-- An aggregate folded over rows. -/
def accumulate (f : String × Expr × String) (rows : List Tuple) : Result AggState := do
  let state ← AggState.new f.1
  rows.foldlM (fun state t => argValue schema f.2.1 t >>= state.update) state

def accumulateAll (aggFuncs : List (String × Expr × String)) (rows : List Tuple) :
    Result (List AggState) :=
  aggFuncs.mapM fun f => accumulate schema f rows

end Accumulators

variable {groupBy : List Expr} {aggFuncs : List (String × Expr × String)} {schema : Schema}

theorem accumulate_concat (f : String × Expr × String) (rows : List Tuple) (t : Tuple) :
    accumulate schema f (rows ++ [t]) =
      accumulate schema f rows >>= fun state => argValue schema f.2.1 t >>= state.update := by
  simp only [accumulate, List.foldlM_append, List.foldlM_cons, List.foldlM_nil, bind_pure,
    bind_assoc]

theorem accumulateAll_cons (f : String × Expr × String) (rows : List Tuple) :
    accumulateAll schema (f :: aggFuncs) rows = (do
      let state ← accumulate schema f rows
      let states ← accumulateAll schema aggFuncs rows
      pure (state :: states)) :=
  List.mapM_cons

theorem newStates_eq : Groups.newStates aggFuncs = accumulateAll schema aggFuncs [] := by
  induction aggFuncs with
  | nil => rfl
  | cons f aggFuncs ih =>
    rw [accumulateAll_cons, ← ih, accumulate]
    simp [Groups.newStates]

theorem accumulateAll_of_concat {rows : List Tuple} {t : Tuple} {states : List AggState}
    (h : accumulateAll schema aggFuncs (rows ++ [t]) = .ok states) :
    ∃ states', accumulateAll schema aggFuncs rows = .ok states' := by
  induction aggFuncs generalizing states with
  | nil => exact ⟨[], rfl⟩
  | cons f aggFuncs ih =>
    rw [accumulateAll_cons, accumulate_concat] at h
    obtain ⟨state, hstate, h⟩ := Result.bind_eq_ok.mp h
    obtain ⟨states, hstates, -⟩ := Result.bind_eq_ok.mp h
    obtain ⟨state', hstate', -⟩ := Result.bind_eq_ok.mp hstate
    obtain ⟨states', hstates'⟩ := ih hstates
    exact ⟨state' :: states', by simp [accumulateAll_cons, hstate', hstates']⟩

theorem accumulateAll_nil {rows : List Tuple} {states : List AggState}
    (h : accumulateAll schema aggFuncs rows = .ok states) :
    ∃ states', accumulateAll schema aggFuncs [] = .ok states' := by
  induction rows using List.reverseRecOn generalizing states with
  | nil => exact ⟨states, h⟩
  | append_singleton rows t ih =>
    obtain ⟨states', h'⟩ := accumulateAll_of_concat h
    exact ih h'

theorem updateStates_cons (f : String × Expr × String) (t : Tuple) (state : AggState)
    (states : List AggState) :
    updateStates schema t (f :: aggFuncs) (state :: states) =
      match argValue schema f.2.1 t >>= state.update with
      | .error e => (.error e, state :: states)
      | .ok state =>
        ((updateStates schema t aggFuncs states).1,
          state :: (updateStates schema t aggFuncs states).2) := rfl

theorem updateStates_eq_ok {t : Tuple} {rows : List Tuple} {states states' : List AggState}
    (h : accumulateAll schema aggFuncs rows = .ok states) :
    updateStates schema t aggFuncs states = (.ok (), states') ↔
      accumulateAll schema aggFuncs (rows ++ [t]) = .ok states' := by
  induction aggFuncs generalizing states states' with
  | nil =>
    cases h
    simp [updateStates, accumulateAll]
  | cons f aggFuncs ih =>
    rw [accumulateAll_cons] at h
    obtain ⟨state, hstate, h⟩ := Result.bind_eq_ok.mp h
    obtain ⟨rest, hrest, h⟩ := Result.bind_eq_ok.mp h
    cases h
    rw [accumulateAll_cons, accumulate_concat, hstate, updateStates_cons, Result.ok_bind]
    rcases argValue schema f.2.1 t >>= state.update with e | state'
    · simp
    · simp only [Result.ok_bind, Result.bind_eq_ok, ← ih hrest, Prod.ext_iff, Result.pure_eq_ok,
        Except.ok.injEq]
      constructor
      · rintro ⟨hr, hs⟩
        exact ⟨_, ⟨hr, rfl⟩, hs⟩
      · rintro ⟨_, ⟨hr, rfl⟩, hs⟩
        exact ⟨hr, hs⟩

variable (groupBy aggFuncs schema) in
/-- The groups after some rows: one for each key among them, with its members accumulated. -/
structure Collected (l : List Tuple) (g : Groups) : Prop where
  vals : ∀ t ∈ l, ∃ vals, groupVals groupBy schema t = .ok vals
  absent : ∀ key, members groupBy schema key l = [] →
    g.groups.lookup key = none ∧ g.groupKeys.lookup key = none
  /-- The values of a group are those of its last member. -/
  present : ∀ key rows t, members groupBy schema key l = rows ++ [t] →
    (∃ states, g.groups.lookup key = some states ∧
      accumulateAll schema aggFuncs (rows ++ [t]) = .ok states) ∧
    ∃ vals, g.groupKeys.lookup key = some vals ∧ groupVals groupBy schema t = .ok vals
  hasTuples : g.childHasTuples = !l.isEmpty

theorem Collected.empty : Collected groupBy aggFuncs schema [] .empty where
  vals t ht := by cases ht
  absent key _ := ⟨rfl, rfl⟩
  present key rows t h := by simp [members] at h
  hasTuples := rfl

theorem members_concat (key : String) (l : List Tuple) (t : Tuple) :
    members groupBy schema key (l ++ [t]) =
      members groupBy schema key l ++ if hasKey groupBy schema key t then [t] else [] := by
  rw [members, List.filter_append, members]
  congr 1
  cases h : hasKey groupBy schema key t <;> simp [h]

theorem hasKey_iff {key : String} {t : Tuple} {vals : List Value}
    (h : groupVals groupBy schema t = .ok vals) :
    hasKey groupBy schema key t ↔ makeGroupKey vals = key := by
  simp [hasKey, h]

theorem Collected.statesOf_eq {l : List Tuple} {g : Groups}
    (h : Collected groupBy aggFuncs schema l g) (key : String) :
    g.statesOf aggFuncs key = accumulateAll schema aggFuncs (members groupBy schema key l) := by
  rcases List.eq_nil_or_concat (members groupBy schema key l) with hm | ⟨rows, t, hm⟩
  · rw [hm, ← newStates_eq, Groups.statesOf, (h.absent key hm).1]
  · rw [List.concat_eq_append] at hm
    obtain ⟨⟨states, hl, hacc⟩, -⟩ := h.present key rows t hm
    rw [hm, hacc, Groups.statesOf, hl]
    rfl

theorem Collected.addTuple_eq_ok {l : List Tuple} {g g' : Groups}
    (h : Collected groupBy aggFuncs schema l g) {t : Tuple} :
    g.addTuple groupBy aggFuncs schema t = (.ok (), g') ↔
      ∃ vals states, groupVals groupBy schema t = .ok vals ∧
        accumulateAll schema aggFuncs (members groupBy schema (makeGroupKey vals) (l ++ [t])) =
          .ok states ∧
        g' = ⟨g.groups.insert (makeGroupKey vals) states,
          g.groupKeys.insert (makeGroupKey vals) vals, true⟩ := by
  have hvals : (groupBy.mapM fun expr => expr.eval t schema) = groupVals groupBy schema t := rfl
  rw [Groups.addTuple, hvals]
  rcases hv : groupVals groupBy schema t with f | vals
  · simp
  have hmem : members groupBy schema (makeGroupKey vals) (l ++ [t]) =
      members groupBy schema (makeGroupKey vals) l ++ [t] := by
    rw [members_concat, if_pos ((hasKey_iff hv).mpr rfl)]
  simp only [h.statesOf_eq, Except.ok.injEq, exists_and_left, exists_eq_left', hmem]
  rcases hacc : accumulateAll schema aggFuncs (members groupBy schema (makeGroupKey vals) l)
    with f | states
  · have hfail : ∀ states, accumulateAll schema aggFuncs
        (members groupBy schema (makeGroupKey vals) l ++ [t]) ≠ .ok states := by
      intro states hs
      obtain ⟨states', hs'⟩ := accumulateAll_of_concat hs
      rw [hacc] at hs'
      cases hs'
    simp [hfail]
  · have hupd (states' : List AggState) :
        updateStates schema t aggFuncs states = (.ok (), states') ↔ accumulateAll schema aggFuncs
          (members groupBy schema (makeGroupKey vals) l ++ [t]) = .ok states' :=
      updateStates_eq_ok hacc
    rcases hu : updateStates schema t aggFuncs states with ⟨f | _, states'⟩
    · have hfail : ∀ states, accumulateAll schema aggFuncs
          (members groupBy schema (makeGroupKey vals) l ++ [t]) ≠ .ok states := by
        intro states' hs
        rw [← hupd, hu] at hs
        cases hs
      simp [hu, hfail]
    · have hok := (hupd states').mp hu
      simp [hu, hok, eq_comm]

theorem Collected.addTuple {l : List Tuple} {g g' : Groups}
    (h : Collected groupBy aggFuncs schema l g) {t : Tuple}
    (hadd : g.addTuple groupBy aggFuncs schema t = (.ok (), g')) :
    Collected groupBy aggFuncs schema (l ++ [t]) g' := by
  obtain ⟨vals, states, hv, hacc, rfl⟩ := h.addTuple_eq_ok.mp hadd
  constructor
  · intro t' ht'
    rcases List.mem_append.mp ht' with hl | ht
    · exact h.vals t' hl
    · exact ⟨vals, List.mem_singleton.mp ht ▸ hv⟩
  · intro key hm
    rw [members_concat] at hm
    obtain ⟨hl, ht⟩ := List.append_eq_nil_iff.mp hm
    have hkey : key ≠ makeGroupKey vals := by
      rintro rfl
      rw [if_pos ((hasKey_iff hv).mpr rfl)] at ht
      cases ht
    simp only [FinMap.lookup_insert_eq, if_neg hkey]
    exact h.absent key hl
  · intro key rows t' hm
    simp only [FinMap.lookup_insert_eq]
    by_cases hkey : key = makeGroupKey vals
    · subst hkey
      rw [members_concat, if_pos ((hasKey_iff hv).mpr rfl)] at hm
      obtain ⟨rfl, ht⟩ := List.append_inj' hm rfl
      cases ht
      rw [members_concat, if_pos ((hasKey_iff hv).mpr rfl)] at hacc
      simp only [if_true]
      exact ⟨⟨states, rfl, hacc⟩, vals, rfl, hv⟩
    · have hnot : ¬ hasKey groupBy schema key t := fun hk => hkey ((hasKey_iff hv).mp hk).symm
      rw [members_concat, if_neg hnot, List.append_nil] at hm
      simp only [if_neg hkey]
      exact h.present key rows t' hm
  · simp

/-- A loop over rows collects them in groups. -/
theorem collected_of_fold {l : List Tuple} {g : Groups}
    (h : foldUntil (Groups.addTuple groupBy aggFuncs schema) l .empty = (.ok (), g)) :
    Collected groupBy aggFuncs schema l g := by
  induction l using List.reverseRecOn generalizing g with
  | nil =>
    cases h
    exact .empty
  | append_singleton l t ih =>
    rw [foldUntil_concat] at h
    rcases hf : foldUntil (Groups.addTuple groupBy aggFuncs schema) l .empty with ⟨f | _, g'⟩
    · rw [hf] at h
      cases h
    · rw [hf] at h
      exact (ih hf).addTuple h

theorem fold_addTuple_isOk {l : List Tuple}
    (hvals : ∀ t ∈ l, ∃ vals, groupVals groupBy schema t = .ok vals)
    (hacc : ∀ key, ∃ states,
      accumulateAll schema aggFuncs (members groupBy schema key l) = .ok states) :
    ∃ g, foldUntil (Groups.addTuple groupBy aggFuncs schema) l .empty = (.ok (), g) := by
  induction l using List.reverseRecOn with
  | nil => exact ⟨_, rfl⟩
  | append_singleton l t ih =>
    obtain ⟨g, hg⟩ := ih (fun t ht => hvals t (List.mem_append_left _ ht)) fun key => by
      obtain ⟨states, hs⟩ := hacc key
      rw [members_concat] at hs
      split at hs
      · exact accumulateAll_of_concat hs
      · rw [List.append_nil] at hs
        exact ⟨states, hs⟩
    obtain ⟨vals, hv⟩ := hvals t (by simp)
    obtain ⟨states, hs⟩ := hacc (makeGroupKey vals)
    rw [foldUntil_concat, hg]
    exact ⟨_, (collected_of_fold hg).addTuple_eq_ok.mpr ⟨vals, states, hv, hs, rfl⟩⟩

theorem fold_addTuple_keys {aggFuncs' : List (String × Expr × String)} {l : List Tuple}
    {g g' : Groups}
    (h : foldUntil (Groups.addTuple groupBy aggFuncs schema) l .empty = (.ok (), g))
    (h' : foldUntil (Groups.addTuple groupBy aggFuncs' schema) l .empty = (.ok (), g')) :
    g.groups.keys = g'.groups.keys ∧ g.groupKeys = g'.groupKeys := by
  induction l using List.reverseRecOn generalizing g g' with
  | nil =>
    cases h
    cases h'
    exact ⟨rfl, rfl⟩
  | append_singleton l t ih =>
    rw [foldUntil_concat] at h h'
    rcases hf : foldUntil (Groups.addTuple groupBy aggFuncs schema) l .empty with ⟨f | _, g₀⟩
    · rw [hf] at h
      cases h
    rcases hf' : foldUntil (Groups.addTuple groupBy aggFuncs' schema) l .empty with ⟨f | _, g₀'⟩
    · rw [hf'] at h'
      cases h'
    rw [hf] at h
    rw [hf'] at h'
    obtain ⟨hkeys, hvals⟩ := ih hf hf'
    obtain ⟨vals, states, hv, -, rfl⟩ := (collected_of_fold hf).addTuple_eq_ok.mp h
    obtain ⟨vals', states', hv', -, rfl⟩ := (collected_of_fold hf').addTuple_eq_ok.mp h'
    obtain rfl := Except.ok.inj (hv.symm.trans hv')
    simp only [AList.keys_insert, hkeys, hvals, and_self]

theorem groups_nil : Stream.groups groupBy aggFuncs schema ⟨[], none⟩ =
    if groupBy = [] then do
      let states ← accumulateAll schema aggFuncs []
      pure ⟨AList.insert "" states ∅, AList.insert "" [] ∅, false⟩
    else pure .empty := by
  rw [← newStates_eq]
  by_cases h : groupBy = [] <;> simp [Stream.groups, foldUntil, Stream.all, Groups.addGlobal,
    Groups.empty, h]

theorem groups_eq_ok {rows : List Tuple} {g : Groups} (hne : rows ≠ []) :
    Stream.groups groupBy aggFuncs schema ⟨rows, none⟩ = .ok g ↔
      foldUntil (Groups.addTuple groupBy aggFuncs schema) rows .empty = (.ok (), g) := by
  unfold Stream.groups
  rcases hfold : foldUntil (Groups.addTuple groupBy aggFuncs schema) rows .empty with ⟨f | _, g₀⟩
  · simp
  · have hhas : g₀.childHasTuples = true := by
      rw [(collected_of_fold hfold).hasTuples]
      simpa using hne
    simp [Stream.all, Groups.addGlobal, hhas]

theorem Collected.mem_keys {l : List Tuple} {g : Groups}
    (h : Collected groupBy aggFuncs schema l g) {key : String} :
    key ∈ g.groups.keys ↔ members groupBy schema key l ≠ [] := by
  rw [← AList.mem_keys, ← AList.lookup_isSome]
  rcases List.eq_nil_or_concat (members groupBy schema key l) with hm | ⟨rows, t, hm⟩
  · simp [hm, (h.absent key hm).1]
  · rw [List.concat_eq_append] at hm
    obtain ⟨⟨states, hl, -⟩, -⟩ := h.present key rows t hm
    simp [hm, hl]

/-- What a hash aggregation holds: every group with its members accumulated. -/
theorem groups_spec {rows : List Tuple} {g : Groups}
    (h : Stream.groups groupBy aggFuncs schema ⟨rows, none⟩ = .ok g) :
    (∃ g₀, Stream.groups groupBy [] schema ⟨rows, none⟩ = .ok g₀ ∧
      g₀.groups.keys = g.groups.keys ∧ g₀.groupKeys = g.groupKeys) ∧
    ∀ key ∈ g.groups.keys, ∃ vals states, g.groupKeys.lookup key = some vals ∧
      g.groups.lookup key = some states ∧
      lastVals groupBy schema (members groupBy schema key rows) = .ok vals ∧
      accumulateAll schema aggFuncs (members groupBy schema key rows) = .ok states := by
  by_cases hne : rows = []
  · subst hne
    rw [groups_nil] at h
    rw [groups_nil]
    split at h
    · rename_i hgb
      obtain ⟨states, hacc, hg⟩ := Result.bind_eq_ok.mp h
      cases hg
      rw [if_pos hgb]
      refine ⟨⟨_, rfl, rfl, rfl⟩, fun key hkey => ?_⟩
      obtain rfl : key = "" := by simpa using hkey
      exact ⟨[], states, AList.lookup_insert _, AList.lookup_insert _, rfl, hacc⟩
    · rename_i hgb
      cases h
      rw [if_neg hgb]
      exact ⟨⟨_, rfl, rfl, rfl⟩, fun key hkey => by cases hkey⟩
  · have hfold := (groups_eq_ok hne).mp h
    have hc := collected_of_fold hfold
    obtain ⟨g₀, hfold₀⟩ : ∃ g₀, foldUntil (Groups.addTuple groupBy [] schema) rows .empty =
        (.ok (), g₀) := fold_addTuple_isOk hc.vals fun _ => ⟨[], rfl⟩
    obtain ⟨hkeys, hvals⟩ := fold_addTuple_keys hfold₀ hfold
    refine ⟨⟨g₀, (groups_eq_ok hne).mpr hfold₀, hkeys, hvals⟩, fun key hkey => ?_⟩
    rcases List.eq_nil_or_concat (members groupBy schema key rows) with hm | ⟨init, t, hm⟩
    · exact absurd hm (hc.mem_keys.mp hkey)
    · rw [List.concat_eq_append] at hm
      obtain ⟨⟨states, hl, hacc⟩, vals, hlv, hv⟩ := hc.present key init t hm
      rw [hm]
      exact ⟨vals, states, hlv, hl, by simpa [lastVals] using hv, hacc⟩

theorem groups_isOk {rows : List Tuple} {g₀ : Groups}
    (h : Stream.groups groupBy [] schema ⟨rows, none⟩ = .ok g₀)
    (hacc : ∀ key ∈ g₀.groups.keys, ∃ states,
      accumulateAll schema aggFuncs (members groupBy schema key rows) = .ok states) :
    ∃ g, Stream.groups groupBy aggFuncs schema ⟨rows, none⟩ = .ok g := by
  by_cases hne : rows = []
  · subst hne
    rw [groups_nil] at h
    rw [groups_nil]
    split at h
    · rename_i hgb
      obtain ⟨states₀, hacc₀, hg⟩ := Result.bind_eq_ok.mp h
      cases hg
      obtain ⟨states, hs⟩ := hacc "" (by simp)
      have hs : accumulateAll schema aggFuncs [] = .ok states := hs
      rw [if_pos hgb, hs]
      exact ⟨_, rfl⟩
    · rename_i hgb
      rw [if_neg hgb]
      exact ⟨_, rfl⟩
  · have hc := collected_of_fold ((groups_eq_ok hne).mp h)
    obtain ⟨g, hg⟩ : ∃ g, foldUntil (Groups.addTuple groupBy aggFuncs schema) rows .empty =
        (.ok (), g) := fold_addTuple_isOk hc.vals fun key => by
      by_cases hm : members groupBy schema key rows = []
      · rw [hm]
        obtain ⟨t, ht⟩ := List.exists_mem_of_ne_nil rows hne
        obtain ⟨vals, hv⟩ := hc.vals t ht
        have hmem : t ∈ members groupBy schema (makeGroupKey vals) rows :=
          List.mem_filter.mpr ⟨ht, (hasKey_iff hv).mpr rfl⟩
        obtain ⟨states, hs⟩ := hacc _ (hc.mem_keys.mpr (List.ne_nil_of_mem hmem))
        exact accumulateAll_nil hs
      · exact hacc key (hc.mem_keys.mpr hm)
    exact ⟨g, (groups_eq_ok hne).mpr hg⟩

section Rows

variable [Collections]

/-- The iteration over a hash map meets every key once. -/
def IteratesKeys : Prop := ∀ {κ : Type} (l : List κ), (Collections.iterOrder l).Perm l

/--
The rows of a grouping, in the order in which the groups are iterated: the key
values of a group, and its final aggregates over its members.
-/
def groupRows (aggregate : String × Expr × String → List Tuple → Result AggState)
    (groupBy : List Expr) (aggFuncs : List (String × Expr × String)) (schema : Schema)
    (rows : List Tuple) : Option (List Tuple) := do
  let g ← (Stream.groups groupBy [] schema ⟨rows, none⟩).toOption
  (Collections.iterOrder g.groups.keys).mapM fun key => do
    let vals ← g.groupKeys.lookup key
    let states ← (aggFuncs.mapM fun f => aggregate f (members groupBy schema key rows)).toOption
    some (Tuple.new (vals ++ states.map AggState.finalize))

/-- The row of a group: the key values of its last row and its aggregates. -/
def groupTuple (groupBy : List Expr) (aggFuncs : List (String × Expr × String)) (schema : Schema)
    (rows : List Tuple) : Result Tuple := do
  let vals ← lastVals groupBy schema rows
  let states ← accumulateAll schema aggFuncs rows
  pure (Tuple.new (vals ++ states.map AggState.finalize))

omit [BuildProfile] [Collections] in
theorem mapM_eq_some {α β : Type} {f : α → Option β} {g : α → β} {l : List α}
    (h : ∀ a ∈ l, f a = some (g a)) : l.mapM f = some (l.map g) := by
  induction l with
  | nil => rfl
  | cons a l ih =>
    obtain ⟨ha, hl⟩ := List.forall_mem_cons.mp h
    simp [ha, ih hl]

omit [BuildProfile] [Collections] in
theorem forall₂_of_mapM_eq_some {α β : Type} {f : α → Option β} {l : List α} {l' : List β}
    (h : l.mapM f = some l') : List.Forall₂ (fun a b => f a = some b) l l' := by
  induction l generalizing l' with
  | nil => cases h; exact .nil
  | cons a l ih =>
    simp only [List.mapM_cons, Option.bind_eq_bind, Option.bind_eq_some_iff] at h
    obtain ⟨b, hb, bs, hbs, h⟩ := h
    cases h
    exact .cons hb (ih hbs)

omit [BuildProfile] [Collections] in
theorem isSome_of_mapM_eq_some {α β : Type} {f : α → Option β} {l : List α} {l' : List β}
    (h : l.mapM f = some l') : ∀ a ∈ l, ∃ b, f a = some b := by
  have hall := forall₂_of_mapM_eq_some h
  clear h
  induction hall with
  | nil => simp
  | cons hab _ ih => exact List.forall_mem_cons.mpr ⟨⟨_, hab⟩, ih⟩

theorem groups_of_groupRows (hiter : IteratesKeys) {rows l : List Tuple}
    (h : groupRows (accumulate schema) groupBy aggFuncs schema rows = some l) :
    ∃ g, Stream.groups groupBy aggFuncs schema ⟨rows, none⟩ = .ok g := by
  simp only [groupRows, Option.bind_eq_bind, Option.bind_eq_some_iff,
    Result.toOption_eq_some] at h
  obtain ⟨g₀, hg₀, hmap⟩ := h
  refine groups_isOk hg₀ fun key hkey => ?_
  obtain ⟨t, ht⟩ := isSome_of_mapM_eq_some hmap key ((hiter _).mem_iff.mpr hkey)
  simp only [Option.bind_eq_some_iff, Result.toOption_eq_some] at ht
  obtain ⟨vals, -, states, hstates, -⟩ := ht
  exact ⟨states, hstates⟩

theorem forall₂_of_groupRows (hiter : IteratesKeys) {rows l : List Tuple}
    (h : groupRows (accumulate schema) groupBy aggFuncs schema rows = some l) :
    ∃ g, Stream.groups groupBy [] schema ⟨rows, none⟩ = .ok g ∧
      List.Forall₂ (fun s t => groupTuple groupBy aggFuncs schema s = .ok t)
        ((Collections.iterOrder g.groups.keys).map fun key => members groupBy schema key rows)
        l := by
  simp only [groupRows, Option.bind_eq_bind, Option.bind_eq_some_iff,
    Result.toOption_eq_some] at h
  obtain ⟨g, hg, hmap⟩ := h
  obtain ⟨-, hspec⟩ := groups_spec hg
  refine ⟨g, hg, List.forall₂_map_left_iff.mpr ?_⟩
  have hmem : ∀ key ∈ Collections.iterOrder g.groups.keys, key ∈ g.groups.keys :=
    fun key hkey => (hiter _).mem_iff.mp hkey
  refine (List.forall₂_and_left _ _ |>.mpr ⟨hmem, forall₂_of_mapM_eq_some hmap⟩).imp ?_
  rintro key t ⟨hkey, ht⟩
  simp only [Option.bind_eq_some_iff, Result.toOption_eq_some, Option.some_inj] at ht
  obtain ⟨vals, hvals, states, hstates, rfl⟩ := ht
  obtain ⟨vals', _, hvals', -, hlast, -⟩ := hspec key hkey
  obtain rfl := Option.some_inj.mp (hvals.symm.trans hvals')
  simp [groupTuple, hlast, accumulateAll, hstates]

theorem groupRows_of_groups (hiter : IteratesKeys) {rows : List Tuple} {g : Groups}
    (h : Stream.groups groupBy aggFuncs schema ⟨rows, none⟩ = .ok g) :
    ∃ l, groupRows (accumulate schema) groupBy aggFuncs schema rows = some l ∧
      Stream.mapUntil (groupRow g.groups g.groupKeys) none
        (Collections.iterOrder g.groups.keys) = ⟨l, none⟩ := by
  obtain ⟨⟨g₀, hg₀, hkeys, hvals⟩, hspec⟩ := groups_spec h
  let row (key : String) := Tuple.new ((g.groupKeys.lookup key).getD [] ++
    ((g.groups.lookup key).getD []).map AggState.finalize)
  have hmem {key : String} (hkey : key ∈ Collections.iterOrder g.groups.keys) :=
    hspec key ((hiter _).mem_iff.mp hkey)
  refine ⟨(Collections.iterOrder g.groups.keys).map row, ?_,
    Stream.mapUntil_eq (Result.mapM_eq_ok fun key hkey => ?_) none⟩
  · simp only [groupRows, hg₀, Result.toOption_ok, Option.bind_eq_bind, Option.bind_some, hkeys]
    refine mapM_eq_some fun key hkey => ?_
    obtain ⟨vals, states, hv, hs, -, hacc⟩ := hmem hkey
    have hacc : (aggFuncs.mapM fun f =>
        accumulate schema f (members groupBy schema key rows)) = .ok states := hacc
    simp [row, hvals, hv, hs, hacc]
  · obtain ⟨vals, states, hv, hs, -, -⟩ := hmem hkey
    simp [row, groupRow, hv, hs]

variable (groupBy aggFuncs schema) in
/-- The hash aggregation of a stream computes the rows of its grouping. -/
theorem toOption_aggregation (hiter : IteratesKeys) (s : Stream) :
    (do
      let g ← s.groups groupBy aggFuncs schema
      pure (Stream.mapUntil (groupRow g.groups g.groupKeys) none
        (Collections.iterOrder g.groups.keys))).toOption =
    (do
      let rows ← s.all.toOption
      let l ← groupRows (accumulate schema) groupBy aggFuncs schema rows
      some ⟨l, none⟩) := by
  rcases s with ⟨rows, _ | f⟩
  · rcases hg : Stream.groups groupBy aggFuncs schema ⟨rows, none⟩ with f | g
    · rcases hl : groupRows (accumulate schema) groupBy aggFuncs schema rows with _ | l
      · simp [Stream.all, hl]
      · obtain ⟨g, hg'⟩ := groups_of_groupRows hiter hl
        rw [hg] at hg'
        cases hg'
    · obtain ⟨l, hl, hstream⟩ := groupRows_of_groups hiter hg
      simp [Stream.all, hl, hstream]
  · have hstop : (Stream.groups groupBy aggFuncs schema ⟨rows, some f⟩).toOption = none := by
      unfold Stream.groups
      rcases foldUntil (Groups.addTuple groupBy aggFuncs schema) rows .empty with ⟨e | _, g⟩ <;>
        rfl
    simp [Result.toOption_bind, hstop, Stream.all]

end Rows

end VolcanoDb
