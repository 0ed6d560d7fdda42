import Mathlib.Data.String.Basic
import Mathlib.Order.Compare
import VolcanoDb.Executor.ExactIntegers
import VolcanoDb.Lib.Accumulation

/-! # What the accumulators hold

An accumulator skips every `NULL`, wherever it stands. After the other values it
holds their number, their sum, or one that none of them exceeds, and the order of
the values does not matter, except that a checked sum may overflow on the way.
-/

namespace VolcanoDb

open Accumulation

section Folds

variable [BuildProfile] {α κ : Type} [LinearOrder κ]

/-- An accumulator after a list of values. -/
def aggregate (funcName : String) (vals : List Value) : Result AggState := do
  let state ← AggState.new funcName
  vals.foldlM AggState.update state

def nullable (inj : α → Value) (l : List (Option α)) : List Value :=
  l.map fun o => o.elim .null inj

theorem feed_eq_aggregate (funcName : String) (l : List Int64) :
    feed funcName l = aggregate funcName (l.map .int) := by
  simp only [feed, aggregate, List.foldlM_map]

theorem aggregate_concat (funcName : String) (vals : List Value) (v : Value) :
    aggregate funcName (vals ++ [v]) = aggregate funcName vals >>= fun s => s.update v := by
  simp only [aggregate, List.foldlM_append, List.foldlM_cons, List.foldlM_nil, bind_pure,
    bind_assoc]

theorem aggregate_nullable (funcName : String) (inj : α → Value) (l : List (Option α)) :
    aggregate funcName (nullable inj l) = aggregate funcName (l.reduceOption.map inj) := by
  induction l using List.reverseRecOn with
  | nil => rfl
  | append_singleton l o ih =>
    have hconcat : nullable inj (l ++ [o]) = nullable inj l ++ [o.elim .null inj] := by
      simp [nullable]
    rw [hconcat, aggregate_concat, ih, List.reduceOption_append, List.map_append]
    rcases o with _ | a
    · have hskip : (fun s : AggState => s.update .null) = pure := rfl
      rw [Option.elim_none, hskip, bind_pure]
      simp
    · exact (aggregate_concat _ _ _).symm

/-- Values of one type are not `NULL` and compare as their keys do. -/
structure Ordered (inj : α → Value) (key : α → κ) : Prop where
  not_null : ∀ a, (inj a).eq .null = false
  cmp : ∀ a b, (inj a).partialCmp (inj b) = some (compare (key a) (key b))

omit [BuildProfile] in
theorem ordered_int : Ordered Value.int Int64.toInt := ⟨fun _ => rfl, fun _ _ => rfl⟩

omit [BuildProfile] in
theorem ordered_varchar : Ordered Value.varchar id := by
  constructor
  · exact fun _ => rfl
  · intro a b
    exact congrArg some (LinearOrder.compare_eq_compareOfLessAndEq a b).symm

variable {inj : α → Value} {key : α → κ}

omit [BuildProfile] in
theorem Ordered.lt_iff (h : Ordered inj key) (a b : α) :
    (inj a).lt (inj b) = decide (key a < key b) := by
  simp [Value.lt, h.cmp, compare_lt_iff_lt]

omit [BuildProfile] in
theorem Ordered.gt_iff (h : Ordered inj key) (a b : α) :
    (inj a).gt (inj b) = decide (key b < key a) := by
  simp [Value.gt, h.cmp, compare_gt_iff_gt]

omit [BuildProfile] in
theorem Ordered.ne_null (h : Ordered inj key) (a : α) : inj a ≠ .null := by
  intro hnull
  have heq := h.not_null a
  rw [hnull] at heq
  cases heq

theorem update_min {v w : Value} (hv : v ≠ .null) (hw : w.eq .null = false) :
    (AggState.min v).update w = .ok (.min (if w.lt v then w else v)) := by
  unfold AggState.update
  rw [hw]
  cases v with
  | null => exact absurd rfl hv
  | _ => rfl

theorem update_max {v w : Value} (hv : v ≠ .null) (hw : w.eq .null = false) :
    (AggState.max v).update w = .ok (.max (if w.gt v then w else v)) := by
  unfold AggState.update
  rw [hw]
  cases v with
  | null => exact absurd rfl hv
  | _ => rfl

/-- An accumulator that starts empty and keeps the lesser of two values by a key. -/
theorem aggregate_least {funcName : String} {state : Value → AggState}
    (hnew : AggState.new funcName = .ok (state .null))
    (hfirst : ∀ a, (state .null).update (inj a) = .ok (state (inj a)))
    (hnext : ∀ m a, (state (inj m)).update (inj a) =
      .ok (state (if key a < key m then inj a else inj m))) (l : List α) :
    aggregate funcName (l.map inj) = .ok (state ((least? key l).elim .null inj)) := by
  induction l using List.reverseRecOn with
  | nil => rw [aggregate, hnew]; rfl
  | append_singleton l a ih =>
    rw [List.map_append, List.map_singleton, aggregate_concat, ih, least?_concat]
    rcases least? key l with _ | m
    · exact hfirst a
    · rw [Option.elim_some, Result.ok_bind, hnext]
      by_cases hlt : key a < key m <;> simp [keepLeast, hlt]

theorem aggregate_min (h : Ordered inj key) (l : List α) :
    aggregate "min" (l.map inj) = .ok (.min ((least? key l).elim .null inj)) := by
  apply aggregate_least rfl
  · intro a
    simp [AggState.update, h.not_null a]
  · intro m a
    rw [update_min (h.ne_null m) (h.not_null a), h.lt_iff]
    simp

theorem aggregate_max (h : Ordered inj key) (l : List α) :
    aggregate "max" (l.map inj) =
      .ok (.max ((least? (OrderDual.toDual ∘ key) l).elim .null inj)) := by
  apply aggregate_least rfl
  · intro a
    simp [AggState.update, h.not_null a]
  · intro m a
    rw [update_max (h.ne_null m) (h.not_null a), h.gt_iff]
    simp

omit [BuildProfile] in
theorem inI64_of_le {a b : ℤ} (ha : 0 ≤ a) (hab : a ≤ b) (hb : InI64 b) : InI64 a := by
  have hmin : Int64.minValue.toInt ≤ 0 := by decide
  exact ⟨hmin.trans ha, hab.trans hb.2⟩

theorem aggregate_count (h : Ordered inj key) {l : List α} (hl : InI64 l.length) :
    aggregate "count" (l.map inj) = .ok (.count (Int64.ofInt l.length)) := by
  induction l using List.reverseRecOn with
  | nil => rfl
  | append_singleton l a ih =>
    have hlen : ((l ++ [a]).length : ℤ) = l.length + 1 := by simp
    have hin : InI64 l.length := inI64_of_le (Int.natCast_nonneg _) (by omega) hl
    have hadd := i64Add_exactWithin (Int64.ofInt l.length) 1
    have hone : (1 : Int64).toInt = 1 := rfl
    rw [toInt_ofInt hin, hone, ← hlen] at hadd
    have hupdate : (AggState.count (Int64.ofInt l.length)).update (inj a) =
        AggState.count <$> i64Add (Int64.ofInt l.length) 1 := by
      simp [AggState.update, h.not_null a]
    rw [List.map_append, List.map_singleton, aggregate_concat, ih hin, Result.ok_bind, hupdate,
      hadd.exact hl]
    rfl

end Folds

section Sums

variable [BuildProfile]

theorem i64Add_of_checked (hcheck : BuildProfile.overflowChecks) {a b c : Int64}
    (h : i64Add a b = .ok c) : InI64 (a.toInt + b.toInt) := by
  unfold i64Add checkedInt at h
  split at h
  · cases h
  · rename_i hexact
    simp only [hcheck, true_and, not_not] at hexact
    exact hexact ▸ inI64_toInt _

theorem addTo_of_checked (hcheck : BuildProfile.overflowChecks) {l : List Int64}
    (hl : InI64 (exactSum l)) {n : Int64} {v : Value}
    (h : AggState.addTo (sumValue l) (.int n) = .ok v) : InI64 (exactSum (l ++ [n])) := by
  by_cases hnil : l = []
  · subst hnil
    have hsum : exactSum ([] ++ [n]) = n.toInt := by simp [exactSum]
    exact hsum ▸ inI64_toInt n
  · rw [exactSum_concat]
    rw [sumValue, if_neg hnil] at h
    obtain ⟨c, hc, -⟩ := Result.map_eq_ok.mp h
    have hin := i64Add_of_checked hcheck hc
    rwa [toInt_ofInt hl] at hin

theorem runsInRange_of_feed (hcheck : BuildProfile.overflowChecks) {funcName : String}
    (hfunc : funcName ∈ ["sum", "avg"]) {l : List Int64} {s : AggState}
    (h : feed funcName l = .ok s) : RunsInRange funcName l := by
  induction l using List.reverseRecOn generalizing s with
  | nil => exact RunsInRange.nil
  | append_singleton l n ih =>
    rw [feed_concat] at h
    obtain ⟨s', hs', hupdate⟩ := Result.bind_eq_ok.mp h
    have hl := ih hs'
    rw [feed_of_runsInRange hfunc hl] at hs'
    cases hs'
    obtain ⟨hsum, hcount⟩ := hl l List.prefix_rfl
    refine RunsInRange.concat_iff.mpr ⟨hl, ?_⟩
    rcases List.mem_pair.mp hfunc with rfl | rfl
    · obtain ⟨v, hv, -⟩ := Result.map_eq_ok.mp hupdate
      exact ⟨addTo_of_checked hcheck hsum hv, by simp⟩
    · obtain ⟨c, hc, hupdate⟩ := Result.bind_eq_ok.mp hupdate
      obtain ⟨v, hv, -⟩ := Result.bind_eq_ok.mp hupdate
      have hin := i64Add_of_checked hcheck hc
      rw [toInt_ofInt (hcount rfl)] at hin
      refine ⟨addTo_of_checked hcheck hsum hv, fun _ => ?_⟩
      rw [List.length_append]
      exact_mod_cast hin

theorem i64Add_of_unchecked (hcheck : BuildProfile.overflowChecks = false) (a b : Int64) :
    i64Add a b = .ok (a + b) := by
  unfold i64Add checkedInt
  rw [hcheck]
  rfl

theorem addTo_of_unchecked (hcheck : BuildProfile.overflowChecks = false) (l : List Int64)
    (n : Int64) : AggState.addTo (sumValue l) (.int n) = .ok (sumValue (l ++ [n])) := by
  have hne : l ++ [n] ≠ [] := by simp
  rw [sumValue, sumValue, if_neg hne, exactSum_concat]
  by_cases hnil : l = []
  · subst hnil
    simp [AggState.addTo, exactSum]
  · rw [if_neg hnil, Int64.ofInt_add, Int64.ofInt_toInt, AggState.addTo,
      i64Add_of_unchecked hcheck]
    rfl

theorem feed_of_unchecked (hcheck : BuildProfile.overflowChecks = false) {funcName : String}
    (hfunc : funcName ∈ ["sum", "avg"]) (l : List Int64) :
    feed funcName l = .ok (fedState funcName l) := by
  induction l using List.reverseRecOn with
  | nil => rcases List.mem_pair.mp hfunc with rfl | rfl <;> rfl
  | append_singleton l n ih =>
    rw [feed_concat, ih]
    rcases List.mem_pair.mp hfunc with rfl | rfl
    · rw [Result.ok_bind, fedState_sum_update, addTo_of_unchecked hcheck]
      rfl
    · have hlen : Int64.ofInt (l ++ [n]).length = Int64.ofInt l.length + 1 := by
        rw [List.length_append, Int.natCast_add, Int64.ofInt_add]
        rfl
      rw [Result.ok_bind, fedState_avg_update, addTo_of_unchecked hcheck,
        i64Add_of_unchecked hcheck, ← hlen]
      rfl

/-- Without checks, or in range, the sum and the count are kept modulo `2 ^ 64`. -/
theorem feed_eq_fedState {funcName : String} (hfunc : funcName ∈ ["sum", "avg"]) {l : List Int64}
    (h : BuildProfile.overflowChecks → RunsInRange funcName l) :
    feed funcName l = .ok (fedState funcName l) := by
  rcases Bool.eq_false_or_eq_true BuildProfile.overflowChecks with hcheck | hcheck
  · exact feed_of_runsInRange hfunc (h hcheck)
  · exact feed_of_unchecked hcheck hfunc l

end Sums

section Definitions

variable {α κ : Type}

def aggregateNames : List String := ["count", "sum", "avg", "min", "max"]

/-- `NULL` for no values, and otherwise one of the values, to which all are related. -/
def HoldsFirst (inj : α → Value) (le : α → α → Prop) (l : List α) (v : Value) : Prop :=
  (l = [] ∧ v = .null) ∨ ∃ a ∈ l, v = inj a ∧ ∀ b ∈ l, le a b

def MeansOfInts (l : List Int64) : String → AggState → Prop
  | "count", .count n => n.toInt = l.length
  | "sum", .sum v => HoldsSum l v
  | "avg", .avg v n =>
    HoldsSum l v ∧ n.toInt = l.length ∧ ((AggState.avg v n).finalize = .null ↔ l.length = 0)
  | "min", .min v => HoldsFirst .int (fun a b => a.toInt ≤ b.toInt) l v
  | "max", .max v => HoldsFirst .int (fun a b => b.toInt ≤ a.toInt) l v
  | _, _ => False

def MeansOfTexts (l : List String) : String → AggState → Prop
  | "min", .min v => HoldsFirst .varchar (fun a b => a ≤ b) l v
  | "max", .max v => HoldsFirst .varchar (fun a b => b ≤ a) l v
  | _, _ => False

/-- An accumulator has its meaning after a column, and is the same after it in any order. -/
def MatchesDefinition [BuildProfile] (inj : α → Value)
    (means : List α → String → AggState → Prop) (funcName : String) (l : List (Option α)) : Prop :=
  ∃ s, aggregate funcName (nullable inj l) = .ok s ∧ means l.reduceOption funcName s ∧
    ∀ l', l.Perm l' → aggregate funcName (nullable inj l') = .ok s

def PartialSumsFit (l : List Int64) : Prop := ∀ p, p <+: l → InI64 (exactSum p)

/--
The number of values is in range where it is counted, and so are the sums of the
negative and of the positive values where they are added with checks.
-/
def Fits [BuildProfile] (funcName : String) (l : List Int64) : Prop :=
  (funcName ∈ ["count", "avg"] → InI64 l.length) ∧
  (funcName ∈ ["sum", "avg"] → BuildProfile.overflowChecks →
    Int64.minValue.toInt ≤ negativeSum Int64.toInt l ∧
    positiveSum Int64.toInt l ≤ Int64.maxValue.toInt)

theorem HoldsFirst.of_least [LinearOrder κ] (inj : α → Value) (key : α → κ) (l : List α) :
    HoldsFirst inj (fun a b => key a ≤ key b) l ((least? key l).elim .null inj) := by
  rcases hl : least? key l with _ | m
  · exact .inl ⟨least?_eq_none.mp hl, rfl⟩
  · obtain ⟨hm, hle⟩ := least?_spec hl
    exact .inr ⟨m, hm, rfl, hle⟩

variable [BuildProfile]

/-- Only the values that are not `NULL`, and their orders, matter. -/
theorem matchesDefinition_iff {inj : α → Value} {means : List α → String → AggState → Prop}
    {funcName : String} {l : List (Option α)} :
    MatchesDefinition inj means funcName l ↔
      ∃ s, means l.reduceOption funcName s ∧
        ∀ as, l.reduceOption.Perm as → aggregate funcName (as.map inj) = .ok s := by
  constructor
  · rintro ⟨s, -, hmeans, hperm⟩
    refine ⟨s, hmeans, fun as has => ?_⟩
    obtain ⟨l', hl', rfl⟩ := exists_perm_reduceOption has
    rw [← aggregate_nullable]
    exact hperm l' hl'
  · rintro ⟨s, hmeans, hperm⟩
    refine ⟨s, ?_, hmeans, fun l' hl' => ?_⟩
    · rw [aggregate_nullable]
      exact hperm _ (.refl _)
    · rw [aggregate_nullable]
      exact hperm _ (hl'.filterMap id)

end Definitions

section Integers

def held (l : List Int64) : String → AggState
  | "count" => .count (Int64.ofInt l.length)
  | "min" => .min ((least? Int64.toInt l).elim .null .int)
  | "max" => .max ((least? (OrderDual.toDual ∘ Int64.toInt) l).elim .null .int)
  | funcName => fedState funcName l

variable {funcName : String} {l l' : List Int64}

theorem toInt_injective : Function.Injective Int64.toInt := fun _ _ => Int64.toInt_inj.mp

theorem fedState_perm (h : l.Perm l') : fedState funcName l = fedState funcName l' := by
  have hsum : exactSum l = exactSum l' := (h.map Int64.toInt).sum_eq
  have hnil : l = [] ↔ l' = [] := by
    rw [← List.length_eq_zero_iff, ← List.length_eq_zero_iff, h.length_eq]
  simp only [fedState, sumValue, hsum, hnil, h.length_eq]

theorem held_perm (h : l.Perm l') : held l funcName = held l' funcName := by
  unfold held
  split
  · rw [h.length_eq]
  · rw [least?_perm toInt_injective h]
  · rw [least?_perm (OrderDual.toDual.injective.comp toInt_injective) h]
  · exact fedState_perm h

theorem finalize_avg_eq_null {v : Value} {n : Int64} (hsum : HoldsSum l v)
    (hcount : n.toInt = l.length) : (AggState.avg v n).finalize = .null ↔ l.length = 0 := by
  have hzero : n = 0 ↔ l.length = 0 := by
    rw [← Int64.toInt_inj, hcount]
    exact Int.natCast_eq_zero
  unfold HoldsSum at hsum
  constructor
  · intro hnull
    by_contra hlen
    rw [if_neg (List.length_eq_zero_iff.not.mp hlen)] at hsum
    obtain ⟨m, rfl, -⟩ := hsum
    rw [AggState.finalize, if_neg (hzero.not.mpr hlen)] at hnull
    cases hnull
  · intro hlen
    exact if_pos (hzero.mpr hlen)

theorem means_held (hfunc : funcName ∈ aggregateNames) (hfit : PartialSumsFit l)
    (hlen : funcName ∈ ["count", "avg"] → InI64 l.length) :
    MeansOfInts l funcName (held l funcName) := by
  have hsum : HoldsSum l (sumValue l) :=
    holdsExactly_fedState (List.mem_pair.mpr (.inl rfl)) fun p hp => ⟨hfit p hp, by simp⟩
  simp only [aggregateNames, List.mem_cons, List.not_mem_nil, or_false] at hfunc
  rcases hfunc with rfl | rfl | rfl | rfl | rfl
  · exact toInt_ofInt (hlen (by decide))
  · exact hsum
  · have hcount := toInt_ofInt (hlen (by decide))
    exact ⟨hsum, hcount, finalize_avg_eq_null hsum hcount⟩
  · exact .of_least _ _ l
  · exact .of_least _ (OrderDual.toDual ∘ Int64.toInt) l

variable [BuildProfile]

/-- Nothing overflows on the way through a list. -/
def Computes (funcName : String) (l : List Int64) : Prop :=
  (funcName ∈ ["count", "avg"] → InI64 l.length) ∧
  (funcName ∈ ["sum", "avg"] → BuildProfile.overflowChecks → PartialSumsFit l)

theorem aggregate_of_computes (hfunc : funcName ∈ aggregateNames) (h : Computes funcName l) :
    aggregate funcName (l.map .int) = .ok (held l funcName) := by
  obtain ⟨hlen, hsums⟩ := h
  simp only [aggregateNames, List.mem_cons, List.not_mem_nil, or_false] at hfunc
  rcases hfunc with rfl | rfl | rfl | rfl | rfl
  · exact aggregate_count ordered_int (hlen (by decide))
  · rw [← feed_eq_aggregate]
    apply feed_eq_fedState (by decide)
    exact fun hcheck p hp => ⟨hsums (by decide) hcheck p hp, by simp⟩
  · rw [← feed_eq_aggregate]
    apply feed_eq_fedState (by decide)
    intro hcheck p hp
    refine ⟨hsums (by decide) hcheck p hp, fun _ => ?_⟩
    exact inI64_of_le (Int.natCast_nonneg _) (by exact_mod_cast hp.length_le) (hlen (by decide))
  · exact aggregate_min ordered_int l
  · exact aggregate_max ordered_int l

theorem computes_of_ok (hlen : funcName ∈ ["count", "avg"] → InI64 l.length) {s : AggState}
    (h : aggregate funcName (l.map .int) = .ok s) : Computes funcName l := by
  refine ⟨hlen, fun hfunc hcheck p hp => ?_⟩
  rw [← feed_eq_aggregate] at h
  exact (runsInRange_of_feed hcheck hfunc h p hp).1

omit [BuildProfile] in
theorem inI64_length_of_means {s : AggState} (h : MeansOfInts l funcName s)
    (hfunc : funcName ∈ ["count", "avg"]) : InI64 l.length := by
  unfold MeansOfInts at h
  split at h
  · exact h ▸ inI64_toInt _
  · exact absurd hfunc (by decide)
  · exact h.2.1 ▸ inI64_toInt _
  · exact absurd hfunc (by decide)
  · exact absurd hfunc (by decide)
  · exact h.elim

theorem fits_iff_computes :
    Fits funcName l ↔ ∀ l', l.Perm l' → Computes funcName l' := by
  have hprefix := prefix_sums_iff (w := Int64.toInt) (l := l) Int64.minValue.toInt
    Int64.maxValue.toInt
  constructor
  · rintro ⟨hlen, hsums⟩ l' hl
    constructor
    · intro hfunc
      exact hl.length_eq ▸ hlen hfunc
    · intro hfunc hcheck
      exact hprefix.mpr (hsums hfunc hcheck) l' hl
  · intro h
    constructor
    · exact (h l (.refl l)).1
    · intro hfunc hcheck
      exact hprefix.mp fun l' hl => (h l' hl).2 hfunc hcheck

theorem matchesDefinition_int_iff (hfunc : funcName ∈ aggregateNames) {l : List (Option Int64)}
    (hfit : PartialSumsFit l.reduceOption) :
    MatchesDefinition .int MeansOfInts funcName l ↔ Fits funcName l.reduceOption := by
  rw [matchesDefinition_iff, fits_iff_computes]
  constructor
  · rintro ⟨s, hmeans, hok⟩ as has
    apply computes_of_ok (fun hcount => ?_) (hok as has)
    exact has.length_eq ▸ inI64_length_of_means hmeans hcount
  · intro h
    refine ⟨held l.reduceOption funcName, ?_, fun as has => ?_⟩
    · exact means_held hfunc hfit (h _ (.refl _)).1
    · rw [aggregate_of_computes hfunc (h as has), held_perm has]

end Integers

section Main

variable [BuildProfile]

theorem matchesDefinition_varchar {funcName : String} (hfunc : funcName ∈ ["min", "max"])
    (l : List (Option String)) : MatchesDefinition .varchar MeansOfTexts funcName l := by
  rw [matchesDefinition_iff]
  rcases List.mem_pair.mp hfunc with rfl | rfl
  · refine ⟨.min ((least? id l.reduceOption).elim .null .varchar), ?_, fun as has => ?_⟩
    · exact HoldsFirst.of_least _ id l.reduceOption
    · rw [aggregate_min ordered_varchar, least?_perm Function.injective_id has]
  · refine ⟨.max ((least? (OrderDual.toDual ∘ id) l.reduceOption).elim .null .varchar), ?_,
      fun as has => ?_⟩
    · exact HoldsFirst.of_least _ (OrderDual.toDual ∘ id) l.reduceOption
    · have hinj : Function.Injective (OrderDual.toDual ∘ @id String) := OrderDual.toDual.injective
      rw [aggregate_max ordered_varchar, least?_perm hinj has]

/--
On a column of integers whose partial sums are in range, an aggregate function matches
its definition in every order if and only if the sums of either sign and the number of the
values are in range; on texts, the minimum and the maximum always do.
-/
theorem accumulators_match_iff :
    (∀ l : List (Option Int64), PartialSumsFit l.reduceOption → ∀ funcName ∈ aggregateNames,
      (MatchesDefinition .int MeansOfInts funcName l ↔ Fits funcName l.reduceOption) ∧
      ∀ l', l.Perm l' → PartialSumsFit l'.reduceOption → InI64 l.reduceOption.length →
        aggregate funcName (nullable .int l') = aggregate funcName (nullable .int l)) ∧
    ∀ l : List (Option String), ∀ funcName ∈ ["min", "max"],
      MatchesDefinition .varchar MeansOfTexts funcName l := by
  constructor
  · intro l hfit funcName hfunc
    refine ⟨matchesDefinition_int_iff hfunc hfit, fun l' hl hfit' hlen => ?_⟩
    have hperm : l.reduceOption.Perm l'.reduceOption := hl.filterMap id
    have hlen' : InI64 l'.reduceOption.length := hperm.length_eq ▸ hlen
    rw [aggregate_nullable, aggregate_nullable,
      aggregate_of_computes hfunc ⟨fun _ => hlen', fun _ _ => hfit'⟩,
      aggregate_of_computes hfunc ⟨fun _ => hlen, fun _ _ => hfit⟩, held_perm hperm]
  · exact fun l funcName hfunc => matchesDefinition_varchar hfunc l

end Main

section Sample

theorem partialSumsFit_of_inits {l : List Int64} (h : ∀ p ∈ l.inits, InI64 (exactSum p)) :
    PartialSumsFit l :=
  fun p hp => h p ((List.mem_inits p l).mpr hp)

theorem accumulators_match_sample :
    let _ : BuildProfile := ⟨true⟩
    let l : List (Option Int64) := [none, some 5, none, some (-7), none]
    MatchesDefinition .int MeansOfInts "avg" l ∧
      MatchesDefinition .varchar MeansOfTexts "min" [none, some "b", some "a"] := by
  intro _ l
  have hfit : PartialSumsFit l.reduceOption := partialSumsFit_of_inits (by decide +kernel)
  refine ⟨((accumulators_match_iff.1 _ hfit "avg" (by decide)).1).mpr ?_,
    accumulators_match_iff.2 _ "min" (by decide)⟩
  exact ⟨fun _ => by decide +kernel, fun _ _ => by decide +kernel⟩

/-- Three values with a sum in range are added in one order and panic in another. -/
theorem sum_panics_in_other_order :
    let _ : BuildProfile := ⟨true⟩
    let l : List (Option Int64) := [some Int64.maxValue, some (-1), some 1]
    let l' : List (Option Int64) := [some Int64.maxValue, some 1, some (-1)]
    PartialSumsFit l.reduceOption ∧ l.Perm l' ∧
      aggregate "sum" (nullable .int l) = .ok (.sum (.int Int64.maxValue)) ∧
      aggregate "sum" (nullable .int l') = panicking "attempt to add with overflow" ∧
      ¬ MatchesDefinition .int MeansOfInts "sum" l := by
  intro _ l l'
  have hperm : l.Perm l' := (List.Perm.swap _ _ _).cons _
  have hpanic : aggregate "sum" (nullable .int l') = panicking "attempt to add with overflow" := by
    decide +kernel
  refine ⟨partialSumsFit_of_inits (by decide +kernel), hperm, by decide +kernel, hpanic, ?_⟩
  rintro ⟨s, -, -, hall⟩
  have hok := hall l' hperm
  rw [hpanic] at hok
  cases hok

end Sample

end VolcanoDb
