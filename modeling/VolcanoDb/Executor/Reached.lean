import VolcanoDb.Executor.NullLogic
import VolcanoDb.Planner.Failures

/-! # What evaluation reaches

The column references that an evaluation looks up on some row. The right operand of
an operator is not reached if the left one fails on every row, which is known without
the rows: columns may hold anything, a double among others, on which arithmetic does
not fail.
-/

namespace VolcanoDb

open Result (FailsWith)

def arithmeticOps : List String := ["+", "-", "*", "/"]

/-- A failure because a column reference does not resolve. -/
def MissesColumn {α : Type} (x : Result α) : Prop := ∃ f, x = .error f ∧ f.unknownColumn ≠ none

/-- A result that does not fail because of a column. -/
abbrev FindsColumns {α : Type} (x : Result α) : Prop := FailsWith (·.unknownColumn = none) x

theorem FindsColumns.not_misses {α : Type} {x : Result α} (h : FindsColumns x) :
    ¬ MissesColumn x := by
  rintro ⟨f, hf, hne⟩
  exact hne (h f hf)

theorem MissesColumn.bind {α β : Type} {x : Result α} (h : MissesColumn x) (k : α → Result β) :
    MissesColumn (x >>= k) := by
  obtain ⟨f, rfl, hne⟩ := h
  exact ⟨f, rfl, hne⟩

/-- What is known of the values of an expression on the rows on which it has one. -/
inductive Forecast where
  | value (val : Value)
  | truth
  | any
  deriving DecidableEq

namespace Forecast

def Admits : Forecast → Value → Prop
  | value val, v => v = val
  | truth, v => ∃ b, v = .bool b
  | any, _ => True

def HasOnDoubles : Forecast → Value → Prop
  | value val, v => v = val
  | truth, v => ∃ b, v = .bool b
  | any, v => ∃ x, v = .float x

def mayBeNumber : Forecast → Bool
  | value (.int _) | value (.float _) | any => true
  | value _ | truth => false

section Operators

variable [BuildProfile] {op : String} {a b : Forecast} {v w : Value}

/-- The forecast of an operator on two operands, unless it fails on all of their values. -/
def combine (op : String) (a b : Forecast) : Option Forecast :=
  match a, b with
  | value v, value w => value <$> (evalBinaryOp op v w).toOption
  | _, _ =>
    if op ∈ arithmeticOps then if a.mayBeNumber ∧ b.mayBeNumber then some any else none
    else if op ∈ comparisonOps ∨ op = "and" ∨ op = "or" then some truth else none

omit [BuildProfile] in
theorem Admits.mayBeNumber (h : a.Admits v) (hv : (∃ i, v = .int i) ∨ ∃ x, v = .float x) :
    a.mayBeNumber := by
  cases a with
  | value val =>
    obtain rfl := h
    rcases hv with ⟨i, rfl⟩ | ⟨x, rfl⟩ <;> rfl
  | truth =>
    obtain ⟨c, rfl⟩ := h
    rcases hv with ⟨i, hi⟩ | ⟨x, hx⟩
    · cases hi
    · cases hx
  | any => rfl

omit [BuildProfile] in
theorem arithmetic_eq_ok {onInt : Int64 → Int64 → Result Int64} {onFloat : F64 → F64 → F64}
    {u : Value} (h : arithmetic op onInt onFloat v w = .ok u) :
    ((∃ i, v = .int i) ∨ ∃ x, v = .float x) ∧ ((∃ i, w = .int i) ∨ ∃ x, w = .float x) := by
  unfold arithmetic at h
  split at h
  · exact ⟨.inl ⟨_, rfl⟩, .inl ⟨_, rfl⟩⟩
  · exact ⟨.inr ⟨_, rfl⟩, .inr ⟨_, rfl⟩⟩
  · exact ⟨.inl ⟨_, rfl⟩, .inr ⟨_, rfl⟩⟩
  · exact ⟨.inr ⟨_, rfl⟩, .inl ⟨_, rfl⟩⟩
  · cases h

theorem evalBinaryOp_eq_ok {u : Value} (h : evalBinaryOp op v w = .ok u) :
    (op ∈ arithmeticOps ∧ ((∃ i, v = .int i) ∨ ∃ x, v = .float x) ∧
      ((∃ i, w = .int i) ∨ ∃ x, w = .float x)) ∨
    (op ∉ arithmeticOps ∧ (op ∈ comparisonOps ∨ op = "and" ∨ op = "or") ∧ ∃ c, u = .bool c) := by
  unfold evalBinaryOp at h
  split at h
  case h_9 | h_10 | h_11 | h_12 => exact .inl ⟨by decide, arithmetic_eq_ok h⟩
  case h_15 => cases h
  all_goals
    cases h
    exact .inr ⟨by decide, by decide, _, rfl⟩

theorem combine_of_ok (ha : a.Admits v) (hb : b.Admits w) {u : Value}
    (h : evalBinaryOp op v w = .ok u) : ∃ c, combine op a b = some c ∧ c.Admits u := by
  have hother (hvals : ∀ x y, ¬ (a = value x ∧ b = value y)) :
      combine op a b = if op ∈ arithmeticOps then
        if a.mayBeNumber ∧ b.mayBeNumber then some any else none
      else if op ∈ comparisonOps ∨ op = "and" ∨ op = "or" then some truth else none := by
    unfold combine
    split
    · exact absurd ⟨rfl, rfl⟩ (hvals _ _)
    · rfl
  by_cases hvals : ∀ x y, ¬ (a = value x ∧ b = value y)
  · rw [hother hvals]
    rcases evalBinaryOp_eq_ok h with ⟨hop, hv, hw⟩ | ⟨hop, hop', c, rfl⟩
    · exact ⟨any, by simp [hop, ha.mayBeNumber hv, hb.mayBeNumber hw], trivial⟩
    · exact ⟨truth, by simp [hop, hop'], c, rfl⟩
  · simp only [not_forall, not_not] at hvals
    obtain ⟨x, y, rfl, rfl⟩ := hvals
    obtain rfl : v = x := ha
    obtain rfl : w = y := hb
    exact ⟨value u, by simp [combine, h], rfl⟩

omit [BuildProfile] in
theorem HasOnDoubles.number (h : a.HasOnDoubles v) (hnum : a.mayBeNumber) :
    (∃ i, v = .int i ∧ a = value (.int i)) ∨ ∃ x, v = .float x := by
  cases a with
  | value val =>
    obtain rfl : v = val := h
    cases v with
    | int i => exact .inl ⟨i, rfl, rfl⟩
    | float x => exact .inr ⟨x, rfl⟩
    | null | varchar | bool => cases hnum
  | truth => cases hnum
  | any => exact .inr h

theorem evalBinaryOp_double (hop : op ∈ arithmeticOps)
    (h : (∃ x, v = .float x) ∧ ((∃ i, w = .int i) ∨ ∃ y, w = .float y) ∨
      (∃ i, v = .int i) ∧ ∃ y, w = .float y) :
    ∃ z, evalBinaryOp op v w = .ok (.float z) := by
  simp only [arithmeticOps, List.mem_cons, List.not_mem_nil, or_false] at hop
  rcases h with ⟨⟨x, rfl⟩, ⟨i, rfl⟩ | ⟨y, rfl⟩⟩ | ⟨⟨i, rfl⟩, y, rfl⟩ <;>
    rcases hop with rfl | rfl | rfl | rfl <;> exact ⟨_, rfl⟩

theorem evalBinaryOp_truth (hop : op ∈ comparisonOps ∨ op = "and" ∨ op = "or") (v w : Value) :
    ∃ c, evalBinaryOp op v w = .ok (.bool c) := by
  rcases hop with hop | rfl | rfl
  · exact evalBinaryOp_comparison hop v w
  · exact ⟨_, rfl⟩
  · exact ⟨_, rfl⟩

theorem ok_of_combine (ha : a.HasOnDoubles v) (hb : b.HasOnDoubles w) {c : Forecast}
    (h : combine op a b = some c) : ∃ u, evalBinaryOp op v w = .ok u ∧ c.HasOnDoubles u := by
  unfold combine at h
  split at h
  · rename_i x y
    obtain rfl : v = x := ha
    obtain rfl : w = y := hb
    obtain ⟨u, hu, rfl⟩ := Option.map_eq_some_iff.mp h
    exact ⟨u, Result.toOption_eq_some.mp hu, rfl⟩
  · rename_i hvals
    split at h
    · rename_i hop
      split at h
      · rename_i hnum
        cases h
        have hdouble := evalBinaryOp_double (v := v) (w := w) hop
        rcases ha.number hnum.1 with ⟨i, hv, rfl⟩ | hv
        · rcases hb.number hnum.2 with ⟨j, -, rfl⟩ | hw
          · exact absurd rfl (hvals _ _ rfl)
          · obtain ⟨z, hz⟩ := hdouble (.inr ⟨⟨i, hv⟩, hw⟩)
            exact ⟨_, hz, z, rfl⟩
        · obtain ⟨z, hz⟩ := hdouble
            (.inl ⟨hv, (hb.number hnum.2).imp (fun ⟨j, hw, _⟩ => ⟨j, hw⟩) id⟩)
          exact ⟨_, hz, z, rfl⟩
      · cases h
    · split at h
      · rename_i hop
        cases h
        obtain ⟨c, hc⟩ := evalBinaryOp_truth hop v w
        exact ⟨_, hc, c, rfl⟩
      · cases h

end Operators

end Forecast

def doubles (schema : Schema) : Tuple :=
  .new (List.replicate schema.columns.length (.float (F64.ofInt 1)))

namespace Expr

section Forecasts

variable [BuildProfile] {schema : Schema} {e : Expr}

/-- What is known of the values of an expression without the row; one that always fails has none. -/
def forecast (schema : Schema) : Expr → Option Forecast
  | const val => some (.value val)
  | colRef name => if (schema.findColIdx name).isSome then some .any else none
  | binaryOp op left right => do
    let a ← left.forecast schema
    let b ← right.forecast schema
    Forecast.combine op a b
  | funcCall _ _ | star => none

/-- The references that an evaluation looks up on some row. -/
def lookups (schema : Schema) : Expr → List String
  | colRef name => [name]
  | binaryOp _ left right =>
    left.lookups schema ++ if (left.forecast schema).isSome then right.lookups schema else []
  | const _ | funcCall _ _ | star => []

/-- Whether all references that an evaluation looks up resolve. -/
def Finds (e : Expr) (schema : Schema) : Prop :=
  ∀ name ∈ e.lookups schema, schema.findColIdx name ≠ none

/--
Whether an evaluation fails only if it misses a column: the first reference that it
looks up does not resolve, or there is none and it has a value.
-/
def OnlyMisses (e : Expr) (schema : Schema) : Prop :=
  match e.lookups schema with
  | [] => (e.forecast schema).isSome
  | name :: _ => schema.findColIdx name = none

/-- Whether an expression is true on no row, as far as is known without the row. -/
def NeverTrue (e : Expr) (schema : Schema) : Prop :=
  match e.forecast schema with
  | none => True
  | some (.value val) => val.isTruthy = false
  | some _ => False

/-- The value of an expression on a row is one of its forecast. -/
theorem forecast_of_ok {t : Tuple} {v : Value} (h : e.eval t schema = .ok v) :
    ∃ a, e.forecast schema = some a ∧ a.Admits v := by
  induction e generalizing v with
  | const val =>
    cases h
    exact ⟨_, rfl, rfl⟩
  | colRef name =>
    rcases hidx : schema.findColIdx name with _ | i
    · simp only [eval, hidx] at h
      cases h
    · exact ⟨.any, by simp [forecast, hidx], trivial⟩
  | binaryOp op left right ihl ihr =>
    obtain ⟨x, hx, h⟩ := Result.bind_eq_ok.mp h
    obtain ⟨y, hy, h⟩ := Result.bind_eq_ok.mp h
    obtain ⟨a, ha, hax⟩ := ihl hx
    obtain ⟨b, hb, hby⟩ := ihr hy
    obtain ⟨c, hc, hcv⟩ := Forecast.combine_of_ok hax hby h
    exact ⟨c, by simp [forecast, ha, hb, hc], hcv⟩
  | funcCall | star => cases h

/-- An expression with a forecast has a value on a row of doubles. -/
theorem ok_of_forecast {a : Forecast} (h : e.forecast schema = some a) :
    ∃ v, e.eval (doubles schema) schema = .ok v ∧ a.HasOnDoubles v := by
  induction e generalizing a with
  | const val =>
    cases h
    exact ⟨_, rfl, rfl⟩
  | colRef name =>
    unfold forecast at h
    rcases hidx : schema.findColIdx name with _ | i <;> rw [hidx] at h <;> cases h
    have hi := Schema.findColIdx_lt hidx
    exact ⟨.float (F64.ofInt 1), by simp [eval, hidx, doubles, Tuple.new, hi], _, rfl⟩
  | binaryOp op left right ihl ihr =>
    obtain ⟨b, hb, h⟩ := Option.bind_eq_some_iff.mp h
    obtain ⟨c, hc, h⟩ := Option.bind_eq_some_iff.mp h
    obtain ⟨x, hx, hbx⟩ := ihl hb
    obtain ⟨y, hy, hcy⟩ := ihr hc
    obtain ⟨u, hu, hau⟩ := Forecast.ok_of_combine hbx hcy h
    exact ⟨u, by simp [eval, hx, hy, hu], hau⟩
  | funcCall | star => cases h

theorem NeverTrue.not_true (h : e.NeverTrue schema) (t : Tuple) :
    Value.isTruthy <$> e.eval t schema ≠ .ok true := by
  intro htrue
  obtain ⟨v, hv, hv'⟩ := Result.map_eq_ok.mp htrue
  obtain ⟨a, ha, hav⟩ := forecast_of_ok hv
  unfold NeverTrue at h
  rw [ha] at h
  cases a with
  | value val =>
    obtain rfl : v = val := hav
    rw [h] at hv'
    cases hv'
  | truth | any => exact h

end Forecasts

section Lookups

variable [BuildProfile] {schema : Schema} {e : Expr}

theorem lookups_subset : e.lookups schema ⊆ e.references := by
  induction e with
  | const | star | funcCall => exact List.nil_subset _
  | colRef name => exact List.Subset.refl _
  | binaryOp op left right ihl ihr =>
    unfold lookups references
    refine List.append_subset.mpr ⟨List.Subset.trans ihl (List.subset_append_left _ _), ?_⟩
    split
    · exact List.Subset.trans ihr (List.subset_append_right _ _)
    · exact List.nil_subset _

theorem finds_binaryOp {op : String} {left right : Expr} :
    (binaryOp op left right).Finds schema ↔
      left.Finds schema ∧ ((left.forecast schema).isSome → right.Finds schema) := by
  unfold Finds
  rw [lookups, List.forall_mem_append]
  refine and_congr_right' ?_
  by_cases h : (left.forecast schema).isSome <;> simp [h]

theorem Finds.eval (h : e.Finds schema) (t : Tuple) : FindsColumns (e.eval t schema) := by
  induction e with
  | const val => exact .ok _
  | star | funcCall => exact failsWith_err rfl
  | colRef name =>
    unfold Expr.eval
    split
    · split
      · exact .ok _
      · exact .error rfl
    · rename_i hnone
      exact absurd hnone (h name (List.mem_singleton_self name))
  | binaryOp op left right ihl ihr =>
    obtain ⟨hl, hr⟩ := finds_binaryOp.mp h
    refine (ihl hl).bind fun x hx => FailsWith.bind ?_ fun y _ =>
      (evalBinaryOp_failsWith op x y).imp fun _ hf => hf.2
    obtain ⟨a, ha, -⟩ := forecast_of_ok hx
    exact ihr (hr (by rw [ha]; rfl))

/-- An evaluation with a lookup that does not resolve misses a column on a row of doubles. -/
theorem misses_of_not_finds (h : ¬ e.Finds schema) :
    MissesColumn (e.eval (doubles schema) schema) := by
  induction e with
  | const | star | funcCall => exact absurd (List.forall_mem_nil _) h
  | colRef name =>
    have hnone : schema.findColIdx name = none := by
      by_contra hne
      exact h (List.forall_mem_singleton.mpr hne)
    unfold Expr.eval
    rw [hnone]
    exact ⟨_, rfl, Option.some_ne_none name⟩
  | binaryOp op left right ihl ihr =>
    by_cases hl : left.Finds schema
    · have hright := mt (fun hr => finds_binaryOp.mpr ⟨hl, hr⟩) h
      obtain ⟨hsome, hr⟩ := Classical.not_imp.mp hright
      obtain ⟨a, ha⟩ := Option.isSome_iff_exists.mp hsome
      obtain ⟨v, hv, -⟩ := ok_of_forecast ha
      rw [Expr.eval, hv]
      exact (ihr hr).bind _
    · exact (ihl hl).bind _

theorem eval_of_lookups_eq_nil (h : e.lookups schema = []) {a : Forecast}
    (ha : e.forecast schema = some a) : ∃ v, a = .value v ∧ ∀ t, e.eval t schema = .ok v := by
  induction e generalizing a with
  | const val =>
    cases ha
    exact ⟨val, rfl, fun _ => rfl⟩
  | colRef name => cases h
  | star | funcCall => cases ha
  | binaryOp op left right ihl ihr =>
    obtain ⟨b, hb, ha⟩ := Option.bind_eq_some_iff.mp ha
    obtain ⟨c, hc, ha⟩ := Option.bind_eq_some_iff.mp ha
    simp only [lookups, hb, Option.isSome_some, if_true, List.append_eq_nil_iff] at h
    obtain ⟨x, rfl, hx⟩ := ihl h.1 hb
    obtain ⟨y, rfl, hy⟩ := ihr h.2 hc
    obtain ⟨v, hv, rfl⟩ := Option.map_eq_some_iff.mp ha
    exact ⟨v, rfl, fun t => by simp [Expr.eval, hx, hy, Result.toOption_eq_some.mp hv]⟩

theorem misses_of_lookups {name : String} {names : List String}
    (h : e.lookups schema = name :: names) (hname : schema.findColIdx name = none) (t : Tuple) :
    MissesColumn (e.eval t schema) := by
  induction e generalizing names with
  | const | star | funcCall => cases h
  | colRef name' =>
    cases h
    unfold Expr.eval
    rw [hname]
    exact ⟨_, rfl, Option.some_ne_none _⟩
  | binaryOp op left right ihl ihr =>
    rw [lookups] at h
    rcases hl : left.lookups schema with _ | ⟨first, rest⟩
    · rw [hl, List.nil_append] at h
      split at h
      · rename_i hsome
        obtain ⟨a, ha⟩ := Option.isSome_iff_exists.mp hsome
        obtain ⟨v, -, hv⟩ := eval_of_lookups_eq_nil hl ha
        rw [Expr.eval, hv t]
        exact (ihr h).bind _
      · cases h
    · rw [hl] at h
      cases h
      exact (ihl hl).bind _

theorem OnlyMisses.eval (h : e.OnlyMisses schema) (t : Tuple) :
    FailsWith (·.unknownColumn ≠ none) (e.eval t schema) := by
  unfold OnlyMisses at h
  split at h
  · rename_i hnil
    obtain ⟨a, ha⟩ := Option.isSome_iff_exists.mp h
    obtain ⟨v, -, hv⟩ := eval_of_lookups_eq_nil hnil ha
    rw [hv t]
    exact .ok v
  · rename_i name names hnames
    obtain ⟨f, hf, hne⟩ := misses_of_lookups hnames h t
    rw [hf]
    exact .error hne

end Lookups

end Expr

end VolcanoDb
