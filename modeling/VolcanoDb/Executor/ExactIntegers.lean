import Mathlib.Algebra.BigOperators.Group.List.Basic
import Mathlib.Algebra.Ring.Int.Defs
import Mathlib.Data.List.Induction
import Mathlib.Data.List.Infix
import VolcanoDb.Executor.Aggregate

/-! # Exact integers

Integer arithmetic is exact, or an error, as long as the exact value of every part
of an expression that evaluation reaches is a 64-bit integer; any other result
panics or is wrapped. A running sum is exact as long as the sums of all rows so far
are.
-/

namespace VolcanoDb

def InI64 (z : ℤ) : Prop := Int64.minValue.toInt ≤ z ∧ z ≤ Int64.maxValue.toInt

instance (z : ℤ) : Decidable (InI64 z) := inferInstanceAs (Decidable (_ ∧ _))

theorem inI64_toInt (n : Int64) : InI64 n.toInt := ⟨n.minValue_le_toInt, n.toInt_le⟩

theorem toInt_ofInt {z : ℤ} (h : InI64 z) : (Int64.ofInt z).toInt = z :=
  Int64.toInt_ofInt_of_le h.1 (Int.lt_add_one_of_le h.2)

/-- A computation returns what is wanted or an error, but does not panic. -/
def Exactly {α : Type} (p : α → Prop) : Result α → Prop
  | .ok a => p a
  | .error (.error _) => True
  | .error (.panic _) => False

theorem exactly_map {α β : Type} {p : β → Prop} {f : α → β} {x : Result α} :
    Exactly p (f <$> x) ↔ Exactly (fun a => p (f a)) x := by
  rcases x with (e | m) | a <;> rfl

theorem Exactly.imp {α : Type} {p q : α → Prop} {x : Result α} (h : Exactly p x)
    (hpq : ∀ a, p a → q a) : Exactly q x := by
  rcases x with (e | m) | a
  · exact h
  · exact h
  · exact hpq a h

section Operators

variable [BuildProfile]

/-- An operation with a given exact result yields it if it is in range, and else panics or wraps. -/
structure ExactWithin (z : ℤ) (x : Result Int64) : Prop where
  exact : InI64 z → x = .ok (Int64.ofInt z)
  wrong : ¬ InI64 z → (∃ m, x = panicking m) ∨ ¬ BuildProfile.overflowChecks ∧ ∃ n, x = .ok n

namespace ExactWithin

variable {z : ℤ} {x : Result Int64}

theorem not_exactly (h : ExactWithin z x) (hout : ¬ InI64 z) :
    ¬ Exactly (fun n => n.toInt = z) x := by
  rcases h.wrong hout with ⟨m, rfl⟩ | ⟨-, n, rfl⟩
  · exact id
  · intro hn
    have hn : n.toInt = z := hn
    exact hout (hn ▸ inI64_toInt n)

theorem panics (h : ExactWithin z x) (hchecks : BuildProfile.overflowChecks) (hout : ¬ InI64 z) :
    ∃ m, x = panicking m :=
  (h.wrong hout).resolve_right fun hn => hn.1 hchecks

end ExactWithin

omit [BuildProfile] in
def exactOp (op : String) (a b : ℤ) : Option ℤ :=
  match op with
  | "+" => some (a + b)
  | "-" => some (a - b)
  | "*" => some (a * b)
  | "/" => if b = 0 then none else some (a.tdiv b)
  | _ => none

theorem checkedInt_exactWithin (message : String) (z : ℤ) :
    ExactWithin z (checkedInt message z (Int64.ofInt z)) := by
  constructor
  · intro h
    rw [checkedInt, if_neg]
    · rfl
    · rintro ⟨-, hne⟩
      exact hne (toInt_ofInt h)
  · intro h
    have hne : (Int64.ofInt z).toInt ≠ z := fun heq => h (heq ▸ inI64_toInt _)
    by_cases hchecks : BuildProfile.overflowChecks
    · exact .inl ⟨message, if_pos ⟨hchecks, hne⟩⟩
    · exact .inr ⟨hchecks, _, if_neg fun h => hchecks h.1⟩

theorem i64Div_exactWithin {a b : Int64} (hb : b.toInt ≠ 0) :
    ExactWithin (a.toInt.tdiv b.toInt) (i64Div a b) := by
  have hb0 : b ≠ 0 := by
    rintro rfl
    exact hb rfl
  unfold i64Div
  rw [if_neg hb0]
  by_cases hmin : a = Int64.minValue ∧ b = -1
  · obtain ⟨rfl, rfl⟩ := hmin
    exact ⟨fun h => absurd h (by decide), fun _ => .inl ⟨_, rfl⟩⟩
  · rw [if_neg hmin]
    have hdiv : (a / b).toInt = a.toInt.tdiv b.toInt := by
      rcases not_and_or.mp hmin with ha | hb
      · exact Int64.toInt_div_of_ne_left a b ha
      · exact Int64.toInt_div_of_ne_right a b hb
    rw [← hdiv]
    exact ⟨fun _ => by rw [Int64.ofInt_toInt]; rfl, fun h => absurd (inI64_toInt _) h⟩

theorem i64Add_ne_error (a b : Int64) (e : DbError) : i64Add a b ≠ .error (.error e) := by
  unfold i64Add checkedInt
  split
  · rintro ⟨⟩
  · rintro ⟨⟩

theorem i64Add_exactWithin (a b : Int64) : ExactWithin (a.toInt + b.toInt) (i64Add a b) := by
  have h := checkedInt_exactWithin "attempt to add with overflow" (a.toInt + b.toInt)
  rwa [Int64.ofInt_add, Int64.ofInt_toInt, Int64.ofInt_toInt] at h

theorem evalBinaryOp_exactWithin {op : String} {a b : Int64} {z : ℤ}
    (h : exactOp op a.toInt b.toInt = some z) :
    ∃ x, evalBinaryOp op (.int a) (.int b) = Value.int <$> x ∧ ExactWithin z x := by
  unfold exactOp at h
  split at h
  · cases h
    exact ⟨_, rfl, i64Add_exactWithin a b⟩
  · cases h
    have h := checkedInt_exactWithin "attempt to subtract with overflow" (a.toInt - b.toInt)
    rw [Int64.ofInt_sub, Int64.ofInt_toInt, Int64.ofInt_toInt] at h
    exact ⟨_, rfl, h⟩
  · cases h
    have h := checkedInt_exactWithin "attempt to multiply with overflow" (a.toInt * b.toInt)
    rw [Int64.ofInt_mul, Int64.ofInt_toInt, Int64.ofInt_toInt] at h
    exact ⟨_, rfl, h⟩
  · split at h
    · cases h
    · rename_i hb
      cases h
      exact ⟨_, rfl, i64Div_exactWithin hb⟩
  · cases h

theorem evalBinaryOp_of_none {op : String} (hop : op ∈ ["+", "-", "*", "/"]) {a b : Int64}
    (h : exactOp op a.toInt b.toInt = none) : ∃ e, evalBinaryOp op (.int a) (.int b) = err e := by
  simp only [List.mem_cons, List.not_mem_nil, or_false] at hop
  rcases hop with rfl | rfl | rfl | rfl
  · cases h
  · cases h
  · cases h
  · have hb : b = 0 := by
      by_contra hne
      have hne : b.toInt ≠ 0 := fun h0 => hne (Int64.toInt_inj.mp h0)
      have hsome : exactOp "/" a.toInt b.toInt = some (a.toInt.tdiv b.toInt) := if_neg hne
      rw [hsome] at h
      cases h
    subst hb
    exact ⟨.divisionByZero, rfl⟩

end Operators

section Expressions

variable [BuildProfile] (t : Tuple) (schema : Schema)

/-- Expressions over integer literals and columns that hold integers. -/
inductive IntExpr : Expr → Prop where
  | lit (n : Int64) : IntExpr (.const (.int n))
  | col (name : String) :
      (∀ i, schema.findColIdx name = some i → ∃ n, t.values[i]? = some (.int n)) →
      IntExpr (.colRef name)
  | op {op : String} {left right : Expr} : op ∈ ["+", "-", "*", "/"] → IntExpr left →
      IntExpr right → IntExpr (.binaryOp op left right)

/-- The mathematical value of an integer expression, unless it is an error. -/
def Expr.exact : Expr → Option ℤ
  | .const (.int n) => some n.toInt
  | .colRef name => do
    let i ← schema.findColIdx name
    match t.values[i]? with
    | some (.int n) => some n.toInt
    | _ => none
  | .binaryOp op left right => do
    let a ← left.exact
    let b ← right.exact
    exactOp op a b
  | _ => none

/--
An expression and the operands that evaluation reaches: the one on the right of an
operator only if the one on the left has a value.
-/
def Expr.reached : Expr → List Expr
  | .binaryOp op left right =>
    .binaryOp op left right ::
      (left.reached ++ if (left.exact t schema).isSome then right.reached else [])
  | e => [e]

/-- The exact values of an expression and of the parts that evaluation reaches are in range. -/
def Expr.InRange (e : Expr) : Prop :=
  ∀ part ∈ e.reached t schema, ∀ z, part.exact t schema = some z → InI64 z

/-- An expression evaluates to its exact value, or to an error. -/
def Expr.IsExact (e : Expr) : Prop :=
  Exactly (fun v => ∃ n : Int64, v = .int n ∧ e.exact t schema = some n.toInt) (e.eval t schema)

/-- An expression and the parts that evaluation reaches have their exact values, or fail. -/
def Expr.EvaluatesExactly (e : Expr) : Prop :=
  ∀ part ∈ e.reached t schema, part.IsExact t schema

variable {t schema}

omit [BuildProfile] in
theorem Expr.forall_reached {op : String} {left right : Expr} {p : Expr → Prop} :
    (∀ part ∈ (Expr.binaryOp op left right).reached t schema, p part) ↔
      p (.binaryOp op left right) ∧ (∀ part ∈ left.reached t schema, p part) ∧
        ∀ a, left.exact t schema = some a → ∀ part ∈ right.reached t schema, p part := by
  rw [reached, List.forall_mem_cons, List.forall_mem_append]
  refine and_congr_right' (and_congr_right' ?_)
  rcases left.exact t schema with _ | a <;> simp

omit [BuildProfile] in
theorem Expr.mem_reached_self (e : Expr) : e ∈ e.reached t schema := by
  cases e <;> exact List.mem_cons_self

namespace IntExpr

omit [BuildProfile] in
theorem inRange_lit (n : Int64) : (Expr.const (.int n)).InRange t schema := by
  refine List.forall_mem_singleton.mpr ?_
  rintro z ⟨⟩
  exact inI64_toInt n

omit [BuildProfile] in
theorem inRange_col {name : String}
    (h : ∀ i, schema.findColIdx name = some i → ∃ n, t.values[i]? = some (.int n)) :
    (Expr.colRef name).InRange t schema := by
  refine List.forall_mem_singleton.mpr fun z hz => ?_
  obtain ⟨i, hi, hz⟩ := Option.bind_eq_some_iff.mp hz
  obtain ⟨n, hn⟩ := h i hi
  rw [hn] at hz
  cases hz
  exact inI64_toInt n

theorem eval_of_inRange {e : Expr} (h : IntExpr t schema e) (hrange : e.InRange t schema) :
    (∀ z, e.exact t schema = some z → e.eval t schema = .ok (.int (Int64.ofInt z))) ∧
    (e.exact t schema = none → ∃ f, e.eval t schema = err f) := by
  induction h with
  | lit n =>
    constructor
    · rintro z ⟨⟩
      rw [Int64.ofInt_toInt]
      rfl
    · rintro ⟨⟩
  | col name hcol =>
    unfold Expr.exact Expr.eval
    rcases hidx : schema.findColIdx name with _ | i
    · constructor
      · rintro z ⟨⟩
      · exact fun _ => ⟨_, rfl⟩
    · obtain ⟨n, hn⟩ := hcol i hidx
      simp only [Option.bind_eq_bind, Option.bind_some, hn]
      constructor
      · rintro z ⟨⟩
        rw [Int64.ofInt_toInt]
        rfl
      · rintro ⟨⟩
  | @op op left right hop hl hr ihl ihr =>
    obtain ⟨hself, hrangeL, hrangeR⟩ := Expr.forall_reached.mp hrange
    obtain ⟨hleft, hleftErr⟩ := ihl hrangeL
    unfold Expr.exact Expr.eval
    rcases ha : left.exact t schema with _ | a
    · obtain ⟨f, hf⟩ := hleftErr ha
      rw [hf]
      exact ⟨by rintro z ⟨⟩, fun _ => ⟨f, rfl⟩⟩
    obtain ⟨hright, hrightErr⟩ := ihr (hrangeR a ha)
    rcases hb : right.exact t schema with _ | b
    · obtain ⟨f, hf⟩ := hrightErr hb
      rw [hleft a ha, hf]
      exact ⟨by rintro z ⟨⟩, fun _ => ⟨f, rfl⟩⟩
    have ha' := toInt_ofInt (hrangeL _ (Expr.mem_reached_self _) a ha)
    have hb' := toInt_ofInt (hrangeR a ha _ (Expr.mem_reached_self _) b hb)
    rw [hleft a ha, hright b hb]
    simp only [Option.bind_eq_bind, Option.bind_some, Result.ok_bind]
    constructor
    · intro z hz
      have hexact : (Expr.binaryOp op left right).exact t schema = some z := by
        simp [Expr.exact, ha, hb, hz]
      rw [← ha', ← hb'] at hz
      obtain ⟨x, hx, hwithin⟩ := evalBinaryOp_exactWithin hz
      rw [hx, hwithin.exact (hself z hexact)]
      rfl
    · intro hz
      rw [← ha', ← hb'] at hz
      exact evalBinaryOp_of_none hop hz

theorem isExact_of_inRange {e : Expr} (h : IntExpr t schema e) (hrange : e.InRange t schema) :
    e.IsExact t schema := by
  obtain ⟨hsome, hnone⟩ := h.eval_of_inRange hrange
  unfold Expr.IsExact
  rcases hz : e.exact t schema with _ | z
  · obtain ⟨f, hf⟩ := hnone hz
    rw [hf]
    trivial
  · rw [hsome z hz]
    exact ⟨_, rfl, by rw [toInt_ofInt (hrange e e.mem_reached_self z hz)]⟩

theorem exactWithin_of_inRange {op : String} {left right : Expr} (hl : IntExpr t schema left)
    (hr : IntExpr t schema right) (hleft : left.InRange t schema)
    (hright : ∀ a, left.exact t schema = some a → right.InRange t schema) {z : ℤ}
    (hz : (Expr.binaryOp op left right).exact t schema = some z) :
    ∃ x, (Expr.binaryOp op left right).eval t schema = Value.int <$> x ∧ ExactWithin z x := by
  obtain ⟨a, ha, hz⟩ := Option.bind_eq_some_iff.mp hz
  obtain ⟨b, hb, hz⟩ := Option.bind_eq_some_iff.mp hz
  have hright := hright a ha
  rw [← toInt_ofInt (hleft _ (Expr.mem_reached_self _) a ha),
    ← toInt_ofInt (hright _ (Expr.mem_reached_self _) b hb)] at hz
  obtain ⟨x, hx, hwithin⟩ := evalBinaryOp_exactWithin hz
  refine ⟨x, ?_, hwithin⟩
  rw [Expr.eval, (hl.eval_of_inRange hleft).1 a ha, (hr.eval_of_inRange hright).1 b hb]
  exact hx

theorem inI64_of_isExact {op : String} {left right : Expr} (hl : IntExpr t schema left)
    (hr : IntExpr t schema right) (hleft : left.InRange t schema)
    (hright : ∀ a, left.exact t schema = some a → right.InRange t schema) {z : ℤ}
    (hz : (Expr.binaryOp op left right).exact t schema = some z)
    (h : (Expr.binaryOp op left right).IsExact t schema) : InI64 z := by
  obtain ⟨x, hx, hwithin⟩ := hl.exactWithin_of_inRange hr hleft hright hz
  rw [Expr.IsExact, hx, hz, exactly_map] at h
  by_contra hout
  apply hwithin.not_exactly hout
  apply h.imp
  rintro n ⟨n', hn, hz'⟩
  cases hn
  exact (Option.some_inj.mp hz').symm

/-- All parts that are reached are exact if and only if their exact values are in range. -/
theorem evaluatesExactly_iff {e : Expr} (h : IntExpr t schema e) :
    e.EvaluatesExactly t schema ↔ e.InRange t schema := by
  induction h with
  | lit n =>
    have hrange : (Expr.const (.int n)).InRange t schema := inRange_lit n
    have hexact := (IntExpr.lit n).isExact_of_inRange hrange
    exact iff_of_true (List.forall_mem_singleton.mpr hexact) hrange
  | col name hcol =>
    have hexact := (IntExpr.col name hcol).isExact_of_inRange (inRange_col hcol)
    exact iff_of_true (List.forall_mem_singleton.mpr hexact) (inRange_col hcol)
  | @op op left right hop hl hr ihl ihr =>
    constructor
    · intro h
      obtain ⟨hself, hleft, hright⟩ := Expr.forall_reached.mp h
      have hleft := ihl.mp hleft
      have hright (a : ℤ) (ha : left.exact t schema = some a) := ihr.mp (hright a ha)
      exact Expr.forall_reached.mpr
        ⟨fun z hz => hl.inI64_of_isExact hr hleft hright hz hself, hleft, hright⟩
    · intro h
      obtain ⟨-, hleft, hright⟩ := Expr.forall_reached.mp h
      exact Expr.forall_reached.mpr ⟨(IntExpr.op hop hl hr).isExact_of_inRange h, ihl.mpr hleft,
        fun a ha => ihr.mpr (hright a ha)⟩

theorem panics_of_not_inRange (hchecks : BuildProfile.overflowChecks) {e : Expr}
    (h : IntExpr t schema e) (hout : ¬ e.InRange t schema) :
    ∃ m, e.eval t schema = panicking m := by
  induction h with
  | lit n => exact absurd (inRange_lit n) hout
  | col name hcol => exact absurd (inRange_col hcol) hout
  | @op op left right hop hl hr ihl ihr =>
    by_cases hleft : left.InRange t schema
    · by_cases hright : ∀ a, left.exact t schema = some a → right.InRange t schema
      · have hself : ∃ z, (Expr.binaryOp op left right).exact t schema = some z ∧ ¬ InI64 z := by
          by_contra hself
          refine hout (Expr.forall_reached.mpr ⟨fun z hz => ?_, hleft, hright⟩)
          exact not_not.mp fun hzout => hself ⟨z, hz, hzout⟩
        obtain ⟨z, hz, hzout⟩ := hself
        obtain ⟨x, hx, hwithin⟩ := hl.exactWithin_of_inRange hr hleft hright hz
        obtain ⟨m, rfl⟩ := hwithin.panics hchecks hzout
        exact ⟨m, hx⟩
      · obtain ⟨a, hright⟩ := not_forall.mp hright
        obtain ⟨ha, hright⟩ := Classical.not_imp.mp hright
        obtain ⟨m, hm⟩ := ihr hright
        rw [Expr.eval, (hl.eval_of_inRange hleft).1 a ha, hm]
        exact ⟨m, rfl⟩
    · obtain ⟨m, hm⟩ := ihl hleft
      rw [Expr.eval, hm]
      exact ⟨m, rfl⟩

theorem isExact_iff (hchecks : BuildProfile.overflowChecks) {e : Expr} (h : IntExpr t schema e) :
    e.IsExact t schema ↔ e.InRange t schema := by
  refine ⟨fun hexact => ?_, h.isExact_of_inRange⟩
  by_contra hout
  obtain ⟨m, hm⟩ := h.panics_of_not_inRange hchecks hout
  rw [Expr.IsExact, hm] at hexact
  exact hexact

end IntExpr

end Expressions

section Accumulators

variable [BuildProfile]

def feed (funcName : String) (l : List Int64) : Result AggState := do
  let state ← AggState.new funcName
  l.foldlM (fun state n => state.update (.int n)) state

def exactSum (l : List Int64) : ℤ := (l.map Int64.toInt).sum

/-- A running sum has the sum of the integers, and none before the first. -/
def HoldsSum (l : List Int64) (v : Value) : Prop :=
  if l = [] then v = .null else ∃ n : Int64, v = .int n ∧ n.toInt = exactSum l

/-- An accumulator has the exact sum and, for an average, the exact number of the integers. -/
def HoldsExactly (l : List Int64) : AggState → Prop
  | .sum s => HoldsSum l s
  | .avg s n => HoldsSum l s ∧ n.toInt = l.length
  | _ => False

/-- The sums that an accumulator runs through, and its counts, are in range. -/
def RunsInRange (funcName : String) (l : List Int64) : Prop :=
  ∀ p, p <+: l → InI64 (exactSum p) ∧ (funcName = "avg" → InI64 p.length)

def sumValue (l : List Int64) : Value := if l = [] then .null else .int (Int64.ofInt (exactSum l))

def fedState (funcName : String) (l : List Int64) : AggState :=
  if funcName = "sum" then .sum (sumValue l)
  else .avg (sumValue l) (Int64.ofInt l.length)

omit [BuildProfile] in
theorem exactSum_concat (l : List Int64) (n : Int64) :
    exactSum (l ++ [n]) = exactSum l + n.toInt := by
  simp [exactSum]

theorem feed_concat (funcName : String) (l : List Int64) (n : Int64) :
    feed funcName (l ++ [n]) = feed funcName l >>= fun state => state.update (.int n) := by
  simp only [feed, List.foldlM_append, List.foldlM_cons, List.foldlM_nil, bind_pure, bind_assoc]

omit [BuildProfile] in
theorem RunsInRange.nil {funcName : String} : RunsInRange funcName [] := by
  intro p hp
  obtain rfl := List.prefix_nil.mp hp
  exact ⟨by decide, fun _ => by decide⟩

omit [BuildProfile] in
theorem RunsInRange.concat_iff {funcName : String} {l : List Int64} {n : Int64} :
    RunsInRange funcName (l ++ [n]) ↔ RunsInRange funcName l ∧ InI64 (exactSum (l ++ [n])) ∧
      (funcName = "avg" → InI64 (l ++ [n]).length) := by
  constructor
  · intro h
    exact ⟨fun p hp => h p (hp.trans (List.prefix_append l [n])), h _ List.prefix_rfl⟩
  · rintro ⟨hl, hn⟩ p hp
    rcases List.prefix_concat_iff.mp hp with rfl | hp
    · exact hn
    · exact hl p hp

theorem addTo_eq_i64Add {l : List Int64} (hl : l ≠ []) (n : Int64) :
    AggState.addTo (sumValue l) (.int n) = Value.int <$> i64Add (Int64.ofInt (exactSum l)) n := by
  rw [sumValue, if_neg hl]
  rfl

theorem exactWithin_exactSum {l : List Int64} (h : InI64 (exactSum l)) (n : Int64) :
    ExactWithin (exactSum (l ++ [n])) (i64Add (Int64.ofInt (exactSum l)) n) := by
  have hadd := i64Add_exactWithin (Int64.ofInt (exactSum l)) n
  rwa [toInt_ofInt h, ← exactSum_concat] at hadd

theorem exactWithin_count {l : List Int64} (h : InI64 l.length) (n : Int64) :
    ExactWithin (l ++ [n]).length (i64Add (Int64.ofInt l.length) 1) := by
  have hlen : ((l ++ [n]).length : ℤ) = l.length + 1 := by simp
  have hone : (1 : Int64).toInt = 1 := rfl
  have hc := i64Add_exactWithin (Int64.ofInt l.length) 1
  rwa [toInt_ofInt h, hone, ← hlen] at hc

theorem addTo_sumValue {l : List Int64} (h : InI64 (exactSum l)) (n : Int64) :
    (InI64 (exactSum (l ++ [n])) →
      AggState.addTo (sumValue l) (.int n) = .ok (sumValue (l ++ [n]))) ∧
    (¬ InI64 (exactSum (l ++ [n])) →
      ¬ Exactly (HoldsSum (l ++ [n])) (AggState.addTo (sumValue l) (.int n))) := by
  have hne : l ++ [n] ≠ [] := by simp
  by_cases hl : l = []
  · subst hl
    have hsum : exactSum [n] = n.toInt := by simp [exactSum]
    constructor
    · intro _
      simp [sumValue, hsum, AggState.addTo]
    · intro hout
      exact absurd (hsum ▸ inI64_toInt n) hout
  · have hadd := exactWithin_exactSum h n
    rw [addTo_eq_i64Add hl]
    constructor
    · intro hin
      rw [hadd.exact hin, sumValue, if_neg hne]
      rfl
    · intro hout hexact
      apply hadd.not_exactly hout
      apply (exactly_map.mp hexact).imp
      intro s hs
      rw [HoldsSum, if_neg hne] at hs
      obtain ⟨s', hs', hs⟩ := hs
      cases hs'
      exact hs

theorem fedState_sum_update (l : List Int64) (n : Int64) :
    (fedState "sum" l).update (.int n) = AggState.sum <$> AggState.addTo (sumValue l) (.int n) :=
  rfl

theorem fedState_avg_update (l : List Int64) (n : Int64) :
    (fedState "avg" l).update (.int n) = (do
      let c ← i64Add (Int64.ofInt l.length) 1
      let s ← AggState.addTo (sumValue l) (.int n)
      pure (.avg s c)) :=
  rfl

theorem update_fedState {funcName : String} (hfunc : funcName ∈ ["sum", "avg"]) {l : List Int64}
    (h : RunsInRange funcName l) (n : Int64) :
    (RunsInRange funcName (l ++ [n]) →
      (fedState funcName l).update (.int n) = .ok (fedState funcName (l ++ [n]))) ∧
    (¬ RunsInRange funcName (l ++ [n]) →
      ¬ Exactly (HoldsExactly (l ++ [n])) ((fedState funcName l).update (.int n))) := by
  obtain ⟨hsum, hcount⟩ := h l List.prefix_rfl
  obtain ⟨hadd, hwrong⟩ := addTo_sumValue hsum n
  rw [RunsInRange.concat_iff]
  rcases List.mem_pair.mp hfunc with rfl | rfl
  · rw [fedState_sum_update]
    constructor
    · rintro ⟨-, hin, -⟩
      rw [hadd hin]
      rfl
    · intro hout hexact
      have hsum' : ¬ InI64 (exactSum (l ++ [n])) := fun hin => hout ⟨h, hin, by simp⟩
      have hexact := exactly_map.mp hexact
      exact hwrong hsum' hexact
  · have hc := exactWithin_count (hcount rfl) n
    rw [fedState_avg_update]
    constructor
    · rintro ⟨-, hin, hinc⟩
      rw [hadd hin, hc.exact (hinc rfl)]
      rfl
    · intro hout hexact
      by_cases hin : InI64 (exactSum (l ++ [n]))
      · have hinc : ¬ InI64 (l ++ [n]).length := fun hinc => hout ⟨h, hin, fun _ => hinc⟩
        rw [hadd hin] at hexact
        have hexact := exactly_map.mp hexact
        exact hc.not_exactly hinc (hexact.imp fun c hc => hc.2)
      · rcases hi : i64Add (Int64.ofInt l.length) 1 with (e | m) | c
        · exact i64Add_ne_error _ _ e hi
        · rw [hi] at hexact
          exact hexact
        · rw [hi] at hexact
          have hexact := exactly_map.mp hexact
          exact hwrong hin (hexact.imp fun s hs => hs.1)

theorem panics_update (hchecks : BuildProfile.overflowChecks) {funcName : String}
    (hfunc : funcName ∈ ["sum", "avg"]) {l : List Int64} (h : RunsInRange funcName l) {n : Int64}
    (hout : ¬ RunsInRange funcName (l ++ [n])) :
    ∃ m, (fedState funcName l).update (.int n) = panicking m := by
  obtain ⟨hsum, hcount⟩ := h l List.prefix_rfl
  have haddTo (hsum' : ¬ InI64 (exactSum (l ++ [n]))) :
      ∃ m, AggState.addTo (sumValue l) (.int n) = panicking m := by
    have hl : l ≠ [] := by
      rintro rfl
      exact hsum' (by simpa [exactSum] using inI64_toInt n)
    obtain ⟨m, hm⟩ := (exactWithin_exactSum hsum n).panics hchecks hsum'
    rw [addTo_eq_i64Add hl, hm]
    exact ⟨m, rfl⟩
  rw [RunsInRange.concat_iff] at hout
  rcases List.mem_pair.mp hfunc with rfl | rfl
  · obtain ⟨m, hm⟩ := haddTo fun hin => hout ⟨h, hin, by simp⟩
    rw [fedState_sum_update, hm]
    exact ⟨m, rfl⟩
  · rw [fedState_avg_update]
    rcases hi : i64Add (Int64.ofInt l.length) 1 with (e | m) | c
    · exact absurd hi (i64Add_ne_error _ _ e)
    · exact ⟨m, rfl⟩
    · have hinc : InI64 (l ++ [n]).length := by
        by_contra hinc
        obtain ⟨m, hm⟩ := (exactWithin_count (hcount rfl) n).panics hchecks hinc
        rw [hm] at hi
        cases hi
      obtain ⟨m, hm⟩ := haddTo fun hin => hout ⟨h, hin, fun _ => hinc⟩
      rw [hm]
      exact ⟨m, rfl⟩

theorem feed_of_runsInRange {funcName : String} (hfunc : funcName ∈ ["sum", "avg"])
    {l : List Int64} (h : RunsInRange funcName l) :
    feed funcName l = .ok (fedState funcName l) := by
  induction l using List.reverseRecOn with
  | nil => rcases List.mem_pair.mp hfunc with rfl | rfl <;> rfl
  | append_singleton l n ih =>
    have hl := (RunsInRange.concat_iff.mp h).1
    rw [feed_concat, ih hl]
    exact (update_fedState hfunc hl n).1 h

omit [BuildProfile] in
theorem holdsExactly_fedState {funcName : String} (hfunc : funcName ∈ ["sum", "avg"])
    {l : List Int64} (h : RunsInRange funcName l) : HoldsExactly l (fedState funcName l) := by
  obtain ⟨hsum, hcount⟩ := h l List.prefix_rfl
  have hholds : HoldsSum l (sumValue l) := by
    unfold HoldsSum sumValue
    split
    · rfl
    · exact ⟨_, rfl, toInt_ofInt hsum⟩
  rcases List.mem_pair.mp hfunc with rfl | rfl
  · exact hholds
  · exact ⟨hholds, toInt_ofInt (hcount rfl)⟩

/-- An accumulator is exact after every integer if and only if it runs in range. -/
theorem feed_exactly_iff {funcName : String} (hfunc : funcName ∈ ["sum", "avg"])
    (l : List Int64) :
    (∀ p, p <+: l → Exactly (HoldsExactly p) (feed funcName p)) ↔ RunsInRange funcName l := by
  constructor
  · intro h
    induction l using List.reverseRecOn with
    | nil => exact RunsInRange.nil
    | append_singleton l n ih =>
      have hl := ih fun p hp => h p (hp.trans (List.prefix_append l [n]))
      by_contra hout
      have hexact := h (l ++ [n]) List.prefix_rfl
      rw [feed_concat, feed_of_runsInRange hfunc hl] at hexact
      exact (update_fedState hfunc hl n).2 hout hexact
  · intro h p hp
    have hp : RunsInRange funcName p := fun q hq => h q (hq.trans hp)
    rw [feed_of_runsInRange hfunc hp]
    exact holdsExactly_fedState hfunc hp

theorem feed_exactly_iff_of_checks (hchecks : BuildProfile.overflowChecks) {funcName : String}
    (hfunc : funcName ∈ ["sum", "avg"]) (l : List Int64) :
    Exactly (HoldsExactly l) (feed funcName l) ↔ RunsInRange funcName l := by
  have hpanics (hout : ¬ RunsInRange funcName l) : ∃ m, feed funcName l = panicking m := by
    induction l using List.reverseRecOn with
    | nil => exact absurd RunsInRange.nil hout
    | append_singleton l n ih =>
      rw [feed_concat]
      by_cases hl : RunsInRange funcName l
      · rw [feed_of_runsInRange hfunc hl]
        exact panics_update hchecks hfunc hl hout
      · obtain ⟨m, hm⟩ := ih hl
        rw [hm]
        exact ⟨m, rfl⟩
  refine ⟨fun hexact => ?_, fun h => (feed_exactly_iff hfunc l).mpr h l List.prefix_rfl⟩
  by_contra hout
  obtain ⟨m, hm⟩ := hpanics hout
  rw [hm] at hexact
  exact hexact

/--
Integer expressions and the sums of integers are exact, or errors, if and only if
every value on the way to them is in range: every value that evaluation reaches, and
the sum of every prefix. With overflow checks a value out of range on the way makes
the whole panic; without them it is wrapped, and later ones may be right by chance.
-/
theorem integers_exact_iff :
    (∀ (t : Tuple) (schema : Schema) (e : Expr), IntExpr t schema e →
      (e.EvaluatesExactly t schema ↔ e.InRange t schema) ∧
      (BuildProfile.overflowChecks → (e.IsExact t schema ↔ e.InRange t schema))) ∧
    ∀ funcName ∈ ["sum", "avg"], ∀ l : List Int64,
      ((∀ p, p <+: l → Exactly (HoldsExactly p) (feed funcName p)) ↔ RunsInRange funcName l) ∧
      (BuildProfile.overflowChecks →
        (Exactly (HoldsExactly l) (feed funcName l) ↔ RunsInRange funcName l)) :=
  ⟨fun _ _ _ h => ⟨h.evaluatesExactly_iff, fun hchecks => h.isExact_iff hchecks⟩,
    fun _ hfunc l => ⟨feed_exactly_iff hfunc l,
      fun hchecks => feed_exactly_iff_of_checks hchecks hfunc l⟩⟩

end Accumulators

section Sample

theorem integers_exact_sample :
    let _ : BuildProfile := ⟨true⟩
    let e : Expr :=
      .binaryOp "*" (.binaryOp "/" (.const (.int 7)) (.const (.int 2))) (.const (.int 3))
    let e' : Expr := .binaryOp "+" (.binaryOp "/" (.const (.int 1)) (.const (.int 0)))
      (.binaryOp "+" (.const (.int Int64.maxValue)) (.const (.int 1)))
    e.IsExact (Tuple.new []) ⟨[]⟩ ∧ e.exact (Tuple.new []) ⟨[]⟩ = some 9 ∧
      e'.IsExact (Tuple.new []) ⟨[]⟩ ∧
      Exactly (HoldsExactly [5, -7, 4]) (feed "avg" [5, -7, 4]) := by
  intro _ e e'
  have hint : IntExpr (Tuple.new []) ⟨[]⟩ e :=
    .op (by decide) (.op (by decide) (.lit 7) (.lit 2)) (.lit 3)
  have hint' : IntExpr (Tuple.new []) ⟨[]⟩ e' :=
    .op (by decide) (.op (by decide) (.lit 1) (.lit 0)) (.op (by decide) (.lit _) (.lit 1))
  have hrange : ∀ part ∈ e.reached (Tuple.new []) ⟨[]⟩, ∀ z,
      part.exact (Tuple.new []) ⟨[]⟩ = some z → InI64 z := by decide +kernel
  have hrange' : ∀ part ∈ e'.reached (Tuple.new []) ⟨[]⟩, ∀ z,
      part.exact (Tuple.new []) ⟨[]⟩ = some z → InI64 z := by decide +kernel
  have hruns : RunsInRange "avg" [5, -7, 4] := by
    have hall : ∀ p ∈ ([5, -7, 4] : List Int64).inits,
        InI64 (exactSum p) ∧ ("avg" = "avg" → InI64 p.length) := by decide +kernel
    exact fun p hp => hall p ((List.mem_inits _ _).mpr hp)
  exact ⟨((integers_exact_iff.1 _ _ _ hint).2 rfl).mpr hrange, by decide +kernel,
    ((integers_exact_iff.1 _ _ _ hint').2 rfl).mpr hrange',
    ((integers_exact_iff.2 "avg" (by decide) _).2 rfl).mpr hruns⟩

/-- The largest integer plus one panics or is the smallest one, with the build profile. -/
theorem max_plus_one_overflows :
    let checked : BuildProfile := ⟨true⟩
    let wrapping : BuildProfile := ⟨false⟩
    let e : Expr := .binaryOp "+" (.const (.int Int64.maxValue)) (.const (.int 1))
    IntExpr (Tuple.new []) ⟨[]⟩ e ∧
    @Expr.eval checked e (Tuple.new []) ⟨[]⟩ = panicking "attempt to add with overflow" ∧
    @Expr.eval wrapping e (Tuple.new []) ⟨[]⟩ = .ok (.int Int64.minValue) ∧
    @feed wrapping "sum" [Int64.maxValue, 1] = .ok (.sum (.int Int64.minValue)) ∧
    ¬ @Expr.IsExact checked (Tuple.new []) ⟨[]⟩ e ∧
    ¬ @Expr.IsExact wrapping (Tuple.new []) ⟨[]⟩ e := by
  intro checked wrapping e
  have hchecked : @Expr.eval checked e (Tuple.new []) ⟨[]⟩ =
      panicking "attempt to add with overflow" := by decide +kernel
  have hwrapping : @Expr.eval wrapping e (Tuple.new []) ⟨[]⟩ = .ok (.int Int64.minValue) := by
    decide +kernel
  have hexact : e.exact (Tuple.new []) ⟨[]⟩ = some 9223372036854775808 := by decide +kernel
  refine ⟨.op (by decide) (.lit _) (.lit 1), hchecked, hwrapping, by decide +kernel, ?_, ?_⟩
  · unfold Expr.IsExact
    rw [hchecked]
    exact id
  · unfold Expr.IsExact
    rw [hwrapping]
    rintro ⟨n, -, hn⟩
    have hout : ¬ InI64 9223372036854775808 := by decide
    exact hout (Option.some_inj.mp (hexact.symm.trans hn) ▸ inI64_toInt n)

end Sample

end VolcanoDb
