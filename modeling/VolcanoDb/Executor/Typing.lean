import VolcanoDb.Executor.Aggregate
import VolcanoDb.Planner.Plan

/-! # Typing

What the static types of expressions and aggregates promise about their values.
A discipline says which values a column of a type may hold. Every discipline is
kept by evaluation; one of them demands the type itself, and another one
demands nothing, so that it speaks of the lengths of rows alone.
-/

namespace VolcanoDb

def outOfBounds : Fault := .panic "index out of bounds"

/-- A result with a property, or a failure other than an index out of bounds. -/
def Safe {α : Type*} (p : α → Prop) : Result α → Prop
  | .ok a => p a
  | .error f => f ≠ outOfBounds

namespace Safe

universe u

variable {α β : Type u} {p q : α → Prop} {x : Result α}

theorem err (p : α → Prop) (e : DbError) : Safe p (err e) := by
  intro h
  cases h

theorem imp (hx : Safe p x) (h : ∀ a, p a → q a) : Safe q x := by
  cases x with
  | error f => exact hx
  | ok a => exact h a hx

theorem of_ok (hx : Safe (fun _ => True) x) (h : ∀ a, x = .ok a → p a) : Safe p x := by
  cases x with
  | error f => exact hx
  | ok a => exact h a rfl

theorem bind {r : β → Prop} {f : α → Result β} (hx : Safe p x) (hf : ∀ a, p a → Safe r (f a)) :
    Safe r (x >>= f) := by
  cases x with
  | error f => exact hx
  | ok a => exact hf a hx

theorem map {r : β → Prop} {f : α → β} (hx : Safe p x) (hf : ∀ a, p a → r (f a)) :
    Safe r (f <$> x) := by
  cases x with
  | error f => exact hx
  | ok a => exact hf a hx

theorem mapM {γ : Type*} {r : γ → β → Prop} {f : α → Result β} {l : List α} {cs : List γ}
    (h : List.Forall₂ (fun a c => Safe (r c) (f a)) l cs) :
    Safe (List.Forall₂ r cs) (l.mapM f) := by
  induction h with
  | nil => exact .nil
  | cons ha _ ih =>
    rw [List.mapM_cons]
    refine ha.bind fun b hb => ih.bind fun bs hbs => ?_
    exact .cons hb hbs

end Safe

def arithmeticType : DataType → DataType → Option DataType
  | .float, _ | _, .float => some .float
  | .int, .int => some .int
  | _, _ => none

def isPredicateOp (op : String) : Bool :=
  op ∈ ["=", "==", "!=", "<>", ">", ">=", "<", "<=", "and", "or"]

theorem getExprType_binaryOp {op : String} {left right : Expr} {schema : Schema} {dt : DataType}
    (h : getExprType (.binaryOp op left right) schema = .ok dt) :
    ∃ lt rt, getExprType left schema = .ok lt ∧ getExprType right schema = .ok rt ∧
      ((isPredicateOp op ∧ dt = .bool) ∨
        (isPredicateOp op = false ∧ arithmeticType lt rt = some dt)) := by
  simp only [getExprType, Result.bind_eq_ok] at h
  obtain ⟨lt, hl, rt, hr, h⟩ := h
  refine ⟨lt, rt, hl, hr, ?_⟩
  split at h
  case h_11 | h_12 | h_13 | h_14 =>
    right
    refine ⟨by decide, ?_⟩
    cases lt <;> cases rt <;> simp_all [arithmeticType, err]
  case h_15 => cases h
  all_goals exact .inl ⟨by decide, (Except.ok.inj h).symm⟩

/-- A value that is `NULL` or exactly of a type. -/
def Value.HasType (dt : DataType) : Value → Prop
  | .null => True
  | .int _ => dt = .int
  | .float _ => dt = .float
  | .varchar _ => dt = .varchar
  | .bool _ => dt = .bool

instance (dt : DataType) (v : Value) : Decidable (v.HasType dt) :=
  match v with
  | .null => inferInstanceAs (Decidable True)
  | .int _ | .float _ | .varchar _ | .bool _ => inferInstanceAs (Decidable (dt = _))

theorem Value.hasType_float {dt : DataType} {f : F64} : (Value.float f).HasType dt ↔ dt = .float :=
  .rfl

section Operators

variable [BuildProfile]

theorem evalBinaryOp_cases (op : String) (l r : Value) :
    (isPredicateOp op ∧ ∃ b, evalBinaryOp op l r = .ok (.bool b)) ∨
      (isPredicateOp op = false ∧
        ((∃ onInt onFloat, evalBinaryOp op l r = arithmetic op onInt onFloat l r) ∨
          evalBinaryOp op l r = err (.unsupportedOperator op))) := by
  unfold evalBinaryOp
  split
  case h_9 | h_10 | h_11 | h_12 => exact .inr ⟨by decide, .inl ⟨_, _, rfl⟩⟩
  case h_15 =>
    refine .inr ⟨?_, .inr rfl⟩
    simp only [isPredicateOp, List.mem_cons, List.not_mem_nil, decide_eq_false_iff_not]
    tauto
  all_goals exact .inl ⟨by decide, _, rfl⟩

theorem checkedInt_safe {message : String} (h : message ≠ "index out of bounds") (exact : ℤ)
    (wrapped : Int64) : Safe (fun _ => True) (checkedInt message exact wrapped) := by
  unfold checkedInt
  split
  · intro hf
    exact h (Fault.panic.inj hf)
  · trivial

omit [BuildProfile] in
theorem arithmetic_safe {op : String} {onInt : Int64 → Int64 → Result Int64}
    (h : ∀ a b, Safe (fun _ => True) (onInt a b)) (onFloat : F64 → F64 → F64) (l r : Value) :
    Safe (fun _ => True) (arithmetic op onInt onFloat l r) := by
  unfold arithmetic
  split
  · exact (h _ _).map fun _ _ => trivial
  · trivial
  · trivial
  · trivial
  · exact .err _ _

omit [BuildProfile] in
theorem i64Div_safe (a b : Int64) : Safe (fun _ => True) (i64Div a b) := by
  unfold i64Div
  split
  · exact .err _ _
  · split
    · intro h
      exact absurd (Fault.panic.inj h) (by decide)
    · trivial

theorem evalBinaryOp_safe (op : String) (l r : Value) :
    Safe (fun _ => True) (evalBinaryOp op l r) := by
  unfold evalBinaryOp
  split
  case h_9 => exact arithmetic_safe (fun _ _ => checkedInt_safe (by decide) _ _) _ _ _
  case h_10 => exact arithmetic_safe (fun _ _ => checkedInt_safe (by decide) _ _) _ _ _
  case h_11 => exact arithmetic_safe (fun _ _ => checkedInt_safe (by decide) _ _) _ _ _
  case h_12 => exact arithmetic_safe i64Div_safe _ _ _
  case h_15 => exact .err _ _
  all_goals trivial

theorem addTo_safe (sum val : Value) : Safe (fun _ => True) (AggState.addTo sum val) := by
  unfold AggState.addTo
  split
  case h_2 => exact (checkedInt_safe (by decide) _ _).map fun _ _ => trivial
  all_goals trivial

omit [BuildProfile] in
theorem Value.hasType_arithmetic {lt rt dt : DataType} {l r v : Value} {op : String}
    {onInt : Int64 → Int64 → Result Int64} {onFloat : F64 → F64 → F64} (hl : l.HasType lt)
    (hr : r.HasType rt) (ht : arithmeticType lt rt = some dt)
    (hv : arithmetic op onInt onFloat l r = .ok v) : v.HasType dt := by
  unfold arithmetic at hv
  split at hv
  · obtain ⟨i, -, rfl⟩ := Result.map_eq_ok.mp hv
    obtain rfl : lt = .int := hl
    obtain rfl : rt = .int := hr
    exact (Option.some_inj.mp ht).symm
  · obtain rfl : lt = .float := hl
    rw [← Except.ok.inj hv]
    cases rt <;> exact (Option.some_inj.mp ht).symm
  · obtain rfl : rt = .float := hr
    rw [← Except.ok.inj hv]
    cases lt <;> exact (Option.some_inj.mp ht).symm
  · obtain rfl : lt = .float := hl
    rw [← Except.ok.inj hv]
    cases rt <;> exact (Option.some_inj.mp ht).symm
  · cases hv

theorem Value.hasType_addTo {dt : DataType} {sum val v : Value} (hs : sum.HasType dt)
    (hv : val.HasType dt) (hr : AggState.addTo sum val = .ok v) : v.HasType dt := by
  unfold AggState.addTo at hr
  split at hr
  · exact Except.ok.inj hr ▸ hv
  · obtain ⟨i, -, rfl⟩ := Result.map_eq_ok.mp hr
    exact hv
  · rw [← Except.ok.inj hr, hasType_float]
    exact hasType_float.mp hv
  · rw [← Except.ok.inj hr, hasType_float]
    exact hasType_float.mp hs
  · rw [← Except.ok.inj hr, hasType_float]
    exact hasType_float.mp hs
  · exact Except.ok.inj hr ▸ hs

end Operators

/-- Which values a column of a type may hold, such that all computations keep to it. -/
structure Discipline [BuildProfile] where
  fits : DataType → Value → Prop
  null (dt : DataType) : fits dt .null
  int (i : Int64) : fits .int (.int i)
  float (f : F64) : fits .float (.float f)
  varchar (s : String) : fits .varchar (.varchar s)
  bool (b : Bool) : fits .bool (.bool b)
  arithmetic {lt rt dt : DataType} {l r v : Value} {op : String}
    {onInt : Int64 → Int64 → Result Int64} {onFloat : F64 → F64 → F64} :
    fits lt l → fits rt r → arithmeticType lt rt = some dt →
    VolcanoDb.arithmetic op onInt onFloat l r = .ok v → fits dt v
  addTo {dt : DataType} {sum val v : Value} :
    fits dt sum → fits dt val → arithmeticType dt dt = some dt →
    AggState.addTo sum val = .ok v → fits dt v

namespace Discipline

variable [BuildProfile]

def exact : Discipline where
  fits dt v := v.HasType dt
  null _ := trivial
  int _ := rfl
  float _ := rfl
  varchar _ := rfl
  bool _ := rfl
  arithmetic := Value.hasType_arithmetic
  addTo hs hv _ := Value.hasType_addTo hs hv

def untyped : Discipline where
  fits _ _ := True
  null _ := trivial
  int _ := trivial
  float _ := trivial
  varchar _ := trivial
  bool _ := trivial
  arithmetic _ _ _ _ := trivial
  addTo _ _ _ _ := trivial

end Discipline

section Cells

variable [BuildProfile] {d : Discipline} {schema : Schema} {dt : DataType}

variable (d) in
/-- A row with one value for each column of a schema, allowed in that column. -/
def Tuple.Fits (schema : Schema) (t : Tuple) : Prop :=
  List.Forall₂ (fun (col : Column) v => d.fits col.dataType v) schema.columns t.values

theorem getExprType_const {v : Value} (h : getExprType (.const v) schema = .ok dt) :
    d.fits dt v := by
  cases v with
  | null => exact d.null dt
  | int i => cases h; exact d.int i
  | float f => cases h; exact d.float f
  | varchar s => cases h; exact d.varchar s
  | bool b => cases h; exact d.bool b

/-- Evaluation over a row of a schema finds every column and keeps to the static types. -/
theorem eval_safe {t : Tuple} (ht : t.Fits d schema) (e : Expr) :
    Safe (fun v => ∀ dt, getExprType e schema = .ok dt → d.fits dt v) (e.eval t schema) := by
  induction e with
  | colRef name =>
    simp only [Expr.eval, getExprType]
    split
    · rename_i i hi
      have hlt := Schema.findColIdx_lt hi
      have hlt' : i < t.values.length := ht.length_eq ▸ hlt
      rw [List.getElem?_eq_getElem hlt, List.getElem?_eq_getElem hlt']
      intro dt hdt
      cases hdt
      exact ht.get hlt hlt'
    · exact .err _ _
  | const v => exact fun dt hdt => getExprType_const hdt
  | binaryOp op left right ihl ihr =>
    refine ihl.bind fun l hl => ihr.bind fun r hr => ?_
    have hsafe := evalBinaryOp_safe op l r
    rcases evalBinaryOp_cases op l r with ⟨hop, b, hv⟩ | ⟨hop, ⟨onInt, onFloat, hv⟩ | hv⟩
    · rw [hv]
      intro dt hdt
      obtain ⟨-, -, -, -, ⟨-, rfl⟩ | ⟨hop', -⟩⟩ := getExprType_binaryOp hdt
      · exact d.bool b
      · rw [hop] at hop'
        cases hop'
    · rw [hv] at hsafe ⊢
      refine hsafe.of_ok fun v hok dt hdt => ?_
      obtain ⟨lt, rt, hlt, hrt, ⟨hop', -⟩ | ⟨-, hnum⟩⟩ := getExprType_binaryOp hdt
      · rw [hop] at hop'
        cases hop'
      · exact d.arithmetic (hl lt hlt) (hr rt hrt) hnum hok
    · rw [hv]
      exact .err _ _
  | funcCall name arg => exact .err _ _
  | star => exact .err _ _

theorem mapM_eval_safe {t : Tuple} (ht : t.Fits d schema) {exprs : List Expr} {cols : List Column}
    (h : List.Forall₂ (fun e (col : Column) => getExprType e schema = .ok col.dataType)
      exprs cols) :
    Safe (List.Forall₂ (fun (col : Column) v => d.fits col.dataType v) cols)
      (exprs.mapM fun e => e.eval t schema) :=
  .mapM (h.imp fun e (col : Column) he => (eval_safe ht e).imp fun _ hv => hv col.dataType he)

variable (d) in
/-- An accumulator of an aggregate with a type, over arguments of a type. -/
def AggState.Fits (argType : Result DataType) (dt : DataType) : AggState → Prop
  | .count _ => dt = .int
  | .sum v => argType = .ok dt ∧ arithmeticType dt dt = some dt ∧ d.fits dt v
  | .avg _ _ => dt = .float
  | .min v | .max v => argType = .ok dt ∧ d.fits dt v

theorem AggState.new_safe {func : String} {arg : Expr}
    (h : aggColumnType func arg schema = .ok dt) :
    Safe (AggState.Fits d (getExprType arg schema) dt) (AggState.new func) := by
  unfold aggColumnType at h
  split at h
  · exact (Except.ok.inj h).symm
  · obtain ⟨at', hat, h⟩ := Result.bind_eq_ok.mp h
    cases at' <;> cases h
    · exact ⟨hat, rfl, d.null _⟩
    · exact ⟨hat, rfl, d.null _⟩
  · obtain ⟨at', hat, h⟩ := Result.bind_eq_ok.mp h
    cases at' <;> cases h <;> rfl
  · exact ⟨h, d.null _⟩
  · exact ⟨h, d.null _⟩
  · cases h

theorem AggState.update_safe {argType : Result DataType} {state : AggState} {v : Value}
    (hs : state.Fits d argType dt) (hv : ∀ dt, argType = .ok dt → d.fits dt v) :
    Safe (AggState.Fits d argType dt) (state.update v) := by
  have hcount (n : Int64) : Safe (fun _ => True) (i64Add n 1) := checkedInt_safe (by decide) _ _
  unfold AggState.update
  split
  · exact hs
  · split
    · exact (hcount _).map fun _ _ => hs
    · rename_i s
      obtain ⟨hat, hnum, hfits⟩ := hs
      refine Safe.map ((addTo_safe s v).of_ok fun w hw => ?_) fun _ h => h
      exact ⟨hat, hnum, d.addTo hfits (hv dt hat) hnum hw⟩
    · exact (hcount _).bind fun _ _ => (addTo_safe _ _).bind fun _ _ => hs
    · exact ⟨hs.1, hv dt hs.1⟩
    · refine ⟨hs.1, ?_⟩
      split
      · exact hv dt hs.1
      · exact hs.2
    · exact ⟨hs.1, hv dt hs.1⟩
    · refine ⟨hs.1, ?_⟩
      split
      · exact hv dt hs.1
      · exact hs.2

theorem AggState.finalize_fits {argType : Result DataType} {state : AggState}
    (hs : state.Fits d argType dt) : d.fits dt state.finalize := by
  cases state with
  | count n => exact hs ▸ d.int n
  | sum v => exact hs.2.2
  | avg v n =>
    obtain rfl : dt = .float := hs
    simp only [AggState.finalize]
    split
    · exact d.null _
    · split
      · exact d.float _
      · exact d.float _
      · exact d.null _
  | min v => exact hs.2
  | max v => exact hs.2

end Cells

end VolcanoDb
