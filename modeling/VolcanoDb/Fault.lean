import Mathlib.Data.List.Forall2
import Mathlib.Data.Nat.Notation

/-! # Errors and panics

Every fallible function of the engine either returns an `anyhow` error, whose
text becomes the client's response, or panics. A panic is not an error: it
unwinds the connection thread while the database mutex is held.
-/

namespace VolcanoDb

/-- The errors of the engine, one constructor for each message in the source. -/
inductive DbError where
  | evalStar
  | columnNotFound (name : String) (available : List String)
  | aggregateOutside (name arg : String)
  | invalidTypes (op : String)
  | divisionByZero
  | unsupportedOperator (op : String)
  | columnTypeNotFound (name : String)
  | nonNumericArithmetic
  | nonNumericAggregate (dataType : String)
  | unsupportedAggregate (name : String)
  | starType
  | tableNotInCatalog (name : String)
  | nonNumericAggregateColumn
  | parse (text : String)
  | emptyQuery
  | unsupportedDataType (debug : String)
  | missingSource
  | onlyValues
  | unsupportedStatement (debug : String)
  | number (text : String)
  | unsupportedLiteral (debug : String)
  | unsupportedBinaryOperator (debug : String)
  | unsupportedFunction (name : String)
  | subqueryArgument
  | unsupportedArgument
  | unsupportedExpression (debug : String)
  | unsupportedBody (debug : String)
  | unsupportedJoin (debug : String)
  | unsupportedItem (debug : String)
  | groupByAll
  | unsupportedFactor (debug : String)
  | tableNotInStorage (name : String)
  | activeTransaction
  | noTransaction
  | tableExists (name : String)
  | tableNotFound (name : String)
  | storageMissing (name : String)
  | columnCount (expected provided : ℕ)
  | insertValue (position : ℕ) (cause : DbError)
  | invalidUtf8
  deriving DecidableEq

/-- The Unicode tables of the standard library. -/
class Unicode where
  toUppercase : String → String
  toLowercase : String → String
  /-- Whether `Debug` prints a character beyond ASCII as it is. -/
  printable : Char → Bool

section Text

variable [Unicode]

def debugChar (c : Char) : List Char :=
  if c = '"' then ['\\', '"'] else if c = '\\' then ['\\', '\\']
  else if c = '\n' then ['\\', 'n'] else if c = '\r' then ['\\', 'r']
  else if c = '\t' then ['\\', 't'] else if c = '\x00' then ['\\', '0']
  else if (32 ≤ c.toNat ∧ c.toNat < 127) ∨ (128 ≤ c.toNat ∧ Unicode.printable c) then [c]
  else ['\\', 'u', '\x7b'] ++ Nat.toDigits 16 c.toNat ++ ['\x7d']

/-- A string as `Debug` prints it. -/
def debugString (s : String) : String := String.ofList ('"' :: s.toList.flatMap debugChar ++ ['"'])

def debugStrings (l : List String) : String :=
  "[" ++ ", ".intercalate (l.map debugString) ++ "]"

/-- The text of an error; a context hides the error it wraps. -/
def DbError.text : DbError → String
  | evalStar => "Cannot evaluate Star expression directly"
  | columnNotFound name available =>
      s!"Column not found in schema: {name} (available columns: {debugStrings available})"
  | aggregateOutside name arg =>
      s!"Aggregate function {name}({arg}) cannot be evaluated directly outside Aggregation operator"
  | invalidTypes op => s!"Invalid types for {op}"
  | divisionByZero => "Division by zero"
  | unsupportedOperator op => s!"Unsupported operator: {op}"
  | columnTypeNotFound name => s!"Column not found in schema: {name}"
  | nonNumericArithmetic => "Arithmetic operations only supported on numeric types"
  | nonNumericAggregate dataType => s!"Cannot aggregate non-numeric type: {dataType}"
  | unsupportedAggregate name => s!"Unsupported aggregate function: {name}"
  | starType => "Star expression has no direct data type"
  | tableNotInCatalog name => s!"Table not found in catalog: {name}"
  | nonNumericAggregateColumn => "Cannot aggregate non-numeric type"
  | parse text => text
  | emptyQuery => "Empty SQL query"
  | unsupportedDataType debug => s!"Unsupported column datatype: {debug}"
  | missingSource => "Missing source in INSERT"
  | onlyValues => "Only INSERT INTO ... VALUES is supported"
  | unsupportedStatement debug => s!"Unsupported SQL statement: {debug}"
  | number text => text
  | unsupportedLiteral debug => s!"Unsupported SQL literal: {debug}"
  | unsupportedBinaryOperator debug => s!"Unsupported operator: {debug}"
  | unsupportedFunction name => s!"Unsupported function: {name}"
  | subqueryArgument => "Subqueries in function arguments are not supported"
  | unsupportedArgument => "Unsupported function argument type"
  | unsupportedExpression debug => s!"Unsupported SQL expression: {debug}"
  | unsupportedBody debug => s!"Unsupported query body: {debug}"
  | unsupportedJoin debug => s!"Unsupported join operator: {debug}"
  | unsupportedItem debug => s!"Unsupported select item: {debug}"
  | groupByAll => "GROUP BY ALL is not supported"
  | unsupportedFactor debug => s!"Unsupported FROM table factor: {debug}"
  | tableNotInStorage name => s!"Table not found in storage: {name}"
  | activeTransaction => "已有活跃事务, 请先 COMMIT 或 ROLLBACK"
  | noTransaction => "没有活跃事务"
  | tableExists name => s!"Table '{name}' already exists"
  | tableNotFound name => s!"Table '{name}' not found"
  | storageMissing name => s!"Table storage not initialized for '{name}'"
  | columnCount expected provided =>
      s!"Insert column count mismatch: table has {expected}, query provided {provided}"
  | insertValue position _ => s!"Failed to evaluate insert value at position {position}"
  | invalidUtf8 => "stream did not contain valid UTF-8"

end Text

/-- How a computation ends when it yields no value. -/
inductive Fault where
  | error (e : DbError)
  | panic (message : String)
  deriving DecidableEq

/-- A computation that returns a value, an error or a panic; `?` is its bind. -/
abbrev Result (α : Type*) := Except Fault α

def err {α : Type*} (e : DbError) : Result α := .error (.error e)

def panicking {α : Type*} (message : String) : Result α := .error (.panic message)

namespace Result

universe u

variable {α β : Type u}

@[simp] theorem pure_eq_ok (a : α) : (pure a : Result α) = .ok a := rfl

@[simp] theorem ok_bind (a : α) (f : α → Result β) : (Except.ok a >>= f) = f a := rfl

@[simp] theorem error_bind (e : Fault) (f : α → Result β) :
    ((Except.error e : Result α) >>= f) = .error e := rfl

@[simp] theorem map_ok (f : α → β) (a : α) : f <$> (Except.ok a : Result α) = .ok (f a) := rfl

@[simp] theorem map_error (f : α → β) (e : Fault) :
    f <$> (Except.error e : Result α) = .error e := rfl

@[simp] theorem bind_eq_ok {x : Result α} {f : α → Result β} {b : β} :
    x >>= f = .ok b ↔ ∃ a, x = .ok a ∧ f a = .ok b := by
  cases x <;> simp

theorem bind_eq_error {x : Result α} {f : α → Result β} {e : Fault} :
    x >>= f = .error e ↔ x = .error e ∨ ∃ a, x = .ok a ∧ f a = .error e := by
  cases x <;> simp

@[simp] theorem map_eq_ok {f : α → β} {x : Result α} {b : β} :
    f <$> x = .ok b ↔ ∃ a, x = .ok a ∧ f a = b := by
  cases x <;> simp

@[simp] theorem toOption_eq_some {x : Result α} {a : α} : x.toOption = some a ↔ x = .ok a := by
  cases x <;> simp [Except.toOption]

@[simp] theorem toOption_ok (a : α) : (Except.ok a : Result α).toOption = some a := rfl

@[simp] theorem toOption_error (e : Fault) : (Except.error e : Result α).toOption = none := rfl

theorem toOption_bind (x : Result α) (f : α → Result β) :
    (x >>= f).toOption = x.toOption >>= fun a => (f a).toOption := by
  cases x <;> rfl

theorem mapM_eq_ok {f : α → Result β} {g : α → β} {l : List α} (h : ∀ a ∈ l, f a = .ok (g a)) :
    l.mapM f = .ok (l.map g) := by
  induction l with
  | nil => rfl
  | cons a l ih =>
    obtain ⟨ha, hl⟩ := List.forall_mem_cons.mp h
    simp [ha, ih hl]

theorem forall₂_of_mapM_eq_ok {f : α → Result β} {l : List α} {bs : List β}
    (h : l.mapM f = .ok bs) : List.Forall₂ (fun a b => f a = .ok b) l bs := by
  induction l generalizing bs with
  | nil => cases h; exact .nil
  | cons a l ih =>
    rw [List.mapM_cons] at h
    obtain ⟨b, hb, h⟩ := bind_eq_ok.mp h
    obtain ⟨bs, hbs, h⟩ := bind_eq_ok.mp h
    cases h
    exact .cons hb (ih hbs)

theorem mapM_eq_ok_of_forall₂ {f : α → Result β} {l : List α} {bs : List β}
    (h : List.Forall₂ (fun a b => f a = .ok b) l bs) : l.mapM f = .ok bs := by
  induction h with
  | nil => rfl
  | cons ha _ ih => simp [ha, ih]

theorem mapM_bind_eq_ok {γ : Type u} {f : α → Result β} {g : β → Result γ} {l : List α}
    {cs : List γ} :
    (l.mapM fun a => f a >>= g) = .ok cs ↔ ∃ bs, l.mapM f = .ok bs ∧ bs.mapM g = .ok cs := by
  induction l generalizing cs with
  | nil => simp
  | cons a l ih =>
    simp only [List.mapM_cons, bind_eq_ok, pure_eq_ok, Except.ok.injEq, ih]
    constructor
    · rintro ⟨c, ⟨b, hb, hc⟩, cs', ⟨bs, hbs, hcs⟩, rfl⟩
      exact ⟨b :: bs, ⟨b, hb, bs, hbs, rfl⟩, by simp [hc, hcs]⟩
    · rintro ⟨_, ⟨b, hb, bs, hbs, rfl⟩, hcs⟩
      simp only [List.mapM_cons, bind_eq_ok, pure_eq_ok, Except.ok.injEq] at hcs
      obtain ⟨c, hc, cs', hcs', hcons⟩ := hcs
      exact ⟨c, ⟨b, hb, hc⟩, cs', ⟨bs, hbs, hcs'⟩, hcons⟩

theorem exists_of_mem_mapM {f : α → Result β} {l : List α} {bs : List β} {b : β}
    (h : l.mapM f = .ok bs) (hb : b ∈ bs) : ∃ a ∈ l, f a = .ok b := by
  obtain ⟨n, hn, rfl⟩ := List.getElem_of_mem hb
  have hall := forall₂_of_mapM_eq_ok h
  exact ⟨_, List.getElem_mem (hall.length_eq ▸ hn), hall.get _ hn⟩

theorem exists_of_mapM_eq_ok {f : α → Result β} {l : List α} {bs : List β} {a : α}
    (h : l.mapM f = .ok bs) (ha : a ∈ l) : ∃ b, f a = .ok b := by
  obtain ⟨n, hn, rfl⟩ := List.getElem_of_mem ha
  have hall := forall₂_of_mapM_eq_ok h
  exact ⟨_, hall.get hn (hall.length_eq ▸ hn)⟩

theorem exists_of_mapM_eq_error {f : α → Result β} {l : List α} {e : Fault}
    (h : l.mapM f = .error e) : ∃ a ∈ l, f a = .error e := by
  induction l with
  | nil => cases h
  | cons a l ih =>
    rw [List.mapM_cons] at h
    rcases ha : f a with e' | b
    · rw [ha, error_bind] at h
      cases h
      exact ⟨a, List.mem_cons_self, ha⟩
    · rcases hl : l.mapM f with e' | bs
      · rw [ha, hl, ok_bind, error_bind] at h
        obtain ⟨a', ha', he⟩ := ih (hl.trans (by cases h; rfl))
        exact ⟨a', List.mem_cons_of_mem _ ha', he⟩
      · rw [ha, hl] at h
        cases h

end Result

end VolcanoDb
