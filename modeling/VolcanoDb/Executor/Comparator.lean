import VolcanoDb.Executor.Ordering
import VolcanoDb.Lib.MixedKeys

/-! # The comparator of a sort

Values of different types are incomparable, and the comparator takes them for
equal, `NULL` included. It is a strict weak order on rows exactly if no value of
another type stands between two different values of one type.
-/

namespace VolcanoDb

open StableSort

def Value.kind : Value → Option DataType
  | null => none
  | int _ => some .int
  | float _ => some .float
  | varchar _ => some .varchar
  | bool _ => some .bool

namespace Value

def order (a b : Value) : Ordering := (a.partialCmp b).getD .eq

theorem order_swap {a b : Value} (ha : a.kind ≠ some .float) (hb : b.kind ≠ some .float) :
    b.order a = (a.order b).swap := by
  cases a with
  | null => cases b <;> rfl
  | float => exact absurd rfl ha
  | int i =>
    cases b with
    | int j =>
      have hint : Std.OrientedCmp (compareOn Int64.toInt) := inferInstance
      exact hint.eq_swap
    | float => exact absurd rfl hb
    | _ => rfl
  | varchar s =>
    cases b with
    | varchar s' =>
      have hstring : Std.OrientedCmp fun s s' : String => compare s s' := inferInstance
      exact hstring.eq_swap
    | _ => rfl
  | bool x =>
    cases b with
    | bool y =>
      have hbool : Std.OrientedCmp fun x y : Bool => compare x y := inferInstance
      exact hbool.eq_swap
    | _ => rfl

theorem order_of_kind_ne {a b : Value} (ha : a.kind ≠ some .float) (hb : b.kind ≠ some .float)
    (h : a.kind ≠ b.kind) : a.order b = .eq := by
  cases a <;> cases b <;> simp_all [kind, order, partialCmp]

theorem order_trans {a b c : Value} (ha : a.kind ≠ some .float) (hab : a.kind = b.kind)
    (hbc : b.kind = c.kind) (h : (a.order b).isLE) (h' : (b.order c).isLE) :
    (a.order c).isLE := by
  cases a with
  | float => exact absurd rfl ha
  | null => cases b <;> cases hab; cases c <;> cases hbc; rfl
  | int i =>
    cases b <;> cases hab
    cases c <;> cases hbc
    have hint : Std.TransCmp (compareOn Int64.toInt) := inferInstance
    exact hint.isLE_trans h h'
  | varchar s =>
    cases b <;> cases hab
    cases c <;> cases hbc
    have hstring : Std.TransCmp fun s s' : String => compare s s' := inferInstance
    exact hstring.isLE_trans h h'
  | bool x =>
    cases b <;> cases hab
    cases c <;> cases hbc
    have hbool : Std.TransCmp fun x y : Bool => compare x y := inferInstance
    exact hbool.isLE_trans h h'

theorem eq_null_of_kind {v : Value} (h : v.kind = none) : v = null := by
  cases v <;> cases h
  rfl

theorem order_le_ge {dt : DataType} {v w : Value} (hv : v.kind = some dt)
    (hw : w.kind = some dt) (hdt : dt ≠ .float) :
    ((v.order w).isLE → v.le w) ∧ ((v.order w).swap.isLE → v.ge w) := by
  have hcmp : v.partialCmp w = some (v.order w) := by
    cases v <;> cases hv <;> cases w <;> cases hw <;> simp_all [order, partialCmp]
  constructor
  · intro h
    rw [le, hcmp]
    cases ho : v.order w <;> simp_all
  · intro h
    rw [ge, hcmp]
    cases ho : v.order w <;> simp_all

end Value

section Keys

variable [BuildProfile] (schema : Schema)

/-- The value of a key on a row; a failed evaluation counts as `NULL`. -/
def keyVal (expr : Expr) (t : Tuple) : Value :=
  (orNull (expr.eval t schema)).toOption.getD .null

def sortKey (key : Expr × Bool) : SortedKey Tuple (Option DataType) where
  cmp a b :=
    let ord := (keyVal schema key.1 a).order (keyVal schema key.1 b)
    if key.2 then ord else ord.swap
  sort t := (keyVal schema key.1 t).kind

/-- The keys of a sort do not panic on rows, and their values are not doubles. -/
def KeysEvaluate (orderBy : List (Expr × Bool)) (l : List Tuple) : Prop :=
  ∀ key ∈ orderBy, ∀ t ∈ l, ∃ v, orNull (key.1.eval t schema) = .ok v ∧ v.kind ≠ some .float

variable {schema} {orderBy : List (Expr × Bool)} {l : List Tuple}

theorem keyVal_eq {expr : Expr} {t : Tuple} {v : Value}
    (h : orNull (expr.eval t schema) = .ok v) : keyVal schema expr t = v := by
  rw [keyVal, h]
  rfl

theorem sortKey_lawful {key : Expr × Bool}
    (h : ∀ t ∈ l, ∃ v, orNull (key.1.eval t schema) = .ok v ∧ v.kind ≠ some .float) :
    (sortKey schema key).Lawful l := by
  have hkind (t : Tuple) (ht : t ∈ l) : (keyVal schema key.1 t).kind ≠ some .float := by
    obtain ⟨v, hv, hk⟩ := h t ht
    rwa [keyVal_eq hv]
  have hcmp (a b : Tuple) : (sortKey schema key).cmp a b =
      if key.2 then (keyVal schema key.1 a).order (keyVal schema key.1 b)
      else ((keyVal schema key.1 a).order (keyVal schema key.1 b)).swap := rfl
  constructor
  · intro a ha b hb
    rw [hcmp, hcmp, Value.order_swap (hkind a ha) (hkind b hb)]
    cases key.2 <;> rfl
  · intro a ha b hb c hc hab hbc h h'
    rw [hcmp] at h h' ⊢
    cases hdir : key.2
    · rw [hdir] at h h'
      simp only [Bool.false_eq_true, if_false] at h h' ⊢
      rw [← Value.order_swap (hkind a ha) (hkind b hb)] at h
      rw [← Value.order_swap (hkind b hb) (hkind c hc)] at h'
      rw [← Value.order_swap (hkind a ha) (hkind c hc)]
      exact Value.order_trans (hkind c hc) hbc.symm hab.symm h' h
    · rw [hdir] at h h'
      exact Value.order_trans (hkind a ha) hab hbc h h'
  · intro a ha b hb hne
    rw [hcmp, Value.order_of_kind_ne (hkind a ha) (hkind b hb) hne]
    cases key.2 <;> rfl

/-- The comparator compares by the keys one after the other. -/
theorem compareKeys_eq_lexCmp (h : KeysEvaluate schema orderBy l) {a b : Tuple} (ha : a ∈ l)
    (hb : b ∈ l) :
    compareKeys schema a b orderBy =
      .ok (SortedKey.lexCmp (orderBy.map (sortKey schema)) a b) := by
  induction orderBy with
  | nil => rfl
  | cons key orderBy ih =>
    obtain ⟨hkey, hkeys⟩ := List.forall_mem_cons.mp h
    obtain ⟨v, hv, -⟩ := hkey a ha
    obtain ⟨w, hw, -⟩ := hkey b hb
    have hcmp : (sortKey schema key).cmp a b = if key.2 then v.order w else (v.order w).swap := by
      rw [← keyVal_eq hv, ← keyVal_eq hw]
      rfl
    obtain ⟨expr, asc⟩ := key
    rw [List.map_cons, SortedKey.lexCmp, hcmp]
    have horder : (v.partialCmp w).getD .eq = v.order w := rfl
    simp only [compareKeys, hv, hw, Result.ok_bind, ih hkeys, horder]
    rcases v.order w <;> cases asc <;> rfl

theorem keyOrder_eq_lexCmp (h : KeysEvaluate schema orderBy l) {a b : Tuple} (ha : a ∈ l)
    (hb : b ∈ l) :
    keyOrder schema orderBy a b = SortedKey.lexCmp (orderBy.map (sortKey schema)) a b := by
  rw [keyOrder, compareKeys_eq_lexCmp h ha hb]

variable (schema orderBy l) in
/--
The comparator is a strict weak order on the rows, and the values of a first key
of one type come out of the sort in their order, wherever `NULL` stands.
-/
structure SortsProperly [Collections] : Prop where
  order : StrictWeakOn (keyOrder schema orderBy) l
  monotone : ∀ expr asc rest dt, orderBy = (expr, asc) :: rest →
    (∀ t ∈ l, (keyVal schema expr t).kind = none ∨ (keyVal schema expr t).kind = some dt) →
    ∃ l', Collections.sortBy (fun a b => compareKeys schema a b orderBy) l = .ok l' ∧ l'.Perm l ∧
      l'.Pairwise fun a b => keyVal schema expr a ≠ .null → keyVal schema expr b ≠ .null →
        if asc then (keyVal schema expr a).le (keyVal schema expr b)
        else (keyVal schema expr a).ge (keyVal schema expr b)

/--
A sort whose keys evaluate to `NULL`, integers, strings and truth values is proper
if and only if its keys separate any three rows.
-/
theorem sortsProperly_iff [Collections] (hsort : SortsStably)
    (hkeys : KeysEvaluate schema orderBy l) :
    SortsProperly schema orderBy l ↔
      ∀ a ∈ l, ∀ b ∈ l, ∀ c ∈ l, SortedKey.Separable (orderBy.map (sortKey schema)) a b c := by
  have hlawful : ∀ k ∈ orderBy.map (sortKey schema), k.Lawful l :=
    List.forall_mem_map.mpr fun key hkey => sortKey_lawful (hkeys key hkey)
  have horder {a b : Tuple} (ha : a ∈ l) (hb : b ∈ l) := keyOrder_eq_lexCmp hkeys ha hb
  rw [← SortedKey.ordersOn_lexCmp_iff hlawful]
  constructor
  · intro h
    exact (strictWeakOn_iff.mp h.order).congr fun a ha b hb => (horder ha hb).symm
  · intro h
    have hord : OrdersOn (keyOrder schema orderBy) l := h.congr fun a ha b hb => horder ha hb
    refine ⟨strictWeakOn_iff.mpr hord, ?_⟩
    rintro expr asc rest dt rfl hkind
    have hcmp : ∀ a ∈ l, ∀ b ∈ l, compareKeys schema a b ((expr, asc) :: rest) =
        .ok (keyOrder schema ((expr, asc) :: rest) a b) := fun a ha b hb => by
      rw [horder ha hb, compareKeys_eq_lexCmp hkeys ha hb]
    obtain ⟨l', hl', hstable⟩ := hsort _ _ l hcmp hord
    refine ⟨l', hl', hstable.perm, hstable.sorted.imp_of_mem fun {a b} ha hb hle hna hnb => ?_⟩
    have ha := hstable.perm.mem_iff.mp ha
    have hb := hstable.perm.mem_iff.mp hb
    have hka := (hkind a ha).resolve_left fun h => hna (Value.eq_null_of_kind h)
    have hkb := (hkind b hb).resolve_left fun h => hnb (Value.eq_null_of_kind h)
    have hdt : dt ≠ .float := by
      rintro rfl
      obtain ⟨v, hv, hfloat⟩ := hkeys _ List.mem_cons_self a ha
      rw [keyVal_eq hv] at hka
      exact hfloat hka
    obtain ⟨hasc, hdesc⟩ := Value.order_le_ge hka hkb hdt
    have hfirst : ((sortKey schema (expr, asc)).cmp a b).isLE := by
      rw [horder ha hb, List.map_cons, SortedKey.lexCmp] at hle
      cases hcmp : (sortKey schema (expr, asc)).cmp a b <;> simp_all
    cases asc
    · exact hdesc hfirst
    · exact hasc hfirst

end Keys

section Sample

open Sample

theorem sortsProperly_users :
    let _ : BuildProfile := ⟨true⟩
    let _ := insertionCollections
    let schema : Schema := ⟨[⟨"t.id", .int⟩, ⟨"t.name", .varchar⟩]⟩
    SortsProperly schema [(.colRef "name", true), (.colRef "id", false)] userRows := by
  intro _ _ schema
  have hread : ∀ t ∈ userRows, ∃ id name,
      orNull ((Expr.colRef "id").eval t schema) = .ok (.int id) ∧
      orNull ((Expr.colRef "name").eval t schema) = .ok (.varchar name) := by
    intro t ht
    rcases List.mem_pair.mp ht with rfl | rfl
    · exact ⟨2, "b", by decide +kernel, by decide +kernel⟩
    · exact ⟨1, "a", by decide +kernel, by decide +kernel⟩
  have hkeys : KeysEvaluate schema [(.colRef "name", true), (.colRef "id", false)] userRows := by
    intro key hkey t ht
    obtain ⟨id, name, hid, hname⟩ := hread t ht
    rcases List.mem_pair.mp hkey with rfl | rfl
    · exact ⟨_, hname, by rintro ⟨⟩⟩
    · exact ⟨_, hid, by rintro ⟨⟩⟩
  refine (sortsProperly_iff sortsStably_insertionCollections hkeys).mpr
    (SortedKey.separable_of_sort_eq (List.forall_mem_map.mpr fun key hkey a ha b hb => ?_))
  obtain ⟨id, name, hid, hname⟩ := hread a ha
  obtain ⟨id', name', hid', hname'⟩ := hread b hb
  rcases List.mem_pair.mp hkey with rfl | rfl
  · simp only [sortKey, keyVal_eq hname, keyVal_eq hname']
    rfl
  · simp only [sortKey, keyVal_eq hid, keyVal_eq hid']
    rfl

/-- `2`, `NULL` and `1`: both numbers are equal to `NULL`, and the sort leaves them as they are. -/
theorem null_breaks_comparator :
    let _ : BuildProfile := ⟨true⟩
    let _ := insertionCollections
    let catalog := Catalog.new.addTable "t" ⟨[⟨"a", .int⟩]⟩
    let rows : List Tuple := [⟨[.int 2], none, 0⟩, ⟨[.null], none, 0⟩, ⟨[.int 1], none, 0⟩]
    let context := { userContext with tables := AList.insert "t" rows ∅ }
    let orderBy : List (Expr × Bool) := [(.colRef "a", true)]
    executeQuery context catalog (.sort (.scan "t" none) orderBy) = .ok rows ∧
    ¬ SortsProperly ⟨[⟨"t.a", .int⟩]⟩ orderBy rows := by
  intro _ _ catalog rows context orderBy
  refine ⟨by decide +kernel, fun h => ?_⟩
  have h := h.order.eq_trans ⟨[.int 2], none, 0⟩ (by decide) ⟨[.null], none, 0⟩ (by decide)
    ⟨[.int 1], none, 0⟩ (by decide) (by decide +kernel) (by decide +kernel)
  exact absurd h (by decide +kernel)

end Sample

end VolcanoDb
