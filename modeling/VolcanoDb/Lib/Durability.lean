import Mathlib.Data.List.Basic
import VolcanoDb.Lib.History

/-! # Durable histories

What survives of a sequence of lifetimes. A log keeps a durable part of each
lifetime's history, and a recovery keeps the writes of transactions that the
whole log shows as committed and not aborted. Whether these are the committed
writes of the lifetimes depends on how identifiers are used again.
-/

namespace History

open TxEvent

variable {ι α : Type*}

section Writes

variable {p q : ι → Prop} [DecidablePred p] [DecidablePred q] {h f : List (TxEvent ι α)}

def ownedWrite (p : ι → Prop) [DecidablePred p] : TxEvent ι α → Option (ι × α)
  | .write (some i) a => if p i then some (i, a) else none
  | _ => none

def writesOf (p : ι → Prop) [DecidablePred p] (h : List (TxEvent ι α)) : List (ι × α) :=
  h.filterMap (ownedWrite p)

theorem ownedWrite_eq_some {e : TxEvent ι α} {w : ι × α} :
    ownedWrite p e = some w ↔ e = .write (some w.1) w.2 ∧ p w.1 := by
  constructor
  · intro h
    unfold ownedWrite at h
    split at h
    · split at h
      · cases h; exact ⟨rfl, ‹_›⟩
      · cases h
    · cases h
  · rintro ⟨rfl, hp⟩
    simp [ownedWrite, hp]

theorem writesOf_append : writesOf p (h ++ f) = writesOf p h ++ writesOf p f :=
  List.filterMap_append

theorem mem_writesOf {w : ι × α} : w ∈ writesOf p h ↔ .write (some w.1) w.2 ∈ h ∧ p w.1 := by
  simp only [writesOf, List.mem_filterMap, ownedWrite_eq_some]
  constructor
  · rintro ⟨_, he, rfl, hp⟩
    exact ⟨he, hp⟩
  · rintro ⟨he, hp⟩
    exact ⟨_, he, rfl, hp⟩

def writesWhen (r : ι → List (TxEvent ι α) → Prop) [∀ i b, Decidable (r i b)] :
    List (TxEvent ι α) → List (ι × α)
  | [] => []
  | e :: b => (ownedWrite (r · b) e).toList ++ writesWhen r b

variable {r s : ι → List (TxEvent ι α) → Prop} [∀ i b, Decidable (r i b)]
  [∀ i b, Decidable (s i b)]

theorem writesOf_eq_writesWhen : writesOf p h = writesWhen (fun i _ => p i) h := by
  induction h with
  | nil => rfl
  | cons e h ih =>
    rw [writesWhen, ← ih, writesOf, List.filterMap_cons]
    rcases ownedWrite p e with _ | w <;> rfl

theorem mem_writesWhen {w : ι × α} : w ∈ writesWhen r h ↔
    ∃ h₁ h₂, h = h₁ ++ .write (some w.1) w.2 :: h₂ ∧ r w.1 h₂ := by
  induction h with
  | nil => simp [writesWhen]
  | cons e h ih =>
    rw [writesWhen, List.mem_append, Option.mem_toList, ownedWrite_eq_some, ih]
    constructor
    · rintro (⟨rfl, hr⟩ | ⟨h₁, h₂, rfl, hr⟩)
      · exact ⟨[], h, rfl, hr⟩
      · exact ⟨e :: h₁, h₂, rfl, hr⟩
    · rintro ⟨_ | ⟨e', h₁⟩, h₂, heq, hr⟩
      · obtain ⟨rfl, rfl⟩ := List.cons.inj heq
        exact .inl ⟨rfl, hr⟩
      · obtain ⟨rfl, rfl⟩ := List.cons.inj heq
        exact .inr ⟨h₁, h₂, rfl, hr⟩

theorem writesWhen_append : writesWhen r (h ++ f) =
    writesWhen (fun i h₂ => r i (h₂ ++ f)) h ++ writesWhen r f := by
  induction h with
  | nil => rfl
  | cons e h ih => rw [List.cons_append, writesWhen, writesWhen, ih, List.append_assoc]

theorem writesWhen_sublist
    (hrs : ∀ h₁ i a h₂, h = h₁ ++ .write (some i) a :: h₂ → r i h₂ → s i h₂) :
    (writesWhen r h).Sublist (writesWhen s h) := by
  induction h with
  | nil => exact .slnil
  | cons e h ih =>
    have ih := ih fun h₁ i a h₂ heq => hrs (e :: h₁) i a h₂ (by rw [heq, List.cons_append])
    apply List.Sublist.append _ ih
    rcases hw : ownedWrite (r · h) e with _ | w
    · exact List.nil_sublist _
    · obtain ⟨rfl, hr⟩ := ownedWrite_eq_some.mp hw
      rw [ownedWrite_eq_some.mpr ⟨rfl, hrs [] _ _ h rfl hr⟩]

theorem writesWhen_congr
    (hrs : ∀ h₁ i a h₂, h = h₁ ++ .write (some i) a :: h₂ → (r i h₂ ↔ s i h₂)) :
    writesWhen r h = writesWhen s h :=
  (writesWhen_sublist fun h₁ i a h₂ heq => (hrs h₁ i a h₂ heq).mp).antisymm
    (writesWhen_sublist fun h₁ i a h₂ heq => (hrs h₁ i a h₂ heq).mpr)

theorem writesOf_congr (hpq : ∀ i a, .write (some i) a ∈ h → (p i ↔ q i)) :
    writesOf p h = writesOf q h := by
  rw [writesOf_eq_writesWhen, writesOf_eq_writesWhen]
  apply writesWhen_congr
  rintro h₁ i a h₂ rfl
  exact hpq i a (by simp)

theorem writesOf_filter_inTx : writesOf p (h.filter inTx) = writesOf p h := by
  rw [writesOf, List.filterMap_filter]
  apply List.filterMap_congr
  intro e _
  split
  · rfl
  · rename_i hn
    ext w
    refine iff_of_false (by simp) fun hw => ?_
    obtain ⟨rfl, -⟩ := ownedWrite_eq_some.mp hw
    exact hn rfl

end Writes

section Durable

variable {h f g b : List (TxEvent ι α)} {i : ι}

/-- A beginning of a history's transactional events that misses only events of open ones. -/
def Durable (h f : List (TxEvent ι α)) : Prop :=
  ∃ g, h.filter inTx = f ++ g ∧ ∀ e ∈ g, ∀ i, e.owner = some i → Open h i

theorem Durable.subset (hd : Durable h f) : f ⊆ h := by
  obtain ⟨g, hg, -⟩ := hd
  intro e he
  exact (List.mem_filter.mp (hg ▸ List.mem_append_left g he)).1

theorem Durable.legal (hd : Durable h f) (hl : Legal h) : Legal f := by
  obtain ⟨g, hg, -⟩ := hd
  exact (hg ▸ hl.filter_inTx).of_append

theorem Durable.mem_of_not_open (hd : Durable h f) {e : TxEvent ι α} (he : e ∈ h)
    (ho : e.owner = some i) (hn : ¬ Open h i) : e ∈ f := by
  obtain ⟨g, hg, hopen⟩ := hd
  have hm : e ∈ f ++ g := hg ▸ (mem_filter_inTx ho).mpr he
  exact (List.mem_append.mp hm).resolve_right fun hm => hn (hopen e hm i ho)

theorem Durable.commit_iff (hd : Durable h f) : .commit i ∈ f ↔ .commit i ∈ h :=
  ⟨fun he => hd.subset he, fun he => hd.mem_of_not_open he rfl fun ho => ho.not_commit he⟩

end Durable

section LastCommit

variable {f b : List (TxEvent ι α)} {i : ι}

/-- A commit of a transaction that is the last word about it. -/
def LastCommit (b : List (TxEvent ι α)) (i : ι) : Prop :=
  ∃ b₁ b₂, b = b₁ ++ .commit i :: b₂ ∧ .begin i ∉ b₂ ∧ .abort i ∉ b₂

theorem Legal.lastCommit (hl : Legal f) (hc : .commit i ∈ f) : LastCommit f i := by
  obtain ⟨f₁, f₂, rfl⟩ := List.append_of_mem hc
  exact ⟨f₁, f₂, rfl, fun hm => hl.after_commit _ hm rfl, fun hm => hl.after_commit _ hm rfl⟩

theorem LastCommit.append_left (hc : LastCommit f i) : LastCommit (b ++ f) i := by
  obtain ⟨f₁, f₂, rfl, hf⟩ := hc
  exact ⟨b ++ f₁, f₂, by simp, hf⟩

theorem LastCommit.append_right (hc : LastCommit b i) (hl : Legal f) (hb : .begin i ∉ f) :
    LastCommit (b ++ f) i := by
  obtain ⟨b₁, b₂, rfl, hbegin, habort⟩ := hc
  have hab : .abort i ∉ f := fun hm => hb (hl.begun hm rfl)
  exact ⟨b₁, b₂ ++ f, by simp, by simp [hbegin, hb], by simp [habort, hab]⟩

end LastCommit

section Unfinished

variable {b : List (TxEvent ι α)} {e : TxEvent ι α} {i : ι}

/-- A transaction whose last begin neither a commit nor an abort follows. -/
def Unfinished (b : List (TxEvent ι α)) (i : ι) : Prop :=
  ∃ b₁ b₂, b = b₁ ++ .begin i :: b₂ ∧ .commit i ∉ b₂ ∧ .abort i ∉ b₂

theorem not_unfinished_nil : ¬ Unfinished ([] : List (TxEvent ι α)) i := by
  rintro ⟨b₁, b₂, heq, -⟩
  simp at heq

theorem unfinished_snoc : Unfinished (b ++ [e]) i ↔
    e = .begin i ∨ (Unfinished b i ∧ e ≠ .commit i ∧ e ≠ .abort i) := by
  constructor
  · rintro ⟨b₁, b₂, heq, hc, ha⟩
    rcases b₂.eq_nil_or_concat with rfl | ⟨b₂, e', rfl⟩
    · exact .inl (List.append_singleton_inj.mp heq).2
    · rw [List.concat_eq_append, ← List.cons_append, ← List.append_assoc] at heq
      obtain ⟨rfl, rfl⟩ := List.append_singleton_inj.mp heq
      simp only [List.concat_eq_append, List.mem_append, List.mem_singleton, not_or] at hc ha
      exact .inr ⟨⟨b₁, b₂, rfl, hc.1, ha.1⟩, Ne.symm hc.2, Ne.symm ha.2⟩
  · rintro (rfl | ⟨⟨b₁, b₂, rfl, hc, ha⟩, hec, hea⟩)
    · exact ⟨b, [], rfl, nofun, nofun⟩
    · refine ⟨b₁, b₂ ++ [e], by simp, ?_, ?_⟩
      · simp [hc, hec.symm]
      · simp [ha, hea.symm]

end Unfinished

variable [DecidableEq ι] [DecidableEq α] {h f g b : List (TxEvent ι α)} {i : ι}

def committedWrites (h : List (TxEvent ι α)) : List (ι × α) := writesOf (.commit · ∈ h) h

/-- What a recovery from a log keeps. -/
def winners (b : List (TxEvent ι α)) : List (ι × α) :=
  writesOf (fun i => .commit i ∈ b ∧ .abort i ∉ b) b

theorem Durable.committedWrites_eq (hd : Durable h f) :
    committedWrites f = committedWrites h := by
  obtain ⟨g, hg, hopen⟩ := id hd
  have hgnil : writesOf (.commit · ∈ h) g = [] := by
    apply List.eq_nil_iff_forall_not_mem.mpr
    intro w hw
    obtain ⟨he, hc⟩ := mem_writesOf.mp hw
    exact (hopen _ he w.1 rfl).not_commit hc
  calc committedWrites f
      = writesOf (.commit · ∈ h) f := writesOf_congr fun i _ _ => hd.commit_iff
    _ = writesOf (.commit · ∈ h) (f ++ g) := by rw [writesOf_append, hgnil, List.append_nil]
    _ = committedWrites h := by rw [← hg, writesOf_filter_inTx]; rfl

theorem Legal.winners_eq (hl : Legal h) : winners h = committedWrites h :=
  writesOf_congr fun _ _ _ => ⟨And.left, fun hc => ⟨hc, hl.not_abort hc⟩⟩

theorem Legal.committedWrites_eq (hl : Legal (f ++ g)) :
    committedWrites f = writesOf (.commit · ∈ f) (f ++ g) := by
  have hnil : writesOf (.commit · ∈ f) g = [] := by
    apply List.eq_nil_iff_forall_not_mem.mpr
    intro w hw
    obtain ⟨he, hc⟩ := mem_writesOf.mp hw
    obtain ⟨g₁, g₂, rfl⟩ := List.append_of_mem he
    rw [← List.append_assoc] at hl
    have hopen : Open (f ++ g₁) w.1 := hl.allowed
    exact hopen.not_commit (List.mem_append_left _ hc)
  rw [writesOf_append, hnil, List.append_nil]
  rfl

def firstMark (b : List (TxEvent ι α)) (i : ι) : Option (TxEvent ι α) :=
  b.find? fun e => e = .begin i ∨ e = .commit i

theorem firstMark_append : firstMark (b ++ f) i = (firstMark b i).or (firstMark f i) :=
  List.find?_append

theorem firstMark_mem {e : TxEvent ι α} (he : firstMark b i = some e) :
    e ∈ b ∧ (e = .begin i ∨ e = .commit i) :=
  ⟨List.mem_of_find?_eq_some he, by simpa using List.find?_some he⟩

theorem firstMark_eq_none : firstMark b i = none ↔ .begin i ∉ b ∧ .commit i ∉ b := by
  simp only [firstMark, List.find?_eq_none, decide_eq_true_eq, not_or]
  constructor
  · intro hno
    exact ⟨fun hm => (hno _ hm).1 rfl, fun hm => (hno _ hm).2 rfl⟩
  · rintro ⟨hb, hc⟩ e he
    exact ⟨fun heq => hb (heq ▸ he), fun heq => hc (heq ▸ he)⟩

theorem Legal.firstMark_eq (hl : Legal f) (i : ι) :
    firstMark f i = if .begin i ∈ f then some (.begin i) else none := by
  split
  · rename_i hb
    obtain ⟨f₁, f₂, rfl⟩ := List.append_of_mem hb
    have hbefore : ∀ e ∈ f₁, e.owner ≠ some i := hl.allowed
    have hnone : firstMark f₁ i = none :=
      firstMark_eq_none.mpr ⟨fun hm => hbefore _ hm rfl, fun hm => hbefore _ hm rfl⟩
    rw [firstMark_append, hnone, Option.none_or, firstMark, List.find?_cons_of_pos (by simp)]
  · rename_i hb
    exact firstMark_eq_none.mpr ⟨hb, fun hm => hb (hl.begun hm rfl)⟩

theorem Legal.firstMark_after {a : α} (hl : Legal (f ++ .write (some i) a :: g)) :
    firstMark g i = if .commit i ∈ g then some (.commit i) else none := by
  have hbegin : .begin i ∉ g := by
    intro hm
    obtain ⟨g₁, g₂, rfl⟩ := List.append_of_mem hm
    rw [← List.cons_append, ← List.append_assoc] at hl
    exact hl.allowed (.write (some i) a) (by simp) rfl
  split
  · rename_i hc
    rcases hm : firstMark g i with _ | e
    · exact absurd hc (firstMark_eq_none.mp hm).2
    · obtain ⟨he, rfl | rfl⟩ := firstMark_mem hm
      · exact absurd he hbegin
      · rfl
  · rename_i hc
    exact firstMark_eq_none.mpr ⟨hbegin, hc⟩

/-- The writes that a commit follows before their identifier begins again. -/
def confirmedWrites (b : List (TxEvent ι α)) : List (ι × α) :=
  writesWhen (fun i b => firstMark b i = some (.commit i)) b

def unconfirmedWrites (b : List (TxEvent ι α)) : List (ι × α) :=
  writesWhen (fun i b => firstMark b i ≠ some (.commit i)) b

/-- The writes whose identifier begins again before it commits. -/
def abandonedWrites (b : List (TxEvent ι α)) : List (ι × α) :=
  writesWhen (fun i b => firstMark b i = some (.begin i)) b

/-- The writes since their identifier has begun, if it has not committed. -/
def pendingWrites (b : List (TxEvent ι α)) : List (ι × α) :=
  writesWhen (fun i b => firstMark b i = none) b

theorem confirmed_append (hl : Legal f) :
    firstMark (b ++ f) i = some (.commit i) ↔ firstMark b i = some (.commit i) := by
  rw [firstMark_append, hl.firstMark_eq]
  rcases firstMark b i with _ | e
  · rw [Option.none_or]; split <;> simp
  · rw [Option.some_or]

/-- A lifetime confirms the writes of its own committed transactions and no others. -/
theorem confirmedWrites_append (hl : Legal f) :
    confirmedWrites (b ++ f) = confirmedWrites b ++ committedWrites f := by
  rw [confirmedWrites, writesWhen_append, committedWrites, writesOf_eq_writesWhen]
  congr 1
  · exact writesWhen_congr fun _ _ _ _ _ => confirmed_append hl
  · apply writesWhen_congr
    rintro f₁ i a f₂ rfl
    have hopen : Open f₁ i := hl.allowed
    simp [hl.firstMark_after, hopen.not_commit]

theorem unconfirmedWrites_append (hl : Legal f) :
    unconfirmedWrites (b ++ f) = unconfirmedWrites b ++ unconfirmedWrites f := by
  rw [unconfirmedWrites, writesWhen_append]
  congr 1
  exact writesWhen_congr fun _ _ _ _ _ => not_congr (confirmed_append hl)

theorem Legal.not_commit_of_unconfirmed (hl : Legal f) {w : ι × α}
    (hw : w ∈ unconfirmedWrites f) : .commit w.1 ∉ f := by
  obtain ⟨f₁, f₂, rfl, hne⟩ := mem_writesWhen.mp hw
  have hopen : Open f₁ w.1 := hl.allowed
  intro hm
  apply hne
  rw [hl.firstMark_after, if_pos]
  simpa [hopen.not_commit] using hm

theorem mem_abandonedWrites (hl : Legal f) {w : ι × α} (hw : w ∈ unconfirmedWrites b)
    (hb : .begin w.1 ∈ f) : w ∈ abandonedWrites (b ++ f) := by
  obtain ⟨b₁, b₂, rfl, hne⟩ := mem_writesWhen.mp hw
  refine mem_writesWhen.mpr ⟨b₁, b₂ ++ f, by simp, ?_⟩
  rw [firstMark_append, hl.firstMark_eq, if_pos hb]
  rcases hm : firstMark b₂ w.1 with _ | e
  · rfl
  · obtain ⟨-, rfl | rfl⟩ := firstMark_mem hm
    · rfl
    · exact absurd hm hne

theorem mem_pendingWrites (hl : Legal f) {w : ι × α} (hw : .write (some w.1) w.2 ∈ f)
    (ho : Open f w.1) : w ∈ pendingWrites (b ++ f) := by
  obtain ⟨f₁, f₂, rfl⟩ := List.append_of_mem hw
  refine mem_writesWhen.mpr ⟨b ++ f₁, f₂, by simp, ?_⟩
  rw [hl.firstMark_after, if_neg]
  exact fun hm => ho.not_commit (List.mem_append_right _ (List.mem_cons_of_mem _ hm))

/-- A log in which no identifier of a confirmed write is used again, or has aborted. -/
def Lasting (b : List (TxEvent ι α)) : Prop :=
  ∀ w ∈ confirmedWrites b, LastCommit b w.1 ∧ .abort w.1 ∉ b

theorem Lasting.append (hb : Lasting b) (hl : Legal f)
    (hbegin : ∀ w ∈ confirmedWrites b, .begin w.1 ∉ f)
    (hcommit : ∀ w ∈ committedWrites f, .abort w.1 ∉ b) : Lasting (b ++ f) := by
  intro w hw
  rw [confirmedWrites_append hl, List.mem_append] at hw
  rcases hw with hw | hw
  · have hnone : .begin w.1 ∉ f := hbegin w hw
    have hab : .abort w.1 ∉ f := fun hm => hnone (hl.begun hm rfl)
    exact ⟨(hb w hw).1.append_right hl hnone, by simp [(hb w hw).2, hab]⟩
  · have hc : .commit w.1 ∈ f := (mem_writesOf.mp hw).2
    exact ⟨(hl.lastCommit hc).append_left, by simp [hcommit w hw, hl.not_abort hc]⟩

/-- Recovery keeps the confirmed writes. -/
theorem Lasting.sublist (hb : Lasting b) : (confirmedWrites b).Sublist (winners b) := by
  rw [winners, writesOf_eq_writesWhen]
  apply writesWhen_sublist
  rintro b₁ i a b₂ heq hc
  have hw : (i, a) ∈ confirmedWrites b := mem_writesWhen.mpr ⟨b₁, b₂, heq, hc⟩
  have hmem := (firstMark_mem hc).1
  exact ⟨heq ▸ by simp [hmem], (hb _ hw).2⟩

/-- A log in which no identifier of an unconfirmed write counts as committed. -/
def Discarding (b : List (TxEvent ι α)) : Prop :=
  ∀ w ∈ unconfirmedWrites b, .commit w.1 ∈ b → .abort w.1 ∈ b

theorem Discarding.append (hb : Discarding b) (hl : Legal f)
    (hwrite : ∀ i a, .write (some i) a ∈ f → .commit i ∈ b → .abort i ∈ b)
    (hcommit : ∀ w ∈ unconfirmedWrites b, .commit w.1 ∈ f → .abort w.1 ∈ b) :
    Discarding (b ++ f) := by
  intro w hw hc
  apply List.mem_append_left
  rw [unconfirmedWrites_append hl, List.mem_append] at hw
  rcases hw with hw | hw
  · exact (List.mem_append.mp hc).elim (hb w hw) (hcommit w hw)
  · have hcb := (List.mem_append.mp hc).resolve_right (hl.not_commit_of_unconfirmed hw)
    obtain ⟨f₁, f₂, rfl, -⟩ := mem_writesWhen.mp hw
    exact hwrite w.1 w.2 (by simp) hcb

/-- Recovery keeps nothing but confirmed writes. -/
theorem Discarding.sublist (hb : Discarding b) : (winners b).Sublist (confirmedWrites b) := by
  rw [winners, writesOf_eq_writesWhen]
  apply writesWhen_sublist
  rintro b₁ i a b₂ heq ⟨hc, hab⟩
  by_contra hne
  have hw : (i, a) ∈ unconfirmedWrites b := mem_writesWhen.mpr ⟨b₁, b₂, heq, hne⟩
  exact hab (hb _ hw hc)

end History
