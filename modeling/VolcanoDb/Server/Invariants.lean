import VolcanoDb.Server.Transitions

/-! # Invariants of a lifetime

What holds between the shared state and the history of the transitions since
the server started: the history is legal, the log holds its events, and the
status table, the commit SCNs and the rows are those that it describes.
-/

namespace VolcanoDb

open History

/-- The sessions' transactions are the open ones of a legal history. -/
structure Tracks (w : World) (h : List DbEvent) : Prop where
  legal : Legal h
  begun_lt : ∀ i, .begin i ∈ h → i < w.db.txMgr.nextTxId
  opened : ∀ id i, w.opens id = some i → Open h i
  owner_unique : ∀ id id' i, w.opens id = some i → w.opens id' = some i → id = id'

namespace Tracks

variable {w w' : World} {h es : List DbEvent} {i : ℕ}

theorem start (ho : ∀ id, w.opens id = none) : Tracks w [] where
  legal := .nil
  begun_lt _ hi := by cases hi
  opened id i hi := by simp [ho id] at hi
  owner_unique id id' i hi := by simp [ho id] at hi

theorem owner_lt (ht : Tracks w h) {e : DbEvent} (he : e ∈ h) (ho : e.owner = some i) :
    i < w.db.txMgr.nextTxId :=
  ht.begun_lt i (ht.legal.begun he ho)

theorem next_absent (ht : Tracks w h) {e : DbEvent} (he : e ∈ h) :
    e.owner ≠ some w.db.txMgr.nextTxId :=
  fun ho => Nat.lt_irrefl _ (ht.owner_lt he ho)

theorem opens_lt (ht : Tracks w h) {id : ℕ} (ho : w.opens id = some i) :
    i < w.db.txMgr.nextTxId :=
  ht.begun_lt i (ht.opened id i ho).begun

theorem open_snoc {e : DbEvent} (ho : Open h i) (hc : e ≠ .commit i) (ha : e ≠ .abort i) :
    Open (h ++ [e]) i where
  begun := List.mem_append_left _ ho.begun
  not_commit hm := (List.mem_append.mp hm).elim ho.not_commit fun hm =>
    hc (List.mem_singleton.mp hm).symm
  not_abort hm := (List.mem_append.mp hm).elim ho.not_abort fun hm =>
    ha (List.mem_singleton.mp hm).symm

theorem begin (ht : Tracks w h) {id : ℕ} :
    Tracks ⟨w.db.begin.2, Function.update w.opens id (some w.db.txMgr.nextTxId)⟩
      (h ++ [.begin w.db.txMgr.nextTxId]) where
  legal := ht.legal.snoc fun e he => ht.next_absent he
  begun_lt i hi := by
    rcases List.mem_append.mp hi with hi | hi
    · exact Nat.lt_succ_of_lt (ht.begun_lt i hi)
    · cases List.mem_singleton.mp hi
      exact Nat.lt_succ_self _
  opened id' i hi := by
    by_cases hid : id' = id
    · subst hid
      obtain rfl : w.db.txMgr.nextTxId = i := by simpa using hi
      refine ⟨by simp, ?_, ?_⟩
      · rw [List.mem_append, List.mem_singleton]
        rintro (hm | hm)
        · exact ht.next_absent hm rfl
        · cases hm
      · rw [List.mem_append, List.mem_singleton]
        rintro (hm | hm)
        · exact ht.next_absent hm rfl
        · cases hm
    · have hold : w.opens id' = some i := by simpa [hid] using hi
      exact open_snoc (ht.opened id' i hold) nofun nofun
  owner_unique id₁ id₂ i h₁ h₂ := by
    by_cases hid₁ : id₁ = id <;> by_cases hid₂ : id₂ = id
    · rw [hid₁, hid₂]
    · obtain rfl : w.db.txMgr.nextTxId = i := by simpa [hid₁] using h₁
      have hold : w.opens id₂ = some w.db.txMgr.nextTxId := by simpa [hid₂] using h₂
      exact absurd (ht.opens_lt hold) (Nat.lt_irrefl _)
    · obtain rfl : w.db.txMgr.nextTxId = i := by simpa [hid₂] using h₂
      have hold : w.opens id₁ = some w.db.txMgr.nextTxId := by simpa [hid₁] using h₁
      exact absurd (ht.opens_lt hold) (Nat.lt_irrefl _)
    · exact ht.owner_unique id₁ id₂ i (by simpa [hid₁] using h₁) (by simpa [hid₂] using h₂)

theorem write (ht : Tracks w h) {id : ℕ} (a : String × List Value) {db : DatabaseState}
    (hn : db.txMgr.nextTxId = w.db.txMgr.nextTxId) :
    Tracks ⟨db, w.opens⟩ (h ++ [.write (w.opens id) a]) where
  legal := by
    apply ht.legal.snoc
    rcases ho : w.opens id with _ | i
    · trivial
    · exact ht.opened id i ho
  begun_lt i hi := by
    rcases List.mem_append.mp hi with hi | hi
    · exact hn ▸ ht.begun_lt i hi
    · cases List.mem_singleton.mp hi
  opened id' i hi := open_snoc (ht.opened id' i hi) nofun nofun
  owner_unique := ht.owner_unique

theorem finish (ht : Tracks w h) {id : ℕ} (ho : w.opens id = some i) {e : DbEvent}
    (he : e = .commit i ∨ e = .abort i) {db : DatabaseState}
    (hn : db.txMgr.nextTxId = w.db.txMgr.nextTxId) :
    Tracks ⟨db, Function.update w.opens id none⟩ (h ++ [e]) where
  legal := by
    apply ht.legal.snoc
    rcases he with rfl | rfl
    · exact ht.opened id i ho
    · exact ht.opened id i ho
  begun_lt j hj := by
    rcases List.mem_append.mp hj with hj | hj
    · exact hn ▸ ht.begun_lt j hj
    · rcases he with rfl | rfl <;> cases List.mem_singleton.mp hj
  opened id' j hj := by
    have hid : id' ≠ id := by rintro rfl; simp at hj
    have hold : w.opens id' = some j := by simpa [hid] using hj
    have hij : i ≠ j := by rintro rfl; exact hid (ht.owner_unique id' id i hold ho)
    apply open_snoc (ht.opened id' j hold)
    · rcases he with rfl | rfl
      · rintro ⟨⟩; exact hij rfl
      · exact nofun
    · rcases he with rfl | rfl
      · exact nofun
      · rintro ⟨⟩; exact hij rfl
  owner_unique id₁ id₂ j h₁ h₂ := by
    have hid₁ : id₁ ≠ id := by rintro rfl; simp at h₁
    have hid₂ : id₂ ≠ id := by rintro rfl; simp at h₂
    exact ht.owner_unique id₁ id₂ j (by simpa [hid₁] using h₁) (by simpa [hid₂] using h₂)

theorem release (ht : Tracks w h) {opens : ℕ → Option ℕ}
    (ho : ∀ id, opens id = none ∨ opens id = w.opens id) {db : DatabaseState}
    (hn : db.txMgr.nextTxId = w.db.txMgr.nextTxId) : Tracks ⟨db, opens⟩ h := by
  have hold (id i : ℕ) (hi : opens id = some i) : w.opens id = some i := by
    rcases ho id with hid | hid
    · rw [hid] at hi; cases hi
    · exact hid ▸ hi
  exact ⟨ht.legal, fun i hi => hn ▸ ht.begun_lt i hi, fun id i hi => ht.opened id i (hold id i hi),
    fun id id' i hi hi' => ht.owner_unique id id' i (hold id i hi) (hold id' i hi')⟩

theorem act (ht : Tracks w h) (ha : Act w es w') : Tracks w' (h ++ es) := by
  cases ha with
  | begin ho => exact ht.begin
  | write hs hr hv => exact ht.write _ (DatabaseState.pushRow_nextTxId ..)
  | commit ho => exact ht.finish ho (.inl rfl) (by simp [TransactionManager.commit_eq])
  | rollback ho => exact ht.finish ho (.inr rfl) (by simp [DatabaseState.rollback_txMgr])
  | createTable hs =>
    rw [List.append_nil]
    exact ht.release (fun _ => .inr rfl) rfl
  | release ho =>
    rw [List.append_nil]
    exact ht.release ho rfl

theorem of_reaches {G : World → DbEvent → Prop} {w₀ : World} (ho : ∀ id, w₀.opens id = none)
    (hr : Reaches G w₀ w h) : Tracks w h := by
  induction hr with
  | refl => exact start ho
  | act _ ha _ ih => exact ih.act ha

end Tracks

/--
A transition appends the record of its event to the log, with the clock that it
leaves; a commit advances the clock.
-/
theorem Act.logged {w w' : World} {es : List DbEvent} (ha : Act w es w') :
    ∃ rec : Option RedoRecord, w'.db.txMgr.log = w.db.txMgr.log ++ rec.toList ∧
      rec.toList.map RedoRecord.event = es.filter TxEvent.inTx ∧
      w.db.txMgr.scn ≤ w'.db.txMgr.scn ∧
      ∀ r ∈ rec, r.scn = w'.db.txMgr.scn ∧
        ∀ i, r.event = .commit i → w.db.txMgr.scn < w'.db.txMgr.scn := by
  cases ha with
  | begin ho =>
    refine ⟨some (.begin w.db.txMgr.nextTxId w.db.txMgr.scn), by simp, rfl, le_rfl, ?_⟩
    rintro _ ⟨⟩
    exact ⟨rfl, fun _ hc => by cases hc⟩
  | @write id name schema rows vals hs hr hv =>
    rcases ho : w.opens id with _ | i
    · exact ⟨none, by simp [DatabaseState.pushRow_txMgr], rfl, by simp, by simp⟩
    · refine ⟨some (.insert i w.db.txMgr.scn name vals rows.length),
        by simp [DatabaseState.pushRow_txMgr], rfl, by simp, ?_⟩
      rintro _ ⟨⟩
      exact ⟨rfl, fun _ hc => by cases hc⟩
  | @commit id txId ho =>
    have hscn : (w.db.txMgr.commit txId).scn = w.db.txMgr.scn + 1 := by
      rw [TransactionManager.commit_eq]
    refine ⟨some (.commit txId (w.db.txMgr.scn + 1)), by simp, rfl, by simp [hscn], ?_⟩
    rintro _ ⟨⟩
    exact ⟨hscn.symm, fun _ _ => by simp [hscn]⟩
  | @rollback id txId ho =>
    refine ⟨some (.rollback txId w.db.txMgr.scn),
      by simp [DatabaseState.rollback_txMgr, TransactionManager.log], rfl,
      by simp [DatabaseState.rollback_txMgr], ?_⟩
    rintro _ ⟨⟩
    exact ⟨by simp [DatabaseState.rollback_txMgr, RedoRecord.scn], fun _ hc => by cases hc⟩
  | createTable hs => exact ⟨none, by simp, rfl, le_rfl, by simp⟩
  | release ho => exact ⟨none, by simp, rfl, le_rfl, by simp⟩

theorem Act.flushed {w w' : World} {es : List DbEvent} (ha : Act w es w') :
    w.db.txMgr.redoFile.written <+: w'.db.txMgr.redoFile.written ∧
      (w'.db.txMgr.redoBuffer = [] ∨
        (∀ i, .commit i ∉ es ∧ .abort i ∉ es) ∧ ∀ r ∈ w'.db.txMgr.redoBuffer,
          r ∈ w.db.txMgr.redoBuffer ∨ ∃ id, w'.opens id = some r.txId) := by
  have hgrows (rec : RedoRecord) :
      w.db.txMgr.redoFile.written <+: w.db.txMgr.log ++ [rec] := by
    rw [TransactionManager.log, List.append_assoc]
    exact List.prefix_append ..
  cases ha with
  | @begin id ho =>
    refine ⟨List.prefix_rfl, .inr ⟨by simp, fun r hr => ?_⟩⟩
    rcases List.mem_append.mp hr with hr | hr
    · exact .inl hr
    · obtain rfl := List.mem_singleton.mp hr
      exact .inr ⟨id, by simp [RedoRecord.txId]⟩
  | @write id name schema rows vals hs hr hv =>
    refine ⟨by simp, .inr ⟨by simp, fun r hr => ?_⟩⟩
    rw [DatabaseState.pushRow_txMgr] at hr
    rcases ho : w.opens id with _ | i <;> rw [ho] at hr
    · exact .inl hr
    · rcases List.mem_append.mp hr with hr | hr
      · exact .inl hr
      · obtain rfl := List.mem_singleton.mp hr
        exact .inr ⟨id, ho⟩
  | commit ho =>
    rw [DatabaseState.commit_txMgr, TransactionManager.commit_eq]
    exact ⟨hgrows _, .inl rfl⟩
  | rollback ho =>
    rw [DatabaseState.rollback_txMgr]
    exact ⟨hgrows _, .inl rfl⟩
  | createTable hs => exact ⟨List.prefix_rfl, .inr ⟨by simp, fun r hr => .inl hr⟩⟩
  | release ho => exact ⟨List.prefix_rfl, .inr ⟨by simp, fun r hr => .inl hr⟩⟩

namespace Reaches

variable {G : World → DbEvent → Prop} {w₀ w : World} {h : List DbEvent}

theorem log (hr : Reaches G w₀ w h) : w.db.txMgr.log.map RedoRecord.event =
    w₀.db.txMgr.log.map RedoRecord.event ++ h.filter TxEvent.inTx := by
  induction hr with
  | refl => simp
  | act _ ha _ ih =>
    obtain ⟨rec, hlog, hev, -⟩ := ha.logged
    rw [hlog, List.map_append, ih, hev, List.filter_append, List.append_assoc]

theorem file (hr : Reaches G w₀ w h) :
    w₀.db.txMgr.redoFile.written <+: w.db.txMgr.redoFile.written := by
  induction hr with
  | refl => exact List.prefix_rfl
  | act _ ha _ ih => exact ih.trans ha.flushed.1

theorem buffer_open (hr : Reaches G w₀ w h) (ho : ∀ id, w₀.opens id = none)
    (hb : w₀.db.txMgr.redoBuffer = []) : ∀ r ∈ w.db.txMgr.redoBuffer, Open h r.txId := by
  induction hr with
  | refl => simp [hb]
  | act hr ha _ ih =>
    have ht := (Tracks.of_reaches ho hr).act ha
    intro r hrb
    rcases ha.flushed.2 with hnil | ⟨hend, hmem⟩
    · rw [hnil] at hrb; cases hrb
    rcases hmem r hrb with hold | ⟨id, hid⟩
    · obtain ⟨hbegun, hc, hab⟩ := ih r hold
      exact ⟨List.mem_append_left _ hbegun,
        fun hm => (List.mem_append.mp hm).elim hc (hend _).1,
        fun hm => (List.mem_append.mp hm).elim hab (hend _).2⟩
    · exact ht.opened id _ hid

end Reaches

section Status

variable {w₀ w w' : World} {h es : List DbEvent} {i : ℕ}

def statusAfter (i : ℕ) (status : Option TxStatus) (e : DbEvent) : Option TxStatus :=
  if e = .begin i then some .active
  else if e = .commit i then some .committed
  else if e = .abort i then some .rolledBack
  else status

def statusIn (h : List DbEvent) (i : ℕ) (base : Option TxStatus) : Option TxStatus :=
  h.foldl (statusAfter i) base

theorem statusIn_snoc (e : DbEvent) (base : Option TxStatus) :
    statusIn (h ++ [e]) i base = statusAfter i (statusIn h i base) e := by
  simp [statusIn]

theorem statusAfter_of_owner {e : DbEvent} (he : e.owner ≠ some i) (status : Option TxStatus) :
    statusAfter i status e = status := by
  have hb : e ≠ .begin i := by rintro rfl; exact he rfl
  have hc : e ≠ .commit i := by rintro rfl; exact he rfl
  have ha : e ≠ .abort i := by rintro rfl; exact he rfl
  simp [statusAfter, hb, hc, ha]

theorem statusIn_absent (habs : ∀ e ∈ h, e.owner ≠ some i) (base : Option TxStatus) :
    statusIn h i base = base := by
  induction h using List.reverseRecOn with
  | nil => rfl
  | append_singleton h e ih =>
    rw [statusIn_snoc, statusAfter_of_owner (habs e (by simp)),
      ih fun e he => habs e (List.mem_append_left _ he)]

theorem statusIn_ended (hl : Legal h) (base : Option TxStatus) :
    (.commit i ∈ h → statusIn h i base = some .committed) ∧
      (.abort i ∈ h → statusIn h i base = some .rolledBack) := by
  induction hl with
  | nil => exact ⟨nofun, nofun⟩
  | @snoc h e _ ha ih =>
    rw [statusIn_snoc]
    constructor
    · intro hc
      rcases List.mem_append.mp hc with hm | hm
      · rw [statusAfter_of_owner, ih.1 hm]
        intro ho
        rcases ha.open_of_owner ho with rfl | hopen
        · exact ha (.commit i) hm rfl
        · exact hopen.not_commit hm
      · rw [← List.mem_singleton.mp hm]; simp [statusAfter]
    · intro hc
      rcases List.mem_append.mp hc with hm | hm
      · rw [statusAfter_of_owner, ih.2 hm]
        intro ho
        rcases ha.open_of_owner ho with rfl | hopen
        · exact ha (.abort i) hm rfl
        · exact hopen.not_abort hm
      · rw [← List.mem_singleton.mp hm]; simp [statusAfter]

theorem statusIn_open (hl : Legal h) (base : Option TxStatus) (ho : Open h i) :
    statusIn h i base = some .active := by
  induction hl with
  | nil => cases ho.begun
  | @snoc h e _ ha ih =>
    rw [statusIn_snoc]
    by_cases hb : e = .begin i
    · simp [statusAfter, hb]
    have hc : e ≠ .commit i := by rintro rfl; exact ho.not_commit (by simp)
    have hab : e ≠ .abort i := by rintro rfl; exact ho.not_abort (by simp)
    have hbegun : .begin i ∈ h :=
      (List.mem_append.mp ho.begun).resolve_right fun hm => hb (List.mem_singleton.mp hm).symm
    have hopen : Open h i := ⟨hbegun, fun hm => ho.not_commit (List.mem_append_left _ hm),
      fun hm => ho.not_abort (List.mem_append_left _ hm)⟩
    simp [statusAfter, hb, hc, hab, ih hopen]

/-- The statuses of a lifetime's transactions are exactly those of its history. -/
theorem statusIn_eq_committed (hl : Legal h) :
    statusIn h i none = some .committed ↔ .commit i ∈ h := by
  constructor
  · intro hst
    by_contra hc
    by_cases hab : .abort i ∈ h
    · rw [(statusIn_ended hl none).2 hab] at hst; cases hst
    by_cases hb : .begin i ∈ h
    · rw [statusIn_open hl none ⟨hb, hc, hab⟩] at hst; cases hst
    · rw [statusIn_absent fun e he ho => hb (hl.begun he ho)] at hst; cases hst
  · exact (statusIn_ended hl none).1

theorem begun_of_statusIn (hl : Legal h) {status : TxStatus}
    (hst : statusIn h i none = some status) : .begin i ∈ h := by
  by_contra hb
  rw [statusIn_absent fun e he ho => hb (hl.begun he ho)] at hst
  cases hst

theorem statusIn_isSome (hl : Legal h) (base : Option TxStatus) (hb : .begin i ∈ h) :
    (statusIn h i base).isSome := by
  by_cases hc : .commit i ∈ h
  · rw [(statusIn_ended hl base).1 hc]; rfl
  by_cases hab : .abort i ∈ h
  · rw [(statusIn_ended hl base).2 hab]; rfl
  · rw [statusIn_open hl base ⟨hb, hc, hab⟩]; rfl

theorem Act.statuses (ha : Act w es w') (i : ℕ) :
    w'.db.txMgr.statuses.lookup i = statusIn es i (w.db.txMgr.statuses.lookup i) := by
  cases ha with
  | begin ho =>
    simp [statusIn, statusAfter, TransactionManager.begin, FinMap.lookup_insert_eq, eq_comm]
  | write hs hr hv => simp [statusIn, statusAfter]
  | commit ho =>
    simp [statusIn, statusAfter, TransactionManager.commit_eq, FinMap.lookup_insert_eq, eq_comm]
  | rollback ho =>
    simp [statusIn, statusAfter, DatabaseState.rollback_txMgr, FinMap.lookup_insert_eq, eq_comm]
  | createTable hs => rfl
  | release ho => rfl

theorem Reaches.statuses {G : World → DbEvent → Prop} (hr : Reaches G w₀ w h) (i : ℕ) :
    w.db.txMgr.statuses.lookup i = statusIn h i (w₀.db.txMgr.statuses.lookup i) := by
  induction hr with
  | refl => rfl
  | act _ ha _ ih => rw [ha.statuses, ih, statusIn, statusIn, statusIn, List.foldl_append]

end Status

section CommitScns

variable {w₀ w w' : World} {h es : List DbEvent}

theorem Act.commitScns (ha : Act w es w') :
    (w'.db.txMgr.commitScns = w.db.txMgr.commitScns ∧ ∀ i, .commit i ∉ es) ∨
      ∃ i, es = [.commit i] ∧ w.db.txMgr.scn < w'.db.txMgr.scn ∧
        w'.db.txMgr.commitScns = w.db.txMgr.commitScns.insert i w'.db.txMgr.scn := by
  cases ha with
  | begin ho => exact .inl ⟨rfl, by simp⟩
  | write hs hr hv => exact .inl ⟨by simp, by simp⟩
  | @commit id txId ho =>
    refine .inr ⟨txId, rfl, ?_, ?_⟩
    · simp [TransactionManager.commit_eq]
    · simp [TransactionManager.commit_eq]
  | rollback ho => exact .inl ⟨by simp [DatabaseState.rollback_txMgr], by simp⟩
  | createTable hs => exact .inl ⟨rfl, by simp⟩
  | release ho => exact .inl ⟨rfl, by simp⟩

/-- The commit SCNs of a lifetime lie between the clock at its start and the clock now. -/
structure CommitClock (w₀ w : World) (h : List DbEvent) : Prop where
  scn_le : w₀.db.txMgr.scn ≤ w.db.txMgr.scn
  stamped : ∀ i, .commit i ∈ h →
    ∃ n, w.db.txMgr.commitScns.lookup i = some n ∧ w₀.db.txMgr.scn < n ∧ n ≤ w.db.txMgr.scn
  unchanged : ∀ i, .commit i ∉ h →
    w.db.txMgr.commitScns.lookup i = w₀.db.txMgr.commitScns.lookup i
  ordered : h.Pairwise fun e e' => ∀ i j, e = .commit i → e' = .commit j →
    ∃ n m, w.db.txMgr.commitScns.lookup i = some n ∧ w.db.txMgr.commitScns.lookup j = some m ∧ n < m

theorem CommitClock.act (hc : CommitClock w₀ w h) (hl : Legal (h ++ es)) (ha : Act w es w') :
    CommitClock w₀ w' (h ++ es) := by
  obtain ⟨-, -, -, hle, -⟩ := ha.logged
  rcases ha.commitScns with ⟨hsame, hno⟩ | ⟨t, rfl, hlt, hins⟩
  · refine ⟨hc.scn_le.trans hle, fun i hi => ?_, fun i hi => ?_, ?_⟩
    · obtain ⟨n, hn, hlo, hhi⟩ := hc.stamped i ((List.mem_append.mp hi).resolve_right (hno i))
      exact ⟨n, hsame ▸ hn, hlo, hhi.trans hle⟩
    · rw [hsame]
      exact hc.unchanged i fun hm => hi (List.mem_append_left _ hm)
    · refine List.pairwise_append.mpr ⟨by simpa only [hsame] using hc.ordered, ?_, ?_⟩
      · apply List.pairwise_of_forall_mem_list
        intro e he e' he' i j hei
        exact absurd (hei ▸ he) (hno i)
      · rintro e he e' he' i j rfl rfl
        exact absurd he' (hno j)
  · have hopen : Open h t := hl.of_snoc.2
    have hne (i : ℕ) (hi : .commit i ∈ h) : i ≠ t := by
      rintro rfl
      exact hopen.not_commit hi
    have hold (i : ℕ) (hi : i ≠ t) :
        w'.db.txMgr.commitScns.lookup i = w.db.txMgr.commitScns.lookup i := by
      rw [hins, FinMap.lookup_insert_eq, if_neg hi]
    have hnew : w'.db.txMgr.commitScns.lookup t = some w'.db.txMgr.scn := by
      rw [hins, FinMap.lookup_insert_eq, if_pos rfl]
    refine ⟨hc.scn_le.trans hle, fun i hi => ?_, fun i hi => ?_, ?_⟩
    · rcases List.mem_append.mp hi with hi | hi
      · obtain ⟨n, hn, hlo, hhi⟩ := hc.stamped i hi
        exact ⟨n, (hold i (hne i hi)).trans hn, hlo, hhi.trans hle⟩
      · obtain rfl : i = t := by simpa using hi
        exact ⟨_, hnew, hc.scn_le.trans_lt hlt, le_rfl⟩
    · have hit : i ≠ t := by rintro rfl; exact hi (by simp)
      rw [hold i hit]
      exact hc.unchanged i fun hm => hi (List.mem_append_left _ hm)
    · refine List.pairwise_append.mpr ⟨?_, List.pairwise_singleton _ _, ?_⟩
      · refine hc.ordered.imp_of_mem fun {e e'} he he' hord i j hi hj => ?_
        obtain ⟨n, m, hn, hm, hnm⟩ := hord i j hi hj
        subst hi hj
        exact ⟨n, m, (hold i (hne i he)).trans hn, (hold j (hne j he')).trans hm, hnm⟩
      · rintro e he e' he' i j rfl rfl
        obtain rfl : j = t := by simpa using he'
        obtain ⟨n, hn, -, hhi⟩ := hc.stamped i he
        exact ⟨n, _, (hold i (hne i he)).trans hn, hnew, hhi.trans_lt hlt⟩

theorem Reaches.commitClock {G : World → DbEvent → Prop} (hr : Reaches G w₀ w h)
    (ho : ∀ id, w₀.opens id = none) : CommitClock w₀ w h := by
  induction hr with
  | refl => exact ⟨le_rfl, nofun, fun _ _ => rfl, .nil⟩
  | act hr ha _ ih => exact ih.act ((Tracks.of_reaches ho hr).act ha).legal ha

end CommitScns

section Rows

variable {w₀ w w' : World} {h es : List DbEvent} {name : String}

def World.rows (w : World) (name : String) : List Tuple := (w.db.tables.lookup name).getD []

/-- The rows that a history writes to a table. -/
def writesTo (name : String) (h : List DbEvent) : List (Option ℕ × List Value) :=
  h.filterMap fun
    | .write owner (n, vals) => if n = name then some (owner, vals) else none
    | _ => none

theorem mem_writesTo {owner : Option ℕ} {vals : List Value} :
    (owner, vals) ∈ writesTo name h ↔ .write owner (name, vals) ∈ h := by
  simp only [writesTo, List.mem_filterMap]
  constructor
  · rintro ⟨e, he, hw⟩
    split at hw
    · split at hw
      · rename_i hn; subst hn; cases hw; exact he
      · cases hw
    · cases hw
  · intro he
    exact ⟨_, he, by simp⟩

theorem undoRecord_sublist (tables : FinMap String (List Tuple)) (rec : UndoRecord)
    (name : String) :
    ((undoRecord tables rec).lookup name |>.getD []).Sublist ((tables.lookup name).getD []) := by
  rcases rec with ⟨tableName, rowIdx⟩
  simp only [undoRecord]
  split
  · exact List.Sublist.refl _
  · rename_i table ht
    split
    · rw [FinMap.lookup_insert_eq]
      split
      · rename_i hn
        subst hn
        rw [ht]
        exact List.eraseIdx_sublist _ _
      · exact List.Sublist.refl _
    · exact List.Sublist.refl _

theorem undo_sublist (recs : List UndoRecord) (tables : FinMap String (List Tuple))
    (name : String) :
    ((recs.foldl undoRecord tables).lookup name |>.getD []).Sublist
      ((tables.lookup name).getD []) := by
  induction recs generalizing tables with
  | nil => exact List.Sublist.refl _
  | cons rec recs ih => exact (ih _).trans (undoRecord_sublist tables rec name)

theorem Act.rows (ha : Act w es w') (name : String) :
    ((w'.rows name).map Tuple.tagged).Sublist
      ((w.rows name).map Tuple.tagged ++ writesTo name es) := by
  cases ha with
  | begin ho => simp [World.rows]
  | @write id tableName schema rows vals hs hr hv =>
    by_cases hn : name = tableName
    · subst hn
      simp [World.rows, hr, writesTo, Tuple.newWithMeta, Tuple.tagged]
    · simp [World.rows, writesTo, hn, Ne.symm hn]
  | commit ho => simp [World.rows]
  | @rollback id txId ho =>
    have hsub :=
      undo_sublist ((w.db.txMgr.undoSegments.lookup txId).getD []).reverse w.db.tables name
    exact (hsub.map _).trans (List.sublist_append_left _ _)
  | @createTable tableName schema hs =>
    by_cases hn : name = tableName
    · subst hn
      simp [World.rows, DatabaseState.createTable, FinMap.lookup_orInsert]
    · simp [World.rows, DatabaseState.createTable, FinMap.lookup_orInsert, hn]
  | release ho => simp [World.rows]

/-- Every row in memory was there at the start or has been written since. -/
theorem Reaches.rows {G : World → DbEvent → Prop} (hr : Reaches G w₀ w h) (name : String) :
    ((w.rows name).map Tuple.tagged).Sublist
      ((w₀.rows name).map Tuple.tagged ++ writesTo name h) := by
  induction hr with
  | refl => simp [writesTo]
  | @act w w' h es _ ha _ ih =>
    have happ : writesTo name (h ++ es) = writesTo name h ++ writesTo name es :=
      List.filterMap_append
    rw [happ, ← List.append_assoc]
    exact (ha.rows name).trans (ih.append_right _)

/-- Every table of the catalog has storage. -/
def World.Stored (w : World) : Prop :=
  ∀ name, (w.db.catalog.getSchema name).isSome → (w.db.tables.lookup name).isSome

theorem undo_isSome (recs : List UndoRecord) (tables : FinMap String (List Tuple))
    (name : String) : ((recs.foldl undoRecord tables).lookup name).isSome =
      (tables.lookup name).isSome := by
  induction recs generalizing tables with
  | nil => rfl
  | cons rec recs ih =>
    rw [List.foldl_cons, ih]
    rcases rec with ⟨tableName, rowIdx⟩
    simp only [undoRecord]
    split
    · rfl
    · rename_i table ht
      split
      · rw [FinMap.lookup_insert_eq]
        split
        · rename_i hn; rw [hn, ht]; rfl
        · rfl
      · rfl

theorem Act.stored (ha : Act w es w') (hs : w.Stored) : w'.Stored := by
  intro name hname
  cases ha with
  | begin ho => exact hs name hname
  | write _ hr hv =>
    simp only [DatabaseState.pushRow_tables, FinMap.lookup_insert_eq]
    split
    · rfl
    · exact hs name hname
  | commit ho => exact hs name hname
  | rollback ho =>
    simp only [DatabaseState.rollback]
    rw [undo_isSome]
    exact hs name hname
  | createTable hn =>
    simp only [DatabaseState.createTable, FinMap.lookup_orInsert]
    split
    · rfl
    · rename_i hne
      apply hs name
      simpa [DatabaseState.createTable, hne] using hname
  | release ho => exact hs name hname

theorem Reaches.stored {G : World → DbEvent → Prop} (hr : Reaches G w₀ w h) (hs : w₀.Stored) :
    w.Stored := by
  induction hr with
  | refl => exact hs
  | act _ ha _ ih => exact ha.stored ih

end Rows

end VolcanoDb
