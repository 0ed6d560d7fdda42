import VolcanoDb.Server.Restarts

/-! # Identifiers after a restart

A restarted process hands out transaction identifiers from one again, whatever
the redo file holds. What its recovery, and every later one, makes of the old
records depends on the records that the new transactions add under the same
identifiers.
-/

namespace VolcanoDb

open History

def World.filed (w : World) : List DbEvent := w.db.txMgr.redoFile.written.map RedoRecord.event

def World.logged (w : World) : List DbEvent := w.db.txMgr.log.map RedoRecord.event

section Lifetimes

theorem Server.restarted_filed (file : RedoFile) :
    (Server.restarted file).world.filed = file.written.map RedoRecord.event := by
  rw [World.filed, restarted_redoFile]

theorem Server.restarted_rows (file : RedoFile) (name : String) :
    ((Server.restarted file).world.rows name).map Tuple.tagged =
      rowsTo name (winners (Server.restarted file).world.filed) := by
  rw [restarted_filed]
  exact rebuilt_rows file name

variable [BuildProfile] [Unicode] [SqlParser] [ComfyTable] [SerdeJson]
  {G : World → DbEvent → Prop} {b : Server} {w : World} {h : List DbEvent}
  {past : List (List DbEvent)}

theorem Lives.durable (hl : Lives G b past) (hr : Reaches G b.world w h) :
    Tracks w h ∧ ∃ f, w.filed = b.world.filed ++ f ∧ Durable h f := by
  obtain ⟨file, rfl⟩ := hl.restarted
  exact ⟨.of_reaches Server.restarted_opens hr,
    hr.durable Server.restarted_opens Server.restarted_redoBuffer⟩

/-- What the file and the log hold when a lifetime performs an event. -/
theorem Lives.performed (hl : Lives G b past) (hr : Reaches G b.world w h) {e : DbEvent}
    (he : e ∈ h) : ∃ w₁ h₁ h₂ f₁, h = h₁ ++ e :: h₂ ∧ G w₁ e ∧
      w₁.filed = b.world.filed ++ f₁ ∧ Durable h₁ f₁ ∧
      w₁.logged = b.world.filed ++ h₁.filter TxEvent.inTx := by
  obtain ⟨w₁, h₁, h₂, hr₁, rfl, hG⟩ := hr.performed he
  obtain ⟨-, f₁, hf, hd⟩ := hl.durable hr₁
  obtain ⟨file, rfl⟩ := hl.restarted
  refine ⟨w₁, h₁, h₂, f₁, rfl, hG, hf, hd, ?_⟩
  rw [World.logged, hr₁.log, Server.restarted_log, Server.restarted_filed]

theorem Lives.induct {P : List DbEvent → List (List DbEvent) → Prop} (hw : ReadsFile G)
    (hfirst : P [] [])
    (hagain : ∀ (b w : Server) (past : List (List DbEvent)) (h f : List DbEvent), Lives G b past →
      Reaches G b.world w.world h → Legal h → Durable h f → P b.world.filed past →
      P (b.world.filed ++ f) (past ++ [h]))
    (hl : Lives G b past) : P b.world.filed past := by
  induction hl with
  | first => exact hfirst
  | @again b w b' past h hl hr hrt hstart ih =>
    obtain rfl := Except.ok.inj (hstart.symm.trans (Server.start_eq hrt))
    have hreach := hr.reaches hw
    obtain ⟨ht, f, hf, hd⟩ := hl.durable hreach
    have hfile : (Server.restarted w.db.txMgr.redoFile).world.filed = b.world.filed ++ f :=
      (Server.restarted_filed _).trans hf
    rw [hfile]
    exact hagain b w past h f hl hreach ht.legal hd ih

/-- The file confirms the writes of the committed transactions of all lifetimes. -/
theorem Lives.confirmed (hw : ReadsFile G) (hl : Lives G b past) :
    confirmedWrites b.world.filed = past.flatMap committedWrites := by
  refine Lives.induct (P := fun b past => confirmedWrites b = past.flatMap committedWrites) hw rfl
    ?_ hl
  intro b w past h f _ _ hlegal hd ih
  rw [confirmedWrites_append (hd.legal hlegal), ih, hd.committedWrites_eq, List.flatMap_append,
    List.flatMap_singleton]

end Lifetimes

/--
No transaction begins with the identifier of a confirmed row, and none that has
written commits with an identifier that has aborted.
-/
def KeepsCommitted (w : World) : DbEvent → Prop
  | .begin i => ∀ r ∈ confirmedWrites w.filed, r.1 ≠ i
  | .commit i => .abort i ∈ w.filed → ∀ r ∈ pendingWrites w.logged, r.1 ≠ i
  | _ => True

instance KeepsCommitted.decidable (w : World) : ∀ e, Decidable (KeepsCommitted w e)
  | .begin _ => inferInstanceAs (Decidable (∀ _ ∈ _, _))
  | .commit _ => inferInstanceAs (Decidable (_ → _))
  | .write _ _ | .abort _ => .isTrue trivial

theorem readsFile_keepsCommitted : ReadsFile KeepsCommitted := fun _ _ _ _ _ _ => trivial

section Survival

variable [BuildProfile] [Unicode] [SqlParser] [ComfyTable] [SerdeJson]
  {b : Server} {w : World} {h : List DbEvent} {past : List (List DbEvent)}

theorem Lives.not_begin (hl : Lives KeepsCommitted b past)
    (hr : Reaches KeepsCommitted b.world w h) {r : ℕ × String × List Value}
    (hc : r ∈ confirmedWrites b.world.filed) : .begin r.1 ∉ h := by
  intro hm
  have hlegal : Legal h := (hl.durable hr).1.legal
  obtain ⟨w₁, h₁, h₂, f₁, rfl, hG, hfile, hd, -⟩ := hl.performed hr hm
  apply hG r _ rfl
  rw [hfile, confirmedWrites_append (hd.legal hlegal.of_append)]
  exact List.mem_append_left _ hc

theorem Lives.not_abort (hl : Lives KeepsCommitted b past)
    (hr : Reaches KeepsCommitted b.world w h) {r : ℕ × String × List Value}
    (hc : r ∈ committedWrites h) : .abort r.1 ∉ b.world.filed := by
  intro hab
  have hlegal : Legal h := (hl.durable hr).1.legal
  obtain ⟨hwrite, hcommit⟩ := mem_writesOf.mp hc
  obtain ⟨w₁, h₁, h₂, f₁, rfl, hG, hfile, -, hlog⟩ := hl.performed hr hcommit
  have hopen : Open h₁ r.1 := hlegal.allowed
  have hbefore : .write (some r.1) r.2 ∈ h₁ := hlegal.mem_of_commit hwrite rfl nofun
  apply hG (hfile ▸ List.mem_append_left f₁ hab) r _ rfl
  rw [hlog]
  exact mem_pendingWrites hlegal.of_append.filter_inTx ((mem_filter_inTx rfl).mpr hbefore)
    (open_filter_inTx.mpr hopen)

theorem Lives.lasting (hl : Lives KeepsCommitted b past) : Lasting b.world.filed := by
  refine Lives.induct (P := fun b _ => Lasting b) readsFile_keepsCommitted ?_ ?_ hl
  · intro r hr
    cases hr
  intro b w past h f hl hr hlegal hd ih
  apply ih.append (hd.legal hlegal)
  · exact fun r hc hm => hl.not_begin hr hc (hd.subset hm)
  · intro r hc
    rw [hd.committedWrites_eq] at hc
    exact hl.not_abort hr hc

/--
If no transaction begins with the identifier of a confirmed row, and none commits
rows under an identifier that has aborted, every restart rebuilds the rows of all
transactions that have ever committed, and everyone sees them from then on.
-/
theorem committed_rows_survive (hl : Lives KeepsCommitted b past) :
    (∀ name, (rowsTo name (past.flatMap committedWrites)).Sublist
      ((b.world.rows name).map Tuple.tagged)) ∧
      ∀ w h, Runs KeepsCommitted b w h → ∀ i a, (i, a) ∈ past.flatMap committedWrites →
        ∀ sessionTxId, w.db.txMgr.isVisible (some i) sessionTxId w.db.txMgr.scn := by
  have hlasting := hl.lasting
  obtain ⟨file, hfile⟩ := hl.restarted
  rw [← hl.confirmed readsFile_keepsCommitted]
  constructor
  · intro name
    rw [hfile, Server.restarted_rows, ← hfile]
    exact rowsTo_sublist name hlasting.sublist
  · intro w h hr i a hia sessionTxId
    have hreach := hr.reaches readsFile_keepsCommitted
    have hopens (id : ℕ) : b.world.opens id = none := by rw [hfile, Server.restarted_opens]
    -- the identifier is not handed out again, so that nothing changes its status
    have hno : .begin i ∉ h := hl.not_begin hreach hia
    have habs : ∀ e ∈ h, e.owner ≠ some i := fun e he ho =>
      hno ((hl.durable hreach).1.legal.begun he ho)
    have hclock : CommitClock b.world w.world h := hreach.commitClock hopens
    have hlast : LastCommit b.world.filed i := (hlasting _ hia).1
    obtain ⟨hst, n, hn, hle⟩ : b.db.txMgr.statuses.lookup i = some .committed ∧
        ∃ n, b.db.txMgr.commitScns.lookup i = some n ∧ n ≤ b.db.txMgr.scn := by
      subst hfile
      rw [Server.restarted_filed] at hlast
      exact rebuilt_visible hlast
    apply TransactionManager.isVisible_of_committed _ _ (hle.trans hclock.scn_le) sessionTxId
    · exact (hreach.statuses i).trans ((statusIn_absent habs _).trans hst)
    · exact (hclock.unchanged i fun hm => habs _ hm rfl).trans hn

end Survival

open Sample in
theorem committed_rows_survive_sample :
    (∀ name, (rowsTo name (histories.flatMap committedWrites)).Sublist
      ((third.world.rows name).map Tuple.tagged)) ∧
      ∀ w h, Runs KeepsCommitted third w h → ∀ i a, (i, a) ∈ histories.flatMap committedWrites →
        ∀ sessionTxId, w.db.txMgr.isVisible (some i) sessionTxId w.db.txMgr.scn :=
  committed_rows_survive (lives (by decide +kernel) (by decide +kernel))

open Sample in
/-- A new transaction takes the identifier of a committed one and hides its rows. -/
theorem committed_rows_hidden : ¬ ∀ (b : Server) (past : List (List DbEvent)), Lives free b past →
    (∀ name, (rowsTo name (past.flatMap committedWrites)).Sublist
      ((b.world.rows name).map Tuple.tagged)) ∧
      ∀ w h, Runs free b w h → ∀ i a, (i, a) ∈ past.flatMap committedWrites →
        ∀ sessionTxId, w.db.txMgr.isVisible (some i) sessionTxId w.db.txMgr.scn := by
  intro hall
  have hmem : ∀ rec ∈ (Server.fresh.after secondLife).1.db.txMgr.redoFile.written,
      rec ∈ records := by decide +kernel
  have hlives := Lives.first.after (Server.meets_free _ secondLife) fun rec hrec =>
    roundTrips rec (hmem rec hrec)
  have hvisible := (hall _ _ hlives).2 _ _ (.after _ [.connect, .statement 1 "BEGIN"]) 1
    ("t", [.int 1]) (by decide +kernel) none
  exact absurd hvisible (by decide +kernel)

/--
No row is written under an identifier that has committed, and no identifier with
abandoned rows commits, unless it has aborted.
-/
def DropsUncommitted (w : World) : DbEvent → Prop
  | .write (some i) _ => .commit i ∈ w.filed → .abort i ∈ w.filed
  | .commit i => .abort i ∉ w.filed → ∀ r ∈ abandonedWrites w.logged, r.1 ≠ i
  | _ => True

instance DropsUncommitted.decidable (w : World) : ∀ e, Decidable (DropsUncommitted w e)
  | .write (some _) _ => inferInstanceAs (Decidable (_ → _))
  | .commit _ => inferInstanceAs (Decidable (_ → _))
  | .write none _ | .begin _ | .abort _ => .isTrue trivial

theorem readsFile_dropsUncommitted : ReadsFile DropsUncommitted := by
  intro w w' o a hfile hG
  cases o with
  | none => trivial
  | some i => simpa only [DropsUncommitted, World.filed, hfile] using hG

section Resurrection

variable [BuildProfile] [Unicode] [SqlParser] [ComfyTable] [SerdeJson]
  {b : Server} {w : World} {h : List DbEvent} {past : List (List DbEvent)}

theorem Lives.abort_of_write (hl : Lives DropsUncommitted b past)
    (hr : Reaches DropsUncommitted b.world w h) {i : ℕ} {a : String × List Value}
    (hm : .write (some i) a ∈ h) (hc : .commit i ∈ b.world.filed) : .abort i ∈ b.world.filed := by
  have hlegal : Legal h := (hl.durable hr).1.legal
  obtain ⟨w₁, h₁, h₂, f₁, rfl, hG, hfile, hd, -⟩ := hl.performed hr hm
  have hopen : Open h₁ i := hlegal.allowed
  have hab : .abort i ∈ w₁.filed := hG (hfile ▸ List.mem_append_left f₁ hc)
  rw [hfile] at hab
  exact (List.mem_append.mp hab).resolve_right fun hm => hopen.not_abort (hd.subset hm)

theorem Lives.abort_of_commit (hl : Lives DropsUncommitted b past)
    (hr : Reaches DropsUncommitted b.world w h) {r : ℕ × String × List Value}
    (hu : r ∈ unconfirmedWrites b.world.filed) (hm : .commit r.1 ∈ h) :
    .abort r.1 ∈ b.world.filed := by
  by_contra hno
  have hlegal : Legal h := (hl.durable hr).1.legal
  obtain ⟨w₁, h₁, h₂, f₁, rfl, hG, hfile, hd, hlog⟩ := hl.performed hr hm
  have hopen : Open h₁ r.1 := hlegal.allowed
  have hab : .abort r.1 ∉ w₁.filed := by
    rw [hfile, List.mem_append]
    exact fun hm => hm.elim hno fun hm => hopen.not_abort (hd.subset hm)
  apply hG hab r _ rfl
  rw [hlog]
  exact mem_abandonedWrites hlegal.of_append.filter_inTx hu ((mem_filter_inTx rfl).mpr hopen.begun)

theorem Lives.discarding (hl : Lives DropsUncommitted b past) : Discarding b.world.filed := by
  refine Lives.induct (P := fun b _ => Discarding b) readsFile_dropsUncommitted ?_ ?_ hl
  · intro r hr
    cases hr
  intro b w past h f hl hr hlegal hd ih
  apply ih.append (hd.legal hlegal)
  · exact fun i a hm hc => hl.abort_of_write hr (hd.subset hm) hc
  · exact fun r hu hm => hl.abort_of_commit hr hu (hd.subset hm)

/--
If no row is written under an identifier that has committed, and no identifier with
abandoned rows commits, unless it has aborted, every restart rebuilds only rows of
transactions that have committed.
-/
theorem uncommitted_rows_gone (hl : Lives DropsUncommitted b past) (name : String) :
    ((b.world.rows name).map Tuple.tagged).Sublist
      (rowsTo name (past.flatMap committedWrites)) := by
  have hsub := hl.discarding.sublist
  rw [hl.confirmed readsFile_dropsUncommitted] at hsub
  obtain ⟨file, rfl⟩ := hl.restarted
  rw [Server.restarted_rows]
  exact rowsTo_sublist name hsub

end Resurrection

namespace Sample

/-- A transaction has written and is open at the crash; another one's commit has flushed it. -/
def openLife : List Event := [.connect, .connect, .statement 1 "CREATE TABLE t (a INT)",
  .statement 1 "BEGIN", .statement 1 "INSERT INTO t VALUES (1)", .statement 2 "BEGIN",
  .statement 2 "COMMIT"]

def emptyLife : List Event := [.connect, .statement 1 "BEGIN", .statement 1 "COMMIT"]

theorem openLife_records :
    ∀ rec ∈ (Server.fresh.after openLife).1.db.txMgr.redoFile.written, RoundTrips rec := by
  have hin : ∀ rec ∈ (Server.fresh.after openLife).1.db.txMgr.redoFile.written,
      rec ∈ records := by decide +kernel
  exact fun rec hrec => roundTrips rec (hin rec hrec)

end Sample

open Sample in
theorem uncommitted_rows_gone_sample :
    let open_ := Server.fresh.after openLife
    .insert 1 0 "t" [.int 1] 0 ∈ open_.1.db.txMgr.redoFile.written ∧
      (((Server.restarted open_.1.db.txMgr.redoFile).world.rows "t").map Tuple.tagged).Sublist
        (rowsTo "t" ([open_.2].flatMap committedWrites)) := by
  refine ⟨by decide +kernel, ?_⟩
  exact uncommitted_rows_gone (Lives.first.after (by decide +kernel) openLife_records) "t"

open Sample in
/-- The commit of a new transaction revives the rows of an old one with its identifier. -/
theorem uncommitted_rows_revived : ¬ ∀ (b : Server) (past : List (List DbEvent)),
    Lives free b past →
    ∀ name, ((b.world.rows name).map Tuple.tagged).Sublist
      (rowsTo name (past.flatMap committedWrites)) := by
  intro hall
  have hlives := Lives.first.after (Server.meets_free _ openLife) openLife_records
  have htwo : ∀ rec ∈ ((Server.restarted (Server.fresh.after openLife).1.db.txMgr.redoFile).after
      emptyLife).1.db.txMgr.redoFile.written, rec ∈ records := by decide +kernel
  have hrows := hall _ _ (hlives.after (Server.meets_free _ emptyLife) fun rec hrec =>
    roundTrips rec (htwo rec hrec)) "t"
  exact absurd hrows.length_le (by decide +kernel)

end VolcanoDb
