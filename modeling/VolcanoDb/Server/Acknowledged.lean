import VolcanoDb.Server.Network
import VolcanoDb.Server.Queries
import VolcanoDb.Server.Restarts

/-! # Acknowledged commits

A terminal shows the text of a commit only when the server has committed a
transaction for it. From then on the redo file holds the transaction, whatever
becomes of the client, of its connection and of the server.
-/

namespace VolcanoDb

open LockStep History

section Texts

def commitText (txId : ℕ) : String := s!"COMMIT (tx_id={txId})"

theorem commitText_injective : Function.Injective commitText := by
  intro i j h
  have hdigits : Nat.toDigits 10 i = Nat.toDigits 10 j := by
    simpa [commitText] using congrArg String.toList h
  rw [← Nat.ofDigitChars_ten_toDigits (n := i), hdigits, Nat.ofDigitChars_ten_toDigits]

theorem head_append {s t : String} {c : Char} (h : s.toList.head? = some c) :
    (s ++ t).toList.head? = some c := by
  rw [String.toList_append, List.head?_append, h]
  rfl

theorem getLast_append {s t : String} {c : Char} (h : t.toList.getLast? = some c) :
    (s ++ t).toList.getLast? = some c := by
  rw [String.toList_append, List.getLast?_append, h]
  rfl

theorem head_commitText (i : ℕ) : (commitText i).toList.head? = some 'C' :=
  head_append (head_append (by decide))

theorem getLast_commitText (i : ℕ) : (commitText i).toList.getLast? = some ')' :=
  getLast_append (by decide)

theorem ne_commitText {s : String} {c : Char} (h : s.toList.head? = some c) (hc : c ≠ 'C') (i : ℕ) :
    s ≠ commitText i := by
  rintro rfl
  exact hc (Option.some.inj (h.symm.trans (head_commitText i)))

variable [BuildProfile] [Unicode] [SqlParser] [Collections] [ComfyTable]

omit [Unicode] [SqlParser] in
theorem runQuery_ne_commitText {ctx : ExecutionContext} {catalog : Catalog} {plan : LogicalPlan}
    {i : ℕ} : runQuery ctx catalog plan ≠ .ok (commitText i) := by
  intro h
  rcases hb : buildExecutor catalog plan with f | e
  · rw [runQuery, hb] at h
    cases h
  rw [runQuery_eq hb] at h
  obtain ⟨s, -, h⟩ := Result.bind_eq_ok.mp h
  obtain ⟨schema, -, h⟩ := Result.bind_eq_ok.mp h
  obtain ⟨rows, -, h⟩ := Result.bind_eq_ok.mp h
  have hlast := getLast_commitText i
  rw [← Except.ok.inj h] at hlast
  have hdot : (resultText schema rows).toList.getLast? = some '.' := getLast_append (by decide)
  rw [hdot] at hlast
  exact absurd (Option.some.inj hlast) (by decide)

omit [SqlParser] in
theorem executeStatement_ne_commitText {db : DatabaseState} {session : SessionState}
    {statement : SQLStatement} {i : ℕ} :
    (executeStatement db session statement).1 ≠ .ok (commitText i) := by
  cases statement with
  | createTable tableName schema =>
    unfold executeStatement handleCreateTable
    dsimp only
    split
    · rintro ⟨⟩
    · intro h
      refine ne_commitText (c := 'T') ?_ (by decide) i (Except.ok.inj h)
      exact head_append (head_append (by decide))
  | insert tableName rows =>
    unfold executeStatement handleInsert
    dsimp only
    split
    · rintro ⟨⟩
    · split
      · rintro ⟨⟩
      · intro h
        obtain ⟨n, -, h⟩ := Result.map_eq_ok.mp h
        exact ne_commitText (c := 'I') (head_append (head_append (by decide))) (by decide) i h
  | query plan => exact runQuery_ne_commitText

theorem statementEffects_of_commitText {db : DatabaseState} {session : SessionState}
    {sql : String} {i : ℕ} (h : (innerHandle db session sql).1 = .ok (commitText i)) :
    statementEffects db session sql = [.commit i] := by
  unfold innerHandle at h
  unfold statementEffects
  dsimp only at h ⊢
  split at h
  · unfold handleBegin at h
    split at h
    · cases h
    · refine absurd (Except.ok.inj h) (ne_commitText (c := 'B') ?_ (by decide) i)
      exact head_append (head_append (by decide))
  rename_i hbegin
  rw [if_neg hbegin]
  split at h
  · rename_i hcommit
    rw [if_pos hcommit]
    unfold handleCommit at h
    split at h
    · cases h
    · rename_i txId htx
      obtain rfl : txId = i := commitText_injective (Except.ok.inj h)
      rw [htx]
      rfl
  split at h
  · unfold handleRollback at h
    split at h
    · cases h
    · refine absurd (Except.ok.inj h) (ne_commitText (c := 'R') ?_ (by decide) i)
      exact head_append (head_append (by decide))
  rcases hb : bindStatement sql db.catalog with f | statement <;> rw [hb] at h
  · cases h
  · exact absurd h executeStatement_ne_commitText

/-- Only a statement that commits a transaction is answered like a commit. -/
theorem requestEffects_of_commitText {db : DatabaseState} {session : SessionState} {sql : String}
    {i : ℕ} (h : (handleStatement db session sql).1 = .text (commitText i)) :
    requestEffects db session sql = [.commit i] := by
  unfold handleStatement at h
  unfold requestEffects
  dsimp only at h
  split at h
  · cases h
  rename_i hcrash
  rw [if_neg hcrash]
  split at h
  · refine absurd (Reply.text.inj h) (ne_commitText (c := 's') ?_ (by decide) i)
    exact head_append (head_append (head_append (head_append (head_append (by decide)))))
  rename_i hstatus
  rw [if_neg hstatus]
  rcases hi : innerHandle db session sql with ⟨(e | m) | msg, db', session'⟩ <;> rw [hi] at h
  · refine absurd (Reply.text.inj h) (ne_commitText (c := 'E') ?_ (by decide) i)
    exact head_append (by decide)
  · cases h
  obtain rfl : msg = commitText i := Reply.text.inj h
  exact statementEffects_of_commitText (congrArg Prod.fst hi)

omit [Collections] in
theorem Server.Executes.commit_mem {w₀ w : Server} {es : List Event}
    {replies : List (ℕ × String × String)} {h : List DbEvent} (hex : w₀.Executes es w replies h)
    {id : ℕ} {sql : String} {i : ℕ} (hr : (id, sql, commitText i) ∈ replies) : .commit i ∈ h := by
  induction hex with
  | refl => cases hr
  | @step _ es w replies h e _ ih =>
    rcases List.mem_append.mp hr with hr | hr
    · exact List.mem_append_left _ (ih hr)
    · obtain ⟨rfl, hsome⟩ := reply_of_mem_answered hr
      obtain ⟨session, hs, ⟨hdown, hreply, -⟩ | ⟨-, ⟨message, hreply⟩, -⟩⟩ := reply_eq_some hsome
      · have heffects := requestEffects_of_commitText hreply.symm
        refine List.mem_append_right _ ?_
        simp [effects, hs, hdown, heffects]
      · cases hreply

omit [Collections] in
theorem Server.Executes.runs {w₀ w₁ w : Server} {es : List Event}
    {replies : List (ℕ × String × String)} {h₀ h : List DbEvent} (hr : Runs free w₀ w₁ h₀)
    (hex : w₁.Executes es w replies h) : Runs free w₀ w (h₀ ++ h) := by
  induction hex with
  | refl => simpa using hr
  | @step _ es w replies h e _ ih =>
    rw [← List.append_assoc]
    exact ih.step e fun _ _ => trivial

end Texts

namespace Reached

variable {G : World → DbEvent → Prop} {w : World} {h : List DbEvent}

/-- What a committed transaction has written is rebuilt from the file, for everyone to see. -/
theorem restarted_committed (hr : Reached G w h) {i : ℕ} (hc : .commit i ∈ h) {name : String}
    {vals : List Value} (hw : .write (some i) (name, vals) ∈ h) :
    ∃ t ∈ (Server.restarted w.db.txMgr.redoFile).world.rows name, t.tagged = (some i, vals) ∧
      ∀ sessionTxId, (Server.restarted w.db.txMgr.redoFile).db.txMgr.isVisible t.txId sessionTxId
        (Server.restarted w.db.txMgr.redoFile).db.txMgr.scn := by
  have hmem : (some i, vals) ∈
      ((Server.restarted w.db.txMgr.redoFile).world.rows name).map Tuple.tagged := by
    rw [hr.restarted_rows name]
    exact List.mem_map.mpr ⟨(i, name, vals),
      List.mem_filter.mpr ⟨mem_writesOf.mpr ⟨hw, hc⟩, by simp⟩, rfl⟩
  obtain ⟨t, ht, htag⟩ := List.mem_map.mp hmem
  have hcommit : .commit i ∈ w.db.txMgr.redoFile.written.map RedoRecord.event :=
    hr.durable.commit_iff.mpr hc
  obtain ⟨hst, k, hk, hle⟩ :=
    rebuilt_visible ((hr.durable.legal hr.tracks.legal).lastCommit hcommit)
  refine ⟨t, ht, htag, fun sessionTxId => ?_⟩
  have htx : t.txId = some i := congrArg Prod.fst htag
  rw [htx]
  exact TransactionManager.isVisible_of_committed hst hk hle sessionTxId

end Reached

section Terminals

variable [BuildProfile] [Unicode] [SqlParser] [ComfyTable] [SerdeJson]

/--
Whenever a terminal has shown the response to a commit, the transaction has committed.
A server that starts from the redo file, at that moment or any later one, has every row
that the transaction had inserted, and shows it to every session.
-/
theorem shown_commit_survives {w : Server} {h₀ : List DbEvent} (hw : Runs free Server.fresh w h₀)
    {n : Network} {h : List NetworkEvent} (hr : Network.Runs (.start w) n h)
    (hf : Network.Framed h) (hrt : ∀ rec ∈ n.server.db.txMgr.redoFile.written, RoundTrips rec)
    {id i : ℕ} (hshown : .received (commitText i) ∈ signals (observations id h)) :
    ∃ hist, w.Executes (h.filterMap NetworkEvent.event) n.server (handled h) hist ∧
      .commit i ∈ h₀ ++ hist ∧ ∃ b, Server.start n.server.db.txMgr.redoFile = .ok b ∧
        ∀ name vals, .write (some i) (name, vals) ∈ h₀ ++ hist →
          ∃ t ∈ b.world.rows name, t.tagged = (some i, vals) ∧
            ∀ sessionTxId, b.db.txMgr.isVisible t.txId sessionTxId b.db.txMgr.scn := by
  obtain ⟨hist, hex⟩ := hr.server
  obtain ⟨sql, hmem⟩ := hr.handled_of_received hf hshown
  have hcommit : .commit i ∈ h₀ ++ hist := List.mem_append_right _ (hex.commit_mem hmem)
  have hreached : Reached free n.server.world (h₀ ++ hist) := (hex.runs hw).reached
  refine ⟨hist, hex, hcommit, _, Server.start_eq hrt, fun name vals hwrite => ?_⟩
  exact hreached.restarted_committed hcommit hwrite

end Terminals

open Sample in
theorem shown_commit_survives_sample :
    ∃ (n : Network) (h : List NetworkEvent),
      .received "COMMIT (tx_id=1)" ∈ signals (observations 1 h) ∧
      ∃ hist, Server.fresh.Executes (h.filterMap NetworkEvent.event) n.server (handled h) hist ∧
        .commit 1 ∈ [] ++ hist ∧ ∃ b, Server.start n.server.db.txMgr.redoFile = .ok b ∧
          ∀ name vals, .write (some 1) (name, vals) ∈ [] ++ hist →
            ∃ t ∈ b.world.rows name, t.tagged = (some 1, vals) ∧
              ∀ sessionTxId, b.db.txMgr.isVisible t.txId sessionTxId b.db.txMgr.scn := by
  obtain ⟨n, h, hr, hf, hserver, hsignals⟩ := script_runs
  have hrecords : ∀ rec ∈ scripted.db.txMgr.redoFile.written, rec ∈ records := by decide +kernel
  have hrt : ∀ rec ∈ n.server.db.txMgr.redoFile.written, RoundTrips rec := by
    rw [hserver]
    exact fun rec hrec => roundTrips rec (hrecords rec hrec)
  have hshown : .received (commitText 1) ∈ signals (observations 1 h) := by
    rw [hsignals]
    decide +kernel
  exact ⟨n, h, hshown, shown_commit_survives .refl hr hf hrt hshown⟩

end VolcanoDb
