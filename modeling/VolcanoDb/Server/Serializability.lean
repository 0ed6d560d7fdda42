import VolcanoDb.Server.Growth

/-! # Serial executions

What committed transactions leave behind could have been left behind by the same
transactions one after the other. The serial execution is one of the same server; a
query without windows and groups does not tell the two apart, up to the order of rows.
-/

namespace VolcanoDb

open History Relational

section Execution

variable {db : DatabaseState} {as : List (String × List Value)}

/-- A row that can be inserted into a table. -/
def DatabaseState.Takes (db : DatabaseState) (a : String × List Value) : Prop :=
  (∃ schema, db.catalog.getSchema a.1 = some schema ∧ a.2.length = schema.columns.length) ∧
    (db.tables.lookup a.1).isSome

theorem Reaches.insertAll {opens : ℕ → Option ℕ} {id : ℕ} {owner : Option ℕ}
    (ho : opens id = owner) (has : ∀ a ∈ as, db.Takes a) :
    ∃ db', Reaches KeepsPositions ⟨db, opens⟩ ⟨db', opens⟩ (as.map (.write owner)) ∧
      db'.catalog = db.catalog := by
  induction as generalizing db with
  | nil => exact ⟨db, .refl, rfl⟩
  | cons a as ih =>
    obtain ⟨name, vals⟩ := a
    obtain ⟨⟨⟨schema, hs, hlen⟩, ht⟩, has⟩ := List.forall_mem_cons.mp has
    obtain ⟨rows, hrows⟩ := Option.isSome_iff_exists.mp ht
    have ha : Act ⟨db, opens⟩ [.write (opens id) (name, vals)]
        ⟨db.pushRow (opens id) name rows vals, opens⟩ := .write hs hrows hlen
    rw [ho] at ha
    have htakes : ∀ b ∈ as, (db.pushRow owner name rows vals).Takes b :=
      fun b hb => ⟨(has b hb).1, ha.lookup_isSome (has b hb).2⟩
    obtain ⟨db', hrest, hcatalog⟩ := ih htakes
    exact ⟨db', (Reaches.single ha (by simp [KeepsPositions])).trans hrest, hcatalog⟩

theorem Reaches.transaction (has : ∀ a ∈ as, db.Takes a) :
    ∃ db' i, Reaches KeepsPositions ⟨db, fun _ => none⟩ ⟨db', fun _ => none⟩
      (.begin i :: as.map (.write (some i)) ++ [.commit i]) ∧ db'.catalog = db.catalog := by
  have hself : Function.update (fun _ : ℕ => (none : Option ℕ)) 0 (some db.txMgr.nextTxId) 0 =
      some db.txMgr.nextTxId := Function.update_self ..
  have hbegin : Reaches KeepsPositions ⟨db, fun _ => none⟩
      ⟨db.begin.2, Function.update (fun _ => none) 0 (some db.txMgr.nextTxId)⟩
      [.begin db.txMgr.nextTxId] := .single (.begin rfl) (by simp [KeepsPositions])
  have htakes : ∀ a ∈ as, db.begin.2.Takes a := has
  obtain ⟨db', hinsert, hcatalog⟩ := Reaches.insertAll hself htakes
  have hcommit : Act ⟨db', Function.update (fun _ => none) 0 (some db.txMgr.nextTxId)⟩
      [.commit db.txMgr.nextTxId] ⟨db'.commit db.txMgr.nextTxId, Function.update
        (Function.update (fun _ => none) 0 (some db.txMgr.nextTxId)) 0 none⟩ := .commit hself
  rw [Function.update_idem, Function.update_eq_self] at hcommit
  exact ⟨db'.commit db.txMgr.nextTxId, db.txMgr.nextTxId,
    (hbegin.trans hinsert).trans (.single hcommit (by simp [KeepsPositions])), hcatalog⟩

variable {G : World → DbEvent → Prop} {w₀ w : World} {h : List DbEvent}

theorem Reaches.takes (hr : Reaches G w₀ w h) (hcatalog : db.catalog = w.db.catalog)
    (hstored : World.Stored ⟨db, fun _ => none⟩) {owner : Option ℕ} {a : String × List Value}
    (hw : .write owner a ∈ h) : db.Takes a := by
  obtain ⟨schema, hs, hlen⟩ := hr.written_length hw
  rw [← hcatalog] at hs
  exact ⟨⟨schema, hs, hlen⟩, hstored a.1 (Option.isSome_of_eq_some hs)⟩

/-- The server could have executed the committed transactions one after the other. -/
theorem Reached.serial_execution (hr : Reached G w h) : ∃ db h',
    Reached KeepsPositions ⟨db, fun _ => none⟩ h' ∧ Serial h' ∧ db.catalog = w.db.catalog ∧
      (writes h').map Prod.snd = (writes (serial h)).map Prod.snd := by
  induction hr with
  | refl => exact ⟨Server.fresh.db, [], .refl, .nil, rfl, rfl⟩
  | @act w w' h es hr ha _ ih =>
    obtain ⟨db, h', hr', hserial, hcatalog, hwrites⟩ := ih
    have hstored : World.Stored ⟨db, fun _ => none⟩ := Reaches.stored hr' (by rintro _ ⟨⟩)
    cases ha with
    | @begin id ho =>
      refine ⟨db, h', hr', hserial, hcatalog, ?_⟩
      rw [hwrites, serial_snoc]
      simp [block]
    | @write id name schema rows vals hs hrows hlen =>
      rcases ho : w.opens id with _ | i
      · have htakes : ∀ a ∈ [(name, vals)], db.Takes a := by
          rintro a ha
          obtain rfl := List.mem_singleton.mp ha
          refine ⟨⟨schema, by rw [hcatalog, hs], hlen⟩, hstored name ?_⟩
          rw [hcatalog, hs]
          rfl
        obtain ⟨db', hinsert, hcatalog'⟩ :=
          @Reaches.insertAll db _ (fun _ => none) 0 none rfl htakes
        refine ⟨db', _, hr'.trans hinsert, hserial.write _, hcatalog'.trans hcatalog, ?_⟩
        rw [serial_snoc, writes_append, writes_append, List.map_append, List.map_append, hwrites]
        rfl
      · refine ⟨db, h', hr', hserial, hcatalog, ?_⟩
        rw [hwrites, serial_snoc]
        simp [block]
    | @commit id i ho =>
      have ht : Tracks w h := Reached.tracks hr
      obtain ⟨as, has⟩ := (ht.legal.grammar i).of_open (ht.opened id i ho)
      have htakes (a : String × List Value) (ha : a ∈ as) : db.Takes a := by
        have hw : .write (some i) a ∈ eventsOf h i := by
          rw [has]
          exact List.mem_cons_of_mem _ (List.mem_map_of_mem ha)
        exact hr.takes hcatalog hstored (mem_eventsOf.mp hw).1
      obtain ⟨db', j, htransaction, hcatalog'⟩ := Reaches.transaction htakes
      refine ⟨db', _, hr'.trans htransaction, hserial.transaction j as,
        hcatalog'.trans hcatalog, ?_⟩
      rw [serial_snoc, writes_append, writes_append, List.map_append, List.map_append, hwrites,
        block, has]
      simp [writes, Function.comp_def]
    | @rollback id i ho =>
      refine ⟨db, h', hr', hserial, hcatalog, ?_⟩
      rw [hwrites, serial_snoc]
      simp [block]
    | @createTable name schema hnew =>
      have hcreate : Act ⟨db, fun _ => none⟩ [] ⟨db.createTable name schema, fun _ => none⟩ :=
        .createTable (hcatalog ▸ hnew)
      refine ⟨db.createTable name schema, h' ++ [], hr'.act hcreate (by simp), ?_, ?_, ?_⟩
      · rwa [List.append_nil]
      · simp [DatabaseState.createTable, hcatalog]
      · rw [List.append_nil, List.append_nil, hwrites]
    | release ho =>
      refine ⟨db, h', hr', hserial, hcatalog, ?_⟩
      rw [hwrites, List.append_nil]

theorem onTable_values (name : String) (ws : List (Option ℕ × String × List Value)) :
    (onTable name ws).map Prod.snd = (ws.map Prod.snd).filterMap fun a =>
      if a.1 = name then some a.2 else none := by
  rw [onTable, List.map_filterMap, List.filterMap_map]
  congr 1
  funext r
  by_cases hn : r.2.1 = name <;> simp [hn]

end Execution

section Answers

variable {G : World → DbEvent → Prop} {w w' : Server} {h : List DbEvent}

theorem Reached.reads_isSome (hr : Reached G w.world h) (session : SessionState) {name : String}
    (ht : (w.db.catalog.getSchema name).isSome) : ((w.readContext session).reads name).isSome := by
  rw [hr.reads_eq_rows session (Reaches.stored hr (by rintro _ ⟨⟩) name ht)]
  rfl

variable [BuildProfile] [Unicode] [SqlParser] [ComfyTable] {c c' : Collections}

/--
Two databases answer a query with the same rows up to their order, and without a sort
the one answers it if the other does.
-/
structure AnswersAlike (plan : LogicalPlan) (answer answer' : Result String) : Prop where
  rows : ∀ reply reply', answer = .ok reply → answer' = .ok reply' → ∃ schema rows rows',
    reply = resultText schema rows ∧ reply' = resultText schema rows' ∧
      (rows.map Tuple.values).Perm (rows'.map Tuple.values)
  succeeds : plan.Unsorted → ((∃ reply, answer = .ok reply) ↔ ∃ reply', answer' = .ok reply')

theorem AnswersAlike.of_perm (hsort : @SortsByComparing c) (hsort' : @SortsByComparing c')
    {session session' : SessionState} {sql : String} (hc : ¬ IsControl sql) {plan : LogicalPlan}
    (hp : plan.RowByRow) (hb : bindStatement sql w.db.catalog = .ok (.query plan))
    (hb' : bindStatement sql w'.db.catalog = .ok (.query plan))
    (hrel : Relates (fun l l' => l.Perm l') plan (w.readContext session) (w'.readContext session')
      w.db.catalog w'.db.catalog)
    (hstored : ∀ name ∈ plan.scans, ((w.readContext session).reads name).isSome)
    (hstored' : ∀ name ∈ plan.scans, ((w'.readContext session').reads name).isSome) :
    AnswersAlike plan (@innerHandle _ _ c _ _ w.db session sql).1
      (@innerHandle _ _ c' _ _ w'.db session' sql).1 := by
  constructor
  · intro reply reply' hreply hreply'
    obtain ⟨schema, rows, hschema, hrows, rfl⟩ := query_answered hc hb hreply
    obtain ⟨schema', rows', hschema', hrows', rfl⟩ := query_answered hc hb' hreply'
    rw [← plan.schema_congr hrel.schemas, hschema] at hschema'
    cases hschema'
    exact ⟨schema, rows, rows', rfl, rfl, LogicalPlan.stream_related respects_perm hp
      (.inr ⟨hsort, hsort', unordered_perm⟩) hrel hrows hrows'⟩
  · intro hunsorted
    constructor
    · exact query_succeeds hc hp hunsorted hb hb'
        ⟨hrel.schemas, fun name hn l l' hl hl' => (hrel.rows name hn l l' hl hl').symm.subset⟩
        hstored'
    · exact query_succeeds hc hp hunsorted hb' hb ⟨fun name hn => (hrel.schemas name hn).symm,
        fun name hn l l' hl hl' => (hrel.rows name hn l' l hl' hl).subset⟩ hstored

/--
For every run whose rollbacks find their rows there is a serial execution of the
server: the committed transactions one after the other, in the order in which they
committed, with the same inserts, and the inserts of no one in between. Sessions
without a transaction are answered alike after the run and after the serial execution.
-/
theorem answers_serializable (hsort : @SortsByComparing c) (hsort' : @SortsByComparing c')
    (hr : Runs KeepsPositions Server.fresh w h) :
    ∃ w' h', Reached KeepsPositions (Server.world w') h' ∧ Serial h' ∧
      (writes h').map Prod.snd = (writes (serial h)).map Prod.snd ∧
      ∀ session session' : SessionState, session.currentTxId = none →
        session'.currentTxId = none → ∀ sql plan, ¬ IsControl sql → plan.RowByRow →
          bindStatement sql w.db.catalog = .ok (.query plan) →
          AnswersAlike plan (@innerHandle _ _ c _ _ w.db session sql).1
            (@innerHandle _ _ c' _ _ w'.db session' sql).1 := by
  have hr₁ : Reached KeepsPositions w.world h := hr.keeps
  obtain ⟨db, h', hr', hserial, hcatalog, hwrites⟩ := hr₁.serial_execution
  refine ⟨⟨db, ∅, 1, false⟩, h', hr', hserial, hwrites,
    fun session session' htx htx' sql plan hc hp hb => ?_⟩
  have hr₂ : Reached KeepsPositions (Server.world ⟨db, ∅, 1, false⟩) h' := hr'
  have hopen (g : List DbEvent) (s : SessionState) (hs : s.currentTxId = none) (i : ℕ)
      (hi : s.currentTxId = some i) : Open g i := by
    rw [hs] at hi
    cases hi
  -- one session sees what the other sees in the order of the commits
  have hperm (name : String) (old new : List Tuple)
      (hold : (w.readContext session).reads name = some old)
      (hnew : (Server.readContext ⟨db, ∅, 1, false⟩ session').reads name = some new) :
      (old.map Tuple.values).Perm (new.map Tuple.values) := by
    rw [hr₁.reads_values (hopen h session htx) hold, hr₂.reads_values (hopen h' session' htx') hnew,
      htx, hserial.snapshot_eq, onTable_values name (writes h'), hwrites, ← onTable_values]
    exact ((snapshot_perm_serial hr₁.tracks.legal).filterMap _).map _
  have hscans : ∀ name ∈ plan.scans, (w.db.catalog.getSchema name).isSome :=
    bindStatement_scans hb
  exact .of_perm hsort hsort' hc hp hb (hcatalog ▸ hb)
    ⟨fun name _ => congrArg (Catalog.getSchema · name) hcatalog.symm, fun name _ => hperm name⟩
    (fun name hn => hr₁.reads_isSome session (hscans name hn))
    fun name hn => hr₂.reads_isSome session' (hcatalog ▸ hscans name hn)

end Answers

open Reading in
theorem answers_serializable_sample : ∃ w' h',
    Reached KeepsPositions (Server.world w') h' ∧ Serial h' ∧
      (writes h').map Prod.snd = (writes (serial (Server.fresh.after before).2)).map Prod.snd ∧
      ∀ session session' : SessionState, session.currentTxId = none →
        session'.currentTxId = none → ∀ sql plan, ¬ IsControl sql → plan.RowByRow →
          bindStatement sql first.db.catalog = .ok (.query plan) →
          AnswersAlike plan (@innerHandle _ _ insertionCollections _ _ first.db session sql).1
            (@innerHandle _ _ backwards _ _ w'.db session' sql).1 :=
  answers_serializable sortsByComparing_insertionCollections sameStd_backwards.sorts' first_runs

end VolcanoDb
