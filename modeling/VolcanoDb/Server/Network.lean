import VolcanoDb.Lib.LockStep
import VolcanoDb.Server.Client
import VolcanoDb.Server.Protocol
import VolcanoDb.Server.Transitions

/-! # Clients, connections and the server

Every client runs its loop over the lines of a terminal and is connected to a thread
of the server by two streams of bytes. Bytes arrive in parts, connections break, and
the threads take turns at the database, in any order. What the clients see is one
run of the server on whole statements.
-/

namespace VolcanoDb

open LockStep

/-- The frames of the protocol as a code of texts, as they are written and read. -/
def frames : StreamCode String UInt8 where
  Carries payload := (Text.utf8 payload).length < 2 ^ 32
  encode payload := (writeFrame ([] : List UInt8) payload).2
  decode stream := match readFrame stream with
    | (.ok payload, rest) => some (payload, rest)
    | (.error _, _) => none
  decode_nil := rfl
  decode_encode payload rest h := by
    have hread : readFrame (lengthPrefix.frame (Text.utf8 payload) ++ rest) =
        (.ok payload, rest) :=
      readFrame_eq_ok.mpr (LengthCode.unframe_frame_of_lt h rest)
    exact congrArg (fun r : Except FrameError String × List UInt8 => match r with
      | (.ok payload, rest) => some (payload, rest)
      | (.error _, _) => none) hread
  decode_part payload p h hp hne := by
    obtain ⟨e, rest, hread⟩ := readFrame_strict_prefix h hp hne
    rw [hread]

/-- A client at its terminal, and its connection. -/
structure Terminal where
  /-- The lines that wait for the end of their statement. -/
  input : String
  link : Link UInt8

/-- What can be seen at a terminal and its connection. -/
inductive Observation where
  | typed (line : String)
  | signal (s : Signal String)
  deriving DecidableEq

namespace Terminal

def fresh : Terminal := ⟨"", .fresh⟩

/-- The steps of a client and of its connection, without the server. -/
inductive Step (t : Terminal) : List Observation → Terminal → Prop where
  | leave {line input : String} (hr : t.link.asker = .ready)
      (hl : Client.readLine t.input line = (.leave, input)) :
      Step t [.typed line] ⟨input, t.link.leave⟩
  | request {line sql input : String} (hr : t.link.asker = .ready)
      (hl : Client.readLine t.input line = (.request sql, input)) :
      Step t [.typed line, .signal (.sent sql)] ⟨input, t.link.ask (frames.encode sql)⟩
  | goOn {line input : String} (hr : t.link.asker = .ready)
      (hl : Client.readLine t.input line = (.goOn, input)) :
      Step t [.typed line] ⟨input, t.link⟩
  /-- The response is printed. -/
  | receive {resp : String} {rest : List UInt8} (hw : t.link.asker = .waiting)
      (hd : frames.decode t.link.replies.arrived = some (resp, rest)) :
      Step t [.signal (.received resp)] ⟨t.input, t.link.take rest⟩
  /-- The terminal ends, or the connection fails the client. -/
  | hangUp : Step t [] ⟨t.input, t.link.leave⟩
  | moveRequests {p : Pipe UInt8} (h : t.link.requests.Moves p) :
      Step t [] ⟨t.input, { t.link with requests := p }⟩
  | moveReplies {p : Pipe UInt8} (h : t.link.replies.Moves p) :
      Step t [] ⟨t.input, { t.link with replies := p }⟩

end Terminal

section Views

def typed (os : List Observation) : List String :=
  os.filterMap fun
    | .typed line => some line
    | _ => none

def signals (os : List Observation) : List (Signal String) :=
  os.filterMap fun
    | .signal s => some s
    | _ => none

def sent (ss : List (Signal String)) : List String :=
  ss.filterMap fun
    | .sent sql => some sql
    | _ => none

variable {os os' : List Observation} {ss ss' : List (Signal String)}

@[simp] theorem typed_append : typed (os ++ os') = typed os ++ typed os' := List.filterMap_append

@[simp] theorem signals_append : signals (os ++ os') = signals os ++ signals os' :=
  List.filterMap_append

@[simp] theorem sent_append : sent (ss ++ ss') = sent ss ++ sent ss' := List.filterMap_append

@[simp] theorem typed_map (ss : List (Signal String)) : typed (ss.map .signal) = [] := by
  simp [typed, List.filterMap_map]

@[simp] theorem signals_map (ss : List (Signal String)) : signals (ss.map .signal) = ss := by
  simp [signals, List.filterMap_map]

theorem mem_signals {s : Signal String} : s ∈ signals os ↔ .signal s ∈ os := by
  simp only [signals, List.mem_filterMap]
  constructor
  · rintro ⟨_ | s', ho, hs⟩
    · cases hs
    · cases hs
      exact ho
  · intro ho
    exact ⟨_, ho, rfl⟩

end Views

namespace Terminal

/-- A step of a client, or one of the server's thread on its connection. -/
inductive Moves (t : Terminal) : List Observation → Terminal → Prop where
  | client {os : List Observation} {t' : Terminal} (hs : t.Step os t') : Moves t os t'
  | thread {ss : List (Signal String)} {l : Link UInt8} (hs : t.link.Step frames ss l)
      (ha : l.asker = t.link.asker) (hsent : sent ss = []) :
      Moves t (ss.map .signal) ⟨t.input, l⟩

theorem Moves.stop (t : Terminal) : t.Moves [] ⟨t.input, t.link.stop⟩ :=
  @thread t [] _ .stop rfl rfl

/-- A terminal whose connection and whose lines agree with what has been seen. -/
structure Observed (t : Terminal) (os : List Observation) : Prop where
  runs : Link.Runs frames t.link (signals os)
  sent_eq : sent (signals os) = Client.requests "" (typed os)
  sent_more : t.link.asker ≠ .gone → ∀ more, Client.requests "" (typed os ++ more) =
    sent (signals os) ++ Client.requests t.input more

variable {t t' : Terminal} {os os' : List Observation}

theorem observed_fresh : Observed fresh [] := ⟨.fresh, rfl, fun _ _ => rfl⟩

theorem Observed.line (ho : Observed t os) (hr : t.link.asker = .ready) (line : String)
    (more : List String) : Client.requests "" (typed os ++ [line] ++ more) =
      sent (signals os) ++ Client.requests t.input (line :: more) := by
  have hstay : t.link.asker ≠ .gone := by
    rw [hr]
    rintro ⟨⟩
  rw [List.append_assoc, List.singleton_append, ho.sent_more hstay]

theorem Observed.quiet (ho : Observed t os) {l : Link UInt8} {ss : List (Signal String)}
    (hs : t.link.Step frames ss l) (ha : l.asker = t.link.asker ∨ l.asker = .gone ∨
      t.link.asker = .waiting) (hsent : sent ss = []) :
    Observed ⟨t.input, l⟩ (os ++ ss.map .signal) where
  runs := by simpa using ho.runs.step hs
  sent_eq := by simpa [hsent] using ho.sent_eq
  sent_more hstay more := by
    have hold : t.link.asker ≠ .gone := by
      rcases ha with ha | ha | ha
      · rwa [← ha]
      · exact absurd ha hstay
      · rw [ha]
        rintro ⟨⟩
    simpa [hsent] using ho.sent_more hold more

theorem Observed.moves (ho : Observed t os) (hm : t.Moves os' t') : Observed t' (os ++ os') := by
  cases hm with
  | thread hs ha hsent => exact ho.quiet hs (.inl ha) hsent
  | client hs =>
    cases hs with
    | @leave line input hr hl =>
      have hline := ho.line hr line []
      have hsignals : signals (os ++ [.typed line]) = signals os ++ [] := signals_append
      refine ⟨hsignals ▸ ho.runs.step .leave, ?_, fun hstay => absurd rfl hstay⟩
      have htyped : typed (os ++ [.typed line]) = typed os ++ [line] := typed_append
      simpa [hsignals, htyped, Client.requests, hl] using hline.symm
    | @request line sql input hr hl =>
      have hline (more : List String) := ho.line hr line more
      simp only [Client.requests, hl] at hline
      have hsignals : signals (os ++ [.typed line, .signal (.sent sql)]) =
        signals os ++ [.sent sql] := signals_append
      have htyped : typed (os ++ [.typed line, .signal (.sent sql)]) = typed os ++ [line] :=
        typed_append
      have hsent : sent (signals os ++ [.sent sql]) = sent (signals os) ++ [sql] := sent_append
      refine ⟨hsignals ▸ ho.runs.step (.ask hr), ?_, fun _ more => ?_⟩
      · simpa [hsignals, htyped, hsent, Client.requests] using (hline []).symm
      · simpa [hsignals, htyped, hsent] using hline more
    | @goOn line input hr hl =>
      have hline (more : List String) := ho.line hr line more
      simp only [Client.requests, hl] at hline
      have hsignals : signals (os ++ [.typed line]) = signals os := by
        rw [signals_append]
        exact List.append_nil _
      have htyped : typed (os ++ [.typed line]) = typed os ++ [line] := typed_append
      refine ⟨hsignals ▸ ho.runs, ?_, fun _ more => ?_⟩
      · simpa [hsignals, htyped, Client.requests] using (hline []).symm
      · simpa [hsignals, htyped] using hline more
    | receive hw hd => exact ho.quiet (.take hw hd) (.inr (.inr hw)) rfl
    | hangUp => exact ho.quiet .leave (.inr (.inl rfl)) rfl
    | moveRequests h => exact ho.quiet (.moveRequests h) (.inl rfl) rfl
    | moveReplies h => exact ho.quiet (.moveReplies h) (.inl rfl) rfl

end Terminal

/-- A server and the clients that have connected to it, by session id. -/
structure Network where
  server : Server
  /-- Whether the process of the server runs. -/
  running : Bool
  terminals : ℕ → Option Terminal

inductive NetworkEvent where
  | connected
  | observed (sessionId : ℕ) (o : Observation)
  /-- The thread of a connection ends its loop. -/
  | ended (sessionId : ℕ)
  deriving DecidableEq

section Events

def observations (sessionId : ℕ) (h : List NetworkEvent) : List Observation :=
  h.filterMap fun
    | .observed id o => if id = sessionId then some o else none
    | _ => none

def NetworkEvent.event : NetworkEvent → Option Event
  | connected => some .connect
  | ended id => some (.disconnect id)
  | observed id (.signal (.handled sql _)) => some (.statement id sql)
  | observed id (.signal (.broke sql)) => some (.statement id sql)
  | observed _ _ => none

def handled (h : List NetworkEvent) : List (ℕ × String × String) :=
  h.filterMap fun
    | .observed id (.signal (.handled sql resp)) => some (id, sql, resp)
    | _ => none

variable {id : ℕ} {h es : List NetworkEvent}

@[simp] theorem observations_append :
    observations id (h ++ es) = observations id h ++ observations id es := List.filterMap_append

@[simp] theorem handled_append : handled (h ++ es) = handled h ++ handled es :=
  List.filterMap_append

theorem mem_observations {o : Observation} : o ∈ observations id h ↔ .observed id o ∈ h := by
  simp only [observations, List.mem_filterMap]
  constructor
  · rintro ⟨_ | ⟨id', o'⟩ | id', he, ho⟩
    · cases ho
    · dsimp only at ho
      split at ho
      · rename_i hid
        cases ho
        exact hid ▸ he
      · cases ho
    · cases ho
  · intro he
    exact ⟨_, he, if_pos rfl⟩

theorem observations_map_self (id : ℕ) (os : List Observation) :
    observations id (os.map (.observed id)) = os := by
  simp [observations, List.filterMap_map]

theorem observations_map_of_ne {id' : ℕ} (hne : id' ≠ id) (os : List Observation) :
    observations id (os.map (.observed id')) = [] := by
  simp [observations, List.filterMap_map, hne]

end Events

section Steps

variable [BuildProfile] [Unicode] [SqlParser] [ComfyTable]

/-- The reply to a statement of a session; a poisoned lock makes its thread panic. -/
def Server.reply [Collections] (w : Server) (sessionId : ℕ) (sql : String) : Option Reply :=
  (w.sessions.lookup sessionId).map fun session =>
    if w.down then .panic "called `Result::unwrap()` on an `Err` value: PoisonError \x7b .. \x7d"
    else (handleStatement w.db session sql).1

namespace Network

def set (n : Network) (sessionId : ℕ) (t : Terminal) : Network :=
  { n with terminals := Function.update n.terminals sessionId (some t) }

/-- The process exits, and with it all its connections end. -/
def exit (n : Network) : Network where
  server := n.server
  running := false
  terminals sessionId := (n.terminals sessionId).map fun t => ⟨t.input, t.link.stop⟩

/-- The steps of the clients, of their connections and of the server's threads. -/
inductive Step (n : Network) : List NetworkEvent → Network → Prop where
  | connect [Collections] (hr : n.running) :
      Step n [.connected]
        ({ n with server := n.server.step .connect }.set n.server.sessionSeq .fresh)
  | client {id : ℕ} {t t' : Terminal} {os : List Observation} (ht : n.terminals id = some t)
      (hs : t.Step os t') : Step n (os.map (.observed id)) (n.set id t')
  | answer [Collections] {id : ℕ} {t : Terminal} {sql resp : String} {rest : List UInt8}
      (ht : n.terminals id = some t) (hs : t.link.serving)
      (hd : frames.decode t.link.requests.arrived = some (sql, rest))
      (hr : n.server.reply id sql = some (.text resp)) :
      Step n [.observed id (.signal (.handled sql resp))]
        ({ n with server := n.server.step (.statement id sql) }.set id
          ⟨t.input, t.link.answer rest (frames.encode resp)⟩)
  | panic [Collections] {id : ℕ} {t : Terminal} {sql message : String} {rest : List UInt8}
      (ht : n.terminals id = some t) (hs : t.link.serving)
      (hd : frames.decode t.link.requests.arrived = some (sql, rest))
      (hr : n.server.reply id sql = some (.panic message)) :
      Step n [.observed id (.signal (.broke sql))]
        ({ n with server := n.server.step (.statement id sql) }.set id
          ⟨t.input, t.link.fail rest⟩)
  | exit [Collections] {id : ℕ} {t : Terminal} {sql : String} {rest : List UInt8}
      (ht : n.terminals id = some t) (hs : t.link.serving)
      (hd : frames.decode t.link.requests.arrived = some (sql, rest))
      (hr : n.server.reply id sql = some .exit) :
      Step n [.observed id (.signal (.broke sql))]
        (({ n with server := n.server.step (.statement id sql) }.exit).set id
          ⟨t.input, t.link.fail rest⟩)
  | ended [Collections] {id : ℕ} {t : Terminal} (ht : n.terminals id = some t)
      (hs : t.link.serving)
      (hc : t.link.requests.closed ∨ t.link.replies.closed) :
      Step n [.ended id]
        ({ n with server := n.server.step (.disconnect id) }.set id ⟨t.input, t.link.stop⟩)

def start (w : Server) : Network := ⟨w, true, fun _ => none⟩

/-- The runs of the network from a state, with their events. -/
inductive Runs (n₀ : Network) : Network → List NetworkEvent → Prop where
  | refl : Runs n₀ n₀ []
  | step {n n' : Network} {h es : List NetworkEvent} :
      Runs n₀ n h → n.Step es n' → Runs n₀ n' (h ++ es)

variable {n n' n₀ : Network} {es h : List NetworkEvent} {id : ℕ}

omit [BuildProfile] [Unicode] [SqlParser] [ComfyTable] in
theorem set_terminals (n : Network) (id : ℕ) (t : Terminal) (i : ℕ) :
    (n.set id t).terminals i = if i = id then some t else n.terminals i :=
  Function.update_apply ..

theorem Step.at (hs : n.Step es n') (id : ℕ) :
    (n'.terminals id = n.terminals id ∧ observations id es = []) ∨
    (n.server.sessionSeq = id ∧ id < n'.server.sessionSeq ∧ n'.terminals id = some .fresh ∧
      observations id es = []) ∨
    ∃ t t', n.terminals id = some t ∧ n'.terminals id = some t' ∧
      t.Moves (observations id es) t' := by
  have hother {id' : ℕ} (hne : id ≠ id') (s : Signal String) :
      observations id [.observed id' (.signal s)] = [] := by
    simp [observations, Ne.symm hne]
  have hself (s : Signal String) : observations id [.observed id (.signal s)] = [.signal s] := by
    simp [observations]
  cases hs with
  | connect hr =>
    by_cases hid : id = n.server.sessionSeq
    · subst hid
      refine .inr (.inl ⟨rfl, Nat.lt_succ_self _, ?_, rfl⟩)
      rw [set_terminals, if_pos rfl]
    · exact .inl ⟨by rw [set_terminals, if_neg hid], rfl⟩
  | @client id' t t' os ht hs =>
    by_cases hid : id = id'
    · subst hid
      refine .inr (.inr ⟨t, t', ht, by rw [set_terminals, if_pos rfl], ?_⟩)
      rw [observations_map_self]
      exact .client hs
    · exact .inl ⟨by rw [set_terminals, if_neg hid], observations_map_of_ne (Ne.symm hid) os⟩
  | @answer _ id' t sql resp rest ht hs hd hr =>
    by_cases hid : id = id'
    · subst hid
      refine .inr (.inr ⟨t, _, ht, by rw [set_terminals, if_pos rfl], ?_⟩)
      rw [hself]
      exact .thread (.answer hs hd) rfl rfl
    · exact .inl ⟨by rw [set_terminals, if_neg hid], hother hid _⟩
  | @panic _ id' t sql message rest ht hs hd hr =>
    by_cases hid : id = id'
    · subst hid
      refine .inr (.inr ⟨t, _, ht, by rw [set_terminals, if_pos rfl], ?_⟩)
      rw [hself]
      exact .thread (.fail hs hd) rfl rfl
    · exact .inl ⟨by rw [set_terminals, if_neg hid], hother hid _⟩
  | @exit _ id' t sql rest ht hs hd hr =>
    by_cases hid : id = id'
    · subst hid
      refine .inr (.inr ⟨t, _, ht, by rw [set_terminals, if_pos rfl], ?_⟩)
      rw [hself]
      exact .thread (.fail hs hd) rfl rfl
    · rcases hother' : n.terminals id with _ | t'
      · refine .inl ⟨?_, hother hid _⟩
        rw [set_terminals, if_neg hid]
        simp [Network.exit, hother']
      · refine .inr (.inr ⟨t', ⟨t'.input, t'.link.stop⟩, rfl, ?_, ?_⟩)
        · rw [set_terminals, if_neg hid]
          simp [Network.exit, hother']
        · rw [hother hid]
          exact .stop t'
  | @ended _ id' t ht hs hc =>
    by_cases hid : id = id'
    · subst hid
      refine .inr (.inr ⟨t, _, ht, by rw [set_terminals, if_pos rfl], ?_⟩)
      exact .stop t
    · exact .inl ⟨by rw [set_terminals, if_neg hid], rfl⟩

omit [BuildProfile] [Unicode] [SqlParser] [ComfyTable] in
/-- What one terminal and its connection show, at every terminal that has connected. -/
structure Tracked (n : Network) (h : List NetworkEvent) : Prop where
  unused : ∀ id, n.server.sessionSeq ≤ id → n.terminals id = none
  unseen : ∀ id, n.terminals id = none → observations id h = []
  observed : ∀ id t, n.terminals id = some t → t.Observed (observations id h)

theorem Step.sessionSeq_le (hs : n.Step es n') : n.server.sessionSeq ≤ n'.server.sessionSeq := by
  have hstep [Collections] (e : Event) :
      n.server.sessionSeq ≤ (n.server.step e).sessionSeq := by
    unfold Server.step
    split
    · exact Nat.le_succ _
    · exact le_rfl
    · split
      · exact le_rfl
      · split
        · exact le_rfl
        · unfold Server.afterReply
          split <;> exact le_rfl
  cases hs with
  | client ht hs => exact le_rfl
  | connect | answer | panic | exit | ended => exact hstep _

theorem Tracked.step (ht : Tracked n h) (hs : n.Step es n') : Tracked n' (h ++ es) := by
  refine ⟨fun id hid => ?_, fun id hid => ?_, fun id t' hid => ?_⟩
  · rcases hs.at id with ⟨hsame, -⟩ | ⟨-, hlt, -⟩ | ⟨t, t', hold, -⟩
    · rw [hsame, ht.unused id (hs.sessionSeq_le.trans hid)]
    · omega
    · rw [ht.unused id (hs.sessionSeq_le.trans hid)] at hold
      cases hold
  · rcases hs.at id with ⟨hsame, hquiet⟩ | ⟨-, -, hnew, -⟩ | ⟨t, t', -, hnew, -⟩
    · rw [observations_append, ht.unseen id (hsame ▸ hid), hquiet, List.append_nil]
    · rw [hnew] at hid
      cases hid
    · rw [hnew] at hid
      cases hid
  · rw [observations_append]
    rcases hs.at id with ⟨hsame, hquiet⟩ | ⟨hseq, -, hnew, hquiet⟩ | ⟨t, t'', hold, hnew, hmoves⟩
    · rw [hquiet, List.append_nil]
      exact ht.observed id t' (hsame ▸ hid)
    · obtain rfl : Terminal.fresh = t' := Option.some.inj (hnew.symm.trans hid)
      rw [ht.unseen id (ht.unused id hseq.le), hquiet]
      exact Terminal.observed_fresh
    · obtain rfl : t'' = t' := Option.some.inj (hnew.symm.trans hid)
      exact (ht.observed id t hold).moves hmoves

theorem Runs.tracked {w : Server} (hr : Runs (start w) n h) : Tracked n h := by
  induction hr with
  | refl =>
    refine ⟨fun _ _ => rfl, fun _ _ => rfl, ?_⟩
    rintro id t ⟨⟩
  | step _ hs ih => exact ih.step hs

end Network

namespace Server

variable [Collections]

def answered (w : Server) : Event → List (ℕ × String × String)
  | .statement id sql =>
    match w.reply id sql with
    | some (.text resp) => [(id, sql, resp)]
    | _ => []
  | _ => []

theorem reply_of_mem_answered {w : Server} {e : Event} {id : ℕ} {sql resp : String}
    (h : (id, sql, resp) ∈ w.answered e) :
    e = .statement id sql ∧ w.reply id sql = some (.text resp) := by
  unfold answered at h
  split at h
  · split at h
    · rename_i hr
      obtain ⟨rfl, rfl, rfl⟩ : id = _ ∧ sql = _ ∧ resp = _ := by simpa using h
      exact ⟨rfl, hr⟩
    · cases h
  · cases h

theorem answered_statement {w : Server} {id : ℕ} {sql : String} {r : Reply}
    (hr : w.reply id sql = some r) : w.answered (.statement id sql) =
      match r with
      | .text resp => [(id, sql, resp)]
      | _ => [] := by
  cases r <;> simp [answered, hr]

/-- The replies to the statements of a session, one after the other, if all are answered. -/
def Replies (id : ℕ) : Server → List (String × String) → Prop
  | _, [] => True
  | w, (sql, resp) :: xs => w.reply id sql = some (.text resp) ∧ frames.Carries sql ∧
      frames.Carries resp ∧ (w.step (.statement id sql)).Replies id xs

instance (payload : String) : Decidable (frames.Carries payload) :=
  inferInstanceAs (Decidable (_ < _))

instance decidableReplies (id : ℕ) :
    ∀ (w : Server) (xs : List (String × String)), Decidable (w.Replies id xs)
  | _, [] => .isTrue trivial
  | w, (sql, _) :: xs =>
    have := decidableReplies id (w.step (.statement id sql)) xs
    inferInstanceAs (Decidable (_ ∧ _ ∧ _ ∧ _))

theorem reply_eq_some {w : Server} {id : ℕ} {sql : String} {r : Reply}
    (hr : w.reply id sql = some r) : ∃ session, w.sessions.lookup id = some session ∧
      ((w.down = false ∧ r = (handleStatement w.db session sql).1 ∧
        w.step (.statement id sql) = w.afterReply id (handleStatement w.db session sql)) ∨
      (w.down = true ∧ (∃ message, r = .panic message) ∧
        w.step (.statement id sql) = { w with sessions := w.sessions.erase id })) := by
  unfold reply at hr
  obtain ⟨session, hs, hr⟩ := Option.map_eq_some_iff.mp hr
  refine ⟨session, hs, ?_⟩
  rcases hdown : w.down with _ | _
  · refine .inl ⟨rfl, by simpa [hdown] using hr.symm, by simp [step, hs, hdown]⟩
  · refine .inr ⟨rfl, ⟨_, by simpa [hdown] using hr.symm⟩, by simp [step, hs, hdown]⟩

theorem lookup_step_of_ne {w : Server} {id id' : ℕ} {sql : String} {r : Reply}
    (hr : w.reply id sql = some r) (hexit : r ≠ .exit) (hne : id' ≠ id) :
    (w.step (.statement id sql)).sessions.lookup id' = w.sessions.lookup id' := by
  obtain ⟨session, -, ⟨-, hreply, hstep⟩ | ⟨-, -, hstep⟩⟩ := reply_eq_some hr
  · rw [hstep]
    rcases hh : handleStatement w.db session sql with ⟨reply, db, session'⟩
    rw [hh] at hreply
    cases reply with
    | text resp => rw [afterReply, AList.lookup_insert_ne hne]
    | exit => exact absurd hreply hexit
    | panic message => rw [afterReply, AList.lookup_erase_ne hne]
  · rw [hstep, AList.lookup_erase_ne hne]

theorem lookup_step_text {w : Server} {id : ℕ} {sql resp : String}
    (hr : w.reply id sql = some (.text resp)) :
    ((w.step (.statement id sql)).sessions.lookup id).isSome := by
  obtain ⟨session, -, ⟨-, hreply, hstep⟩ | ⟨-, ⟨message, hreply⟩, -⟩⟩ := reply_eq_some hr
  · rw [hstep]
    rcases hh : handleStatement w.db session sql with ⟨reply, db, session'⟩
    rw [hh] at hreply
    obtain rfl : .text resp = reply := hreply
    rw [afterReply, AList.lookup_insert]
    rfl
  · cases hreply

omit [Collections] in
/--
A server executes events one after the other, each with collections of its own: the
server behind them, the statements among them that are answered, and the history.
-/
inductive Executes (w₀ : Server) :
    List Event → Server → List (ℕ × String × String) → List DbEvent → Prop where
  | refl : Executes w₀ [] w₀ [] []
  | step [Collections] {es : List Event} {w : Server} {replies : List (ℕ × String × String)}
      {h : List DbEvent} (e : Event) : Executes w₀ es w replies h →
        Executes w₀ (es ++ [e]) (w.step e) (replies ++ w.answered e) (h ++ w.effects e)

end Server

omit [BuildProfile] [Unicode] [SqlParser] [ComfyTable] in
theorem Terminal.Step.quiet {t t' : Terminal} {os : List Observation} (hs : t.Step os t')
    (id : ℕ) : (os.map (NetworkEvent.observed id)).filterMap NetworkEvent.event = [] ∧
      handled (os.map (.observed id)) = [] := by
  cases hs <;> exact ⟨rfl, rfl⟩

namespace Network

variable {n n' : Network} {es h : List NetworkEvent}

/-- A run of the network is one run of the server on whole statements. -/
theorem Runs.server {n₀ : Network} (hr : Runs n₀ n h) : ∃ hist,
    n₀.server.Executes (h.filterMap NetworkEvent.event) n.server (handled h) hist := by
  induction hr with
  | refl => exact ⟨[], .refl⟩
  | @step n n' h es _ hs ih =>
    obtain ⟨hist, hex⟩ := ih
    rw [List.filterMap_append, handled_append]
    cases hs with
    | client ht hs =>
      obtain ⟨hevents, hhandled⟩ := hs.quiet _
      rw [hevents, hhandled, List.append_nil, List.append_nil]
      exact ⟨hist, hex⟩
    | connect hr => exact ⟨_, hex.step .connect⟩
    | @answer _ id t sql resp rest ht hs hd hr =>
      have hstep := hex.step (.statement id sql)
      rw [Server.answered_statement hr] at hstep
      exact ⟨_, hstep⟩
    | @panic _ id t sql message rest ht hs hd hr =>
      have hstep := hex.step (.statement id sql)
      rw [Server.answered_statement hr] at hstep
      exact ⟨_, hstep⟩
    | @exit _ id t sql rest ht hs hd hr =>
      have hstep := hex.step (.statement id sql)
      rw [Server.answered_statement hr] at hstep
      exact ⟨_, hstep⟩
    | @ended _ id t ht hs hc => exact ⟨_, hex.step (.disconnect id)⟩

/-- Every text and every reply of a run fits into a frame. -/
def Framed (h : List NetworkEvent) : Prop := ∀ id, Carried frames (signals (observations id h))

/-- The exchanges of a terminal that has connected. -/
theorem Runs.exchanges {w : Server} (hr : Runs (start w) n h) (hf : Framed h) {id : ℕ}
    {t : Terminal} (ht : n.terminals id = some t) :
    ∃ (xs : List (String × String)) (st : Status String),
      signals (observations id h) = xs.flatMap exchange ++ st.signals ∧ Tied frames t.link st :=
  (hr.tracked.observed id t ht).runs.exchanges (hf id)

theorem Runs.handled_of_received {w : Server} (hr : Runs (start w) n h) (hf : Framed h) {id : ℕ}
    {resp : String} (hshown : .received resp ∈ signals (observations id h)) :
    ∃ sql, (id, sql, resp) ∈ handled h := by
  rcases ht : n.terminals id with _ | t
  · rw [hr.tracked.unseen id ht] at hshown
    cases hshown
  obtain ⟨xs, st, hsignals, -⟩ := hr.exchanges hf ht
  rw [hsignals] at hshown
  obtain ⟨sql, hmem⟩ := LockStep.handled_of_received hshown
  refine ⟨sql, ?_⟩
  rw [← hsignals, mem_signals, mem_observations] at hmem
  exact List.mem_filterMap.mpr ⟨_, hmem, rfl⟩

theorem Runs.session_isSome {w : Server} (hr : Runs (start w) n h) {id : ℕ} {t : Terminal}
    (ht : n.terminals id = some t) (hs : t.link.serving) :
    (n.server.sessions.lookup id).isSome := by
  induction hr generalizing id t with
  | refl => cases ht
  | @step n n' h es _ hstep ih =>
    cases hstep with
    | connect hr =>
      rw [set_terminals] at ht
      split at ht
      · rename_i hid
        rw [hid, Server.step, set, AList.lookup_insert]
        rfl
      · rename_i hid
        rw [Server.step, set, AList.lookup_insert_ne hid]
        exact ih ht hs
    | @client id' t₁ t₂ os ht₁ hs₁ =>
      rw [set_terminals] at ht
      split at ht
      · rename_i hid
        cases ht
        have hserving : t₁.link.serving := by cases hs₁ <;> exact hs
        rw [hid]
        exact ih ht₁ hserving
      · exact ih ht hs
    | @answer _ id' t₁ sql resp rest ht₁ hs₁ hd hr =>
      rw [set_terminals] at ht
      split at ht
      · rename_i hid
        rw [hid]
        exact Server.lookup_step_text hr
      · rename_i hid
        have hother := Server.lookup_step_of_ne hr (by rintro ⟨⟩) hid
        exact hother ▸ ih ht hs
    | @panic _ id' t₁ sql message rest ht₁ hs₁ hd hr =>
      rw [set_terminals] at ht
      split at ht
      · cases ht
        cases hs
      · rename_i hid
        have hother := Server.lookup_step_of_ne hr (by rintro ⟨⟩) hid
        exact hother ▸ ih ht hs
    | @exit _ id' t₁ sql rest ht₁ hs₁ hd hr =>
      rw [set_terminals] at ht
      split at ht
      · cases ht
        cases hs
      · obtain ⟨t₂, -, rfl⟩ := Option.map_eq_some_iff.mp ht
        cases hs
    | @ended _ id' t₁ ht₁ hs₁ hc =>
      rw [set_terminals] at ht
      split at ht
      · cases ht
        cases hs
      · rename_i hid
        rw [Server.step, set, AList.lookup_erase_ne hid]
        exact ih ht hs

theorem Runs.trans {n₀ : Network} (hr : Runs n₀ n h) (hr' : Runs n n' es) :
    Runs n₀ n' (h ++ es) := by
  induction hr' with
  | refl => simpa using hr
  | step _ hs ih => simpa [List.append_assoc] using ih.step hs

theorem Step.run (hs : n.Step es n') : Runs n n' es := by simpa using Runs.refl.step hs

theorem reply_printed {id : ℕ} {t : Terminal} (ht : n.terminals id = some t)
    (hw : t.link.asker = .waiting) {resp : String} (hc : frames.Carries resp)
    (hh : t.link.replies.Holds (frames.encode resp)) (hopen : t.link.replies.closed = false) :
    ∃ n' es, Runs n n' es ∧ .received resp ∈ signals (observations id es) := by
  let t₁ : Terminal :=
    ⟨t.input, { t.link with replies := t.link.replies.deliver t.link.replies.underWay.length }⟩
  have hmove : n.Step _ (n.set id t₁) := .client ht (.moveReplies (.deliver _))
  have ht₁ : (n.set id t₁).terminals id = some t₁ := by rw [set_terminals, if_pos rfl]
  have hreceive := Step.client ht₁ (.receive hw (hh.decode_delivered hc hopen))
  refine ⟨_, _, hmove.run.trans hreceive.run, ?_⟩
  rw [observations_append, observations_map_self, observations_map_self]
  simp [signals]

/-- A client on a quiet connection asks and is answered, and the connection is quiet again. -/
theorem exchange_run [Collections] {id : ℕ} {input line sql input' resp : String}
    (ht : n.terminals id = some ⟨input, .fresh⟩)
    (hl : Client.readLine input line = (.request sql, input')) (hc : frames.Carries sql)
    (hr : n.server.reply id sql = some (.text resp)) (hc' : frames.Carries resp) :
    ∃ n' es, n.Runs n' es ∧ n'.server = n.server.step (.statement id sql) ∧
      n'.terminals id = some ⟨input', .fresh⟩ ∧
      observations id es = .typed line :: (exchange (sql, resp)).map .signal ∧
      ∀ id', id' ≠ id → observations id' es = [] := by
  have hself (n : Network) (t : Terminal) : (n.set id t).terminals id = some t := by
    rw [set_terminals, if_pos rfl]
  have hread {m : String} (hm : frames.Carries m) :
      frames.decode (frames.encode m) = some (m, []) := by
    simpa using frames.decode_encode m [] hm
  let t₁ : Terminal := ⟨input', Link.fresh.ask (frames.encode sql)⟩
  let t₂ : Terminal :=
    ⟨input', { t₁.link with requests := t₁.link.requests.deliver (frames.encode sql).length }⟩
  let t₃ : Terminal := ⟨input', t₂.link.answer [] (frames.encode resp)⟩
  let t₄ : Terminal :=
    ⟨input', { t₃.link with replies := t₃.link.replies.deliver (frames.encode resp).length }⟩
  have hask : n.Step _ (n.set id t₁) := .client ht (.request rfl hl)
  have hmove : Step _ _ ((n.set id t₁).set id t₂) :=
    .client (hself n t₁) (.moveRequests (.deliver _))
  have hrequest : frames.decode t₂.link.requests.arrived = some (sql, []) := by
    simpa [t₁, t₂, Link.ask, Link.fresh, Pipe.fresh, Pipe.push, Pipe.deliver] using hread hc
  let n₃ : Network :=
    { (n.set id t₁).set id t₂ with server := n.server.step (.statement id sql) }.set id t₃
  have hanswer : Step _ _ n₃ := .answer (hself (n.set id t₁) t₂) rfl hrequest hr
  have hmove' : n₃.Step _ (n₃.set id t₄) := .client (hself _ t₃) (.moveReplies (.deliver _))
  have hreply : frames.decode t₄.link.replies.arrived = some (resp, []) := by
    simpa [t₁, t₂, t₃, t₄, Link.ask, Link.answer, Link.fresh, Pipe.fresh, Pipe.push,
      Pipe.deliver] using hread hc'
  have hreceive := Step.client (hself n₃ t₄) (.receive rfl hreply)
  refine ⟨_, _, (((hask.run.trans hmove.run).trans hanswer.run).trans hmove'.run).trans
    hreceive.run, rfl, ?_, ?_, fun id' hne => ?_⟩
  · rw [hself]
    simp [t₁, t₂, t₃, t₄, Link.ask, Link.answer, Link.take, Link.fresh, Pipe.fresh, Pipe.push,
      Pipe.deliver, Pipe.leaving]
  · simp [observations, exchange]
  · simp [observations, hne.symm]

theorem script_served [Collections] {id : ℕ} {input : String}
    (ht : n.terminals id = some ⟨input, .fresh⟩) {lines : List String}
    (hstay : ∀ line ∈ lines, ¬ Client.Leaves line)
    {xs : List (String × String)} (hxs : xs.map Prod.fst = Client.requests input lines)
    (hr : n.server.Replies id xs) :
    ∃ n' es, n.Runs n' es ∧ Framed es ∧
      n'.server = (n.server.after (xs.map fun x => .statement id x.1)).1 ∧
      typed (observations id es) = lines ∧
      signals (observations id es) = xs.flatMap exchange := by
  induction lines generalizing n input xs with
  | nil =>
    obtain rfl : xs = [] := List.map_eq_nil_iff.mp hxs
    exact ⟨n, [], .refl, by simp [Framed, Carried, observations, signals], rfl, rfl, rfl⟩
  | cons line lines ih =>
    obtain ⟨hline, hstay⟩ := List.forall_mem_cons.mp hstay
    rw [Client.requests] at hxs
    rcases hl : Client.readLine input line with ⟨_ | sql | _, input'⟩ <;> rw [hl] at hxs
    · exact absurd hl (Client.readLine_stays hline)
    · obtain ⟨⟨sql', resp⟩, xs', rfl, rfl, hxs'⟩ := List.map_eq_cons_iff.mp hxs
      obtain ⟨hreply, hc, hc', hr⟩ := hr
      obtain ⟨n₁, es₁, hrun₁, hserver₁, ht₁, hobs₁, hothers⟩ := exchange_run ht hl hc hreply hc'
      obtain ⟨n₂, es₂, hrun₂, hframed, hserver₂, htyped₂, hsignals₂⟩ :=
        ih ht₁ hstay hxs' (hserver₁ ▸ hr)
      have hsignals : signals (observations id es₁) = exchange (sql', resp) := by
        rw [hobs₁]
        exact signals_map (exchange (sql', resp))
      refine ⟨n₂, es₁ ++ es₂, hrun₁.trans hrun₂, fun id' => ?_, ?_, ?_, ?_⟩
      · rw [observations_append, signals_append, carried_append]
        refine ⟨?_, hframed id'⟩
        by_cases hid : id' = id
        · rw [hid, hsignals]
          simp [Carried, exchange, Signal.messages, hc, hc']
        · rw [hothers id' hid]
          simp [Carried, signals]
      · rw [hserver₂, hserver₁]
        rfl
      · rw [observations_append, typed_append, htyped₂, hobs₁]
        exact congrArg (line :: · ++ lines) (typed_map (exchange (sql', resp)))
      · rw [observations_append, signals_append, hsignals₂, hsignals]
        rfl
    · have hstep : n.Step _ (n.set id ⟨input', .fresh⟩) := .client ht (.goOn rfl hl)
      obtain ⟨n₂, es₂, hrun₂, hframed, hserver₂, htyped₂, hsignals₂⟩ :=
        ih (n := n.set id ⟨input', .fresh⟩) (by rw [set_terminals, if_pos rfl]) hstay hxs hr
      refine ⟨n₂, _, hstep.run.trans hrun₂, fun id' => ?_, hserver₂, ?_, ?_⟩
      · rw [observations_append, signals_append, carried_append]
        refine ⟨?_, hframed id'⟩
        by_cases hid : id' = id
        · rw [hid, observations_map_self]
          simp [Carried, signals]
        · rw [observations_map_of_ne (Ne.symm hid)]
          simp [Carried, signals]
      · rw [observations_append, typed_append, htyped₂, observations_map_self]
        rfl
      · rw [observations_append, signals_append, hsignals₂, observations_map_self]
        rfl

end Network

end Steps

namespace Sample

def script : List (String × String) := [
  ("CREATE TABLE t (a INT)", "Table 't' created successfully."),
  ("BEGIN", "BEGIN (tx_id=1)"), ("INSERT INTO t VALUES (1)", "Inserted 1 row(s)."),
  ("COMMIT", "COMMIT (tx_id=1)")]

def scriptLines : List String :=
  ["CREATE TABLE t (a INT);\n", "BEGIN\n", ";\n", "INSERT INTO t VALUES (1) ;;\n", "COMMIT;\n"]

def scripted : Server :=
  (Server.fresh.after (.connect :: script.map fun x => .statement 1 x.1)).1

theorem script_runs : ∃ n h, Network.Runs (.start Server.fresh) n h ∧ Network.Framed h ∧
    n.server = scripted ∧ signals (observations 1 h) = script.flatMap exchange := by
  let n₁ : Network := { Network.start Server.fresh with server := Server.fresh.step .connect }
  have hconnect : (Network.start Server.fresh).Step _ (n₁.set 1 .fresh) := .connect rfl
  have hterminal : (n₁.set 1 .fresh).terminals 1 = some ⟨"", .fresh⟩ := by
    rw [Network.set_terminals, if_pos rfl]
    rfl
  have hstay : ∀ line ∈ scriptLines, ¬ Client.Leaves line := by decide
  have hrequests : script.map Prod.fst = Client.requests "" scriptLines := by decide
  have hreplies : (n₁.set 1 .fresh).server.Replies 1 script := by decide +kernel
  obtain ⟨n, es, hrun, hframed, hserver, -, hsignals⟩ :=
    Network.script_served hterminal hstay hrequests hreplies
  refine ⟨n, _, hconnect.run.trans hrun, fun id => ?_, hserver, ?_⟩
  · simpa [observations, signals] using hframed id
  · simpa [observations, signals] using hsignals

def waiting : Network :=
  { Network.start Server.fresh with server := Server.fresh.step .connect }.set 1 .fresh |>.set 1
    ⟨"", Link.fresh.ask (frames.encode "BEGIN")⟩

def waitingEvents : List NetworkEvent :=
  [.connected, .observed 1 (.typed "BEGIN;\n"), .observed 1 (.signal (.sent "BEGIN"))]

theorem waiting_runs : Network.Runs (.start Server.fresh) waiting waitingEvents := by
  have hconnect : (Network.start Server.fresh).Step _ _ := .connect rfl
  have hline : Client.readLine "" "BEGIN;\n" = (.request "BEGIN", "") := by decide
  have hask : Network.Step _ _ waiting := .client (t := .fresh)
    (by rw [Network.set_terminals, if_pos rfl]) (.request rfl hline)
  exact hconnect.run.trans hask.run

theorem waiting_framed : Network.Framed waitingEvents := by
  intro id
  by_cases hid : id = 1
  · rw [hid]
    have hsignals : signals (observations 1 waitingEvents) = [.sent "BEGIN"] := by decide
    rw [hsignals]
    simp only [Carried, List.forall_mem_singleton, Signal.messages]
    decide +kernel
  · have hsignals : signals (observations id waitingEvents) = [] := by
      simp [observations, waitingEvents, signals, Ne.symm hid]
    rw [hsignals]
    simp [Carried]

end Sample

namespace Network

section Guarantees

variable [BuildProfile] [Unicode] [SqlParser] [ComfyTable]
  {n : Network} {h : List NetworkEvent}

/--
In every run of clients and server, whatever is delayed or lost and whichever thread
comes first: the server has executed, one after the other, the statements that it has
taken from its connections, and every client sees its requests in the order in which
its lines give them, each handled at most once and answered with its own reply before
the next one is sent.
-/
theorem clients_in_lock_step {w : Server} (hr : Runs (start w) n h) (hf : Framed h) :
    (∃ hist, w.Executes (h.filterMap NetworkEvent.event) n.server (handled h) hist) ∧
    ∀ id t, n.terminals id = some t →
      sent (signals (observations id h)) = Client.requests "" (typed (observations id h)) ∧
      ∃ (xs : List (String × String)) (st : Status String),
        signals (observations id h) = xs.flatMap exchange ++ st.signals ∧
          Tied frames t.link st := by
  refine ⟨hr.server, fun id t ht => ?_⟩
  exact ⟨(hr.tracked.observed id t ht).sent_eq, hr.exchanges hf ht⟩

end Guarantees

open Sample in
theorem clients_in_lock_step_sample :
    ∃ (n : Network) (h : List NetworkEvent),
      (∃ hist,
        Server.fresh.Executes (h.filterMap NetworkEvent.event) n.server (handled h) hist) ∧
      (∀ (id : ℕ) (t : Terminal), n.terminals id = some t →
        sent (signals (observations id h)) = Client.requests "" (typed (observations id h)) ∧
        ∃ (xs : List (String × String)) (st : Status String),
          signals (observations id h) = xs.flatMap exchange ++ st.signals ∧
            Tied frames t.link st) ∧
      signals (observations 1 h) = script.flatMap exchange := by
  obtain ⟨n, h, hr, hf, -, hsignals⟩ := script_runs
  obtain ⟨hserver, hclients⟩ := clients_in_lock_step hr hf
  exact ⟨n, h, hserver, hclients, hsignals⟩

section Progress

variable [BuildProfile] [Unicode] [SqlParser] [Collections] [ComfyTable]
  {n : Network} {h : List NetworkEvent}

/--
A client that waits on an open connection is not stuck: its request reaches a thread
that answers it or fails over it, and the answer reaches the client.
-/
theorem request_gets_reply {w : Server} (hr : Runs (start w) n h) (hf : Framed h) {id : ℕ}
    {t : Terminal} (ht : n.terminals id = some t) (hw : t.link.asker = .waiting)
    (hs : t.link.serving) (hreq : t.link.requests.closed = false)
    (hrep : t.link.replies.closed = false)
    (hfits : ∀ sql resp, .sent sql ∈ signals (observations id h) →
      n.server.reply id sql = some (.text resp) → frames.Carries resp) :
    ∃ n' es, Runs n n' es ∧ ∃ s ∈ signals (observations id es),
      (∃ resp, s = .received resp) ∨ ∃ sql, s = .broke sql := by
  obtain ⟨xs, st, hsignals, htied⟩ := hr.exchanges hf ht
  have hcarried : Carried frames st.signals := by
    have hall := hf id
    rw [hsignals] at hall
    exact (carried_append.mp hall).2
  cases st with
  | idle => exact absurd hw htied.1
  | failed sql =>
    rw [htied.2.1] at hs
    cases hs
  | answered sql resp =>
    have hc : frames.Carries resp := hcarried (.handled sql resp) (by simp [Status.signals]) resp
      (by simp [Signal.messages])
    obtain ⟨n', es, hrun, hmem⟩ := reply_printed ht hw hc htied.2.2 hrep
    exact ⟨n', es, hrun, _, hmem, .inl ⟨resp, rfl⟩⟩
  | asked sql =>
    have hc : frames.Carries sql :=
      hcarried (.sent sql) (by simp [Status.signals]) sql (by simp [Signal.messages])
    have hsent : .sent sql ∈ signals (observations id h) := by
      rw [hsignals]
      simp [Status.signals]
    let t₁ : Terminal := ⟨t.input,
      { t.link with requests := t.link.requests.deliver t.link.requests.underWay.length }⟩
    have hmove : n.Step _ (n.set id t₁) := .client ht (.moveRequests (.deliver _))
    have ht₁ : (n.set id t₁).terminals id = some t₁ := by rw [set_terminals, if_pos rfl]
    have hdelivered : frames.decode t₁.link.requests.arrived = some (sql, []) :=
      htied.2.1.decode_delivered hc hreq
    have hs₁ : t₁.link.serving := hs
    obtain ⟨session, hsession⟩ := Option.isSome_iff_exists.mp (hr.session_isSome ht hs)
    obtain ⟨r, hreply⟩ : ∃ r, n.server.reply id sql = some r := by
      rw [Server.reply, hsession]
      exact ⟨_, rfl⟩
    cases r with
    | text resp =>
      have hanswer := Step.answer ht₁ hs₁ hdelivered hreply
      let t₂ : Terminal := ⟨t₁.input, t₁.link.answer [] (frames.encode resp)⟩
      have hholds : t₂.link.replies.Holds (frames.encode resp) := htied.2.2.push _
      have hopen : t₂.link.replies.closed = false := by
        simp [t₂, t₁, Link.answer, Pipe.push, hrep]
      have ht₂ (n : Network) : (n.set id t₂).terminals id = some t₂ := by
        rw [set_terminals, if_pos rfl]
      obtain ⟨n', es, hrun, hmem⟩ :=
        reply_printed (ht₂ _) hw (hfits sql resp hsent hreply) hholds hopen
      refine ⟨n', _, (hmove.run.trans hanswer.run).trans hrun, _, ?_, .inl ⟨resp, rfl⟩⟩
      rw [observations_append, signals_append]
      exact List.mem_append_right _ hmem
    | panic message =>
      have hpanic := Step.panic ht₁ hs₁ hdelivered hreply
      refine ⟨_, _, hmove.run.trans hpanic.run, .broke sql, ?_, .inr ⟨sql, rfl⟩⟩
      rw [observations_append]
      simp [observations, signals]
    | exit =>
      have hexit := Step.exit ht₁ hs₁ hdelivered hreply
      refine ⟨_, _, hmove.run.trans hexit.run, .broke sql, ?_, .inr ⟨sql, rfl⟩⟩
      rw [observations_append]
      simp [observations, signals]

end Progress

open Sample in
theorem request_gets_reply_sample :
    ∃ n' es, Runs waiting n' es ∧ ∃ s ∈ signals (observations 1 es),
      (∃ resp, s = .received resp) ∨ ∃ sql, s = .broke sql := by
  have hterminal : waiting.terminals 1 = some ⟨"", Link.fresh.ask (frames.encode "BEGIN")⟩ := by
    rw [waiting, set_terminals, if_pos rfl]
  refine request_gets_reply waiting_runs waiting_framed hterminal rfl rfl rfl rfl
    fun sql resp hsent hreply => ?_
  have hsignals : signals (observations 1 waitingEvents) = [.sent "BEGIN"] := by decide
  rw [hsignals] at hsent
  obtain rfl : sql = "BEGIN" := by simpa using hsent
  have hbegin : waiting.server.reply 1 "BEGIN" = some (.text "BEGIN (tx_id=1)") := by
    decide +kernel
  rw [hbegin] at hreply
  cases hreply
  decide +kernel

end Network

end VolcanoDb
