import Mathlib.Data.List.Basic

/-! # Lock step over a pair of pipes

Two parties exchange requests and replies as messages on two streams of symbols,
which arrive in parts and may break off. The party that asks waits for the reply
before it asks again. Whatever is delayed or lost, the signals of a connection
are whole exchanges and the beginning of at most one more.
-/

/-- A code of messages on a stream; it need not be able to carry every message. -/
structure StreamCode (μ β : Type*) where
  Carries : μ → Prop
  encode : μ → List β
  decode : List β → Option (μ × List β)
  decode_nil : decode [] = none
  decode_encode : ∀ m rest, Carries m → decode (encode m ++ rest) = some (m, rest)
  decode_part : ∀ m p, Carries m → p <+: encode m → p ≠ encode m → decode p = none

namespace LockStep

variable {μ β : Type*}

/-- One direction of a connection: what can be read, and what is under way. -/
structure Pipe (β : Type*) where
  arrived : List β
  underWay : List β
  closed : Bool

namespace Pipe

def fresh : Pipe β := ⟨[], [], false⟩

def push (p : Pipe β) (bs : List β) : Pipe β :=
  if p.closed then p else { p with underWay := p.underWay ++ bs }

def close (p : Pipe β) : Pipe β := { p with closed := true }

def deliver (p : Pipe β) (n : ℕ) : Pipe β :=
  { p with arrived := p.arrived ++ p.underWay.take n, underWay := p.underWay.drop n }

/-- The connection breaks; what has come no further than some symbols is lost. -/
def cut (p : Pipe β) (n : ℕ) : Pipe β := { p with underWay := p.underWay.take n, closed := true }

def leaving (p : Pipe β) (rest : List β) : Pipe β := { p with arrived := rest }

/-- What happens to a pipe while no party acts on it. -/
inductive Moves (p : Pipe β) : Pipe β → Prop where
  | deliver (n : ℕ) : Moves p (p.deliver n)
  | cut (n : ℕ) : Moves p (p.cut n)

/-- A pipe that holds a list of symbols, or a part of it if the connection has broken. -/
structure Holds (p : Pipe β) (bs : List β) : Prop where
  part : p.arrived ++ p.underWay <+: bs
  whole : p.closed = false → p.arrived ++ p.underWay = bs

variable {p p' : Pipe β} {bs : List β}

theorem holds_fresh : (fresh : Pipe β).Holds [] := ⟨List.prefix_rfl, fun _ => rfl⟩

namespace Holds

theorem nil (h : p.Holds []) : p.arrived = [] ∧ p.underWay = [] :=
  List.append_eq_nil_iff.mp (List.prefix_nil.mp h.part)

theorem push (h : p.Holds []) (bs : List β) : (p.push bs).Holds bs := by
  obtain ⟨harrived, hway⟩ := h.nil
  unfold Pipe.push
  split
  · rename_i hclosed
    refine ⟨by simp [harrived, hway], fun hopen => ?_⟩
    rw [hclosed] at hopen
    cases hopen
  · constructor
    · simp [harrived, hway]
    · simp [harrived, hway]

theorem close (h : p.Holds bs) : p.close.Holds bs where
  part := h.part
  whole hopen := by cases hopen

theorem moves (h : p.Holds bs) (hm : p.Moves p') : p'.Holds bs := by
  cases hm with
  | deliver n =>
    have hsame : (p.deliver n).arrived ++ (p.deliver n).underWay = p.arrived ++ p.underWay := by
      simp [deliver]
    exact ⟨hsame ▸ h.part, fun hopen => hsame.trans (h.whole hopen)⟩
  | cut n =>
    refine ⟨?_, fun hopen => by cases hopen⟩
    have hpart : p.arrived ++ p.underWay.take n <+: p.arrived ++ p.underWay :=
      (List.prefix_append_right_inj _).mpr (List.take_prefix n _)
    exact hpart.trans h.part

theorem leaving (hway : p.underWay = []) : (p.leaving []).Holds [] := by
  constructor
  · simp [Pipe.leaving, hway]
  · simp [Pipe.leaving, hway]

variable {c : StreamCode μ β} {m m' : μ} {rest : List β}

theorem decode_nil (h : p.Holds []) : c.decode p.arrived = none := by
  rw [h.nil.1, c.decode_nil]

theorem decode (h : p.Holds (c.encode m)) (hc : c.Carries m)
    (hd : c.decode p.arrived = some (m', rest)) :
    m' = m ∧ rest = [] ∧ (p.leaving rest).Holds [] := by
  have hpart : p.arrived <+: c.encode m := (List.prefix_append _ _).trans h.part
  have harrived : p.arrived = c.encode m := by
    by_contra hne
    rw [c.decode_part m _ hc hpart hne] at hd
    cases hd
  have hread : c.decode (c.encode m) = some (m, []) := by
    simpa using c.decode_encode m [] hc
  rw [harrived, hread] at hd
  obtain ⟨rfl, rfl⟩ := Prod.mk.inj (Option.some.inj hd)
  refine ⟨rfl, rfl, .leaving ?_⟩
  have hlen := h.part.length_le
  rw [List.length_append, harrived] at hlen
  exact List.eq_nil_of_length_eq_zero (by omega)

theorem decode_delivered (h : p.Holds (c.encode m)) (hc : c.Carries m) (hopen : p.closed = false) :
    c.decode (p.deliver p.underWay.length).arrived = some (m, []) := by
  have harrived : (p.deliver p.underWay.length).arrived = c.encode m := by
    simpa [deliver] using h.whole hopen
  simpa [harrived] using c.decode_encode m [] hc

end Holds

end Pipe

/-- The party that asks. -/
inductive Asker where
  | ready
  | waiting
  | gone
  deriving DecidableEq

/-- A connection of a party that asks and a party that serves it. -/
structure Link (β : Type*) where
  asker : Asker
  serving : Bool
  requests : Pipe β
  replies : Pipe β

/-- What the parties of a connection do with messages. -/
inductive Signal (μ : Type*) where
  | sent (m : μ)
  | handled (m r : μ)
  | received (r : μ)
  /-- The serving party fails over a request. -/
  | broke (m : μ)
  deriving DecidableEq

def Signal.messages : Signal μ → List μ
  | sent m | received m | broke m => [m]
  | handled m r => [m, r]

namespace Link

def fresh : Link β := ⟨.ready, true, .fresh, .fresh⟩

variable (l : Link β)

def ask (bs : List β) : Link β := { l with asker := .waiting, requests := l.requests.push bs }

def leave : Link β :=
  { l with asker := .gone, requests := l.requests.close, replies := l.replies.close }

def stop : Link β :=
  { l with serving := false, requests := l.requests.close, replies := l.replies.close }

def answer (rest bs : List β) : Link β :=
  { l with requests := l.requests.leaving rest, replies := l.replies.push bs }

def fail (rest : List β) : Link β := { l with requests := l.requests.leaving rest }.stop

def take (rest : List β) : Link β :=
  { l with asker := .ready, replies := l.replies.leaving rest }

/-- The steps of a connection, with their signals. -/
inductive Step (c : StreamCode μ β) (l : Link β) : List (Signal μ) → Link β → Prop where
  | ask {m : μ} (h : l.asker = .ready) : Step c l [.sent m] (l.ask (c.encode m))
  | leave : Step c l [] l.leave
  | stop : Step c l [] l.stop
  | moveRequests {p : Pipe β} (h : l.requests.Moves p) : Step c l [] { l with requests := p }
  | moveReplies {p : Pipe β} (h : l.replies.Moves p) : Step c l [] { l with replies := p }
  | answer {m r : μ} {rest : List β} (hs : l.serving)
      (hd : c.decode l.requests.arrived = some (m, rest)) :
      Step c l [.handled m r] (l.answer rest (c.encode r))
  | fail {m : μ} {rest : List β} (hs : l.serving)
      (hd : c.decode l.requests.arrived = some (m, rest)) : Step c l [.broke m] (l.fail rest)
  | take {r : μ} {rest : List β} (hw : l.asker = .waiting)
      (hd : c.decode l.replies.arrived = some (r, rest)) :
      Step c l [.received r] (l.take rest)

/-- The runs of a new connection, with their signals. -/
inductive Runs (c : StreamCode μ β) : Link β → List (Signal μ) → Prop where
  | fresh : Runs c fresh []
  | step {l l' : Link β} {h ss : List (Signal μ)} :
      Runs c l h → Step c l ss l' → Runs c l' (h ++ ss)

end Link

def exchange (x : μ × μ) : List (Signal μ) := [.sent x.1, .handled x.1 x.2, .received x.2]

/-- How far an exchange has got. -/
inductive Status (μ : Type*) where
  | idle
  | asked (m : μ)
  | answered (m r : μ)
  | failed (m : μ)

def Status.signals : Status μ → List (Signal μ)
  | idle => []
  | asked m => [.sent m]
  | answered m r => [.sent m, .handled m r]
  | failed m => [.sent m, .broke m]

variable {c : StreamCode μ β} {l l' : Link β} {st : Status μ} {ss h : List (Signal μ)}

/-- What a connection holds while an exchange is under way. -/
def Tied (c : StreamCode μ β) (l : Link β) : Status μ → Prop
  | .idle => l.asker ≠ .waiting ∧ l.requests.Holds [] ∧ l.replies.Holds []
  | .asked m => l.asker ≠ .ready ∧ l.requests.Holds (c.encode m) ∧ l.replies.Holds []
  | .answered _ r => l.asker ≠ .ready ∧ l.requests.Holds [] ∧ l.replies.Holds (c.encode r)
  | .failed _ =>
    l.asker ≠ .ready ∧ l.serving = false ∧ l.requests.Holds [] ∧ l.replies.Holds []

def Carried (c : StreamCode μ β) (h : List (Signal μ)) : Prop :=
  ∀ s ∈ h, ∀ m ∈ s.messages, c.Carries m

theorem carried_append : Carried c (h ++ ss) ↔ Carried c h ∧ Carried c ss :=
  List.forall_mem_append

theorem Tied.mono (ht : Tied c l st) (ha : l'.asker = l.asker ∨ l'.asker = .gone)
    (hs : l.serving = false → l'.serving = false)
    (hreq : ∀ bs, l.requests.Holds bs → l'.requests.Holds bs)
    (hrep : ∀ bs, l.replies.Holds bs → l'.replies.Holds bs) : Tied c l' st := by
  have hready (h : l.asker ≠ .ready) : l'.asker ≠ .ready := by
    rcases ha with ha | ha <;> rw [ha]
    · exact h
    · rintro ⟨⟩
  cases st with
  | idle =>
    obtain ⟨hidle, h₁, h₂⟩ := ht
    refine ⟨?_, hreq _ h₁, hrep _ h₂⟩
    rcases ha with ha | ha <;> rw [ha]
    · exact hidle
    · rintro ⟨⟩
  | asked m => exact ⟨hready ht.1, hreq _ ht.2.1, hrep _ ht.2.2⟩
  | answered m r => exact ⟨hready ht.1, hreq _ ht.2.1, hrep _ ht.2.2⟩
  | failed m => exact ⟨hready ht.1, hs ht.2.1, hreq _ ht.2.2.1, hrep _ ht.2.2.2⟩

theorem Tied.of_request (ht : Tied c l st) (hs : l.serving) (hc : Carried c st.signals) {m : μ}
    {rest : List β} (hd : c.decode l.requests.arrived = some (m, rest)) :
    st = .asked m ∧ l.asker ≠ .ready ∧ (l.requests.leaving rest).Holds [] ∧
      l.replies.Holds [] := by
  cases st with
  | idle =>
    rw [ht.2.1.decode_nil] at hd
    cases hd
  | asked m' =>
    have hm : c.Carries m' :=
      hc (.sent m') (by simp [Status.signals]) m' (by simp [Signal.messages])
    obtain ⟨rfl, -, hleft⟩ := ht.2.1.decode hm hd
    exact ⟨rfl, ht.1, hleft, ht.2.2⟩
  | answered m' r =>
    rw [ht.2.1.decode_nil] at hd
    cases hd
  | failed m' =>
    rw [ht.2.1] at hs
    cases hs

theorem Tied.of_reply (ht : Tied c l st) (hc : Carried c st.signals) {r : μ} {rest : List β}
    (hd : c.decode l.replies.arrived = some (r, rest)) :
    ∃ m, st = .answered m r ∧ l.requests.Holds [] ∧ (l.replies.leaving rest).Holds [] := by
  cases st with
  | idle =>
    rw [ht.2.2.decode_nil] at hd
    cases hd
  | asked m =>
    rw [ht.2.2.decode_nil] at hd
    cases hd
  | answered m r' =>
    have hr : c.Carries r' :=
      hc (.handled m r') (by simp [Status.signals]) r' (by simp [Signal.messages])
    obtain ⟨rfl, -, hleft⟩ := ht.2.2.decode hr hd
    exact ⟨m, rfl, ht.2.1, hleft⟩
  | failed m =>
    rw [ht.2.2.2.decode_nil] at hd
    cases hd

/-- A step begins an exchange, carries one on, or ends one. -/
theorem Tied.step (ht : Tied c l st) (hstep : l.Step c ss l') (hc : Carried c st.signals) :
    ∃ (xs : List (μ × μ)) (st' : Status μ),
      st.signals ++ ss = xs.flatMap exchange ++ st'.signals ∧ Tied c l' st' := by
  cases hstep with
  | @ask m hready =>
    cases st with
    | idle =>
      refine ⟨[], .asked m, rfl, ?_, ht.2.1.push _, ht.2.2⟩
      rintro ⟨⟩
    | asked m' | answered m' r | failed m' => exact absurd hready ht.1
  | leave =>
    refine ⟨[], st, by simp, ht.mono (.inr rfl) id ?_ ?_⟩
    · exact fun _ h => h.close
    · exact fun _ h => h.close
  | stop =>
    refine ⟨[], st, by simp, ht.mono (.inl rfl) (fun _ => rfl) ?_ ?_⟩
    · exact fun _ h => h.close
    · exact fun _ h => h.close
  | moveRequests hm =>
    refine ⟨[], st, by simp, ht.mono (.inl rfl) id ?_ fun _ => id⟩
    exact fun _ h => h.moves hm
  | moveReplies hm =>
    refine ⟨[], st, by simp, ht.mono (.inl rfl) id (fun _ => id) ?_⟩
    exact fun _ h => h.moves hm
  | @answer m r rest hs hd =>
    obtain ⟨rfl, hready, hleft, hempty⟩ := ht.of_request hs hc hd
    exact ⟨[], .answered m r, rfl, hready, hleft, hempty.push _⟩
  | @fail m rest hs hd =>
    obtain ⟨rfl, hready, hleft, hempty⟩ := ht.of_request hs hc hd
    exact ⟨[], .failed m, rfl, hready, rfl, hleft.close, hempty.close⟩
  | @take r rest hw hd =>
    obtain ⟨m, rfl, hempty, hleft⟩ := ht.of_reply hc hd
    refine ⟨[(m, r)], .idle, rfl, ?_, hempty, hleft⟩
    rintro ⟨⟩

theorem handled_of_received {xs : List (μ × μ)} {r : μ}
    (h : .received r ∈ xs.flatMap exchange ++ st.signals) :
    ∃ m, .handled m r ∈ xs.flatMap exchange ++ st.signals := by
  rcases List.mem_append.mp h with h | h
  · obtain ⟨x, hx, hr⟩ := List.mem_flatMap.mp h
    obtain rfl : r = x.2 := by simpa [exchange] using hr
    exact ⟨x.1, List.mem_append_left _ (List.mem_flatMap.mpr ⟨x, hx, by simp [exchange]⟩)⟩
  · cases st <;> simp [Status.signals] at h

/-- The signals of a connection are whole exchanges and the beginning of one more. -/
theorem Link.Runs.exchanges (hr : Link.Runs c l h) (hc : Carried c h) :
    ∃ (xs : List (μ × μ)) (st : Status μ), h = xs.flatMap exchange ++ st.signals ∧ Tied c l st := by
  induction hr with
  | fresh =>
    refine ⟨[], .idle, rfl, ?_, Pipe.holds_fresh, Pipe.holds_fresh⟩
    rintro ⟨⟩
  | step _ hstep ih =>
    obtain ⟨hh, -⟩ := carried_append.mp hc
    obtain ⟨xs, st, rfl, ht⟩ := ih hh
    obtain ⟨ys, st', heq, ht'⟩ := ht.step hstep (carried_append.mp hh).2
    exact ⟨xs ++ ys, st', by rw [List.append_assoc, heq]; simp, ht'⟩

end LockStep
