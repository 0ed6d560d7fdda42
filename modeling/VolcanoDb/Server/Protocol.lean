import Mathlib.Algebra.Group.Nat.Defs
import VolcanoDb.Lib.Framing
import VolcanoDb.Lib.Text

/-! # The frame protocol

A frame is the length of a payload as four big-endian bytes and its UTF-8
encoding. The writer casts the length to 32 bits, so that a longer payload is
announced with its length modulo `2 ^ 32` and the reader stops in its middle.
-/

namespace VolcanoDb

open Text

/-- Byte sinks: a successful `write_all` has taken all bytes, and `flush` takes none. -/
class Write (σ : Type) where
  taken : σ → List UInt8
  writeAll : σ → List UInt8 → Except String Unit × σ
  flush : σ → Except String Unit × σ
  taken_writeAll : ∀ s bytes s', writeAll s bytes = (.ok (), s') → taken s' = taken s ++ bytes
  taken_flush : ∀ s s', flush s = (.ok (), s') → taken s' = taken s

/-- The vector of bytes as a sink, which never fails. -/
instance : Write (List UInt8) where
  taken s := s
  writeAll s bytes := (.ok (), s ++ bytes)
  flush s := (.ok (), s)
  taken_writeAll := by
    rintro s bytes _ ⟨⟩
    rfl
  taken_flush := by
    rintro s _ ⟨⟩
    rfl

def toBeBytes (n : UInt32) : List UInt8 :=
  [UInt8.ofNat (n.toNat / 2 ^ 24), UInt8.ofNat (n.toNat / 2 ^ 16), UInt8.ofNat (n.toNat / 2 ^ 8),
    UInt8.ofNat n.toNat]

def fromBeBytes (bytes : List UInt8) : UInt32 :=
  UInt32.ofNat (bytes.foldl (fun n b => 2 ^ 8 * n + b.toNat) 0)

theorem fromBeBytes_toBeBytes (n : UInt32) : fromBeBytes (toBeBytes n) = n := by
  apply UInt32.toNat_inj.mp
  have hlt := n.toNat_lt
  simp only [fromBeBytes, toBeBytes, List.foldl_cons, List.foldl_nil, UInt8.toNat_ofNat',
    UInt32.toNat_ofNat']
  omega

def bigEndian (bytes : List UInt8) : ℕ := bytes.foldl (fun n b => 2 ^ 8 * n + b.toNat) 0

theorem toNat_fromBeBytes {bytes : List UInt8} (h : bytes.length = 4) :
    (fromBeBytes bytes).toNat = bigEndian bytes := by
  obtain ⟨b₀, b₁, b₂, b₃, rfl⟩ := List.length_eq_four.mp h
  simp only [fromBeBytes, bigEndian, List.foldl_cons, List.foldl_nil, UInt32.toNat_ofNat']
  have h₀ := b₀.toNat_lt
  have h₁ := b₁.toNat_lt
  have h₂ := b₂.toNat_lt
  have h₃ := b₃.toNat_lt
  omega

theorem toBeBytes_fromBeBytes {bytes : List UInt8} (h : bytes.length = 4) :
    toBeBytes (fromBeBytes bytes) = bytes := by
  rw [toBeBytes, toNat_fromBeBytes h]
  obtain ⟨b₀, b₁, b₂, b₃, rfl⟩ := List.length_eq_four.mp h
  have h₀ := b₀.toNat_lt
  have h₁ := b₁.toNat_lt
  have h₂ := b₂.toNat_lt
  have h₃ := b₃.toNat_lt
  simp only [bigEndian, List.foldl_cons, List.foldl_nil, List.cons.injEq, and_true,
    ← UInt8.toNat_inj, UInt8.toNat_ofNat']
  omega

section Writing

variable {σ : Type} [Write σ]

/-- Write one frame; the cast to 32 bits drops the high bits of the length. -/
def writeFrame (stream : σ) (payload : String) : Except String Unit × σ :=
  let bytes := utf8 payload
  let len := UInt32.ofNat bytes.length
  match Write.writeAll stream (toBeBytes len) with
  | (.error e, stream) => (.error e, stream)
  | (.ok (), stream) =>
    match Write.writeAll stream bytes with
    | (.error e, stream) => (.error e, stream)
    | (.ok (), stream) => Write.flush stream

def writeFrames (stream : σ) : List String → Except String Unit × σ
  | [] => (.ok (), stream)
  | payload :: payloads =>
    match writeFrame stream payload with
    | (.error e, stream) => (.error e, stream)
    | (.ok (), stream) => writeFrames stream payloads

end Writing

/-- Why a frame cannot be read: the stream ends, or the payload is no text. -/
inductive FrameError where
  | unexpectedEof
  | invalidUtf8 (bytes : List UInt8)
  deriving DecidableEq

def readExact (n : ℕ) (stream : List UInt8) : Except FrameError (List UInt8) × List UInt8 :=
  if n ≤ stream.length then (.ok (stream.take n), stream.drop n) else (.error .unexpectedEof, [])

def readFrame (stream : List UInt8) : Except FrameError String × List UInt8 :=
  match readExact 4 stream with
  | (.error e, stream) => (.error e, stream)
  | (.ok lenBuf, stream) =>
    let len := (fromBeBytes lenBuf).toNat
    match readExact len stream with
    | (.error e, stream) => (.error e, stream)
    | (.ok buf, stream) =>
      match fromUtf8 buf with
      | some payload => (.ok payload, stream)
      | none => (.error (.invalidUtf8 buf), stream)

def readFrames : ℕ → List UInt8 → Except FrameError (List String) × List UInt8
  | 0, stream => (.ok [], stream)
  | k + 1, stream =>
    match readFrame stream with
    | (.error e, stream) => (.error e, stream)
    | (.ok payload, stream) =>
      match readFrames k stream with
      | (.error e, stream) => (.error e, stream)
      | (.ok payloads, stream) => (.ok (payload :: payloads), stream)

def lengthPrefix : LengthCode UInt8 where
  width := 4
  modulus := 2 ^ 32
  header n := toBeBytes (UInt32.ofNat n)
  value bytes := (fromBeBytes bytes).toNat
  modulus_pos := by decide
  length_header n := rfl
  value_header n := by rw [fromBeBytes_toBeBytes, UInt32.toNat_ofNat']

theorem taken_writeFrame {σ : Type} [Write σ] {s s' : σ} {payload : String}
    (h : writeFrame s payload = (.ok (), s')) :
    Write.taken s' = Write.taken s ++ lengthPrefix.frame (utf8 payload) := by
  unfold writeFrame at h
  dsimp only at h
  split at h
  · cases h
  · rename_i s₁ h₁
    split at h
    · cases h
    · rename_i s₂ h₂
      rw [Write.taken_flush _ _ h, Write.taken_writeAll _ _ _ h₂, Write.taken_writeAll _ _ _ h₁,
        List.append_assoc]
      rfl

theorem taken_writeFrames {σ : Type} [Write σ] {s s' : σ} {payloads : List String}
    (h : writeFrames s payloads = (.ok (), s')) :
    Write.taken s' = Write.taken s ++ (payloads.map utf8).flatMap lengthPrefix.frame := by
  induction payloads generalizing s with
  | nil =>
    cases h
    simp
  | cons payload payloads ih =>
    unfold writeFrames at h
    split at h
    · cases h
    · rename_i s₁ h₁
      rw [ih h, taken_writeFrame h₁]
      simp

theorem readFrame_eq_ok {stream rest : List UInt8} {payload : String} :
    readFrame stream = (.ok payload, rest) ↔
      lengthPrefix.unframe stream = some (utf8 payload, rest) := by
  have hvalue (bytes : List UInt8) : lengthPrefix.value bytes = (fromBeBytes bytes).toNat := rfl
  have hwidth : lengthPrefix.width = 4 := rfl
  simp only [readFrame, readExact, LengthCode.unframe, hvalue, hwidth]
  by_cases hhead : 4 ≤ stream.length
  · by_cases hbody : (fromBeBytes (stream.take 4)).toNat ≤ (stream.drop 4).length
    · simp only [hhead, hbody, if_true, Option.some_inj, Prod.mk.injEq]
      rcases hdecode : fromUtf8 ((stream.drop 4).take (fromBeBytes (stream.take 4)).toNat)
        with _ | decoded
      · refine iff_of_false (by simp) ?_
        rintro ⟨hbytes, -⟩
        rw [hbytes, fromUtf8_utf8] at hdecode
        cases hdecode
      · have hbytes := fromUtf8_eq_some.mp hdecode
        simp only [Prod.mk.injEq, Except.ok.injEq, ← hbytes,
          utf8_injective.eq_iff]
    · simp only [hhead, hbody, if_true, if_false]
      exact iff_of_false (by simp) (by simp)
  · simp only [hhead, if_false]
    exact iff_of_false (by simp) (by simp)

/-- A payload is read exactly if its length and its encoding stand in front of the stream. -/
theorem readFrame_eq_ok_iff {stream rest : List UInt8} {payload : String} :
    readFrame stream = (.ok payload, rest) ↔
      ∃ header, header.length = 4 ∧ bigEndian header = (utf8 payload).length ∧
        stream = header ++ utf8 payload ++ rest := by
  rw [readFrame_eq_ok, LengthCode.unframe_eq_some_iff]
  constructor
  · rintro ⟨header, hwidth, hvalue, hstream⟩
    have hvalue : (fromBeBytes header).toNat = (utf8 payload).length := hvalue
    exact ⟨header, hwidth, by rw [← toNat_fromBeBytes hwidth, hvalue], hstream⟩
  · rintro ⟨header, hwidth, hvalue, hstream⟩
    exact ⟨header, hwidth, (toNat_fromBeBytes hwidth).trans hvalue, hstream⟩

theorem eq_frame_of_readFrame {stream rest : List UInt8} {payload : String}
    (h : readFrame stream = (.ok payload, rest)) :
    stream = lengthPrefix.frame (utf8 payload) ++ rest := by
  apply LengthCode.eq_frame_of_unframe ?_ (readFrame_eq_ok.mp h)
  intro header hwidth
  have hofNat : UInt32.ofNat (fromBeBytes header).toNat = fromBeBytes header :=
    UInt32.ofNat_toNat
  exact (congrArg toBeBytes hofNat).trans (toBeBytes_fromBeBytes hwidth)

theorem readFrame_strict_prefix {payload : String} (hlen : (utf8 payload).length < 2 ^ 32)
    {p : List UInt8} (hp : p <+: lengthPrefix.frame (utf8 payload))
    (hne : p ≠ lengthPrefix.frame (utf8 payload)) : ∃ e rest, readFrame p = (.error e, rest) := by
  have hnone : lengthPrefix.unframe p = none := LengthCode.unframe_strict_prefix hlen hp hne
  rcases hread : readFrame p with ⟨e | read, rest⟩
  · exact ⟨e, rest, rfl⟩
  · have hsome := readFrame_eq_ok.mp hread
    rw [hnone] at hsome
    cases hsome

/--
A frame is read if and only if a length and as many bytes of UTF-8 stand in front of the
stream; then just these are taken, which are the bytes that are written for the payload,
and no strict part of them can be read if the payload has less than `2 ^ 32` bytes.
-/
theorem readFrame_exact :
    (∀ (stream rest : List UInt8) (payload : String),
      readFrame stream = (.ok payload, rest) ↔
        ∃ header, header.length = 4 ∧ bigEndian header = (utf8 payload).length ∧
          stream = header ++ utf8 payload ++ rest) ∧
    ∀ (σ : Type) (_ : Write σ) (s s' : σ) (payload : String),
      writeFrame s payload = (.ok (), s') → ∃ sent, Write.taken s' = Write.taken s ++ sent ∧
        (∀ stream rest, readFrame stream = (.ok payload, rest) → stream = sent ++ rest) ∧
        ((utf8 payload).length < 2 ^ 32 → ∀ p, p <+: sent → p ≠ sent →
          ∃ e rest, readFrame p = (.error e, rest)) := by
  constructor
  · exact fun _ _ _ => readFrame_eq_ok_iff
  · intro σ _ s s' payload hwrite
    refine ⟨_, taken_writeFrame hwrite, ?_, ?_⟩
    · exact fun _ _ hread => eq_frame_of_readFrame hread
    · exact fun hlen _ hp hne => readFrame_strict_prefix hlen hp hne

theorem readFrame_exact_sample :
    ∃ sent, Write.taken (writeFrame ([] : List UInt8) "é").2 = [] ++ sent ∧
      ([0, 0, 0, 2, 195, 169, 7] = sent ++ [7]) ∧
      ∃ e rest, readFrame [0, 0, 0, 2, 195] = (.error e, rest) := by
  obtain ⟨sent, htaken, hread, hprefix⟩ :=
    readFrame_exact.2 (List UInt8) inferInstance [] _ "é" rfl
  have hsent : sent = [0, 0, 0, 2, 195, 169] := htaken.symm.trans (by decide +kernel)
  subst hsent
  refine ⟨_, htaken, hread _ [7] ?_, hprefix (by decide +kernel) _ (by decide) (by decide)⟩
  exact (readFrame_exact.1 _ _ _).mpr ⟨[0, 0, 0, 2], by decide +kernel⟩

theorem readFrames_eq_ok {k : ℕ} {stream rest : List UInt8} {payloads : List String} :
    readFrames k stream = (.ok payloads, rest) ↔
      lengthPrefix.unframes k stream = some (payloads.map utf8, rest) := by
  induction k generalizing stream payloads with
  | zero => simp [readFrames, LengthCode.unframes, eq_comm]
  | succ k ih =>
    simp only [LengthCode.unframes, Option.bind_eq_bind, Option.bind_eq_some_iff, Prod.exists,
      Option.some_inj, Prod.mk.injEq]
    constructor
    · intro h
      unfold readFrames at h
      split at h
      · cases h
      · rename_i payload stream₁ hfirst
        split at h
        · cases h
        · rename_i payloads' stream₂ hrest
          cases h
          exact ⟨_, _, readFrame_eq_ok.mp hfirst, _, _, ih.mp hrest, rfl, rfl⟩
    · rintro ⟨bytes, stream₁, hfirst, ls, stream₂, hrest, hls, rfl⟩
      rcases payloads with _ | ⟨payload, payloads⟩
      · cases hls
      · obtain ⟨rfl, rfl⟩ := List.cons.inj hls
        simp only [readFrames, readFrame_eq_ok.mpr hfirst, ih.mpr hrest]

/--
The frames that are written to a stream read back as their payloads, up to the
bytes behind them, exactly if every payload has less than `2 ^ 32` bytes.
-/
theorem frames_read_back_iff {σ : Type} [Write σ] {s s' : σ} {payloads : List String}
    (h : writeFrames s payloads = (.ok (), s')) (rest : List UInt8) :
    ∃ sent, Write.taken s' = Write.taken s ++ sent ∧
      (readFrames payloads.length (sent ++ rest) = (.ok payloads, rest) ↔
        ∀ payload ∈ payloads, (utf8 payload).length < 2 ^ 32) := by
  refine ⟨_, taken_writeFrames h, ?_⟩
  rw [readFrames_eq_ok, ← List.length_map (f := utf8), LengthCode.unframes_frames_iff]
  exact List.forall_mem_map

theorem frames_read_back_iff_begin :
    ∃ sent, Write.taken (writeFrames ([] : List UInt8) ["BEGIN", "é"]).2 = [] ++ sent ∧
      (readFrames 2 (sent ++ [7]) = (.ok ["BEGIN", "é"], [7]) ↔
        ∀ payload ∈ ["BEGIN", "é"], (utf8 payload).length < 2 ^ 32) := by
  have hsent : writeFrames ([] : List UInt8) ["BEGIN", "é"] =
      (.ok (), (writeFrames ([] : List UInt8) ["BEGIN", "é"]).2) := rfl
  exact frames_read_back_iff hsent [7]

theorem readFrames_frame_of_multiple {payload : String}
    (h : (utf8 payload).length % 2 ^ 32 = 0) :
    readFrames 1 (lengthPrefix.frame (utf8 payload)) = (.ok [""], utf8 payload) := by
  have hmod : (utf8 payload).length % lengthPrefix.modulus = 0 := h
  have hunframe : lengthPrefix.unframe (lengthPrefix.frame (utf8 payload)) =
      some (utf8 "", utf8 payload) := by
    have hframe := lengthPrefix.unframe_frame (utf8 payload) []
    rw [hmod, List.append_nil, List.append_nil] at hframe
    exact hframe
  rw [readFrames_eq_ok]
  simp only [LengthCode.unframes, hunframe]
  rfl

theorem length_utf8_replicate (n : ℕ) :
    (utf8 (String.ofList (List.replicate n 'a'))).length = n := by
  rw [utf8_eq, String.toList_ofList]
  induction n with
  | zero => rfl
  | succ n ih =>
    rw [List.replicate_succ, List.flatMap_cons, List.length_append, ih]
    exact Nat.add_comm 1 n

/-- The first byte that does not fit the prefix: the frame is read as an empty one. -/
theorem oversized_frame_read_as_empty :
    let payload := String.ofList (List.replicate (2 ^ 32) 'a')
    (writeFrames ([] : List UInt8) [payload]).1 = .ok () ∧
      readFrames 1 (writeFrames ([] : List UInt8) [payload]).2 = (.ok [""], utf8 payload) ∧
      payload ≠ "" ∧ (utf8 payload).length = 2 ^ 32 := by
  intro payload
  have hlen : (utf8 payload).length = 2 ^ 32 := length_utf8_replicate (2 ^ 32)
  refine ⟨rfl, readFrames_frame_of_multiple (by rw [hlen, Nat.mod_self]), ?_, hlen⟩
  intro hempty
  rw [hempty] at hlen
  exact absurd hlen (by decide)

end VolcanoDb
