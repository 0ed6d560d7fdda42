import VolcanoDb.Transaction.Replay

/-! # Torn logs

A crash in the middle of a write leaves a beginning of the redo file, cut at any
byte. Its last line is a beginning of a record, which recovery skips unless the
cut falls inside a character.
-/

namespace VolcanoDb

open History Text

section Text

variable [SerdeJson]

def recordText (rec : RedoRecord) : List UInt8 := utf8 ((SerdeJson.toJson rec).getD "null")

theorem redoLine_eq (rec : RedoRecord) : redoLine rec = recordText rec ++ [10] := rfl

/-- The records whose texts lie within the first bytes of a file. -/
def completeRecords : ℕ → List RedoRecord → List RedoRecord
  | _, [] => []
  | n, rec :: recs =>
    if (recordText rec).length ≤ n then rec :: completeRecords (n - (redoLine rec).length) recs
    else []

/-- No proper beginning of the text of a record is that of a record. -/
def PrefixFree (rec : RedoRecord) : Prop :=
  ∀ s t, SerdeJson.toJson rec = some s → utf8 t <+: utf8 s → t ≠ s → SerdeJson.fromJson t = none

theorem completeRecords_prefix (n : ℕ) (recs : List RedoRecord) :
    completeRecords n recs <+: recs := by
  induction recs generalizing n with
  | nil => exact List.prefix_rfl
  | cons rec recs ih =>
    unfold completeRecords
    split
    · exact List.cons_prefix_cons.mpr ⟨rfl, ih _⟩
    · exact List.nil_prefix

theorem RoundTrips.recordText {rec : RedoRecord} (h : RoundTrips rec) :
    ∃ s, SerdeJson.toJson rec = some s ∧ recordText rec = utf8 s ∧ 10 ∉ utf8 s ∧
      (utf8 s).getLast? ≠ some 13 ∧ isBlank s = false ∧ SerdeJson.fromJson s = some rec := by
  obtain ⟨s, hs, h⟩ := h
  exact ⟨s, hs, by rw [VolcanoDb.recordText, hs]; rfl, h⟩

theorem recordText_ne_nil {rec : RedoRecord} (h : RoundTrips rec) : recordText rec ≠ [] := by
  obtain ⟨s, -, htext, -, -, hblank, -⟩ := h.recordText
  rw [htext]
  intro hnil
  have hempty : s = "" := by
    have hread := fromUtf8_utf8 s
    rw [hnil] at hread
    exact (Option.some.inj hread).symm
  subst hempty
  cases hblank

theorem completeRecords_zero {recs : List RedoRecord} (h : ∀ rec ∈ recs, RoundTrips rec) :
    completeRecords 0 recs = [] := by
  cases recs with
  | nil => rfl
  | cons rec recs =>
    have hne := recordText_ne_nil (h rec List.mem_cons_self)
    rw [completeRecords, if_neg (by simpa using hne)]

theorem parseLines_partial {rec : RedoRecord} (hrt : RoundTrips rec) (hpf : PrefixFree rec)
    {line : List UInt8} (hp : line <+: recordText rec) (hne : line ≠ recordText rec) :
    (IsUtf8 line → parseLines (lines line) = pure []) ∧
      (¬ IsUtf8 line → parseLines (lines line) = err .invalidUtf8) := by
  obtain ⟨s, hs, htext, hnl, -⟩ := hrt.recordText
  rw [htext] at hp hne
  have hnl' : 10 ∉ line := fun hm => hnl (hp.subset hm)
  rw [lines_unterminated hnl']
  by_cases hnil : line = []
  · subst hnil
    exact ⟨fun _ => rfl, fun hn => absurd ⟨"", rfl⟩ hn⟩
  rw [if_neg hnil]
  constructor
  · rintro ⟨t, rfl⟩
    have hts : t ≠ s := fun heq => hne (heq ▸ rfl)
    simp only [parseLines, fromUtf8_utf8, hpf s t hs hp hts, ite_self]
  · intro hn
    have hnone : fromUtf8 line = none := by
      by_contra hsome
      obtain ⟨t, ht⟩ := Option.ne_none_iff_exists'.mp hsome
      exact hn ⟨t, fromUtf8_eq_some.mp ht⟩
    simp only [parseLines, hnone]

theorem parseLines_recordText {rec : RedoRecord} (h : RoundTrips rec) :
    parseLines (lines (recordText rec)) = pure [rec] := by
  obtain ⟨s, -, htext, hnl, -, hblank, hdec⟩ := h.recordText
  rw [lines_unterminated (htext ▸ hnl), if_neg (recordText_ne_nil h), htext]
  simp [parseLines, hblank, hdec]

theorem parseLines_redoLine {rec : RedoRecord} (h : RoundTrips rec) (rest : List UInt8) :
    parseLines (lines (redoLine rec ++ rest)) = (rec :: ·) <$> parseLines (lines rest) := by
  obtain ⟨s, -, htext, hnl, hcr, hblank, hdec⟩ := h.recordText
  rw [redoLine_eq, htext, ← List.append_cons, lines_append hnl hcr]
  simp only [parseLines, fromUtf8_utf8, hblank, hdec, Bool.false_eq_true, if_false]

theorem isUtf8_redoLine {rec : RedoRecord} (h : RoundTrips rec) (rest : List UInt8) :
    IsUtf8 (redoLine rec ++ rest) ↔ IsUtf8 rest := by
  obtain ⟨s, -, htext, -⟩ := h.recordText
  rw [redoLine_eq, htext, ← List.append_cons, isUtf8_append]
  exact isUtf8_append "\n" rest

/-- What recovery reads of a file that is cut after some bytes. -/
theorem parseLines_take {recs : List RedoRecord} (hrt : ∀ rec ∈ recs, RoundTrips rec)
    (hpf : ∀ rec ∈ recs, PrefixFree rec) (n : ℕ) :
    (IsUtf8 ((RedoFile.bytes ⟨recs⟩).take n) →
        parseLines (lines ((RedoFile.bytes ⟨recs⟩).take n)) = pure (completeRecords n recs)) ∧
      (¬ IsUtf8 ((RedoFile.bytes ⟨recs⟩).take n) →
        parseLines (lines ((RedoFile.bytes ⟨recs⟩).take n)) = err .invalidUtf8) := by
  induction recs generalizing n with
  | nil =>
    have hnil : (RedoFile.bytes ⟨[]⟩).take n = [] := by simp [RedoFile.bytes]
    rw [hnil]
    exact ⟨fun _ => rfl, fun hn => absurd ⟨"", rfl⟩ hn⟩
  | cons rec recs ih =>
    obtain ⟨hrec, hrecs⟩ := List.forall_mem_cons.mp hrt
    obtain ⟨hpfrec, hpfrecs⟩ := List.forall_mem_cons.mp hpf
    have hbytes : RedoFile.bytes ⟨rec :: recs⟩ = redoLine rec ++ RedoFile.bytes ⟨recs⟩ := by
      simp [RedoFile.bytes]
    have hlen : (redoLine rec).length = (recordText rec).length + 1 := by simp [redoLine_eq]
    rw [hbytes, completeRecords]
    rcases Nat.lt_or_ge n (redoLine rec).length with hlt | hge
    · have htake : (redoLine rec ++ RedoFile.bytes ⟨recs⟩).take n = (recordText rec).take n := by
        rw [List.take_append_of_le_length hlt.le, redoLine_eq,
          List.take_append_of_le_length (by omega)]
      rw [htake]
      by_cases hcut : (recordText rec).length ≤ n
      · obtain ⟨s, -, htext, -⟩ := hrec.recordText
        rw [List.take_of_length_le hcut, if_pos hcut, Nat.sub_eq_zero_of_le hlt.le,
          completeRecords_zero hrecs]
        exact ⟨fun _ => parseLines_recordText hrec, fun hn => absurd ⟨s, htext.symm⟩ hn⟩
      · rw [if_neg hcut]
        apply parseLines_partial hrec hpfrec (List.take_prefix _ _)
        intro heq
        have hlen' := congrArg List.length heq
        rw [List.length_take] at hlen'
        omega
    · obtain ⟨m, rfl⟩ := Nat.exists_eq_add_of_le hge
      rw [List.take_length_add_append, isUtf8_redoLine hrec, parseLines_redoLine hrec,
        if_pos (by omega), Nat.add_sub_cancel_left]
      obtain ⟨hok, herr⟩ := ih hrecs hpfrecs m
      constructor
      · intro hv
        rw [hok hv]
        rfl
      · intro hv
        rw [herr hv]
        rfl

theorem recover_rows {bytes : List UInt8} {recs : List RedoRecord}
    (h : parseLines (lines bytes) = .ok recs) (txMgr : TransactionManager) :
    ∃ tables txMgr', recover ∅ txMgr (some bytes) = .ok (tables, txMgr') ∧
      ∀ name, ((tables.lookup name).getD []).map Tuple.tagged =
        rowsTo name (winners (recs.map RedoRecord.event)) := by
  rw [recover, h, Result.ok_bind]
  split
  · rename_i hnil
    subst hnil
    exact ⟨_, _, rfl, fun name => rfl⟩
  · exact ⟨_, _, rfl, Replay.finish_rows recs txMgr⟩

end Text

end VolcanoDb
