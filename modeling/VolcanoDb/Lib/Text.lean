import Mathlib.Data.List.Basic
import Mathlib.Data.List.TakeWhile
import Mathlib.Data.Nat.Notation

/-! # Text and lines

Trimming and prefix tests on strings, and the reading of a byte file line by
line: a line ends before a newline byte or before a carriage return and a
newline, and bytes after the last newline form one more line.
-/

namespace Text

/-- The characters with the Unicode property `White_Space`. -/
def isWhitespace (c : Char) : Bool :=
  let n := c.toNat
  (9 ≤ n && n ≤ 13) || n = 32 || n = 133 || n = 160 || n = 5760 || (8192 ≤ n && n ≤ 8202) ||
    n = 8232 || n = 8233 || n = 8239 || n = 8287 || n = 12288

def trim (s : String) : String :=
  String.ofList ((s.toList.dropWhile isWhitespace).reverse.dropWhile isWhitespace).reverse

theorem dropWhile_append_cons {α : Type*} {p : α → Bool} {c : α} (hc : p c = false)
    (l r : List α) : (l ++ c :: r).dropWhile p = l.dropWhile p ++ c :: r := by
  rw [List.dropWhile_append]
  split
  · rename_i hnil
    simp [List.isEmpty_iff.mp hnil, hc]
  · rfl

theorem toList_trim_append {c : Char} (hc : isWhitespace c = false) {s r : String} {cs : List Char}
    (hr : r.toList = c :: cs) :
    ∃ w cs', (∀ a ∈ w, isWhitespace a) ∧
      (trim (s ++ r)).toList = (trim s).toList ++ w ++ c :: cs' := by
  set front := s.toList.dropWhile isWhitespace
  refine ⟨(front.reverse.takeWhile isWhitespace).reverse,
    (cs.reverse.dropWhile isWhitespace).reverse, ?_, ?_⟩
  · intro a ha
    exact List.mem_takeWhile_imp (List.mem_reverse.mp ha)
  · have hsplit : (front.reverse.dropWhile isWhitespace).reverse ++
        (front.reverse.takeWhile isWhitespace).reverse = front := by
      rw [← List.reverse_append, List.takeWhile_append_dropWhile, List.reverse_reverse]
    have htrim : (trim s).toList = (front.reverse.dropWhile isWhitespace).reverse := by
      rw [trim, String.toList_ofList]
    rw [htrim, hsplit, trim, String.toList_ofList, String.toList_append, hr,
      dropWhile_append_cons hc, List.reverse_append, List.reverse_cons, List.append_assoc,
      List.singleton_append, dropWhile_append_cons hc, List.reverse_append, List.reverse_cons,
      List.reverse_reverse, List.append_assoc, List.singleton_append]

/--
A prefix that neither contains the character behind some filling nor ends in the
filling lies in front of both.
-/
theorem prefix_of_prefix_append {α : Type*} {p u w r : List α} {c : α} (hc : c ∉ p)
    (hw : ∀ a ∈ p.getLast?, a ∉ w) (h : p <+: u ++ w ++ c :: r) : p <+: u := by
  rw [List.append_assoc] at h
  rcases List.prefix_or_prefix_of_prefix h (List.prefix_append u _) with hp | ⟨q, rfl⟩
  · exact hp
  rw [List.prefix_append_right_inj] at h
  rcases List.prefix_or_prefix_of_prefix h (List.prefix_append w _) with hq | ⟨q', rfl⟩
  · rcases List.eq_nil_or_concat q with rfl | ⟨q', a, rfl⟩
    · simp
    · exact absurd (hq.subset (by simp)) (hw a (by simp))
  · rw [List.prefix_append_right_inj] at h
    rcases q' with _ | ⟨b, q'⟩
    · rcases List.eq_nil_or_concat w with rfl | ⟨w', a, rfl⟩
      · simp
      · exact absurd (by simp) (hw a (by simp))
    · rw [(List.cons_prefix_cons.mp h).1] at hc
      simp at hc

def isBlank (s : String) : Bool := s.toList.all isWhitespace

def startsWith (s prefix' : String) : Bool := prefix'.toList.isPrefixOf s.toList

def eqIgnoreAsciiCase (s t : String) : Bool :=
  s.toList.map Char.toLower = t.toList.map Char.toLower

def utf8 (s : String) : List UInt8 := s.toByteArray.data.toList

def fromUtf8 (bytes : List UInt8) : Option String := String.fromUTF8? ⟨bytes.toArray⟩

@[simp] theorem fromUtf8_utf8 (s : String) : fromUtf8 (utf8 s) = some s := by
  simp [fromUtf8, utf8, String.fromUTF8?, s.isValidUTF8, String.fromUTF8]

theorem utf8_injective : Function.Injective utf8 := by
  intro s t h
  have hdecode := congrArg fromUtf8 h
  rwa [fromUtf8_utf8, fromUtf8_utf8, Option.some_inj] at hdecode

theorem fromUtf8_eq_some {bytes : List UInt8} {s : String} :
    fromUtf8 bytes = some s ↔ utf8 s = bytes := by
  constructor
  · intro h
    unfold fromUtf8 String.fromUTF8? at h
    split at h
    · cases h; rfl
    · cases h
  · rintro rfl
    exact fromUtf8_utf8 s

theorem utf8_eq (s : String) : utf8 s = s.toList.flatMap String.utf8EncodeChar := by
  rw [utf8, ← String.utf8Encode_toList]
  simp [List.utf8Encode]

theorem toNat_of_mem_utf8EncodeChar {c : Char} {b : UInt8} (hb : b ∈ String.utf8EncodeChar c)
    (h : b.toNat < 128) : c.toNat = b.toNat := by
  have hval : c.val.toNat = c.toNat := rfl
  unfold String.utf8EncodeChar at hb
  simp only at hb
  split at hb
  · rw [List.mem_singleton.mp hb, UInt8.toNat_ofNat']
    omega
  · exfalso
    split at hb
    · rcases List.mem_pair.mp hb with rfl | rfl <;> simp only [UInt8.toNat_ofNat'] at h <;> omega
    split at hb
    · simp only [List.mem_cons, List.not_mem_nil, or_false] at hb
      rcases hb with rfl | rfl | rfl <;> simp only [UInt8.toNat_ofNat'] at h <;> omega
    · simp only [List.mem_cons, List.not_mem_nil, or_false] at hb
      rcases hb with rfl | rfl | rfl | rfl <;> simp only [UInt8.toNat_ofNat'] at h <;> omega

theorem le_of_mem_utf8 {s : String} (hs : ∀ c ∈ s.toList, 32 ≤ c.toNat) {b : UInt8}
    (hb : b ∈ utf8 s) : 32 ≤ b.toNat := by
  rw [utf8_eq, List.mem_flatMap] at hb
  obtain ⟨c, hc, hb⟩ := hb
  by_contra hlt
  have heq := toNat_of_mem_utf8EncodeChar hb (by omega)
  exact hlt (heq ▸ hs c hc)

/-- The bytes of a whole string. -/
def IsUtf8 (bytes : List UInt8) : Prop := ∃ s, utf8 s = bytes

theorem isUtf8_iff {bytes : List UInt8} :
    IsUtf8 bytes ↔ ByteArray.IsValidUTF8 ⟨bytes.toArray⟩ := by
  constructor
  · rintro ⟨s, rfl⟩
    simpa [utf8] using s.isValidUTF8
  · intro h
    exact ⟨String.fromUTF8 _ h, rfl⟩

theorem isUtf8_append (s : String) (bytes : List UInt8) :
    IsUtf8 (utf8 s ++ bytes) ↔ IsUtf8 bytes := by
  rw [utf8_eq]
  induction s.toList with
  | nil => rfl
  | cons c cs ih =>
    have hchar :
        (⟨(String.utf8EncodeChar c ++ (cs.flatMap String.utf8EncodeChar ++ bytes)).toArray⟩ :
          ByteArray) =
        [c].utf8Encode ++ ⟨(cs.flatMap String.utf8EncodeChar ++ bytes).toArray⟩ := by
      ext1
      simp [List.utf8Encode]
    rw [List.flatMap_cons, List.append_assoc, isUtf8_iff, hchar,
      ByteArray.isValidUTF8_utf8Encode_singleton_append_iff, ← isUtf8_iff, ih]

def dropCr : List UInt8 → List UInt8
  | 13 :: l => l
  | l => l

/-- The lines of a file, after the reversed beginning of the first one. -/
def linesFrom : List UInt8 → List UInt8 → List (List UInt8)
  | acc, [] => if acc = [] then [] else [acc.reverse]
  | acc, b :: bs =>
    if b = 10 then (dropCr acc).reverse :: linesFrom [] bs else linesFrom (b :: acc) bs

def lines (bytes : List UInt8) : List (List UInt8) := linesFrom [] bytes

theorem linesFrom_append {line : List UInt8} (h : 10 ∉ line) (acc rest : List UInt8) :
    linesFrom acc (line ++ 10 :: rest) = (dropCr (line.reverse ++ acc)).reverse :: lines rest := by
  induction line generalizing acc with
  | nil => simp [linesFrom, lines]
  | cons b line ih =>
    obtain ⟨hb, hl⟩ := not_or.mp (mt List.mem_cons.mpr h)
    rw [List.cons_append, linesFrom, if_neg (Ne.symm hb), ih hl]
    simp

theorem dropCr_eq {l : List UInt8} (h : l.head? ≠ some 13) : dropCr l = l := by
  unfold dropCr
  split
  · simp at h
  · rfl

/-- A terminated line without newlines or a final carriage return is read back as it is. -/
theorem lines_append {line : List UInt8} (hn : 10 ∉ line) (hr : line.getLast? ≠ some 13)
    (rest : List UInt8) : lines (line ++ 10 :: rest) = line :: lines rest := by
  rw [lines, linesFrom_append hn, List.append_nil, dropCr_eq (by simpa using hr),
    List.reverse_reverse]

theorem linesFrom_unterminated {line : List UInt8} (h : 10 ∉ line) (acc : List UInt8) :
    linesFrom acc line =
      if line.reverse ++ acc = [] then [] else [(line.reverse ++ acc).reverse] := by
  induction line generalizing acc with
  | nil => rfl
  | cons b line ih =>
    obtain ⟨hb, hl⟩ := not_or.mp (mt List.mem_cons.mpr h)
    rw [linesFrom, if_neg (Ne.symm hb), ih hl]
    simp

theorem lines_unterminated {line : List UInt8} (h : 10 ∉ line) :
    lines line = if line = [] then [] else [line] := by
  rw [lines, linesFrom_unterminated h]
  simp

end Text
