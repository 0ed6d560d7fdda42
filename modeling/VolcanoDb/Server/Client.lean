import VolcanoDb.Lib.Trimming

/-! # The client

The loop over the lines of a terminal. Lines are collected until the input ends in
a semicolon and are then sent without the semicolons; a line that starts with a
slash is sent at once, and what has been collected before it is dropped.
-/

namespace VolcanoDb

open Text

namespace Client

/-- What a line of the terminal makes the client do. -/
inductive Action where
  | leave
  | request (sql : String)
  | goOn
  deriving DecidableEq

/-- The action for a line, and the input that is kept for the following ones. -/
def readLine (input line : String) : Action × String :=
  let trimmed := trim line
  if trimmed = "exit" ∨ trimmed = "quit" then (.leave, input)
  else if startsWith trimmed "/" then (.request trimmed, "")
  else
    let input := input ++ line
    if endsWith (trim input) ';' then
      let sql := trim (trimEndMatches (trim input) ';')
      (if sql ≠ "" then .request sql else .goOn, "")
    else (.goOn, input)

/-- The texts that the client sends for the lines of a terminal, up to their end. -/
def requests : String → List String → List String
  | _, [] => []
  | input, line :: lines =>
    match readLine input line with
    | (.leave, _) => []
    | (.request sql, input) => sql :: requests input lines
    | (.goOn, input) => requests input lines

def Leaves (line : String) : Prop := trim line = "exit" ∨ trim line = "quit"

def Slashed (line : String) : Prop := startsWith (trim line) "/"

def Terminates (line : String) : Prop := endsWith (trim line) ';'

instance (line : String) : Decidable (Leaves line) := inferInstanceAs (Decidable (_ ∨ _))

instance (line : String) : Decidable (Slashed line) := inferInstanceAs (Decidable (_ = true))

instance (line : String) : Decidable (Terminates line) := inferInstanceAs (Decidable (_ = true))

def bare (text : String) : String := trim (trimEndMatches (trim text) ';')

/-- A line with which a request is complete, behind those before it. -/
structure Block where
  before : List String
  last : String

namespace Block

variable (b : Block)

def lines : List String := b.before ++ [b.last]

def text : String := if Slashed b.last then trim b.last else bare (String.join b.lines)

end Block

section Lines

variable {lines : List String} {line : String}

theorem join_concat (lines : List String) (line : String) :
    String.join (lines ++ [line]) = String.join lines ++ line := by
  simp [String.join, List.foldl_append]

theorem terminates_join (h : ∀ line ∈ lines, ¬ Terminates line) :
    ¬ Terminates (String.join lines) := by
  induction lines using List.reverseRecOn with
  | nil => decide
  | append_singleton lines line ih =>
    have hinit := ih fun l hl => h l (List.mem_append_left _ hl)
    have hlast := h line (by simp)
    unfold Terminates at hinit hlast ⊢
    rw [join_concat, endsWith_trim_append]
    split
    · exact hinit
    · exact hlast

theorem terminates_join_concat (h : ∀ line ∈ lines, ¬ Terminates line) (line : String) :
    Terminates (String.join lines ++ line) ↔ Terminates line := by
  have hinit := terminates_join h
  unfold Terminates at hinit ⊢
  rw [endsWith_trim_append]
  split
  · rename_i hblank
    have hnil : (trim line).toList = [] := by
      rw [toList_trim, List.dropWhile_eq_nil_iff.mpr (List.all_eq_true.mp hblank)]
      rfl
    refine iff_of_false hinit ?_
    simp [endsWith, hnil]
  · rfl

theorem readLine_join (h : ∀ line ∈ lines, ¬ Terminates line) (line : String) :
    readLine (String.join lines) line =
      if Leaves line then (.leave, String.join lines)
      else if Slashed line then (.request (trim line), "")
      else if Terminates line then
        (if bare (String.join (lines ++ [line])) ≠ "" then
          .request (bare (String.join (lines ++ [line]))) else .goOn, "")
      else (.goOn, String.join (lines ++ [line])) := by
  have hends : endsWith (trim (String.join lines ++ line)) ';' ↔ Terminates line :=
    terminates_join_concat h line
  unfold readLine
  simp only [hends, join_concat, bare]
  rfl

theorem readLine_stays {input input' : String} (h : ¬ Leaves line) :
    readLine input line ≠ (.leave, input') := by
  unfold readLine
  dsimp only
  split
  · rename_i hleave
    exact absurd hleave h
  split
  · rintro ⟨⟩
  · split
    · split
      · rintro ⟨⟩
      · rintro ⟨⟩
    · rintro ⟨⟩

theorem text_ne_empty (hs : Slashed line) : trim line ≠ "" := by
  intro hempty
  rw [Slashed, hempty] at hs
  exact absurd hs (by decide)

end Lines

/-- Lines that complete no request. -/
def Unfinished (lines : List String) : Prop := ∀ line ∈ lines, ¬ Slashed line ∧ ¬ Terminates line

/-- A block whose last line is the first one that completes a request. -/
def Block.Complete (b : Block) : Prop :=
  Unfinished b.before ∧ (Slashed b.last ∨ Terminates b.last)

theorem unfinished_concat {lines : List String} {line : String} :
    Unfinished (lines ++ [line]) ↔ Unfinished lines ∧ ¬ (Slashed line ∨ Terminates line) := by
  simp only [Unfinished, List.forall_mem_append, List.forall_mem_singleton, not_or]

/-- Every sequence of lines is complete blocks and lines that complete no request. -/
theorem exists_blocks (lines : List String) : ∃ (blocks : List Block) (rest : List String),
    lines = blocks.flatMap Block.lines ++ rest ∧ (∀ b ∈ blocks, b.Complete) ∧
      Unfinished rest := by
  induction lines using List.reverseRecOn with
  | nil => exact ⟨[], [], rfl, by simp, by simp [Unfinished]⟩
  | append_singleton lines line ih =>
    obtain ⟨blocks, rest, rfl, hblocks, hrest⟩ := ih
    by_cases hcomplete : Slashed line ∨ Terminates line
    · refine ⟨blocks ++ [⟨rest, line⟩], [], by simp [Block.lines], ?_, by simp [Unfinished]⟩
      exact List.forall_mem_append.mpr ⟨hblocks, by simpa using ⟨hrest, hcomplete⟩⟩
    · refine ⟨blocks, rest ++ [line], by simp, hblocks, ?_⟩
      exact unfinished_concat.mpr ⟨hrest, hcomplete⟩

section Requests

variable {acc lines : List String}

theorem requests_unfinished (hacc : Unfinished acc) (hlines : Unfinished lines)
    (hstay : ∀ line ∈ lines, ¬ Leaves line) (more : List String) :
    requests (String.join acc) (lines ++ more) = requests (String.join (acc ++ lines)) more := by
  induction lines generalizing acc with
  | nil => simp
  | cons line lines ih =>
    obtain ⟨⟨hslash, hterm⟩, hlines⟩ := List.forall_mem_cons.mp hlines
    obtain ⟨hleave, hstay⟩ := List.forall_mem_cons.mp hstay
    have hacc' : Unfinished (acc ++ [line]) :=
      unfinished_concat.mpr ⟨hacc, not_or.mpr ⟨hslash, hterm⟩⟩
    rw [List.cons_append, requests, readLine_join fun l hl => (hacc l hl).2, if_neg hleave,
      if_neg hslash, if_neg hterm]
    refine (ih hacc' hlines hstay).trans ?_
    rw [List.append_assoc, List.singleton_append]

theorem requests_rest {rest more : List String} (hrest : Unfinished rest)
    (hstay : ∀ line ∈ rest, ¬ Leaves line) (hmore : ∀ line ∈ more.head?, Leaves line) :
    requests "" (rest ++ more) = [] := by
  have hnil : Unfinished [] := by simp [Unfinished]
  refine (requests_unfinished hnil hrest hstay more).trans ?_
  rw [List.nil_append]
  cases more with
  | nil => rfl
  | cons line more =>
    rw [requests, readLine_join fun l hl => (hrest l hl).2, if_pos (hmore line rfl)]

theorem readLine_last {b : Block} (hb : b.Complete) (hleave : ¬ Leaves b.last) :
    readLine (String.join b.before) b.last =
      (if b.text ≠ "" then .request b.text else .goOn, "") := by
  obtain ⟨hbefore, hlast⟩ := hb
  rw [readLine_join fun l hl => (hbefore l hl).2, if_neg hleave, Block.text]
  by_cases hslash : Slashed b.last
  · rw [if_pos hslash, if_pos hslash, if_pos (text_ne_empty hslash)]
  · rw [if_neg hslash, if_neg hslash, if_pos (hlast.resolve_left hslash), Block.lines]

/-- A complete block is sent, unless its text is empty, and nothing of it is kept. -/
theorem requests_block {b : Block} (hb : b.Complete) (hstay : ∀ line ∈ b.lines, ¬ Leaves line)
    (more : List String) : requests "" (b.lines ++ more) =
      (if b.text ≠ "" then [b.text] else []) ++ requests "" more := by
  have hnil : Unfinished [] := by simp [Unfinished]
  obtain ⟨hstay, hleave⟩ := List.forall_mem_append.mp hstay
  have hleave : ¬ Leaves b.last := hleave b.last (List.mem_singleton_self _)
  rw [Block.lines, List.append_assoc]
  refine (requests_unfinished hnil hb.1 hstay _).trans ?_
  rw [List.nil_append, List.singleton_append, requests, readLine_last hb hleave]
  by_cases hempty : b.text = ""
  · rw [if_neg (not_not.mpr hempty), if_neg (not_not.mpr hempty), List.nil_append]
  · rw [if_pos hempty, if_pos hempty, List.singleton_append]

end Requests

/--
For every sequence of lines, the lines before the one that ends the client are
complete blocks and lines that complete no request. The client sends the texts of
the blocks, each once and in order, except for the empty ones.
-/
theorem requests_blocks (lines : List String) : ∃ (blocks : List Block) (rest : List String),
    lines.takeWhile (fun line => ¬ Leaves line) = blocks.flatMap Block.lines ++ rest ∧
    (∀ b ∈ blocks, b.Complete) ∧ Unfinished rest ∧
    requests "" lines = (blocks.map Block.text).filter fun sql => sql ≠ "" := by
  obtain ⟨blocks, rest, hsplit, hblocks, hrest⟩ :=
    exists_blocks (lines.takeWhile fun line => ¬ Leaves line)
  refine ⟨blocks, rest, hsplit, hblocks, hrest, ?_⟩
  have hstay : ∀ line ∈ blocks.flatMap Block.lines ++ rest, ¬ Leaves line := by
    intro line hline
    have hmem : line ∈ lines.takeWhile fun line => ¬ Leaves line := hsplit ▸ hline
    simpa using List.mem_takeWhile_imp hmem
  have hlast : ∀ line ∈ (lines.dropWhile fun line => ¬ Leaves line).head?, Leaves line := by
    intro line hline
    have hhead := List.head?_dropWhile_not (fun line => decide (¬ Leaves line)) lines
    rw [Option.mem_def.mp hline] at hhead
    simpa using hhead
  rw [← List.takeWhile_append_dropWhile (p := fun line => decide (¬ Leaves line)) (l := lines),
    hsplit]
  clear hsplit
  induction blocks with
  | nil => simpa using requests_rest hrest (by simpa using hstay) hlast
  | cons b blocks ih =>
    obtain ⟨hb, hblocks⟩ := List.forall_mem_cons.mp hblocks
    rw [List.flatMap_cons, List.append_assoc] at hstay
    obtain ⟨hstayb, hstay⟩ := List.forall_mem_append.mp hstay
    rw [List.flatMap_cons, List.append_assoc, List.append_assoc, requests_block hb hstayb,
      ← List.append_assoc (blocks.flatMap _), ih hblocks hstay, List.map_cons, List.filter_cons]
    by_cases hempty : b.text = ""
    · simp [hempty]
    · simp [hempty]

/-- A statement typed over some lines, of which the last one ends it. -/
structure Typed (sql : String) (b : Block) : Prop where
  plain : ∀ line ∈ b.lines, ¬ Leaves line ∧ ¬ Slashed line
  goesOn : ∀ line ∈ b.before, ¬ Terminates line
  join_lines : ∃ before gap after n, isBlank before ∧ isBlank gap ∧ isBlank after ∧
    String.join b.lines =
      before ++ (sql ++ gap ++ String.ofList (List.replicate (n + 1) ';')) ++ after

/-- A text that the client can send: not blank, not padded, and without a semicolon at its end. -/
structure Sendable (sql : String) : Prop where
  trimmed : trim sql = sql
  ne_empty : sql ≠ ""
  open_ : ¬ endsWith sql ';'

section Typing

variable {sql : String} {b : Block}

theorem trimEndMatches_semicolons (hs : ¬ endsWith sql ';') {gap : String} (hgap : isBlank gap)
    (n : ℕ) :
    trimEndMatches (sql ++ gap ++ String.ofList (List.replicate n ';')) ';' = sql ++ gap := by
  have hsemi : (List.replicate n ';').all (· = ';') := by
    rw [List.all_eq_true]
    intro c hc
    simpa using List.eq_of_mem_replicate hc
  have hends : (sql ++ gap).toList.rdropWhile (· = ';') = (sql ++ gap).toList := by
    apply List.rdropWhile_eq_self_iff.mpr
    intro hne hlast
    have hlast : (sql ++ gap).toList.getLast? = some ';' := by
      rw [List.getLast?_eq_some_getLast hne, of_decide_eq_true hlast]
    rw [String.toList_append] at hlast
    rcases hg : gap.toList.getLast? with _ | c
    · rw [List.getLast?_eq_none_iff.mp hg, List.append_nil] at hlast
      exact hs (decide_eq_true hlast)
    · have hmem : c ∈ gap.toList := List.mem_of_getLast? hg
      rw [List.getLast?_append, hg, Option.some_or] at hlast
      obtain rfl := Option.some.inj hlast
      exact absurd (List.all_eq_true.mp hgap _ hmem) (by decide)
  rw [trimEndMatches, String.toList_append, String.toList_ofList, rdropWhile_append, if_pos hsemi,
    hends, String.ofList_toList]

theorem Typed.trim_join (ht : Typed sql b) (hs : Sendable sql) :
    ∃ gap n, isBlank gap ∧ trim (String.join b.lines) =
      sql ++ gap ++ String.ofList (List.replicate (n + 1) ';') := by
  obtain ⟨before, gap, after, n, hbefore, hgap, hafter, hjoin⟩ := ht.join_lines
  have hlast : (gap ++ String.ofList (List.replicate (n + 1) ';')).toList.getLast? = some ';' := by
    rw [String.toList_append, String.toList_ofList, List.getLast?_append, List.getLast?_replicate]
    rfl
  have htrim := trim_append hs.trimmed hs.ne_empty hlast (by decide)
  rw [← String.append_assoc] at htrim
  exact ⟨gap, n, hgap, by rw [hjoin, trim_padded hbefore hafter htrim]⟩

theorem Typed.bare_join (ht : Typed sql b) (hs : Sendable sql) :
    bare (String.join b.lines) = sql := by
  obtain ⟨gap, n, hgap, htrim⟩ := ht.trim_join hs
  have hbare : bare (String.join b.lines) = trim ("" ++ sql ++ gap) := by
    rw [bare, htrim, trimEndMatches_semicolons hs.open_ hgap, String.empty_append]
  rw [hbare, trim_padded (by decide) hgap hs.trimmed]

theorem Typed.terminates (ht : Typed sql b) (hs : Sendable sql) : Terminates b.last := by
  obtain ⟨gap, n, -, htrim⟩ := ht.trim_join hs
  have hends : Terminates (String.join b.lines) := by
    rw [Terminates, htrim, endsWith, String.toList_append, String.toList_ofList,
      List.getLast?_append, List.getLast?_replicate]
    rfl
  rw [Block.lines, join_concat] at hends
  exact (terminates_join_concat ht.goesOn b.last).mp hends

end Typing

/--
A script of statements, each typed over any number of lines with any white space around
it and any number of semicolons at its end, is sent statement by statement, whatever
follows it.
-/
theorem requests_script {script : List (String × Block)}
    (hs : ∀ s ∈ script, Sendable s.1 ∧ Typed s.1 s.2) (more : List String) :
    requests "" (script.flatMap (fun s => s.2.lines) ++ more) =
      script.map Prod.fst ++ requests "" more := by
  induction script with
  | nil => rfl
  | cons s script ih =>
    obtain ⟨⟨hsend, htyped⟩, hs⟩ := List.forall_mem_cons.mp hs
    have hslash : ¬ Slashed s.2.last := (htyped.plain s.2.last (by simp [Block.lines])).2
    have htext : s.2.text = s.1 := by
      rw [Block.text, if_neg hslash, htyped.bare_join hsend]
    have hcomplete : s.2.Complete := by
      refine ⟨fun line hline => ⟨?_, htyped.goesOn line hline⟩, .inr (htyped.terminates hsend)⟩
      exact (htyped.plain line (List.mem_append_left _ hline)).2
    rw [List.flatMap_cons, List.append_assoc,
      requests_block hcomplete fun line hline => (htyped.plain line hline).1, ih hs, htext,
      if_pos hsend.ne_empty]
    rfl

theorem requests_script_sample :
    requests "" ["BEGIN;\n", "INSERT INTO t\n", "VALUES (1) ;;\n", " commit;", "exit"] =
      ["BEGIN", "INSERT INTO t\nVALUES (1)", "commit"] ++ requests "" ["exit"] := by
  have hblank : isBlank "" ∧ isBlank " " ∧ isBlank "\n" := by decide
  let script : List (String × Block) := [("BEGIN", ⟨[], "BEGIN;\n"⟩),
    ("INSERT INTO t\nVALUES (1)", ⟨["INSERT INTO t\n"], "VALUES (1) ;;\n"⟩),
    ("commit", ⟨[], " commit;"⟩)]
  have hs : ∀ s ∈ script, Sendable s.1 ∧ Typed s.1 s.2 := by
    simp only [script, List.forall_mem_cons]
    refine ⟨⟨⟨by decide, by decide, by decide⟩, by decide, by decide, ?_⟩,
      ⟨⟨by decide, by decide, by decide⟩, by decide, by decide, ?_⟩,
      ⟨⟨by decide, by decide, by decide⟩, by decide, by decide, ?_⟩, by simp⟩
    · exact ⟨"", "", "\n", 0, hblank.1, hblank.1, hblank.2.2, by decide⟩
    · exact ⟨"", " ", "\n", 1, hblank.1, hblank.2.1, hblank.2.2, by decide⟩
    · exact ⟨" ", "", "", 0, hblank.2.1, hblank.1, hblank.1, by decide⟩
  exact requests_script hs ["exit"]

end Client

end VolcanoDb
