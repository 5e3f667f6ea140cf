import LuaScope.Checker.Report
import LuaScope.Proofs.Text.Segments
import LuaScope.Proofs.Toml.Number

/-!
# LuaScope.Proofs.Checker.Report

Problems that a report prints are read back from it, whatever else stands between them.

* `ReportLine.Matches`      — a line of the shape `file:line:column-end: (W211) message`.
* `ofPlace?_eq_some_iff`    — behind the file's name a line can be read in one way only.
* `ReportLine.ofChars?_text` — a name without a parenthesis ends where it should, though it may hold
  colons and digits.
* `readReport_problems`     — the report as a whole.
-/

namespace LuaScope

namespace ReportLine

/-! ## The shape of a line -/

/-- Digits of any script and nothing else. -/
def IsNumeral (ds : List Char) : Prop := ds ≠ [] ∧ ∀ c ∈ ds, isDecimalDigit c = true

/-- Each number has a digit, and the severity's letter stands in front of the code's. -/
structure Proper (r : ReportLine) : Prop where
  line : IsNumeral r.line
  column : IsNumeral r.column
  endColumn : ∀ ds ∈ r.endColumn, IsNumeral ds
  code : ∃ number, IsNumeral number ∧ r.code = (if r.isError then 'E' else 'W') :: number

/-- `line:column` or `line:column-end` -/
def placeText (r : ReportLine) : List Char :=
  r.line ++ ':' :: (r.column ++ r.endColumn.elim [] ('-' :: ·))

/-- What stands behind the place: the code in parentheses, then the message. -/
def verdictText (r : ReportLine) : List Char :=
  ':' :: ' ' :: '(' :: (r.code ++ ')' :: ' ' :: r.message)

def text (file : List Char) (r : ReportLine) : List Char :=
  file ++ ':' :: (r.placeText ++ r.verdictText)

/-- The line has the shape of a problem, for some split into a name and what follows. -/
def Matches (cs : List Char) : Prop := ∃ file r, Proper r ∧ cs = r.text file

variable {cs ds rest file line column : List Char} {last : Option (List Char)} {r : ReportLine}

/-! ## Reading its parts -/

theorem IsNumeral.notMem (h : IsNumeral ds) {c : Char} (hc : isDecimalDigit c = false) :
    c ∉ ds := by
  intro hmem
  rw [h.2 c hmem] at hc
  cases hc

theorem isNumeral_of_allDigits (h : AllDigits ds) : IsNumeral ds :=
  ⟨h.1, fun c hc => isDecimalDigit_of_isDigit (h.2 c hc)⟩

/-- All digits at the front are taken, and there has to be one. -/
theorem digits?_eq_some_iff :
    digits? cs = some (ds, rest) ↔
      IsNumeral ds ∧ cs = ds ++ rest ∧ ∀ c ∈ rest.head?, isDecimalDigit c = false := by
  constructor
  · intro h
    simp only [digits?] at h
    split at h
    · cases h
    · rename_i hne
      cases h
      have hsplit := List.takeWhile_append_dropWhile (p := isDecimalDigit) (l := cs)
      have hdrop : cs.drop (cs.takeWhile isDecimalDigit).length = cs.dropWhile isDecimalDigit :=
        (congrArg (List.drop _) hsplit.symm).trans List.drop_left
      refine ⟨⟨by simpa using hne, fun c hc => List.all_eq_true.mp List.all_takeWhile c hc⟩, ?_, ?_⟩
      · rw [hdrop, hsplit]
      · intro c hc
        have hnot := List.head?_dropWhile_not isDecimalDigit cs
        rw [hdrop] at hc
        rw [Option.mem_def.mp hc] at hnot
        simpa using hnot
  · rintro ⟨hds, rfl, hrest⟩
    have htake : (ds ++ rest).takeWhile isDecimalDigit = ds := by
      rw [List.takeWhile_append_of_pos hds.2]
      cases rest with
      | nil => simp
      | cons c cs => simp [hrest c rfl]
    have hne : ds.isEmpty = false := List.isEmpty_eq_false_iff.mpr hds.1
    simp only [digits?, htake, hne, Bool.false_eq_true, if_false, List.drop_left]

theorem digits?_append (h : IsNumeral ds) {c : Char} (hc : isDecimalDigit c = false)
    (rest : List Char) : digits? (ds ++ c :: rest) = some (ds, c :: rest) :=
  digits?_eq_some_iff.mpr ⟨h, rfl, fun _ hx => Option.some.inj hx ▸ hc⟩

theorem ofVerdict?_eq_some_iff :
    ofVerdict? line column last cs = some r ↔
      r.line = line ∧ r.column = column ∧ r.endColumn = last ∧
        (∃ number, IsNumeral number ∧ r.code = (if r.isError then 'E' else 'W') :: number) ∧
        cs = r.verdictText := by
  constructor
  · intro h
    unfold ofVerdict? at h
    split at h
    · rename_i severity cs
      split at h
      · rename_i hseverity
        split at h
        · rename_i number message hnumber
          cases h
          obtain ⟨hnumeral, rfl, -⟩ := digits?_eq_some_iff.mp hnumber
          refine ⟨rfl, rfl, rfl, ⟨number, hnumeral, ?_⟩, rfl⟩
          rcases hseverity with rfl | rfl <;> rfl
        · cases h
      · cases h
    · cases h
  · rintro ⟨rfl, rfl, rfl, ⟨number, hnumber, hcode⟩, rfl⟩
    have hletter : (if r.isError then 'E' else 'W') = 'E' ∨
        (if r.isError then 'E' else 'W') = 'W' := by cases r.isError <;> simp
    have hback : ((if r.isError then 'E' else 'W') == 'E') = r.isError := by cases r.isError <;> rfl
    unfold ofVerdict? verdictText
    simp only [hcode, List.cons_append, hletter, if_true,
      digits?_append hnumber (c := ')') (by decide) (' ' :: r.message), hback]
    rw [← hcode]

/-- Behind the file's name a line can be read in one way. -/
theorem ofPlace?_eq_some_iff :
    ofPlace? cs = some r ↔ r.Proper ∧ cs = r.placeText ++ r.verdictText := by
  constructor
  · intro h
    unfold ofPlace? at h
    split at h
    · rename_i hread
      obtain ⟨hline, rfl, -⟩ := digits?_eq_some_iff.mp hread
      split at h
      · rename_i hread
        obtain ⟨hcolumn, rfl, -⟩ := digits?_eq_some_iff.mp hread
        split at h
        · rename_i hread
          obtain ⟨hlast, rfl, -⟩ := digits?_eq_some_iff.mp hread
          obtain ⟨rfl, rfl, hend, hcode, rfl⟩ := ofVerdict?_eq_some_iff.mp h
          refine ⟨⟨hline, hcolumn, fun ds hds => ?_, hcode⟩, by simp [placeText, hend]⟩
          rw [hend] at hds
          exact Option.some.inj hds ▸ hlast
        · cases h
      · rename_i hread
        obtain ⟨hcolumn, rfl, -⟩ := digits?_eq_some_iff.mp hread
        obtain ⟨rfl, rfl, hend, hcode, rfl⟩ := ofVerdict?_eq_some_iff.mp h
        refine ⟨⟨hline, hcolumn, fun ds hds => ?_, hcode⟩, by simp [placeText, hend]⟩
        rw [hend] at hds
        cases hds
      · cases h
    · cases h
  · rintro ⟨hr, rfl⟩
    have hverdict : ofVerdict? r.line r.column r.endColumn r.verdictText = some r :=
      ofVerdict?_eq_some_iff.mpr ⟨rfl, rfl, rfl, hr.code, rfl⟩
    have hline := digits?_append hr.line (c := ':') (by decide)
      (r.column ++ r.endColumn.elim [] ('-' :: ·) ++ r.verdictText)
    unfold ofPlace? placeText
    rw [List.append_assoc, List.cons_append, hline]
    cases hend : r.endColumn with
    | none =>
      rw [hend] at hverdict
      have hcolumn := digits?_append hr.column (c := ':') (by decide)
        (' ' :: '(' :: (r.code ++ ')' :: ' ' :: r.message))
      simp only [Option.elim_none, List.append_nil, verdictText, hcolumn]
      exact hverdict
    | some last =>
      rw [hend] at hverdict
      have hcolumn := digits?_append hr.column (c := '-') (by decide)
        (last ++ r.verdictText)
      have hlast := digits?_append (hr.endColumn last hend) (c := ':') (by decide)
        (' ' :: '(' :: (r.code ++ ')' :: ' ' :: r.message))
      simp only [Option.elim_some, List.append_assoc, List.cons_append, hcolumn]
      rw [verdictText, hlast]
      exact hverdict

/-! ## Reading a line -/

/-- Lines of another shape are the ones that are passed over. -/
theorem ofChars?_isSome_iff : (ofChars? cs).isSome = true ↔ Matches cs := by
  induction cs with
  | nil =>
    refine iff_of_false (by simp [ofChars?]) ?_
    rintro ⟨file, r, -, h⟩
    exact absurd h.symm (List.append_ne_nil_of_right_ne_nil _ (List.cons_ne_nil _ _))
  | cons c cs ih =>
    -- the name is empty, or starts with the first character
    have hcases : Matches (c :: cs) ↔ (c = ':' ∧ ∃ r, ofPlace? cs = some r) ∨ Matches cs := by
      constructor
      · rintro ⟨file, r, hr, h⟩
        cases file with
        | nil =>
          obtain ⟨rfl, rfl⟩ := List.cons.inj h
          exact .inl ⟨rfl, r, ofPlace?_eq_some_iff.mpr ⟨hr, rfl⟩⟩
        | cons d file =>
          obtain ⟨rfl, rfl⟩ := List.cons.inj h
          exact .inr ⟨file, r, hr, rfl⟩
      · rintro (⟨rfl, r, hplace⟩ | ⟨file, r, hr, rfl⟩)
        · obtain ⟨hr, rfl⟩ := ofPlace?_eq_some_iff.mp hplace
          exact ⟨[], r, hr, rfl⟩
        · exact ⟨c :: file, r, hr, rfl⟩
    rw [hcases, ← ih, ofChars?]
    split
    · rename_i hc
      cases hplace : ofPlace? cs with
      | none => simp
      | some r => simp [hc]
    · rename_i hc
      simp [hc]

theorem not_paren_mem_placeText (hr : r.Proper) : '(' ∉ r.placeText := by
  have hend : '(' ∉ r.endColumn.elim [] ('-' :: ·) := by
    cases hlast : r.endColumn with
    | none => simp
    | some last => simpa using (hr.endColumn last hlast).notMem (c := '(') (by decide)
  simp [placeText, hr.line.notMem (c := '(') (by decide), hr.column.notMem (c := '(') (by decide),
    hend]

theorem count_colon_placeText (hr : r.Proper) : r.placeText.count ':' = 1 := by
  have hend : (r.endColumn.elim [] ('-' :: ·)).count ':' = 0 := by
    refine List.count_eq_zero.mpr ?_
    cases hlast : r.endColumn with
    | none => simp
    | some last => simpa using (hr.endColumn last hlast).notMem (c := ':') (by decide)
  have hline := List.count_eq_zero.mpr (hr.line.notMem (c := ':') (by decide))
  have hcolumn := List.count_eq_zero.mpr (hr.column.notMem (c := ':') (by decide))
  rw [placeText, List.count_append, List.count_cons_self, List.count_append, hline, hcolumn, hend]

/-- What stands in front of the first parenthesis. -/
theorem takeWhile_paren {cs : List Char} (h : '(' ∉ cs) (rest : List Char) :
    (cs ++ '(' :: rest).takeWhile (· != '(') = cs := by
  have hall : ∀ c ∈ cs, (c != '(') = true := fun c hc => bne_iff_ne.mpr fun heq => h (heq ▸ hc)
  rw [List.takeWhile_append_of_pos hall]
  simp

/-- No place starts at a colon of the file's name: the colon behind the name would be one too many
up to the parenthesis. -/
theorem ofPlace?_name (hr : r.Proper) (hfile : '(' ∉ file) :
    ofPlace? (file ++ ':' :: (r.placeText ++ r.verdictText)) = none := by
  rw [Option.eq_none_iff_forall_ne_some]
  intro r' h
  obtain ⟨hr', heq⟩ := ofPlace?_eq_some_iff.mp h
  have hfront : '(' ∉ file ++ ':' :: (r.placeText ++ [':', ' ']) := by
    simp [hfile, not_paren_mem_placeText hr]
  have hfront' : '(' ∉ r'.placeText ++ [':', ' '] := by simp [not_paren_mem_placeText hr']
  have hsame := congrArg (List.takeWhile (· != '(')) heq
  have hleft : file ++ ':' :: (r.placeText ++ r.verdictText) =
      (file ++ ':' :: (r.placeText ++ [':', ' '])) ++ '(' :: (r.code ++ ')' :: ' ' :: r.message) := by
    simp [verdictText]
  have hright : r'.placeText ++ r'.verdictText =
      (r'.placeText ++ [':', ' ']) ++ '(' :: (r'.code ++ ')' :: ' ' :: r'.message) := by
    simp [verdictText]
  rw [hleft, hright, takeWhile_paren hfront, takeWhile_paren hfront'] at hsame
  have hcount := congrArg (List.count ':') hsame
  simp only [List.count_append, List.count_cons_self, count_colon_placeText hr,
    count_colon_placeText hr'] at hcount
  omega

/-- By induction on the file's name. -/
theorem ofChars?_text (hr : r.Proper) (hfile : '(' ∉ file) : ofChars? (r.text file) = some r := by
  have hplace : ofPlace? (r.placeText ++ r.verdictText) = some r :=
    ofPlace?_eq_some_iff.mpr ⟨hr, rfl⟩
  induction file with
  | nil => simp only [text, List.nil_append, ofChars?, if_true, hplace]
  | cons c file ih =>
    have hfile : '(' ∉ file := fun h => hfile (.tail _ h)
    have hnone := ofPlace?_name hr hfile
    have hih := ih hfile
    rw [text] at hih
    rw [text, List.cons_append, ofChars?, hnone]
    split <;> exact hih

/-- Blanks behind a line do not give it the shape of a problem. -/
theorem Matches.of_trimRight (h : Matches (trimRight isBlank cs)) : Matches cs := by
  obtain ⟨file, r, hr, htrim⟩ := h
  have hsplit : cs = trimRight isBlank cs ++ (cs.reverse.takeWhile isBlank).reverse := by
    rw [trimRight, ← List.reverse_append, List.takeWhile_append_dropWhile, List.reverse_reverse]
  refine ⟨file, { r with message := r.message ++ (cs.reverse.takeWhile isBlank).reverse },
    ⟨hr.line, hr.column, hr.endColumn, hr.code⟩, ?_⟩
  conv_lhs => rw [hsplit, htrim]
  simp [text, placeText, verdictText]

theorem number?_toDigits {n : Nat} (hn : n < UInt32.size) : number? (Nat.toDigits 10 n) = some n := by
  have hall : (Nat.toDigits 10 n).all Char.isDigit = true :=
    List.all_eq_true.mpr (allDigits_toDigits n).2
  have hsize : n < Nat.pow 2 32 := hn
  rw [number?, hall, TomlNumber.ofDigits_toDigits]
  simp [hsize]

end ReportLine

/-! ## Problems -/

/-- A problem as the checker knows it, with lines and columns counted from one. -/
structure Problem where
  file : List Char
  line : Nat
  column : Nat
  endColumn : Option Nat
  isError : Bool
  /-- Digits of the code. -/
  number : List Char
  message : List Char

namespace Problem

def code (p : Problem) : List Char := (if p.isError then 'E' else 'W') :: p.number

def reportLine (p : Problem) : ReportLine :=
  ⟨Nat.toDigits 10 p.line, Nat.toDigits 10 p.column, p.endColumn.map (Nat.toDigits 10), p.isError,
    p.code, p.message⟩

/-- The line that reports the problem. -/
def text (p : Problem) : List Char := p.reportLine.text p.file

/-- Counted from zero, with an open end. -/
def diagnostic (p : Problem) : Diagnostic where
  range := ⟨⟨p.line - 1, p.column - 1⟩, ⟨p.line - 1, p.endColumn.getD p.column⟩⟩
  severity := if p.isError then .error else .warning
  code := some (String.ofList p.code)
  source := "luacheck"
  message := String.ofList p.message

/-- The problem fits on a line: numbers of 32 bits, a name without an opening parenthesis, and a
message that says something up to its end. -/
structure Printable (p : Problem) : Prop where
  file : '(' ∉ p.file ∧ '\n' ∉ p.file
  line : p.line < UInt32.size
  column : p.column < UInt32.size
  endColumn : ∀ n ∈ p.endColumn, n < UInt32.size
  number : AllDigits p.number
  message : '\n' ∉ p.message
  said : ∃ c ∈ p.message.getLast?, isBlank c = false

variable {p : Problem}

theorem Printable.proper (h : p.Printable) : p.reportLine.Proper where
  line := ReportLine.isNumeral_of_allDigits (allDigits_toDigits _)
  column := ReportLine.isNumeral_of_allDigits (allDigits_toDigits _)
  endColumn := by
    intro ds hds
    obtain ⟨n, -, rfl⟩ := Option.map_eq_some_iff.mp hds
    exact ReportLine.isNumeral_of_allDigits (allDigits_toDigits _)
  code := ⟨p.number, ReportLine.isNumeral_of_allDigits h.number, rfl⟩

/-- The line ends with the message, so nothing is trimmed. -/
theorem Printable.trimRight_text (h : p.Printable) : trimRight isBlank p.text = p.text := by
  obtain ⟨c, hlast, hc⟩ := h.said
  have hlast : p.text.getLast? = some c := by
    have htext : p.text = (p.file ++ ':' :: (p.reportLine.placeText ++
        ':' :: ' ' :: '(' :: (p.code ++ [')', ' ']))) ++ p.message := by
      simp [text, ReportLine.text, ReportLine.verdictText, reportLine]
    rw [htext, List.getLast?_append, Option.mem_def.mp hlast]
    rfl
  rw [← List.head?_reverse] at hlast
  obtain ⟨rest, hrest⟩ := List.head?_eq_some_iff.mp hlast
  rw [trimRight, hrest, List.dropWhile_cons_of_neg (by simp [hc]), ← hrest, List.reverse_reverse]

theorem Printable.newline_notMem (h : p.Printable) : '\n' ∉ p.text := by
  have hdigits : ∀ n, '\n' ∉ Nat.toDigits 10 n := fun n =>
    (allDigits_toDigits n).notMem (by decide)
  have hletter : '\n' ≠ (if p.isError then 'E' else 'W') := by cases p.isError <;> simp
  have hend : '\n' ∉ (p.endColumn.map (Nat.toDigits 10)).elim [] ('-' :: ·) := by
    cases p.endColumn with
    | none => simp
    | some n => simpa using hdigits n
  simp only [text, ReportLine.text, ReportLine.placeText, ReportLine.verdictText, reportLine, code,
    List.mem_append, List.mem_cons, not_or]
  exact ⟨h.file.2, by decide, ⟨hdigits _, by decide, hdigits _, hend⟩, by decide, by decide,
    by decide, ⟨hletter, h.number.notMem (by decide)⟩, by decide, by decide, h.message⟩

theorem Printable.toDiagnostic? (h : p.Printable) :
    p.reportLine.toDiagnostic? = some p.diagnostic := by
  have hlast : ((p.endColumn.map (Nat.toDigits 10)).bind ReportLine.number?).getD p.column =
      p.endColumn.getD p.column := by
    cases hend : p.endColumn with
    | none => rfl
    | some n => simp [ReportLine.number?_toDigits (h.endColumn n hend)]
  simp only [ReportLine.toDiagnostic?, reportLine, ReportLine.number?_toDigits h.line,
    ReportLine.number?_toDigits h.column, hlast]
  rfl

end Problem

/-! ## Reports -/

/-- A line of a report: a problem, or anything else. -/
inductive ReportEntry where
  | problem (p : Problem)
  | other (line : List Char)

namespace ReportEntry

def line : ReportEntry → List Char
  | .problem p => p.text
  | .other line => line

def problem? : ReportEntry → Option Problem
  | .problem p => some p
  | .other _ => none

/-- The entry takes one line, and is a problem if it looks like one. -/
def Fits : ReportEntry → Prop
  | .problem p => p.Printable
  | .other line => '\n' ∉ line ∧ ¬ReportLine.Matches line

/-- What is read from the line of an entry. -/
theorem Fits.read {e : ReportEntry} (h : e.Fits) :
    (ReportLine.ofChars? (trimRight isBlank e.line)).bind ReportLine.toDiagnostic? =
      e.problem?.map Problem.diagnostic := by
  cases e with
  | problem p =>
    have h : p.Printable := h
    rw [line, h.trimRight_text, Problem.text, ReportLine.ofChars?_text h.proper h.file.1,
      Option.bind_some, h.toDiagnostic?]
    rfl
  | other line =>
    have hnone : ReportLine.ofChars? (trimRight isBlank line) = none := by
      rw [← Option.not_isSome_iff_eq_none, ReportLine.ofChars?_isSome_iff]
      exact fun hmatches => h.2 hmatches.of_trimRight
    rw [ReportEntry.line, hnone]
    rfl

theorem Fits.newline_notMem {e : ReportEntry} (h : e.Fits) : '\n' ∉ e.line := by
  cases e with
  | problem p => exact Problem.Printable.newline_notMem h
  | other line => exact h.1

end ReportEntry

/-- The lines of a report with line breaks between them; an empty last line ends the text with a
line break. -/
def reportText (entries : List ReportEntry) : List Char :=
  ['\n'].intercalate (entries.map ReportEntry.line)

/--
Of a report that prints problems among other lines the first problems are read, in their order and
at most `limit` of them: each with its place counted from zero and an open end, its severity, its
code and its message. The file's name may hold colons and digits, and the message may look like
another problem.
-/
theorem readReport_problems (entries : List ReportEntry) (limit : Nat)
    (hfits : ∀ e ∈ entries, e.Fits) :
    readReport (String.ofList (reportText entries)) limit =
      ((entries.filterMap ReportEntry.problem?).map Problem.diagnostic).take limit := by
  have hlines : splitWhere (· == '\n') (reportText entries) = entries.map ReportEntry.line ∨
      entries = [] ∧ splitWhere (· == '\n') (reportText entries) = [[]] := by
    cases entries with
    | nil => exact .inr ⟨rfl, rfl⟩
    | cons e rest =>
      refine .inl (splitWhere_intercalate rfl (by simp) fun piece hpiece c hc => ?_)
      obtain ⟨e', he', rfl⟩ := List.mem_map.mp hpiece
      exact beq_eq_false_iff_ne.mpr fun heq => (hfits e' he').newline_notMem (heq ▸ hc)
  have hread : entries.filterMap (fun e =>
      (ReportLine.ofChars? (trimRight isBlank e.line)).bind ReportLine.toDiagnostic?) =
      (entries.filterMap ReportEntry.problem?).map Problem.diagnostic := by
    rw [List.map_filterMap]
    exact List.filterMap_congr fun e he => (hfits e he).read
  simp only [readReport, String.toList_ofList, ← hread]
  rcases hlines with hlines | ⟨rfl, hlines⟩
  · rw [hlines, List.filterMap_map]
    rfl
  · rw [hlines]
    rfl

/-- A problem in a file whose name ends like a place, with a message that reads like another
problem. -/
def lookalike : Problem where
  file := "a:1:2".toList
  line := 3
  column := 7
  endColumn := some 11
  isError := false
  number := "211".toList
  message := "unused, see b.lua:10:1: (E011) here".toList

theorem readReport_lookalike :
    (∀ e ∈ [.other "Checking a:1:2".toList, .problem lookalike, .other []], ReportEntry.Fits e) ∧
      readReport (String.ofList
        (reportText [.other "Checking a:1:2".toList, .problem lookalike, .other []])) 250 =
        [{ range := ⟨⟨2, 6⟩, ⟨2, 11⟩⟩, severity := .warning, code := some "W211",
           source := "luacheck", message := "unused, see b.lua:10:1: (E011) here" }] := by
  have hother : ∀ line : List Char, '\n' ∉ line → (ReportLine.ofChars? line).isSome = false →
      (ReportEntry.other line).Fits := fun line hbreak hnone =>
    ⟨hbreak, fun h => by rw [ReportLine.ofChars?_isSome_iff.mpr h] at hnone; cases hnone⟩
  have hfits : ∀ e ∈ [.other "Checking a:1:2".toList, .problem lookalike, .other []],
      ReportEntry.Fits e := by
    refine List.forall_mem_cons.mpr ⟨hother _ (by decide) (by decide),
      List.forall_mem_cons.mpr ⟨?_, List.forall_mem_singleton.mpr (hother _ (by decide) rfl)⟩⟩
    exact { file := by decide, line := by decide, column := by decide, endColumn := by decide,
            number := ⟨by decide, List.all_eq_true.mp rfl⟩, message := by decide,
            said := ⟨'e', rfl, rfl⟩ }
  exact ⟨hfits, (readReport_problems _ 250 hfits).trans (by decide)⟩

end LuaScope
