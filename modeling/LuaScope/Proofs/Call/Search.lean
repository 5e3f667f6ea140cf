import LuaScope.Proofs.Text.Cursor

/-!
# LuaScope.Proofs.Call.Search

The search for the call around a cursor goes back over brackets that close each other and counts the
commas outside all of them; the callee is the path in front of the parenthesis it stops at.

* `callBefore_reverse` — the search passes a text whose brackets are closed.
* `calleeBefore_path`  — where only separators stand in front of a path, that path is the callee.
-/

namespace LuaScope

/-! ## Brackets and commas -/

/-- The search does not tell brackets of different shapes apart. -/
def isOpening (c : Char) : Bool := c == '(' || c == '[' || c == '{'

def isClosing (c : Char) : Bool := c == ')' || c == ']' || c == '}'

/-- A bracket or a comma. -/
def isSign (c : Char) : Bool := isOpening c || isClosing c || c == ','

theorem isClosing_of_isOpening {c : Char} (h : isOpening c = true) : isClosing c = false := by
  simp only [isOpening, Bool.or_eq_true, beq_iff_eq] at h
  rcases h with (rfl | rfl) | rfl <;> rfl

/-- How many brackets are open behind a text if `depth` are in front of it; `none` if one more is
closed than was open. -/
def openBehind : Nat → List Char → Option Nat
  | depth, [] => some depth
  | depth, c :: cs =>
    if isClosing c then
      if depth = 0 then none else openBehind (depth - 1) cs
    else if isOpening c then openBehind (depth + 1) cs
    else openBehind depth cs

/-- The commas of a text that stand outside all brackets, if `depth` are open in front of it. -/
def looseCommas : Nat → List Char → Nat
  | _, [] => 0
  | depth, c :: cs =>
    if isClosing c then looseCommas (depth - 1) cs
    else if isOpening c then looseCommas (depth + 1) cs
    else if c = ',' ∧ depth = 0 then looseCommas depth cs + 1
    else looseCommas depth cs

theorem openBehind_comma (depth : Nat) (cs : List Char) :
    openBehind depth (',' :: cs) = openBehind depth cs := rfl

theorem looseCommas_comma (cs : List Char) :
    looseCommas 0 (',' :: cs) = looseCommas 0 cs + 1 := rfl

theorem openBehind_append (depth : Nat) (xs ys : List Char) :
    openBehind depth (xs ++ ys) = (openBehind depth xs).bind fun d => openBehind d ys := by
  induction xs generalizing depth with
  | nil => rfl
  | cons c cs ih =>
    simp only [List.cons_append, openBehind]
    split
    · split
      · rfl
      · exact ih _
    · split <;> exact ih _

/-- Further brackets that stay open all along change nothing. -/
theorem openBehind_add {depth depth' : Nat} {cs : List Char} (h : openBehind depth cs = some depth')
    (more : Nat) : openBehind (depth + more) cs = some (depth' + more) := by
  induction cs generalizing depth with
  | nil =>
    cases h
    rfl
  | cons c cs ih =>
    simp only [openBehind] at h ⊢
    split at h
    · rename_i hclosing
      split at h
      · cases h
      · rename_i hdepth
        rw [if_pos hclosing, if_neg (by omega), ← ih h]
        congr 1
        omega
    · rename_i hclosing
      rw [if_neg hclosing]
      split at h
      · rename_i hopening
        rw [if_pos hopening, ← ih h]
        congr 1
        omega
      · rename_i hopening
        rw [if_neg hopening, ih h]

theorem isSign_eq_false {c : Char} (h : isSign c = false) :
    isOpening c = false ∧ isClosing c = false ∧ c ≠ ',' := by
  simpa [isSign, and_assoc] using h

theorem openBehind_of_plain {depth : Nat} {cs : List Char} (h : ∀ c ∈ cs, isSign c = false) :
    openBehind depth cs = some depth := by
  induction cs with
  | nil => rfl
  | cons c cs ih =>
    obtain ⟨hopening, hclosing, -⟩ := isSign_eq_false (h c List.mem_cons_self)
    simp [openBehind, hopening, hclosing, ih fun c hc => h c (List.mem_cons_of_mem _ hc)]

theorem looseCommas_of_plain {depth : Nat} {cs : List Char} (h : ∀ c ∈ cs, isSign c = false) :
    looseCommas depth cs = 0 := by
  induction cs with
  | nil => rfl
  | cons c cs ih =>
    obtain ⟨hopening, hclosing, hcomma⟩ := isSign_eq_false (h c List.mem_cons_self)
    simp [looseCommas, hopening, hclosing, hcomma, ih fun c hc => h c (List.mem_cons_of_mem _ hc)]

/-- Within a bracket that stays open no comma is loose. -/
theorem looseCommas_succ {depth depth' : Nat} {cs : List Char}
    (h : openBehind depth cs = some depth') : looseCommas (depth + 1) cs = 0 := by
  induction cs generalizing depth with
  | nil => rfl
  | cons c cs ih =>
    simp only [openBehind, looseCommas] at h ⊢
    split at h
    · rename_i hclosing
      split at h
      · cases h
      · rename_i hdepth
        obtain ⟨depth, rfl⟩ : ∃ d, depth = d + 1 := ⟨depth - 1, by omega⟩
        rw [if_pos hclosing]
        exact ih h
    · rename_i hclosing
      rw [if_neg hclosing]
      split at h
      · rename_i hopening
        rw [if_pos hopening]
        exact ih h
      · rename_i hopening
        rw [if_neg hopening, if_neg (by simp)]
        exact ih h

theorem looseCommas_append {depth depth' : Nat} {xs : List Char}
    (h : openBehind depth xs = some depth') (ys : List Char) :
    looseCommas depth (xs ++ ys) = looseCommas depth xs + looseCommas depth' ys := by
  induction xs generalizing depth with
  | nil =>
    cases h
    simp [looseCommas]
  | cons c cs ih =>
    simp only [List.cons_append, openBehind, looseCommas] at h ⊢
    split at h
    · rename_i hclosing
      split at h
      · cases h
      · rw [if_pos hclosing, if_pos hclosing, ih h]
    · rename_i hclosing
      rw [if_neg hclosing, if_neg hclosing]
      split at h
      · rename_i hopening
        rw [if_pos hopening, if_pos hopening, ih h]
      · rename_i hopening
        rw [if_neg hopening, if_neg hopening]
        split
        · rw [ih h, Nat.add_right_comm]
        · exact ih h

/-- Both counts at once, the commas counted on. -/
def tally : Nat × Nat → List Char → Option (Nat × Nat)
  | (depth, commas), cs => (openBehind depth cs).map (·, commas + looseCommas depth cs)

theorem tally_eq {depth depth' commas : Nat} {cs : List Char}
    (h : openBehind depth cs = some depth') :
    tally (depth, commas) cs = some (depth', commas + looseCommas depth cs) := by
  rw [tally, h, Option.map_some]

theorem tally_append (s : Nat × Nat) (xs ys : List Char) :
    tally s (xs ++ ys) = (tally s xs).bind fun s' => tally s' ys := by
  obtain ⟨depth, commas⟩ := s
  cases h : openBehind depth xs with
  | none => simp [tally, openBehind_append, h]
  | some depth' =>
    rw [tally_eq h, Option.bind_some, tally, tally, openBehind_append, h, Option.bind_some,
      looseCommas_append h, Nat.add_assoc]

/-! ## The search -/

section Search

variable {depth commas : Nat} {c : Char} {before : List Char}

theorem callBefore_closing (h : isClosing c = true) :
    callBefore depth commas (c :: before) = callBefore (depth + 1) commas before := by
  simp only [isClosing, Bool.or_eq_true, beq_iff_eq] at h
  rw [callBefore, if_pos]
  rcases h with (h | h) | h <;> simp [h]

theorem callBefore_opening (h : isOpening c = true) :
    callBefore (depth + 1) commas (c :: before) = callBefore depth commas before := by
  simp only [isOpening, Bool.or_eq_true, beq_iff_eq] at h
  rcases h with (rfl | rfl) | rfl <;> simp [callBefore]

/-- The search ends at a parenthesis that is still open. -/
theorem callBefore_paren : callBefore 0 commas ('(' :: before) =
    (calleeBefore before).map (⟨·, commas⟩) := by
  rw [callBefore, if_neg (by decide), if_neg (by decide), if_pos rfl, if_pos rfl]

/-- A line break right behind another one would end the search outside of brackets. -/
theorem callBefore_plain (hclosing : isClosing c = false) (hopening : isOpening c = false)
    (hbreak : c = '\n' → before.head? ≠ some '\n') :
    callBefore depth commas (c :: before) =
      callBefore depth (if c = ',' ∧ depth = 0 then commas + 1 else commas) before := by
  simp only [isClosing, isOpening, Bool.or_eq_false_iff, beq_eq_false_iff_ne] at hclosing hopening
  have hblank : ¬(c = '\n' ∧ depth = 0 ∧ before.head? = some '\n') := fun h => hbreak h.1 h.2.2
  rw [callBefore, if_neg (by simp [hclosing]), if_neg (by simp [hopening]),
    if_neg (by simp [hopening]), if_neg hblank]
  split <;> rfl

/-- The search passes a text without blank lines that closes the brackets it opens and `depth` more,
which are open in front of it. -/
theorem callBefore_reverse {cs : List Char} (h : openBehind depth cs = some 0) (commas : Nat)
    (front : Char) (before : List Char) (hlines : ¬['\n', '\n'] <:+: front :: cs) :
    callBefore 0 commas (cs.reverse ++ front :: before) =
      callBefore depth (commas + looseCommas depth cs) (front :: before) := by
  induction cs generalizing depth front before with
  | nil =>
    cases h
    rfl
  | cons c cs ih =>
    have hrest : ¬['\n', '\n'] <:+: c :: cs := fun h =>
      hlines (h.trans (List.suffix_cons front _).isInfix)
    have hbreak : c = '\n' → (front :: before).head? ≠ some '\n' := by
      rintro rfl hfront
      rw [List.head?_cons, Option.some.injEq] at hfront
      exact hlines ⟨[], cs, by rw [hfront]; rfl⟩
    have hsplit : (c :: cs).reverse ++ front :: before = cs.reverse ++ c :: (front :: before) := by
      simp
    rw [hsplit]
    simp only [openBehind] at h
    split at h
    · rename_i hclosing
      split at h
      · cases h
      · rename_i hdepth
        obtain ⟨depth, rfl⟩ : ∃ d, depth = d + 1 := ⟨depth - 1, by omega⟩
        rw [ih h c _ hrest, callBefore_closing hclosing]
        simp [looseCommas, hclosing]
    · rename_i hclosing
      split at h
      · rename_i hopening
        rw [ih h c _ hrest, callBefore_opening hopening]
        simp [looseCommas, hclosing, hopening]
      · rename_i hopening
        rw [Bool.not_eq_true] at hclosing hopening
        rw [ih h c _ hrest, callBefore_plain hclosing hopening hbreak]
        simp only [looseCommas, hclosing, hopening, Bool.false_eq_true, if_false]
        split
        · rw [Nat.add_assoc]
        · rfl

end Search

/-! ## The callee -/

theorem isCalleeBlank_of_isPathChar {c : Char} (h : isPathChar c = true) :
    isCalleeBlank c = false := by
  cases hblank : isCalleeBlank c with
  | false => rfl
  | true =>
    simp only [isCalleeBlank, Bool.or_eq_true, beq_iff_eq] at hblank
    rcases hblank with (((rfl | rfl) | rfl) | rfl) | rfl <;> revert h <;> decide

/-- Separators in front of a path are not a part of it. -/
theorem trimBoth_path {run word : List Char} (hrun : ∀ c ∈ run, isSeparator c = true)
    (hfirst : ∀ c ∈ word.head?, isSeparator c = false)
    (hlast : ∀ c ∈ word.getLast?, isSeparator c = false) (hne : word ≠ []) :
    trimBoth isSeparator (run ++ word) = word ∧ (run ++ word).takeWhile isSeparator = run := by
  obtain ⟨first, rest, rfl⟩ := List.exists_cons_of_ne_nil hne
  have hfirst : isSeparator first = false := hfirst first rfl
  have hleft : trimLeft isSeparator (run ++ first :: rest) = first :: rest := by
    rw [trimLeft, List.dropWhile_append_of_pos hrun, List.dropWhile_cons, hfirst]
    rfl
  have hback : ∀ xs : List Char, (∀ c ∈ xs.head?, isSeparator c = false) →
      xs.dropWhile isSeparator = xs := by
    intro xs hxs
    cases xs with
    | nil => rfl
    | cons x xs => simp [hxs x rfl]
  refine ⟨?_, ?_⟩
  · rw [trimBoth, hleft, trimRight, hback _ (fun c hc => hlast c ?_), List.reverse_reverse]
    rwa [List.head?_reverse] at hc
  · rw [List.takeWhile_append_of_pos hrun, List.takeWhile_cons, hfirst]
    simp

/-- The callee is the path in front of a parenthesis, if blanks alone are between them and
separators alone are in front of it. -/
theorem calleeBefore_path {front word gap : List Char}
    (hfront : ∀ c ∈ front.reverse.takeWhile isPathChar, isSeparator c = true)
    (hword : Excerpt.IsPath ⟨word, ⟨byteLength front, byteLength front + byteLength word⟩⟩)
    (hgap : ∀ c ∈ gap, isCalleeBlank c = true) :
    calleeBefore (front ++ word ++ gap).reverse =
      some ⟨word, ⟨byteLength front, byteLength front + byteLength word⟩⟩ := by
  obtain ⟨hne, hchars, hfirst, hlast⟩ := hword
  dsimp only at hne hchars hfirst hlast
  have hrest : (front ++ word ++ gap).reverse.dropWhile isCalleeBlank =
      word.reverse ++ front.reverse := by
    rw [List.reverse_append, List.dropWhile_append_of_pos (by simpa using hgap),
      List.reverse_append]
    obtain ⟨last, rest, hreverse⟩ := List.exists_cons_of_ne_nil (List.reverse_ne_nil_iff.mpr hne)
    have hmem : last ∈ word := by
      rw [← List.mem_reverse, hreverse]
      exact List.mem_cons_self
    rw [hreverse, List.cons_append, List.dropWhile_cons,
      isCalleeBlank_of_isPathChar (hchars last hmem)]
    rfl
  have hpath : (word.reverse ++ front.reverse).takeWhile isPathChar =
      word.reverse ++ front.reverse.takeWhile isPathChar :=
    List.takeWhile_append_of_pos (by simpa using hchars)
  have hrun : ∀ c ∈ (front.reverse.takeWhile isPathChar).reverse, isSeparator c = true := by
    simpa using hfront
  obtain ⟨htrim, htake⟩ := trimBoth_path hrun (fun c hc => (hfirst c hc).1) hlast hne
  unfold calleeBefore
  simp only [hrest, hpath]
  have hruns := byteLength_runs isPathChar front.reverse
  have hascii : byteLength (front.reverse.takeWhile isPathChar) =
      (front.reverse.takeWhile isPathChar).length :=
    byteLength_of_isAscii fun c hc => isAscii_of_isSeparator (hfront c hc)
  have hstart : byteLength (word.reverse ++ front.reverse) -
      byteLength (word.reverse ++ front.reverse.takeWhile isPathChar) +
        (front.reverse.takeWhile isPathChar).reverse.length = byteLength front := by
    rw [byteLength_reverse] at hruns
    rw [byteLength_append, byteLength_append, byteLength_reverse, byteLength_reverse,
      List.length_reverse, ← hascii]
    omega
  unfold trimSeparators
  rw [List.reverse_append, List.reverse_reverse, htrim, htake]
  obtain ⟨first, rest, rfl⟩ := List.exists_cons_of_ne_nil hne
  simp only [(hfirst first rfl).2, Bool.false_eq_true, if_false, hstart]

end LuaScope
