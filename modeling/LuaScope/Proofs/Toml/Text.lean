import LuaScope.Proofs.Toml.Reader

/-!
# LuaScope.Proofs.Toml.Text

Strings that are written are read back, whatever is in them.

* `TomlReader.basicBody_basicText`, `TomlReader.longBasicBody_basicText` — in double quotes, on one
  line and on several.
* `TomlReader.longLiteralBody_append` — in three apostrophes.
* `TomlReader.string_stringText` — in the quotes that were chosen for the string.
-/

namespace LuaScope

open Toml

namespace TomlReader

variable {cs rest : List Char} {n seen : Nat} {c : Char}

/-! ## Characters -/

theorem isControl_eq (c : Char) : isControl c = (needsEscape c || c == '\n') := by
  by_cases hline : c = '\n'
  · subst hline
    decide
  · have hne : (c != '\n') = true := bne_iff_ne.mpr hline
    have hbeq : (c == '\n') = false := beq_eq_false_iff_ne.mpr hline
    rw [isControl, needsEscape, hne, hbeq, Bool.and_true, Bool.or_false]

theorem isControl_eq_false (hescape : needsEscape c = false) (hline : c ≠ '\n') :
    isControl c = false := by
  rw [isControl_eq, hescape, Bool.false_or]
  exact beq_eq_false_iff_ne.mpr hline

theorem needsEscape_lt (h : needsEscape c = true) : c.toNat < 128 := by
  simp only [needsEscape, Bool.or_eq_true, Bool.and_eq_true, decide_eq_true_eq, beq_iff_eq] at h
  show c.val.toNat < 128
  rcases h with h | h
  · have hlow : c.val.toNat < 32 := h.1.1
    omega
  · rw [h]
    decide

/-- Four digits are enough for what needs an escape. -/
theorem hexPadded_reads : ∀ n < 128, ((hexPadded n).filterMap hexValue?).length = 4 ∧
    (hexPadded n).length = 4 ∧
    ((hexPadded n).filterMap hexValue?).foldl (fun value d => 16 * value + d) 0 = n := by
  decide +kernel

theorem unicodeChar_hexPadded (h : needsEscape c = true) :
    unicodeChar 4 (hexPadded c.toNat ++ rest) = .ok (c, rest) := by
  obtain ⟨hdigits, hlength, hvalue⟩ := hexPadded_reads c.toNat (needsEscape_lt h)
  have htake : (hexPadded c.toNat ++ rest).take 4 = hexPadded c.toNat := List.take_left' hlength
  have hdrop : (hexPadded c.toNat ++ rest).drop 4 = rest := List.drop_left' hlength
  have hread : hexNumber 4 (hexPadded c.toNat ++ rest) = .ok (c.toNat, rest) := by
    unfold hexNumber
    simp only [bind_apply, rest_apply, bind_ok, htake, hdigits, if_true, drop_apply, hdrop,
      pure_apply, hvalue]
  have hvalid : c.toNat.isValidChar := c.valid
  unfold unicodeChar
  rw [bind_of_ok (rest_apply _), bind_of_ok hread, dif_pos hvalid]
  rfl

/-- A character inside double quotes is itself or stands behind a backslash. -/
theorem basicChar_cases (long : Bool) (hc : c ≠ '"') :
    (∃ body, basicChar long c = '\\' :: body ∧ ∀ rest : List Char,
      (body ++ rest).takeWhile isFolded = [] ∧ escape (body ++ rest) = .ok (c, rest)) ∨
    (basicChar long c = [c] ∧ c ≠ '\\' ∧ needsEscape c = false ∧ (c = '\n' → long = true)) := by
  unfold basicChar
  split
  case h_6 =>
    cases long with
    | false => exact .inl ⟨['n'], rfl, fun rest => ⟨rfl, rfl⟩⟩
    | true => exact .inr ⟨rfl, by decide, by decide, fun _ => rfl⟩
  case h_7 =>
    rename_i hslash hline
    cases hescape : needsEscape c with
    | true =>
      refine .inl ⟨'u' :: hexPadded c.toNat, rfl, fun rest => ⟨rfl, ?_⟩⟩
      simp [escape, unicodeChar_hexPadded hescape]
    | false => exact .inr ⟨rfl, hslash, rfl, fun h => absurd h hline⟩
  all_goals exact .inl ⟨_, rfl, fun rest => ⟨rfl, rfl⟩⟩

/-! ## Double quotes on one line -/

theorem basicText_cons_quote (long : Bool) (run seen : Nat) (cs : List Char) :
    basicText long run seen ('"' :: cs) =
      if seen < run then '"' :: basicText long run (seen + 1) cs
      else '\\' :: '"' :: basicText long run 0 cs := by
  rw [basicText]

theorem basicText_cons (long : Bool) (run seen : Nat) (hc : c ≠ '"') (cs : List Char) :
    basicText long run seen (c :: cs) = basicChar long c ++ basicText long run 0 cs := by
  rw [basicText]
  exact hc

theorem basicBody_escape (n : Nat) (cs : List Char) :
    basicBody (n + 1) ('\\' :: cs) = (escape cs).bind fun p =>
      (basicBody n p.2).map fun q => (p.1 :: q.1, q.2) := by
  simp [basicBody]

theorem basicBody_basicText (h : cs.length < n) :
    basicBody n (basicText false 0 seen cs ++ '"' :: rest) = .ok (cs, rest) := by
  induction cs generalizing n seen with
  | nil =>
    obtain ⟨m, rfl⟩ := Nat.exists_eq_add_of_lt h
    simp [basicText, basicBody]
  | cons c cs ih =>
    obtain ⟨m, rfl⟩ := Nat.exists_eq_add_of_lt h
    have hm : cs.length < (c :: cs).length + m := by
      rw [List.length_cons]
      omega
    have hbody : ∀ seen, basicBody ((c :: cs).length + m) (basicText false 0 seen cs ++ '"' :: rest) =
        .ok (cs, rest) := fun seen => ih hm
    by_cases hc : c = '"'
    · subst hc
      rw [basicText_cons_quote, if_neg (Nat.not_lt_zero _), List.cons_append, basicBody_escape]
      simp [escape, hbody, -List.length_cons]
    · rw [basicText_cons _ _ _ hc, List.append_assoc]
      rcases basicChar_cases false hc with ⟨body, htext, hbodyEscape⟩ | ⟨htext, hslash, hescape, hline⟩
      · rw [htext, List.cons_append, basicBody_escape, (hbodyEscape _).2, bind_ok, hbody]
        rfl
      · have hcontrol := isControl_eq_false hescape fun h => Bool.false_ne_true (hline h)
        rw [htext]
        simp [basicBody, hcontrol, hbody, -List.length_cons]

/-! ## Long strings -/

/-- Up to two quotes in front of the closing three belong to the string. -/
theorem closingQuotes_close {quote : Char} {k : Nat} (hk : k ≤ 2) (hrest : rest.head? ≠ some quote) :
    closingQuotes quote (List.replicate k quote ++ List.replicate 3 quote ++ rest) =
      .ok (some (List.replicate k quote), rest) := by
  have hstop : rest.takeWhile (· == quote) = [] := by
    cases rest with
    | nil => rfl
    | cons c rest =>
      refine List.takeWhile_cons_of_neg ?_
      rw [beq_iff_eq]
      exact fun heq => hrest (congrArg some heq)
  have hrun : (List.replicate (k + 3) quote ++ rest).takeWhile (· == quote) =
      List.replicate (k + 3) quote := by
    rw [List.takeWhile_append_of_pos, hstop, List.append_nil]
    intro c hc
    exact beq_iff_eq.mpr (List.eq_of_mem_replicate hc)
  have hinner : min 2 (k + 3 - 3) = k := by omega
  unfold closingQuotes
  rw [List.replicate_append_replicate]
  simp only [bind_apply, rest_apply, bind_ok, hrun, List.length_replicate, hinner]
  rw [if_pos (by omega)]
  simp

theorem closingQuotes_inside {quote : Char} (hrun : (cs.takeWhile (· == quote)).length ≤ 2) :
    closingQuotes quote cs = .ok (none, cs) := by
  unfold closingQuotes
  simp only [bind_apply, rest_apply, bind_ok]
  rw [if_neg (by omega)]
  rfl

/-- Either only quotes are left, two at most, or the quotes in front of it do not close a text. -/
theorem basicText_run (hseen : seen ≤ 2) (cs rest : List Char) :
    (∃ k, cs = List.replicate k '"' ∧ k + seen ≤ 2 ∧ basicText true 2 seen cs = cs) ∨
      ((basicText true 2 seen cs ++ rest).takeWhile (· == '"')).length + seen ≤ 2 := by
  induction cs generalizing seen with
  | nil => exact .inl ⟨0, rfl, by omega, rfl⟩
  | cons c cs ih =>
    by_cases hc : c = '"'
    · subst hc
      rw [basicText_cons_quote]
      split
      · rename_i hlow
        rcases ih (show seen + 1 ≤ 2 from hlow) with ⟨k, heq, hk, htext⟩ | hrun
        · exact .inl ⟨k + 1, congrArg _ heq, by omega, congrArg _ htext⟩
        · refine .inr ?_
          rw [List.cons_append, List.takeWhile_cons_of_pos (by rfl), List.length_cons]
          omega
      · exact .inr (by simpa using hseen)
    · refine .inr ?_
      rw [basicText_cons _ _ _ hc]
      rcases basicChar_cases true hc with ⟨body, htext, -⟩ | ⟨htext, -⟩
      · simpa [htext] using hseen
      · simpa [htext, hc] using hseen

theorem longBasicBody_escape (n : Nat) (hgap : cs.takeWhile isFolded = []) :
    longBasicBody (n + 1) ('\\' :: cs) = (escape cs).bind fun p =>
      (longBasicBody n p.2).map fun q => (p.1 :: q.1, q.2) := by
  have hinside : closingQuotes '"' ('\\' :: cs) = .ok (none, '\\' :: cs) :=
    closingQuotes_inside (Nat.zero_le 2)
  rw [longBasicBody, bind_apply, hinside]
  simp [hgap]

/-- What needs no escape in a long string and is no line break is no line end either. -/
theorem newline_of_needsEscape (hescape : needsEscape c = false) (hline : c ≠ '\n') (cs : List Char) :
    newline (c :: cs) = .ok (false, c :: cs) := by
  refine newline_of_head (fun h => hline (Option.some.inj h)) fun h => ?_
  obtain rfl := Option.some.inj h
  exact absurd hescape (by decide)

theorem longBasicBody_char (n : Nat) (hrun : ((c :: cs).takeWhile (· == '"')).length ≤ 2)
    (hslash : c ≠ '\\') (hescape : needsEscape c = false) :
    longBasicBody (n + 1) (c :: cs) = (longBasicBody n cs).map fun p => (c :: p.1, p.2) := by
  rw [longBasicBody, bind_apply, closingQuotes_inside hrun]
  by_cases hline : c = '\n'
  · subst hline
    simp [newline_cons]
  · simp [newline_of_needsEscape hescape hline, isControl_eq_false hescape hline]

theorem longBasicBody_basicText (hseen : seen ≤ 2) (hrest : rest.head? ≠ some '"')
    (h : cs.length < n) :
    longBasicBody n (basicText true 2 seen cs ++ (List.replicate 3 '"' ++ rest)) = .ok (cs, rest) := by
  induction cs generalizing n seen with
  | nil =>
    obtain ⟨m, rfl⟩ := Nat.exists_eq_add_of_lt h
    have hclose := closingQuotes_close (Nat.zero_le 2) hrest
    rw [List.replicate_zero, List.nil_append] at hclose
    rw [longBasicBody, bind_apply, basicText, List.nil_append, hclose]
    rfl
  | cons c cs ih =>
    obtain ⟨m, rfl⟩ := Nat.exists_eq_add_of_lt h
    have hbody : ∀ seen ≤ 2, longBasicBody ((c :: cs).length + m)
        (basicText true 2 seen cs ++ (List.replicate 3 '"' ++ rest)) = .ok (cs, rest) := by
      intro seen hseen
      refine ih hseen ?_
      rw [List.length_cons]
      omega
    rcases basicText_run hseen (c :: cs) (List.replicate 3 '"' ++ rest) with ⟨k, heq, hk, htext⟩ | hrun
    · rw [htext, heq, longBasicBody, bind_apply, ← List.append_assoc,
        closingQuotes_close (by omega) hrest]
      rfl
    by_cases hc : c = '"'
    · subst hc
      rw [basicText_cons_quote] at hrun ⊢
      split at hrun
      · rename_i hlow
        rw [if_pos hlow]
        rw [List.cons_append] at hrun ⊢
        rw [longBasicBody_char _ (by omega) (by decide) (by decide), hbody _ hlow]
        rfl
      · rename_i hfull
        have hquote : ∀ cs, escape ('"' :: cs) = .ok ('"', cs) := fun _ => rfl
        rw [if_neg hfull, List.cons_append, longBasicBody_escape _ (by rfl), List.cons_append, hquote,
          bind_ok, hbody 0 (Nat.zero_le 2)]
        rfl
    · rw [basicText_cons _ _ _ hc] at hrun ⊢
      rw [List.append_assoc] at hrun ⊢
      rcases basicChar_cases true hc with ⟨body, htext, hescape⟩ | ⟨htext, hslash, hescape, -⟩
      · rw [htext, List.cons_append, longBasicBody_escape _ (hescape _).1, (hescape _).2, bind_ok,
          hbody 0 (Nat.zero_le 2)]
        rfl
      · rw [htext] at hrun ⊢
        rw [List.singleton_append] at hrun ⊢
        rw [longBasicBody_char _ (by omega) hslash hescape, hbody 0 (Nat.zero_le 2)]
        rfl

/-! ## Apostrophes -/

/-- No more than two in a row, wherever one starts to count. -/
def FewInARow (quote : Char) (cs : List Char) : Prop :=
  ∀ tail, tail <:+ cs → (tail.takeWhile (· == quote)).length ≤ 2

theorem FewInARow.tail {quote : Char} (h : FewInARow quote (c :: cs)) : FewInARow quote cs :=
  fun tail htail => h tail (htail.trans (List.suffix_cons c cs))

/-- The longest run and the one that is counted. -/
def countRun (quote : Char) (counted : Nat × Nat) (d : Char) : Nat × Nat :=
  if d = quote then (max counted.1 (counted.2 + 1), counted.2 + 1) else (counted.1, 0)

theorem longestRun_eq (quote : Char) (cs : List Char) :
    longestRun quote cs = (cs.foldl (countRun quote) (0, 0)).1 := rfl

theorem countRun_le (quote : Char) (cs : List Char) {counted : Nat × Nat}
    (h : counted.2 ≤ counted.1) :
    (cs.foldl (countRun quote) counted).2 ≤ (cs.foldl (countRun quote) counted).1 := by
  induction cs generalizing counted with
  | nil => exact h
  | cons c cs ih =>
    refine ih ?_
    unfold countRun
    split
    · exact Nat.le_max_right _ _
    · exact Nat.zero_le _

/-- The run that is counted goes on with the quotes in front. -/
theorem run_le_countRun (quote : Char) (cs : List Char) {counted : Nat × Nat}
    (h : counted.2 ≤ counted.1) :
    max counted.1 (counted.2 + (cs.takeWhile (· == quote)).length) ≤
      (cs.foldl (countRun quote) counted).1 := by
  induction cs generalizing counted with
  | nil =>
    rw [List.takeWhile_nil, List.length_nil, Nat.add_zero]
    exact Nat.max_le.mpr ⟨Nat.le_refl _, h⟩
  | cons c cs ih =>
    rw [List.foldl_cons]
    by_cases hc : c = quote
    · have hcount : countRun quote counted c = (max counted.1 (counted.2 + 1), counted.2 + 1) :=
        if_pos hc
      have hkept : (countRun quote counted c).2 ≤ (countRun quote counted c).1 := by
        rw [hcount]
        exact Nat.le_max_right _ _
      have hlongest := ih hkept
      have htake : (c :: cs).takeWhile (· == quote) = c :: cs.takeWhile (· == quote) :=
        List.takeWhile_cons_of_pos (beq_iff_eq.mpr hc)
      rw [htake, List.length_cons]
      rw [hcount] at hlongest ⊢
      omega
    · have hcount : countRun quote counted c = (counted.1, 0) := if_neg hc
      have hkept : (countRun quote counted c).2 ≤ (countRun quote counted c).1 := by
        rw [hcount]
        exact Nat.zero_le _
      have hlongest := ih hkept
      have htake : (c :: cs).takeWhile (· == quote) = [] :=
        List.takeWhile_cons_of_neg (by rwa [beq_iff_eq])
      rw [htake, List.length_nil]
      rw [hcount] at hlongest ⊢
      omega

theorem fewInARow_of_longestRun {quote : Char} (h : longestRun quote cs ≤ 2) :
    FewInARow quote cs := by
  rintro tail ⟨front, rfl⟩
  rw [longestRun_eq, List.foldl_append] at h
  have hcounted := countRun_le quote front (Nat.le_refl (0, 0).2)
  have hrun := run_le_countRun quote tail hcounted
  omega

theorem longLiteralBody_char (n : Nat) (hrun : ((c :: cs).takeWhile (· == '\'')).length ≤ 2)
    (hescape : needsEscape c = false) :
    longLiteralBody (n + 1) (c :: cs) = (longLiteralBody n cs).map fun p => (c :: p.1, p.2) := by
  rw [longLiteralBody, bind_apply, closingQuotes_inside hrun]
  by_cases hline : c = '\n'
  · subst hline
    simp [newline_cons]
  · simp [newline_of_needsEscape hescape hline, isControl_eq_false hescape hline]

/-- A text of quotes alone runs into the closing ones, any other is told from them. -/
theorem literal_run {quote : Char} (hcs : FewInARow quote cs) (rest : List Char) :
    (∃ k ≤ 2, cs = List.replicate k quote) ∨
      ((cs ++ rest).takeWhile (· == quote)).length ≤ 2 := by
  have hfew := hcs cs (List.suffix_refl cs)
  rw [List.takeWhile_append]
  split
  · rename_i hall
    have htake : cs.takeWhile (· == quote) = cs :=
      (List.takeWhile_prefix _).eq_of_length hall
    have hquotes : cs.all (· == quote) = true := htake ▸ List.all_takeWhile
    rw [List.all_eq_true] at hquotes
    exact .inl ⟨cs.length, htake ▸ hfew,
      List.eq_replicate_iff.mpr ⟨rfl, fun c hc => beq_iff_eq.mp (hquotes c hc)⟩⟩
  · exact .inr hfew

theorem longLiteralBody_append (hcs : FewInARow '\'' cs) (hescape : ∀ c ∈ cs, needsEscape c = false)
    (hrest : rest.head? ≠ some '\'') (h : cs.length < n) :
    longLiteralBody n (cs ++ (List.replicate 3 '\'' ++ rest)) = .ok (cs, rest) := by
  induction cs generalizing n with
  | nil =>
    obtain ⟨m, rfl⟩ := Nat.exists_eq_add_of_lt h
    have hclose := closingQuotes_close (Nat.zero_le 2) hrest
    rw [List.replicate_zero, List.nil_append] at hclose
    rw [longLiteralBody, bind_apply, List.nil_append, hclose]
    rfl
  | cons c cs ih =>
    obtain ⟨m, rfl⟩ := Nat.exists_eq_add_of_lt h
    rcases literal_run hcs (List.replicate 3 '\'' ++ rest) with ⟨k, hk, heq⟩ | hrun
    · rw [heq, longLiteralBody, bind_apply, ← List.append_assoc, closingQuotes_close hk hrest]
      rfl
    · have hbody := ih (n := (c :: cs).length + m) hcs.tail
        (fun d hd => hescape d (.tail _ hd)) (by rw [List.length_cons]; omega)
      rw [List.cons_append] at hrun ⊢
      rw [longLiteralBody_char _ hrun (hescape c (.head _)), hbody]
      rfl

theorem literalBody_append (hcs : '\'' ∉ cs) (hcontrol : ∀ c ∈ cs, isControl c = false) :
    literalBody (cs ++ '\'' :: rest) = .ok (cs, rest) := by
  have hinside : ∀ c ∈ cs, (c != '\'' && !isControl c) = true := by
    intro c hc
    rw [hcontrol c hc, Bool.not_false, Bool.and_true, bne_iff_ne]
    exact fun heq => hcs (heq ▸ hc)
  have htake : (cs ++ '\'' :: rest).takeWhile (fun c => c != '\'' && !isControl c) = cs := by
    rw [List.takeWhile_append_of_pos hinside]
    simp
  have hdrop : (cs ++ '\'' :: rest).dropWhile (fun c => c != '\'' && !isControl c) = '\'' :: rest := by
    rw [List.dropWhile_append_of_pos hinside]
    simp
  unfold literalBody expect
  simp only [bind_apply, takeWhile_apply, htake, hdrop, bind_ok]
  rfl

/-! ## Strings in the quotes that were chosen -/

/-- What stands behind a string or a key is no quote. -/
def NoQuote (rest : List Char) : Prop := rest.head? ≠ some '"' ∧ rest.head? ≠ some '\''

theorem notMem_of_longestRun {quote : Char} (h : longestRun quote cs = 0) : quote ∉ cs := by
  intro hmem
  obtain ⟨front, back, rfl⟩ := List.append_of_mem hmem
  rw [longestRun_eq, List.foldl_append] at h
  have hcounted := countRun_le quote front (Nat.le_refl (0, 0).2)
  have hrun := run_le_countRun quote (quote :: back) hcounted
  have htake : (quote :: back).takeWhile (· == quote) = quote :: back.takeWhile (· == quote) :=
    List.takeWhile_cons_of_pos (beq_self_eq_true quote)
  rw [htake, List.length_cons] at hrun
  omega

theorem length_le_basicText (long : Bool) (run seen : Nat) (cs : List Char) :
    cs.length ≤ (basicText long run seen cs).length := by
  induction cs generalizing seen with
  | nil => exact Nat.zero_le _
  | cons c cs ih =>
    by_cases hc : c = '"'
    · subst hc
      rw [basicText_cons_quote]
      have hnext := ih (seen + 1)
      have hzero := ih 0
      split <;> simp only [List.length_cons] <;> omega
    · have hzero := ih 0
      rw [basicText_cons _ _ _ hc, List.length_append, List.length_cons]
      rcases basicChar_cases long hc with ⟨body, htext, -⟩ | ⟨htext, -⟩
      · rw [htext, List.length_cons]
        omega
      · rw [htext, List.length_singleton]
        omega

/-- A text in double quotes begins with no line end, unless with a line break of its own. -/
theorem newline_basicText (hline : '\n' ∉ cs) (rest : List Char) :
    newline (basicText true 2 seen cs ++ '"' :: rest) =
      .ok (false, basicText true 2 seen cs ++ '"' :: rest) := by
  cases cs with
  | nil => exact newline_of_head (by simp [basicText]) (by simp [basicText])
  | cons c cs =>
    by_cases hc : c = '"'
    · subst hc
      rw [basicText_cons_quote]
      split
      · exact newline_of_head (by simp) (by simp)
      · exact newline_of_head (by simp) (by simp)
    · rw [basicText_cons _ _ _ hc]
      rcases basicChar_cases true hc with ⟨body, htext, -⟩ | ⟨htext, -, hescape, -⟩
      · rw [htext]
        exact newline_of_head (by simp) (by simp)
      · rw [htext]
        exact newline_of_needsEscape hescape (fun heq => hline (heq ▸ .head _)) _

theorem string_longBasic (cs : List Char) (hrest : rest.head? ≠ some '"') :
    string (List.replicate 3 '"' ++ ((if cs.contains '\n' then ['\n'] else []) ++
      (basicText true 2 0 cs ++ (List.replicate 3 '"' ++ rest)))) = .ok (cs, rest) := by
  have hbody : longBasicBody
      ((basicText true 2 0 cs ++ (List.replicate 3 '"' ++ rest)).length + 1)
      (basicText true 2 0 cs ++ (List.replicate 3 '"' ++ rest)) = .ok (cs, rest) := by
    refine longBasicBody_basicText (Nat.zero_le 2) hrest ?_
    have hlength := length_le_basicText true 2 0 cs
    rw [List.length_append]
    omega
  have hopen : ∀ body, string (List.replicate 3 '"' ++ body) =
      (newline body).bind fun p => longBasicBody (p.2.length + 1) p.2 := by
    intro body
    have hquotes : accept ['"', '"', '"'] (List.replicate 3 '"' ++ body) = .ok (true, body) :=
      accept_append ['"', '"', '"'] body
    unfold string
    rw [bind_apply, hquotes]
    rfl
  rw [hopen]
  split
  · rw [List.singleton_append, newline_cons]
    exact hbody
  · rename_i hline
    have hnewline : newline (basicText true 2 0 cs ++ '"' :: '"' :: '"' :: rest) =
        .ok (false, basicText true 2 0 cs ++ '"' :: '"' :: '"' :: rest) :=
      newline_basicText (by simpa using hline) _
    rw [List.nil_append]
    exact (congrArg (fun r => Except.bind r _) hnewline).trans hbody

theorem string_longLiteral (hcs : FewInARow '\'' cs) (hescape : ∀ c ∈ cs, needsEscape c = false)
    (hrest : rest.head? ≠ some '\'') :
    string (List.replicate 3 '\'' ++ ((if cs.contains '\n' then ['\n'] else []) ++
      (cs ++ (List.replicate 3 '\'' ++ rest)))) = .ok (cs, rest) := by
  have hbody : longLiteralBody ((cs ++ (List.replicate 3 '\'' ++ rest)).length + 1)
      (cs ++ (List.replicate 3 '\'' ++ rest)) = .ok (cs, rest) := by
    refine longLiteralBody_append hcs hescape hrest ?_
    rw [List.length_append]
    omega
  have hopen : ∀ body, string (List.replicate 3 '\'' ++ body) =
      (newline body).bind fun p => longLiteralBody (p.2.length + 1) p.2 := by
    intro body
    have hother : accept ['"', '"', '"'] (List.replicate 3 '\'' ++ body) =
        .ok (false, List.replicate 3 '\'' ++ body) := rfl
    have hquotes : accept ['\'', '\'', '\''] (List.replicate 3 '\'' ++ body) = .ok (true, body) :=
      accept_append ['\'', '\'', '\''] body
    unfold string
    rw [bind_apply, hother]
    simp only [bind_ok, Bool.false_eq_true, if_false]
    rw [bind_apply, hquotes]
    rfl
  rw [hopen]
  split
  · rw [List.singleton_append, newline_cons]
    exact hbody
  · rename_i hline
    have hnewline : newline (cs ++ (List.replicate 3 '\'' ++ rest)) =
        .ok (false, cs ++ (List.replicate 3 '\'' ++ rest)) := by
      cases cs with
      | nil => exact newline_of_head (by simp) (by simp)
      | cons c cs =>
        refine newline_of_needsEscape (hescape c (.head _)) (fun heq => hline ?_) _
        simp [heq]
    rw [List.nil_append, hnewline]
    exact hbody

theorem shortString_basic (cs rest : List Char) :
    shortString ('"' :: (basicText false 0 0 cs ++ '"' :: rest)) = .ok (cs, rest) := by
  have hlength := length_le_basicText false 0 0 cs
  have hbody : basicBody ((basicText false 0 0 cs ++ '"' :: rest).length + 1)
      (basicText false 0 0 cs ++ '"' :: rest) = .ok (cs, rest) := by
    refine basicBody_basicText ?_
    rw [List.length_append]
    omega
  have hquote : accept ['"'] ('"' :: (basicText false 0 0 cs ++ '"' :: rest)) =
      .ok (true, basicText false 0 0 cs ++ '"' :: rest) := accept_append ['"'] _
  unfold shortString
  rw [bind_apply, hquote]
  exact hbody

theorem shortString_literal (hcs : '\'' ∉ cs) (hcontrol : ∀ c ∈ cs, isControl c = false) :
    shortString ('\'' :: (cs ++ '\'' :: rest)) = .ok (cs, rest) :=
  literalBody_append hcs hcontrol

/-- Three quotes at the front would open a long string. -/
theorem string_of_not_long (hdouble : accept ['"', '"', '"'] cs = .ok (false, cs))
    (hsingle : accept ['\'', '\'', '\''] cs = .ok (false, cs)) : string cs = shortString cs := by
  unfold string
  rw [bind_apply, hdouble]
  simp only [bind_ok, Bool.false_eq_true, if_false]
  rw [bind_apply, hsingle]
  rfl

theorem string_basic (cs : List Char) (hrest : rest.head? ≠ some '"') :
    string ('"' :: (basicText false 0 0 cs ++ '"' :: rest)) = .ok (cs, rest) := by
  rw [string_of_not_long ?double (by rfl), shortString_basic]
  cases cs with
  | nil =>
    cases rest with
    | nil => rfl
    | cons c rest =>
      have hc : ('"' == c) = false := beq_eq_false_iff_ne.mpr fun heq => hrest (heq ▸ rfl)
      simp [accept_apply, List.isPrefixOf, basicText, hc]
  | cons c cs =>
    by_cases hc : c = '"'
    · subst hc
      rw [basicText_cons_quote]
      rfl
    · rw [basicText_cons _ _ _ hc]
      rcases basicChar_cases false hc with ⟨body, htext, -⟩ | ⟨htext, -⟩
      · rw [htext]
        rfl
      · have hbeq : ('"' == c) = false := beq_eq_false_iff_ne.mpr fun heq => hc heq.symm
        rw [htext]
        simp [accept_apply, List.isPrefixOf, hbeq]

theorem string_literal (hne : cs ≠ []) (hcs : '\'' ∉ cs) (hcontrol : ∀ c ∈ cs, isControl c = false) :
    string ('\'' :: (cs ++ '\'' :: rest)) = .ok (cs, rest) := by
  rw [string_of_not_long (by rfl) ?single, shortString_literal hcs hcontrol]
  obtain ⟨c, cs, rfl⟩ := List.exists_cons_of_ne_nil hne
  have hc : ('\'' == c) = false := beq_eq_false_iff_ne.mpr fun heq => hcs (heq ▸ .head _)
  simp [accept_apply, List.isPrefixOf, hc]

theorem string_stringText (s : String) (hrest : NoQuote rest) :
    string (stringText s ++ rest) = .ok (s.toList, rest) := by
  have hescapes : (!s.toList.any needsEscape) = true → ∀ c ∈ s.toList, needsEscape c = false := by
    simp
  have hcontrol : ¬s.toList.contains '\n' = true → (!s.toList.any needsEscape) = true →
      ∀ c ∈ s.toList, isControl c = false := by
    intro hline hescape c hc
    refine isControl_eq_false (hescapes hescape c hc) ?_
    rintro rfl
    exact hline (List.contains_iff_mem.mpr hc)
  have hlongBasic := string_longBasic s.toList hrest.1
  have hlongLiteral : (!s.toList.any needsEscape) = true → longestRun '\'' s.toList ≤ 2 →
      string (List.replicate 3 '\'' ++ ((if s.toList.contains '\n' then ['\n'] else []) ++
        (s.toList ++ (List.replicate 3 '\'' ++ rest)))) = .ok (s.toList, rest) :=
    fun hescape hrun => string_longLiteral (fewInARow_of_longestRun hrun) (hescapes hescape) hrest.2
  have hbasic := string_basic s.toList hrest.1
  unfold stringText
  simp only [List.append_assoc, List.cons_append, List.nil_append]
  by_cases hline : s.toList.contains '\n' = true
  · -- With line breaks in it, the string is a long one.
    simp only [if_pos hline] at hlongBasic hlongLiteral ⊢
    split
    · rename_i hliteral
      rw [Bool.and_eq_true, decide_eq_true_eq] at hliteral
      simpa using hlongLiteral hliteral.1 hliteral.2
    · simpa using hlongBasic
  · simp only [if_neg hline] at hlongBasic hlongLiteral ⊢
    split
    · simpa using hbasic
    split
    · rename_i hquoted hliteral
      rw [Bool.and_eq_true, beq_iff_eq] at hliteral
      have hne : s.toList ≠ [] := by
        intro hempty
        simp [hempty, longestRun] at hquoted
      have hread : string ('\'' :: (s.toList ++ '\'' :: rest)) = .ok (s.toList, rest) :=
        string_literal hne (notMem_of_longestRun hliteral.2) (hcontrol hline hliteral.1)
      simpa using hread
    split
    · simpa using hlongBasic
    split
    · rename_i hliteral
      rw [Bool.and_eq_true, decide_eq_true_eq] at hliteral
      simpa using hlongLiteral hliteral.1 hliteral.2
    · simpa using hbasic

end TomlReader

end LuaScope
