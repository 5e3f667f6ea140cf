import LuaScope.Proofs.Call.Search
import LuaScope.Proofs.Syntax.Gap

/-!
# LuaScope.Proofs.Call.Bracket

The brackets and commas of a text are those of its tokens, apart from those inside of strings and
comments.

* `Token.signs_of_scan` — no token but a string holds a bracket or comma, unless it is one.
* `Cut.acts_eq`         — so what brackets and commas do up to a cursor can be told from the tokens.
-/

namespace LuaScope

/-! ## Characters of tokens -/

/-- No character of the text is a bracket or comma. -/
def Plain (cs : List Char) : Prop := ∀ c ∈ cs, isSign c = false

theorem Plain.nil : Plain [] := nofun

theorem Plain.cons {c : Char} {cs : List Char} (hc : isSign c = false) (hcs : Plain cs) :
    Plain (c :: cs) := List.forall_mem_cons.mpr ⟨hc, hcs⟩

theorem plain_append {xs ys : List Char} : Plain (xs ++ ys) ↔ Plain xs ∧ Plain ys :=
  List.forall_mem_append

/-- Brackets and commas are delimiters. -/
theorem not_isNameChar_of_isSign {c : Char} (h : isSign c = true) : isNameChar c = false := by
  simp only [isSign, isOpening, isClosing, Bool.or_eq_true, beq_iff_eq] at h
  rcases h with (((rfl | rfl) | rfl) | (rfl | rfl) | rfl) | rfl <;> decide

theorem not_isSign {p : Char → Bool} (hp : ∀ c, isNameChar c = false → p c = false) {c : Char}
    (h : p c = true) : isSign c = false := by
  cases hsign : isSign c with
  | false => rfl
  | true =>
    rw [hp c (not_isNameChar_of_isSign hsign)] at h
    cases h

theorem not_isSign_of_isLuaBlank {c : Char} (h : isLuaBlank c = true) : isSign c = false := by
  cases hsign : isSign c with
  | false => rfl
  | true =>
    simp only [isSign, isOpening, isClosing, Bool.or_eq_true, beq_iff_eq] at hsign
    rcases hsign with (((rfl | rfl) | rfl) | (rfl | rfl) | rfl) | rfl <;> revert h <;> decide

theorem plain_run {p : Char → Bool} (hp : ∀ c, isNameChar c = false → p c = false)
    (cs : List Char) : Plain (cs.take (runLength p cs)) := by
  rw [take_runLength]
  exact fun c hc => not_isSign hp (List.all_eq_true.mp List.all_takeWhile c hc)

theorem not_isSign_of_toLower {c d : Char} (hd : isNameChar d = true) (h : c.toLower = d) :
    isSign c = false :=
  not_isSign (p := fun c => c.toLower == d)
    (fun _ hc => beq_eq_false_iff_ne.mpr (toLower_ne_of_not_isNameChar hc hd)) (beq_iff_eq.mpr h)

/-! ### Numerals -/

theorem plain_wideSuffix (cs : List Char) : Plain (cs.take (wideSuffix cs)) := by
  unfold wideSuffix
  split
  · split
    · rename_i h
      exact .cons (not_isSign_of_toLower (by decide) h.1)
        (.cons (not_isSign_of_toLower (by decide) h.2) .nil)
    · split
      · rename_i h
        exact .cons (not_isSign_of_toLower (by decide) h.1)
          (.cons (not_isSign_of_toLower (by decide) h.2.1)
            (.cons (not_isSign_of_toLower (by decide) h.2.2) .nil))
      · exact .nil
  · split
    · rename_i h
      exact .cons (not_isSign_of_toLower (by decide) h.1)
        (.cons (not_isSign_of_toLower (by decide) h.2) .nil)
    · exact .nil
  · exact .nil

theorem plain_imaginarySuffix (cs : List Char) : Plain (cs.take (imaginarySuffix cs)) := by
  unfold imaginarySuffix
  split
  · split
    · rename_i h
      refine .cons ?_ .nil
      rcases h with rfl | rfl <;> decide
    · exact .nil
  · exact .nil

theorem plain_exponentLength {mark : Char} (hmark : isNameChar mark = true) (cs : List Char) :
    Plain (cs.take (exponentLength mark cs)) := by
  have hdigits := plain_run (p := Char.isDigit) fun _ => isDigit_of_not_isNameChar
  unfold exponentLength
  split
  · rename_i c rest
    split
    · rename_i hc
      have hfirst := not_isSign_of_toLower hmark hc
      split
      · rename_i s ds
        split
        · rename_i hs
          dsimp only
          split
          · exact .nil
          · refine .cons hfirst (.cons ?_ (hdigits ds))
            rcases hs with rfl | rfl <;> decide
        · dsimp only
          split
          · exact .nil
          · exact .cons hfirst (hdigits (s :: ds))
      · exact .nil
    · exact .nil
  · exact .nil

theorem plain_mantissaLength {digit : Char → Bool}
    (hdigit : ∀ c, isNameChar c = false → digit c = false) (cs : List Char) :
    Plain (cs.take (mantissaLength digit cs)) := by
  have hwhole := plain_run hdigit cs
  unfold mantissaLength
  dsimp only
  split
  · rename_i rest hrest
    split
    · exact .nil
    · rw [Nat.add_assoc, List.take_add, hrest, Nat.add_comm 1]
      exact plain_append.mpr ⟨hwhole, .cons (by decide) (plain_run hdigit rest)⟩
  · exact hwhole

theorem plain_basedLength {digit : Char → Bool} {mark : Char}
    (hdigit : ∀ c, isNameChar c = false → digit c = false) (hmark : isNameChar mark = true)
    (cs : List Char) : Plain (cs.take (basedLength digit mark cs)) := by
  unfold basedLength
  dsimp only
  split
  · rw [List.take_add]
    exact plain_append.mpr ⟨plain_run hdigit cs, plain_wideSuffix _⟩
  · split
    · exact .nil
    · rw [List.take_add, List.take_add]
      exact plain_append.mpr ⟨plain_append.mpr ⟨plain_mantissaLength hdigit cs,
        plain_exponentLength hmark _⟩, plain_imaginarySuffix _⟩

theorem plain_binaryLength (cs : List Char) : Plain (cs.take (binaryLength cs)) := by
  have hdigits := plain_run (p := fun c => c = '0' ∨ c = '1')
    (fun c hc => decide_eq_false fun h => by rcases h with rfl | rfl <;> exact absurd hc (by decide))
    cs
  unfold binaryLength
  dsimp only
  split
  · exact .nil
  · split
    · rw [List.take_add]
      exact plain_append.mpr ⟨hdigits, plain_wideSuffix _⟩
    · rw [List.take_add]
      exact plain_append.mpr ⟨hdigits, plain_imaginarySuffix _⟩

theorem plain_numberLength (cs : List Char) : Plain (cs.take (numberLength cs)) := by
  have hdecimal : ∀ cs : List Char, Plain (cs.take (basedLength Char.isDigit 'e' cs)) :=
    plain_basedLength (fun _ => isDigit_of_not_isNameChar) (by decide)
  unfold numberLength
  dsimp only
  split
  · rename_i b rest
    generalize hbased : (if b = 'x' ∨ b = 'X' then basedLength isHexDigit 'p' rest
      else if b = 'b' ∨ b = 'B' then binaryLength rest else 0) = based
    have hmarked : based = 0 ∨ Plain (b :: rest.take based) := by
      rw [← hbased]
      split
      · rename_i hb
        refine .inr (.cons ?_ ?_)
        · rcases hb with rfl | rfl <;> decide
        · exact plain_basedLength (fun _ => isHexDigit_of_not_isNameChar) (by decide) rest
      · split
        · rename_i hb
          refine .inr (.cons ?_ (plain_binaryLength rest))
          rcases hb with rfl | rfl <;> decide
        · exact .inl rfl
    split
    · exact hdecimal _
    · rename_i hpos
      exact .cons (by decide) (hmarked.resolve_left hpos)
  · exact hdecimal cs

/-! ### Tokens -/

/-- The bracket or comma that the token is. -/
def Token.sign? : Token → Option Char
  | .mark .leftParen => some '('
  | .mark .rightParen => some ')'
  | .mark .leftBracket => some '['
  | .mark .rightBracket => some ']'
  | .mark .leftBrace => some '{'
  | .mark .rightBrace => some '}'
  | .mark .comma => some ','
  | _ => none

theorem Mark.signs_of_scan {cs : List Char} {m : Mark} {n : Nat}
    (h : Mark.scan cs = some (m, n)) :
    (∃ c, (Token.mark m).sign? = some c ∧ cs.take n = [c]) ∨
      (Token.mark m).sign? = none ∧ Plain (cs.take n) := by
  unfold Mark.scan at h
  split at h
  case h_34 => cases h
  case h_26 | h_27 | h_28 | h_29 | h_30 | h_31 | h_33 =>
    cases h
    exact .inl ⟨_, rfl, rfl⟩
  all_goals
    cases h
    refine .inr ⟨rfl, ?_⟩
    simp [Plain, isSign, isOpening, isClosing]

/-- A token that is no string is a bracket or comma, or it holds none. -/
theorem Token.signs_of_scan {cs : List Char} {t : Token} {n : Nat}
    (h : Token.scan cs = some (.token t, n)) (ht : ∀ content, t ≠ .literal content) :
    (∃ c, t.sign? = some c ∧ cs.take n = [c]) ∨ t.sign? = none ∧ Plain (cs.take n) := by
  cases cs with
  | nil => cases h
  | cons c cs =>
    cases hname : isNameStart c with
    | true =>
      have hplain := plain_run (p := isNameChar) (fun _ h => h) (c :: cs)
      unfold Token.scan at h
      simp only [hname, if_true] at h
      split at h
      all_goals
        obtain ⟨heq, rfl⟩ := Prod.mk.inj (Option.some.inj h)
        cases heq
        exact .inr ⟨rfl, hplain⟩
    | false =>
      by_cases hnone : numberLength (c :: cs) = 0
      · by_cases hquote : c = '\x22' ∨ c = '\x27'
        · unfold Token.scan at h
          simp only [hname, hnone, hquote, ne_eq, not_true_eq_false, Bool.false_eq_true, if_false,
            if_true] at h
          split at h
          · obtain ⟨heq, -⟩ := Prod.mk.inj (Option.some.inj h)
            cases heq
            exact absurd rfl (ht _)
          · cases h
        · rw [Token.scan_cons hname hquote hnone] at h
          split at h
          · obtain ⟨n, -, heq⟩ := Option.map_eq_some_iff.mp h
            cases heq
          · split at h
            · split at h
              · obtain ⟨heq, -⟩ := Prod.mk.inj (Option.some.inj h)
                cases heq
                exact absurd rfl (ht _)
              · cases h
            · obtain ⟨⟨m, n⟩, hmark, heq⟩ := Option.map_eq_some_iff.mp h
              cases heq
              exact Mark.signs_of_scan hmark
      · have hplain := plain_numberLength (c :: cs)
        unfold Token.scan at h
        simp only [hname, hnone, ne_eq, not_false_eq_true, Bool.false_eq_true, if_false,
          if_true] at h
        obtain ⟨heq, rfl⟩ := Prod.mk.inj (Option.some.inj h)
        cases heq
        exact .inr ⟨rfl, hplain⟩

/-- A bracket or comma is its token's text. -/
theorem Token.word_of_sign {cs : List Char} {t : Token} {c : Char} {n : Nat}
    (h : Token.scan cs = some (.token t, n)) (ht : t.sign? = some c) : cs.take n = [c] := by
  have hliteral : ∀ content, t ≠ .literal content := by
    rintro content rfl
    cases ht
  rcases Token.signs_of_scan h hliteral with ⟨d, hsign, hword⟩ | ⟨hsign, -⟩
  · rw [hword, ← Option.some.inj (ht.symm.trans hsign)]
  · cases ht.symm.trans hsign

/-- In front of the last character of such a token there is none. -/
theorem Token.plain_of_scan {cs passed more : List Char} {c : Char} {t : Token} {n : Nat}
    (h : Token.scan cs = some (.token t, n)) (ht : ∀ content, t ≠ .literal content)
    (hword : cs.take n = passed ++ c :: more) : Plain passed := by
  rcases Token.signs_of_scan h ht with ⟨d, -, hsingle⟩ | ⟨-, hplain⟩
  · rw [hsingle] at hword
    cases passed with
    | nil => exact .nil
    | cons x xs =>
      have hlength := congrArg List.length hword
      simp at hlength
  · rw [hword] at hplain
    exact (plain_append.mp hplain).1

/-! ## Text up to a cursor -/

/-- The part of a text at a span; no more than there is of it. -/
def stretch (text : List Char) (s : Span) : List Char :=
  takeBytes (dropBytes text s.start) (s.stop - s.start)

theorem stretch_append {front word rest : List Char} {s : Span} (hstart : s.start = byteLength front)
    (hstop : s.stop = byteLength front + byteLength word) :
    stretch (front ++ (word ++ rest)) s = word := by
  rw [stretch, hstart, hstop, slice_append]

/-- A span that ends behind the text holds all of it from its start on. -/
theorem stretch_of_le {front word : List Char} {s : Span} (hstart : s.start = byteLength front)
    (hstop : byteLength front + byteLength word ≤ s.stop) :
    stretch (front ++ word) s = word := by
  rw [stretch, hstart, dropBytes_append, takeBytes_of_le (by omega)]

/-- What the scanner does not look into: comments, and the token if it is a string. -/
def Lexeme.verbatim (l : Lexeme) : List Span :=
  l.comments.map Comment.span ++ match l.token with
    | .literal _ => [l.span]
    | _ => []

/-- The brackets and commas among the tokens. -/
def signs (ls : List Lexeme) : List Char := ls.filterMap fun l => l.token.sign?

theorem signs_cons (l : Lexeme) (ls : List Lexeme) :
    signs (l :: ls) = l.token.sign?.toList ++ signs ls := by
  rw [signs, List.filterMap_cons]
  cases l.token.sign? <;> rfl

theorem signs_append (xs ys : List Lexeme) : signs (xs ++ ys) = signs xs ++ signs ys :=
  List.filterMap_append

namespace Cut

variable {offset : Nat} {opening : Bool} {comments : List Comment} {cs : List Char} {l : Lexeme}
  {ls : List Lexeme}

/-- The comments read so far go to the next token. -/
theorem comments_prefix (h : Cut offset opening comments cs (l :: ls)) :
    comments <+: l.comments := by
  generalize hall : l :: ls = all at h
  induction h with
  | done => cases hall
  | blank _ _ ih => exact ih hall
  | comment _ _ _ ih => exact (List.prefix_append _ _).trans (ih hall)
  | token _ _ _ _ =>
    cases hall
    exact List.prefix_refl _

/-- No token ends within the first character. -/
theorem lt_stop {c : Char} {o : Nat} (h : Cut offset opening comments (c :: cs) ls)
    (ho : o < offset + c.utf8Size) : ∀ l ∈ ls, o < l.span.stop := by
  cases ls with
  | nil => nofun
  | cons l ls =>
    obtain ⟨gap, found, n, -, hcs, hscan, hspan, hrest⟩ := h.uncons
    have hfirst : o < l.span.stop := by
      have hhead : ∃ rest, gap ++ found.take n = c :: rest := by
        obtain ⟨k, rfl⟩ : ∃ k, n = k + 1 := ⟨n - 1, by have := scanAt_pos hscan; omega⟩
        cases gap with
        | nil =>
          rw [List.nil_append] at hcs ⊢
          exact ⟨cs.take k, by rw [← hcs]; rfl⟩
        | cons d gap =>
          obtain ⟨rfl, -⟩ := List.cons.inj hcs
          exact ⟨_, rfl⟩
      obtain ⟨rest, hhead⟩ := hhead
      rw [hspan, hhead, byteLength_cons]
      dsimp only
      omega
    refine List.forall_mem_cons.mpr ⟨hfirst, fun l' hl' => ?_⟩
    have hbounds := hrest.apart.2 l' hl'
    omega

/-- No token ends in front of the cursor. -/
theorem takeWhile_stop {o : Nat} (h : ∀ l ∈ ls, o < l.span.stop) :
    (ls.takeWhile fun l => l.span.stop ≤ o) = [] := by
  cases ls with
  | nil => rfl
  | cons l ls => simp [h l List.mem_cons_self]

end Cut

/-- The cursor stands behind `passed`, in front of the character that `o` lies in. -/
structure CursorAt (offset : Nat) (passed ahead : List Char) (o : Nat) : Prop where
  le : offset + byteLength passed ≤ o
  lt : ∀ c ∈ ahead.head?, o < offset + byteLength passed + c.utf8Size

/-- The cursor stands behind a word or within it. -/
theorem word_split {word rest passed ahead : List Char} (h : word ++ rest = passed ++ ahead) :
    (∃ more, passed = word ++ more ∧ rest = more ++ ahead) ∨
      ∃ c more, word = passed ++ c :: more ∧ ahead = c :: more ++ rest := by
  rcases List.append_eq_append_iff.mp h with ⟨more, rfl, rfl⟩ | ⟨more, rfl, rfl⟩
  · exact .inl ⟨more, rfl, rfl⟩
  · cases more with
    | nil => exact .inl ⟨[], by simp, by simp⟩
    | cons c more => exact .inr ⟨c, more, rfl, rfl⟩

namespace CursorAt

variable {offset o : Nat} {word more passed ahead : List Char}

/-- The cursor stands behind a word at the front. -/
theorem behind (h : CursorAt offset (word ++ more) ahead o) :
    CursorAt (offset + byteLength word) more ahead o := by
  obtain ⟨hle, hlt⟩ := h
  rw [byteLength_append, ← Nat.add_assoc] at hle hlt
  exact ⟨hle, hlt⟩

/-- The cursor stands within a word at the front. -/
theorem within {c : Char} {rest : List Char} (h : CursorAt offset passed (c :: more ++ rest) o) :
    o < offset + byteLength (passed ++ c :: more) := by
  have hlt := h.lt c rfl
  rw [byteLength_append, byteLength_cons]
  omega

end CursorAt

/-! ## Strings and comments -/

/-- What the scanner does not look into, from `offset` to the end of the text, has the property; what
the text holds of it counts. -/
def Verbatim (p : List Char → Prop) (text : List Char) (offset : Nat) (ls : List Lexeme) : Prop :=
  ∀ l ∈ ls, ∀ s ∈ l.verbatim, offset ≤ s.start → s.start < byteLength text → p (stretch text s)

/-- Brackets within each string and each comment close each other. -/
def Sealed : List Char → Nat → List Lexeme → Prop := Verbatim fun word => openBehind 0 word = some 0

/-- No string and no comment holds a comma outside of brackets. -/
def Hushed : List Char → Nat → List Lexeme → Prop := Verbatim fun word => looseCommas 0 word = 0

instance (p : List Char → Prop) [DecidablePred p] (text : List Char) (offset : Nat)
    (ls : List Lexeme) : Decidable (Verbatim p text offset ls) :=
  inferInstanceAs (Decidable (∀ l ∈ ls, ∀ s ∈ l.verbatim, _ → _ → _))

instance (text : List Char) (offset : Nat) (ls : List Lexeme) : Decidable (Sealed text offset ls) :=
  inferInstanceAs (Decidable (Verbatim (fun word => openBehind 0 word = some 0) text offset ls))

instance (text : List Char) (offset : Nat) (ls : List Lexeme) : Decidable (Hushed text offset ls) :=
  inferInstanceAs (Decidable (Verbatim (fun word => looseCommas 0 word = 0) text offset ls))

namespace Verbatim

variable {p q : List Char → Prop} {text front word rest passed : List Char} {offset offset' : Nat}
  {ls ls' : List Lexeme} {l : Lexeme} {s : Span}

theorem of_suffix (h : Verbatim p text offset ls) (hls : ls' <:+ ls) (hle : offset ≤ offset') :
    Verbatim p text offset' ls' :=
  fun l hl s hs hstart => h l (hls.subset hl) s hs (Nat.le_trans hle hstart)

theorem imp (h : Verbatim p text offset ls) (hpq : ∀ word, p word → q word) :
    Verbatim q text offset ls :=
  fun l hl s hs hstart hin => hpq _ (h l hl s hs hstart hin)

theorem and (h : Verbatim p text offset ls) (h' : Verbatim q text offset ls) :
    Verbatim (fun word => p word ∧ q word) text offset ls :=
  fun l hl s hs hstart hin => ⟨h l hl s hs hstart hin, h' l hl s hs hstart hin⟩

theorem of_word (h : Verbatim p (front ++ (word ++ rest)) (byteLength front) ls) (hnil : p [])
    (hl : l ∈ ls) (hs : s ∈ l.verbatim) (hstart : s.start = byteLength front)
    (hstop : s.stop = byteLength front + byteLength word) : p word := by
  by_cases hempty : word = []
  · rwa [hempty]
  · have hpos := mt byteLength_eq_zero.mp hempty
    have hword := h l hl s hs (Nat.le_of_eq hstart.symm) (by
      rw [hstart, byteLength_append, byteLength_append]
      omega)
    rwa [stretch_append hstart hstop] at hword

/-- The text holds a part only. -/
theorem of_part (h : Verbatim p (front ++ passed) (byteLength front) ls) (hnil : p [])
    (hl : l ∈ ls) (hs : s ∈ l.verbatim) (hstart : s.start = byteLength front)
    (hstop : byteLength front + byteLength passed ≤ s.stop) : p passed := by
  by_cases hempty : passed = []
  · rwa [hempty]
  · have hpos := mt byteLength_eq_zero.mp hempty
    have hpart := h l hl s hs (Nat.le_of_eq hstart.symm) (by
      rw [hstart, byteLength_append]
      omega)
    rwa [stretch_of_le hstart hstop] at hpart

end Verbatim

section Acts

variable {σ : Type} {f : σ → List Char → Option σ}

/-- A text changes the state piece by piece, and by its brackets and commas only. -/
structure Acts (f : σ → List Char → Option σ) : Prop where
  append : ∀ s xs ys, f s (xs ++ ys) = (f s xs).bind fun s' => f s' ys
  plain : ∀ {xs}, Plain xs → ∀ s, f s xs = some s

/-- The text leaves every state as it is. -/
def Inert (f : σ → List Char → Option σ) (word : List Char) : Prop := ∀ s, f s word = some s

theorem acts_openBehind : Acts openBehind := ⟨openBehind_append, fun h _ => openBehind_of_plain h⟩

theorem acts_tally : Acts tally := by
  refine ⟨tally_append, fun h s => ?_⟩
  rw [tally_eq (openBehind_of_plain h), looseCommas_of_plain h, Nat.add_zero]

theorem inert_openBehind {word : List Char} (h : openBehind 0 word = some 0) :
    Inert openBehind word := fun depth => by simpa using openBehind_add h depth

theorem inert_tally {word : List Char} (h : openBehind 0 word = some 0)
    (hcommas : looseCommas 0 word = 0) : Inert tally word := by
  rintro ⟨depth, commas⟩
  rw [tally_eq (inert_openBehind h depth)]
  cases depth with
  | zero => rw [hcommas, Nat.add_zero]
  | succ depth =>
    rw [looseCommas_succ (inert_openBehind h depth)]
    rfl

theorem Acts.inert_nil (hf : Acts f) : Inert f [] := hf.plain .nil

theorem Acts.of_scan (hf : Acts f) {cs : List Char} {t : Token} {n : Nat}
    (h : Token.scan cs = some (.token t, n)) (ht : ∀ content, t ≠ .literal content) (s : σ) :
    f s (cs.take n) = f s t.sign?.toList := by
  rcases Token.signs_of_scan h ht with ⟨c, hsign, hword⟩ | ⟨hsign, hplain⟩
  · rw [hword, hsign]
    rfl
  · rw [hf.plain hplain, hsign]
    exact (hf.inert_nil s).symm

/-! ## Text up to a cursor -/

/-- A cursor at `o` stands behind `front`, which goes up to `offset`, and `passed`, in front of the
end of one of the tokens. Behind it the text goes on with `more`, but only if the cursor stands in
front of a token. -/
structure Stance (f : σ → List Char → Option σ) (offset : Nat) (ls : List Lexeme)
    (front passed ahead more : List Char) (o : Nat) : Prop where
  start : byteLength front = offset
  cursor : CursorAt offset passed ahead o
  ends : ∃ l ∈ ls, o < l.span.stop
  inert : Verbatim (Inert f) (front ++ (passed ++ more)) offset ls
  goesOn : more = [] ∨ ∃ next ∈ ls, next.span.start = o

variable {offset o : Nat} {opening : Bool} {comments : List Comment} {c : Char}
  {cs front word passed ahead more : List Char} {t : Token} {n : Nat} {l : Lexeme}
  {ls ls' : List Lexeme}

/-- From behind a word at the front the cursor is seen as before. -/
theorem Stance.behind (h : Stance f offset ls front (word ++ passed) ahead more o)
    (hls : ls' <:+ ls) (hends : ∃ l ∈ ls', o < l.span.stop)
    (hmore : more = [] ∨ ∃ next ∈ ls', next.span.start = o) :
    Stance f (offset + byteLength word) ls' (front ++ word) passed ahead more o where
  start := by rw [byteLength_append, h.start]
  cursor := h.cursor.behind
  ends := hends
  inert := by
    have hinert := h.inert.of_suffix hls (Nat.le_add_right offset (byteLength word))
    rwa [List.append_assoc, ← List.append_assoc] at hinert ⊢
  goesOn := hmore

/-- A token in front of the cursor neither ends behind it nor starts there. -/
theorem Stance.behind_token (hpos : 0 < byteLength word)
    (h : Stance f offset (⟨t, ⟨offset, offset + byteLength word⟩, comments⟩ :: ls) front
      (word ++ passed) ahead more o) :
    Stance f (offset + byteLength word) ls (front ++ word) passed ahead more o := by
  have hle := h.cursor.le
  rw [byteLength_append, ← Nat.add_assoc] at hle
  refine h.behind (List.suffix_cons _ _) ?_ (h.goesOn.imp_right ?_)
  · obtain ⟨l, hl, hstop⟩ := h.ends
    refine ⟨l, (List.mem_cons.mp hl).resolve_left fun heq => ?_, hstop⟩
    rw [heq] at hstop
    dsimp only at hstop
    omega
  · rintro ⟨next, hnext, hstart⟩
    refine ⟨next, (List.mem_cons.mp hnext).resolve_left fun heq => ?_, hstart⟩
    rw [heq] at hstart
    dsimp only at hstart
    omega

namespace Cut

/-- The comment read last goes to the next token. -/
theorem exists_comment {x : Comment} (h : Cut offset opening (comments ++ [x]) cs ls)
    (hls : ls ≠ []) : ∃ l ∈ ls, x.span ∈ l.verbatim := by
  obtain ⟨first, others, rfl⟩ := List.exists_cons_of_ne_nil hls
  refine ⟨first, List.mem_cons_self, List.mem_append_left _ (List.mem_map.mpr ⟨x, ?_, rfl⟩)⟩
  exact h.comments_prefix.subset (List.mem_append_right _ List.mem_cons_self)

/-- A comment that the cursor stands in, up to the cursor. -/
theorem acts_within_comment (hf : Acts f) {rest : List Char} (hword : word = passed ++ c :: cs)
    (h : Stance f offset ls front passed (c :: cs ++ ahead) more o)
    (hrest : Cut (offset + byteLength word) opening
      (comments ++ [⟨word, ⟨offset, offset + byteLength word⟩⟩]) rest ls) (s : σ) :
    f s passed = f s (signs (ls.takeWhile fun l => l.span.stop ≤ o)) := by
  have hlt := h.cursor.within
  rw [← hword] at hlt
  have hbehind : ∀ l ∈ ls, o < l.span.start := fun l hl =>
    Nat.lt_of_lt_of_le hlt (hrest.apart.2 l hl).1
  have hmore : more = [] := by
    refine h.goesOn.resolve_right ?_
    rintro ⟨next, hnext, heq⟩
    exact Nat.ne_of_gt (hbehind next hnext) heq
  obtain ⟨l, hl, -⟩ := h.ends
  obtain ⟨l, hl, hcomment⟩ := hrest.exists_comment (List.ne_nil_of_mem hl)
  have hpart : Inert f passed := by
    have hinert := h.inert
    rw [hmore, List.append_nil, ← h.start] at hinert
    refine hinert.of_part hf.inert_nil hl hcomment h.start.symm ?_
    rw [hword, byteLength_append, h.start]
    dsimp only
    omega
  rw [takeWhile_stop fun l hl => Nat.lt_of_lt_of_le (hbehind l hl) (hrest.apart.2 l hl).2.1]
  exact (hpart s).trans (hf.inert_nil s).symm

/-- A token that the cursor stands in front of or in, up to the cursor. -/
theorem acts_within_token (hf : Acts f) {rest : List Char} (hword : word = passed ++ c :: cs)
    (hscan : Token.scan (word ++ rest) = some (.token t, n)) (htake : (word ++ rest).take n = word)
    (h : Stance f offset (⟨t, ⟨offset, offset + byteLength word⟩, comments⟩ :: ls) front passed
      (c :: cs ++ ahead) more o)
    (hrest : Cut (offset + byteLength word) false [] rest ls) (s : σ) :
    f s passed = f s (signs ((⟨t, ⟨offset, offset + byteLength word⟩, comments⟩ :: ls :
      List Lexeme).takeWhile fun l => l.span.stop ≤ o)) := by
  have hlt := h.cursor.within
  rw [← hword] at hlt
  have hpart : Inert f passed := by
    by_cases ht : ∃ content, t = .literal content
    · obtain ⟨content, rfl⟩ := ht
      rcases h.goesOn with rfl | ⟨next, hnext, heq⟩
      · have hinert := h.inert
        rw [List.append_nil, ← h.start] at hinert
        refine hinert.of_part hf.inert_nil List.mem_cons_self
          (List.mem_append_right _ List.mem_cons_self) rfl ?_
        rw [hword, byteLength_append]
        dsimp only
        omega
      · -- The next token starts within this one, so it is this one.
        have hempty : byteLength passed = 0 := by
          have hle := h.cursor.le
          rcases List.mem_cons.mp hnext with rfl | hnext
          · dsimp only at heq
            omega
          · have hstart := (hrest.apart.2 next hnext).1
            omega
        rw [byteLength_eq_zero.mp hempty]
        exact hf.inert_nil
    · exact hf.plain (Token.plain_of_scan hscan (fun content h => ht ⟨content, h⟩)
        (htake.trans hword))
  rw [List.takeWhile_cons, if_neg (by simpa using hlt)]
  exact (hpart s).trans (hf.inert_nil s).symm

/-- The text up to a cursor does what the brackets and commas do that are tokens in front of it, if
strings and comments do nothing. -/
theorem acts_eq (hf : Acts f) (h : Cut offset opening comments cs ls) : opening = false →
    ∀ {front passed ahead more : List Char} {o : Nat}, cs = passed ++ ahead →
    Stance f offset ls front passed ahead more o →
    ∀ s, f s passed = f s (signs (ls.takeWhile fun l => l.span.stop ≤ o)) := by
  induction h with
  | done =>
    intro _ _ _ _ _ _ _ hstance
    obtain ⟨_, hl, _⟩ := hstance.ends
    cases hl
  | @blank offset _ comments c cs ls hblank hrest ih =>
    intro hopening front passed ahead more o hcs hstance s
    have hcs : [c] ++ cs = passed ++ ahead := hcs
    rcases word_split hcs with ⟨rest, rfl, hrest'⟩ | ⟨d, rest, hword, rfl⟩
    · rw [hf.append, hf.plain (.cons (not_isSign_of_isLuaBlank hblank) .nil), Option.bind_some]
      have hbehind := hstance.behind (List.suffix_refl _) hstance.ends hstance.goesOn
      rw [byteLength_cons, byteLength_nil, Nat.add_zero] at hbehind
      exact ih hopening hrest' hbehind s
    · obtain rfl : passed = [] := by
        cases passed with
        | nil => rfl
        | cons x xs =>
          rw [List.cons_append] at hword
          simpa using (List.cons.inj hword).2
      have hlt := hstance.cursor.within
      rw [← hword] at hlt
      rw [takeWhile_stop ((Cut.blank hblank hrest).lt_stop (by simpa using hlt))]
      rfl
  | @comment offset _ comments c cs ls n hblank hscan hrest ih =>
    intro hopening front passed ahead more o hcs hstance s
    rw [← List.take_append_drop n (c :: cs)] at hcs
    rcases word_split hcs with ⟨rest, rfl, hrest'⟩ | ⟨d, rest, hword, rfl⟩
    · obtain ⟨l, hl, -⟩ := hstance.ends
      obtain ⟨l, hl, hcomment⟩ := hrest.exists_comment (List.ne_nil_of_mem hl)
      have hword : Inert f ((c :: cs).take n) := by
        have hinert := hstance.inert
        rw [List.append_assoc, ← hstance.start] at hinert
        exact hinert.of_word hf.inert_nil hl hcomment hstance.start.symm
          (congrArg (· + _) hstance.start.symm)
      rw [hf.append, hword, Option.bind_some]
      exact ih hopening hrest' (hstance.behind (List.suffix_refl _) hstance.ends hstance.goesOn) s
    · exact acts_within_comment hf hword hstance hrest s
  | @token offset _ comments c cs ls t n hblank hscan hrest ih =>
    intro hopening front passed ahead more o hcs hstance s
    subst hopening
    have hscan : Token.scan (c :: cs) = some (.token t, n) := by simpa [scanAt] using hscan
    have hpos : 0 < byteLength ((c :: cs).take n) :=
      byteLength_take_pos (Token.scan_pos hscan) (List.cons_ne_nil c cs)
    have htake := List.take_append_drop n (c :: cs)
    rw [← htake] at hcs
    rcases word_split hcs with ⟨rest, rfl, hrest'⟩ | ⟨d, rest, hword, rfl⟩
    · have hword : f s ((c :: cs).take n) = f s t.sign?.toList := by
        by_cases ht : ∃ content, t = .literal content
        · obtain ⟨content, rfl⟩ := ht
          have hinert := hstance.inert
          rw [List.append_assoc, ← hstance.start] at hinert
          exact (hinert.of_word hf.inert_nil List.mem_cons_self
            (List.mem_append_right _ List.mem_cons_self) rfl rfl s).trans (hf.inert_nil s).symm
        · exact hf.of_scan hscan (fun content h => ht ⟨content, h⟩) s
      have hle := hstance.cursor.le
      rw [byteLength_append, ← Nat.add_assoc] at hle
      rw [List.takeWhile_cons, if_pos (by simpa using Nat.le_trans (Nat.le_add_right _ _) hle),
        signs_cons, hf.append, hf.append, hword]
      congr 1
      funext s'
      exact ih rfl hrest' (hstance.behind_token hpos) s'
    · exact acts_within_token hf hword (htake.symm ▸ hscan) (by rw [htake]) hstance hrest s

end Cut

end Acts

end LuaScope
