import LuaScope.Proofs.Syntax.Scan

/-!
# LuaScope.Proofs.Syntax.Cut

How a text is cut into blanks, comments and tokens, piece by piece.

* `Cut`                              — a text as its pieces, one behind the other.
* `Cut.scanFrom`, `Cut.of_scanFrom` — the scanner cuts a text so, and in no other way.
* `Cut.names`                        — where the names of a text stand.
-/

namespace LuaScope

/-! ## Pieces of a text -/

/-- What stands at the front of a text in which no token was read yet, or one was. -/
def scanAt (opening : Bool) : List Char → Option (Scanned × Nat)
  | [] => none
  | c :: cs =>
    if opening && c = '#' then some (.token .shebang, runLength (· != '\n') (c :: cs))
    else Token.scan (c :: cs)

theorem Mark.scan_pos {cs : List Char} {m : Mark} {n : Nat} (h : Mark.scan cs = some (m, n)) :
    0 < n := by
  unfold Mark.scan at h
  split at h
  case h_34 => cases h
  all_goals
    cases h
    decide

/-- Every token and comment takes a character. -/
theorem Token.scan_pos {cs : List Char} {x : Scanned} {n : Nat} (h : Token.scan cs = some (x, n)) :
    0 < n := by
  cases cs with
  | nil => cases h
  | cons c cs =>
    cases hname : isNameStart c with
    | true =>
      have hchar : isNameChar c = true := (Bool.and_eq_true_iff.mp hname).1
      have hrun : 0 < runLength isNameChar (c :: cs) := by simp [runLength_cons, hchar]
      unfold Token.scan at h
      simp only [hname, if_true] at h
      split at h <;> obtain ⟨-, rfl⟩ := Prod.mk.inj (Option.some.inj h) <;> exact hrun
    | false =>
      by_cases hnone : numberLength (c :: cs) = 0
      · by_cases hquote : c = '\x22' ∨ c = '\x27'
        · unfold Token.scan at h
          simp only [hname, hnone, hquote, ne_eq, not_true_eq_false, Bool.false_eq_true, if_false,
            if_true] at h
          split at h
          · obtain ⟨-, rfl⟩ := Prod.mk.inj (Option.some.inj h)
            exact Nat.succ_pos _
          · cases h
        · rw [Token.scan_cons hname hquote hnone] at h
          split at h
          · obtain ⟨n, -, heq⟩ := Option.map_eq_some_iff.mp h
            obtain ⟨-, rfl⟩ := Prod.mk.inj heq
            exact Nat.succ_pos _
          · split at h
            · split at h
              · rename_i hbracket
                obtain ⟨-, rfl⟩ := Prod.mk.inj (Option.some.inj h)
                unfold longBracket at hbracket
                split at hbracket
                · cases hbracket
                  omega
                · cases hbracket
              · cases h
            · obtain ⟨⟨m, n⟩, hmark, heq⟩ := Option.map_eq_some_iff.mp h
              obtain ⟨-, rfl⟩ := Prod.mk.inj heq
              exact Mark.scan_pos hmark
      · unfold Token.scan at h
        simp only [hname, hnone, ne_eq, not_false_eq_true, Bool.false_eq_true, if_false,
          if_true] at h
        obtain ⟨-, rfl⟩ := Prod.mk.inj (Option.some.inj h)
        omega

theorem scanAt_pos {opening : Bool} {cs : List Char} {x : Scanned} {n : Nat}
    (h : scanAt opening cs = some (x, n)) : 0 < n := by
  cases cs with
  | nil => cases h
  | cons c cs =>
    simp only [scanAt] at h
    split at h
    · rename_i hshebang
      obtain ⟨-, rfl⟩ := Prod.mk.inj (Option.some.inj h)
      have hc : (c != '\n') = true := by
        simp only [Bool.and_eq_true, decide_eq_true_eq] at hshebang
        rw [hshebang.2]
        decide
      simp [runLength_cons, hc]
    · exact Token.scan_pos h

theorem scanAt_append {opening : Bool} {word ys zs : List Char} {x : Scanned} (hword : word ≠ [])
    (halike : Alike ys zs)
    (hnumber : x = .token .number → ∀ c, ys.head? = some c → isNameChar c = false)
    (h : scanAt opening (word ++ ys) = some (x, word.length)) :
    scanAt opening (word ++ zs) = some (x, word.length) := by
  obtain ⟨c, rest, rfl⟩ := List.exists_cons_of_ne_nil hword
  rw [List.cons_append] at h ⊢
  simp only [scanAt] at h ⊢
  split at h
  · rename_i hshebang
    obtain ⟨rfl, hlength⟩ := Prod.mk.inj (Option.some.inj h)
    have hbreak : ∀ c, (c != '\n') = false → isNameStart c = false := by
      intro c hc
      rw [bne_eq_false_iff_eq] at hc
      rw [hc]
      decide
    have hfront : runLength (· != '\n') ((c :: rest) ++ ys) = (c :: rest).length := hlength
    have hrun := halike.runLength_front hbreak hfront
    rw [List.cons_append] at hrun
    rw [if_pos hshebang, hrun]
  · rename_i hshebang
    rw [if_neg hshebang]
    exact Token.scan_append hword halike hnumber h

/-- A word that is no keyword is read as a name, up to a character of no name. -/
theorem Token.scan_of_name {word : String} {c : Char} {rest behind : List Char}
    (hword : word.toList = c :: rest) (hstart : isNameStart c = true)
    (hrest : ∀ d ∈ rest, isNameChar d = true) (hkeyword : Keyword.ofString? word = none)
    (hbehind : ∀ d, behind.head? = some d → isNameChar d = false) :
    Token.scan (word.toList ++ behind) = some (.token (.name word), word.toList.length) := by
  have hall : ∀ d ∈ c :: rest, isNameChar d = true :=
    List.forall_mem_cons.mpr ⟨(Bool.and_eq_true_iff.mp hstart).1, hrest⟩
  have hrun : ((c :: rest) ++ behind).takeWhile isNameChar = c :: rest := by
    rw [List.takeWhile_append_of_pos hall]
    cases behind with
    | nil => simp
    | cons d ds => simp [hbehind d rfl]
  have hlength : runLength isNameChar (c :: (rest ++ behind)) = (c :: rest).length :=
    congrArg List.length hrun
  have htake : (c :: (rest ++ behind)).take (c :: rest).length = c :: rest := List.take_left
  have hofList : String.ofList (c :: rest) = word := by rw [← hword, String.ofList_toList]
  unfold Token.scan
  simp only [hword, List.cons_append, hstart, if_true, hlength, htake, hofList, hkeyword]

theorem not_of_head?_drop_runLength {p : Char → Bool} {d : Char} :
    ∀ {cs : List Char}, (cs.drop (runLength p cs)).head? = some d → p d = false
  | [], h => by cases h
  | c :: cs, h => by
    rw [runLength_cons] at h
    split at h
    · exact not_of_head?_drop_runLength h
    · rename_i hc
      cases h
      simpa using hc

/-- A name is the longest one at the front. -/
theorem Token.scan_name_cons {c : Char} {cs : List Char} {name : String} {n : Nat}
    (h : Token.scan (c :: cs) = some (.token (.name name), n)) :
    isNameStart c = true ∧ name.toList = (c :: cs).take n ∧
      ∀ d, ((c :: cs).drop n).head? = some d → isNameChar d = false := by
  cases hname : isNameStart c with
  | true =>
    refine ⟨rfl, (Token.scan_name h).1, fun d hd => ?_⟩
    unfold Token.scan at h
    simp only [hname, if_true] at h
    split at h
    · cases h
    · obtain ⟨-, rfl⟩ := Prod.mk.inj (Option.some.inj h)
      exact not_of_head?_drop_runLength hd
  | false =>
    exfalso
    by_cases hnone : numberLength (c :: cs) = 0
    · by_cases hquote : c = '\x22' ∨ c = '\x27'
      · unfold Token.scan at h
        simp only [hname, hnone, hquote, ne_eq, not_true_eq_false, Bool.false_eq_true, if_false,
          if_true] at h
        split at h <;> cases h
      · rw [Token.scan_cons hname hquote hnone] at h
        split at h
        · obtain ⟨n, -, heq⟩ := Option.map_eq_some_iff.mp h
          cases heq
        · split at h
          · split at h <;> cases h
          · obtain ⟨_, -, heq⟩ := Option.map_eq_some_iff.mp h
            cases heq
    · unfold Token.scan at h
      simp only [hname, hnone, ne_eq, not_false_eq_true, Bool.false_eq_true, if_false,
        if_true] at h
      cases h

namespace Lexeme

theorem scanFrom_skip (opening : Bool) (comments : List Comment) :
    ∀ (cs : List Char) (offset n : Nat), scanFrom offset opening comments n cs =
      scanFrom (offset + byteLength (cs.take n)) opening comments 0 (cs.drop n)
  | [], offset, n => by cases n <;> rfl
  | c :: cs, offset, 0 => rfl
  | c :: cs, offset, n + 1 => by
    rw [scanFrom, scanFrom_skip opening comments cs, List.take_succ_cons, List.drop_succ_cons,
      byteLength_cons, Nat.add_assoc]

variable {opening : Bool} {c : Char} {cs : List Char} {n : Nat}

/-- A comment goes to the token behind it. -/
theorem scanFrom_comment (hblank : isLuaBlank c = false)
    (h : scanAt opening (c :: cs) = some (.comment, n)) (offset : Nat) (comments : List Comment) :
    scanFrom offset opening comments 0 (c :: cs) =
      scanFrom (offset + byteLength ((c :: cs).take n)) opening
        (comments ++ [⟨(c :: cs).take n, ⟨offset, offset + byteLength ((c :: cs).take n)⟩⟩]) 0
        ((c :: cs).drop n) := by
  have hpos := scanAt_pos h
  obtain ⟨k, rfl⟩ : ∃ k, n = k + 1 := ⟨n - 1, by omega⟩
  simp only [scanAt] at h
  simp only [scanFrom, hblank, Bool.false_eq_true, if_false, h]
  rw [Nat.add_sub_cancel, scanFrom_skip, Nat.add_assoc]
  rfl

theorem scanFrom_token {t : Token} (hblank : isLuaBlank c = false)
    (h : scanAt opening (c :: cs) = some (.token t, n)) (offset : Nat) (comments : List Comment) :
    scanFrom offset opening comments 0 (c :: cs) =
      (scanFrom (offset + byteLength ((c :: cs).take n)) false [] 0 ((c :: cs).drop n)).map
        (⟨t, ⟨offset, offset + byteLength ((c :: cs).take n)⟩, comments⟩ :: ·) := by
  have hpos := scanAt_pos h
  obtain ⟨k, rfl⟩ : ∃ k, n = k + 1 := ⟨n - 1, by omega⟩
  simp only [scanAt] at h
  simp only [scanFrom, hblank, Bool.false_eq_true, if_false, h]
  rw [Nat.add_sub_cancel, scanFrom_skip, Nat.add_assoc, List.drop_succ_cons]
  have hlength : byteLength ((c :: cs).take (k + 1)) = c.utf8Size + byteLength (cs.take k) := rfl
  rw [hlength]
  cases scanFrom (offset + (c.utf8Size + byteLength (cs.take k))) false [] 0 (cs.drop k) <;> rfl

end Lexeme

/-- A text that stands at `offset`, cut into the tokens `ls`; the comments read since the last token
go to the next one. -/
inductive Cut : Nat → Bool → List Comment → List Char → List Lexeme → Prop
  | done {offset : Nat} {opening : Bool} {comments : List Comment} :
    Cut offset opening comments [] []
  | blank {offset : Nat} {opening : Bool} {comments : List Comment} {c : Char} {cs : List Char}
    {ls : List Lexeme} (hblank : isLuaBlank c = true)
    (hrest : Cut (offset + c.utf8Size) opening comments cs ls) :
    Cut offset opening comments (c :: cs) ls
  | comment {offset : Nat} {opening : Bool} {comments : List Comment} {c : Char} {cs : List Char}
    {ls : List Lexeme} {n : Nat} (hblank : isLuaBlank c = false)
    (hscan : scanAt opening (c :: cs) = some (.comment, n))
    (hrest : Cut (offset + byteLength ((c :: cs).take n)) opening
      (comments ++ [⟨(c :: cs).take n, ⟨offset, offset + byteLength ((c :: cs).take n)⟩⟩])
      ((c :: cs).drop n) ls) :
    Cut offset opening comments (c :: cs) ls
  | token {offset : Nat} {opening : Bool} {comments : List Comment} {c : Char} {cs : List Char}
    {ls : List Lexeme} {t : Token} {n : Nat} (hblank : isLuaBlank c = false)
    (hscan : scanAt opening (c :: cs) = some (.token t, n))
    (hrest : Cut (offset + byteLength ((c :: cs).take n)) false [] ((c :: cs).drop n) ls) :
    Cut offset opening comments (c :: cs)
      (⟨t, ⟨offset, offset + byteLength ((c :: cs).take n)⟩, comments⟩ :: ls)

namespace Cut

variable {offset : Nat} {opening : Bool} {comments : List Comment} {cs : List Char}
  {ls : List Lexeme}

theorem scanFrom (h : Cut offset opening comments cs ls) :
    Lexeme.scanFrom offset opening comments 0 cs = some ls := by
  induction h with
  | done => rfl
  | blank hblank _ ih => rw [Lexeme.scanFrom, if_pos hblank, ih]
  | comment hblank hscan _ ih => rw [Lexeme.scanFrom_comment hblank hscan, ih]
  | token hblank hscan _ ih =>
    rw [Lexeme.scanFrom_token hblank hscan, ih]
    rfl

/-- By induction on the characters that are left. -/
theorem of_scanFrom {offset : Nat} {opening : Bool} {comments : List Comment} {cs : List Char}
    {ls : List Lexeme} (h : Lexeme.scanFrom offset opening comments 0 cs = some ls) :
    Cut offset opening comments cs ls := by
  match cs with
  | [] =>
    cases h
    exact .done
  | c :: cs =>
    cases hblank : isLuaBlank c with
    | true =>
      rw [Lexeme.scanFrom, if_pos hblank] at h
      exact .blank hblank (of_scanFrom h)
    | false =>
      cases hscan : scanAt opening (c :: cs) with
      | none =>
        simp only [scanAt] at hscan
        simp only [Lexeme.scanFrom, hblank, Bool.false_eq_true, if_false, hscan] at h
        cases h
      | some found =>
        obtain ⟨x, n⟩ := found
        have hpos := scanAt_pos hscan
        cases x with
        | comment =>
          rw [Lexeme.scanFrom_comment hblank hscan] at h
          exact .comment hblank hscan (of_scanFrom h)
        | token t =>
          rw [Lexeme.scanFrom_token hblank hscan] at h
          obtain ⟨rest, hrest, rfl⟩ := Option.map_eq_some_iff.mp h
          exact .token hblank hscan (of_scanFrom hrest)
termination_by cs.length
decreasing_by all_goals simp only [List.length_drop, List.length_cons]; omega

/-- A name stands in the text, up to a character of no name. -/
theorem names {offset : Nat} {opening : Bool} {comments : List Comment} {cs : List Char}
    {ls : List Lexeme} (h : Cut offset opening comments cs ls) :
    ∀ l ∈ ls, ∀ name, l.token = .name name → ∃ c front rest behind,
      name.toList = c :: rest ∧ isNameStart c = true ∧ cs = front ++ (name.toList ++ behind) ∧
      l.span = ⟨offset + byteLength front, offset + byteLength (front ++ name.toList)⟩ ∧
      ∀ d, behind.head? = some d → isNameChar d = false := by
  induction h with
  | done => nofun
  | @blank _ _ _ d _ _ _ _ ih =>
    intro l hl name hname
    obtain ⟨c, front, rest, behind, htext, hstart, rfl, hspan, hbehind⟩ := ih l hl name hname
    refine ⟨c, d :: front, rest, behind, htext, hstart, rfl, ?_, hbehind⟩
    rw [hspan]
    simp [Nat.add_assoc]
  | @comment _ _ _ d cs _ n _ _ _ ih =>
    intro l hl name hname
    obtain ⟨c, front, rest, behind, htext, hstart, hcs, hspan, hbehind⟩ := ih l hl name hname
    refine ⟨c, (d :: cs).take n ++ front, rest, behind, htext, hstart, ?_, ?_, hbehind⟩
    · rw [List.append_assoc, ← hcs, List.take_append_drop]
    · rw [hspan]
      simp [Nat.add_assoc]
  | @token offset opening _ d cs _ t n _ hscan _ ih =>
    intro l hl name hname
    rcases List.mem_cons.mp hl with rfl | hl
    · obtain rfl : t = .name name := hname
      have hscan : Token.scan (d :: cs) = some (.token (.name name), n) := by
        simp only [scanAt] at hscan
        split at hscan
        · cases hscan
        · exact hscan
      obtain ⟨hstart, htext, hbehind⟩ := Token.scan_name_cons hscan
      have hpos := Token.scan_pos hscan
      obtain ⟨k, rfl⟩ : ∃ k, n = k + 1 := ⟨n - 1, by omega⟩
      refine ⟨d, [], cs.take k, (d :: cs).drop (k + 1), htext, hstart, ?_, ?_, hbehind⟩
      · rw [htext, List.nil_append, List.take_append_drop]
      · simp [htext]
    · obtain ⟨c, front, rest, behind, htext, hstart, hcs, hspan, hbehind⟩ := ih l hl name hname
      refine ⟨c, (d :: cs).take n ++ front, rest, behind, htext, hstart, ?_, ?_, hbehind⟩
      · rw [List.append_assoc, ← hcs, List.take_append_drop]
      · rw [hspan]
        simp [Nat.add_assoc]

end Cut

end LuaScope
