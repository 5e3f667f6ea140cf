import LuaScope.Proofs.Renaming.Reading
import LuaScope.Proofs.Syntax.Cut
import LuaScope.Proofs.Text.Replace

/-!
# LuaScope.Proofs.Renaming.Text

The text in which occurrences of a name got another name.

* `Renaming.cut_renamed`    — piece by piece it is cut like the text before.
* `Renaming.ofChars_renamed` — it has the same tokens as before, the renamed ones apart.
-/

namespace LuaScope

/-- Nothing of a name stands directly behind a numeral. -/
def NumeralsApart (cs : List Char) (offset : Nat) (ls : List Lexeme) : Prop :=
  ∀ l ∈ ls, l.token = .number → ∀ front c behind, cs = front ++ c :: behind →
    l.span.stop = offset + byteLength front → isNameChar c = false

theorem NumeralsApart.behind {front cs : List Char} {offset : Nat} {ls ls' : List Lexeme}
    (h : NumeralsApart (front ++ cs) offset ls) (hsub : ls' ⊆ ls) :
    NumeralsApart cs (offset + byteLength front) ls' := by
  intro l hl hnumber front' c behind hcs hstop
  refine h l (hsub hl) hnumber (front ++ front') c behind ?_ ?_
  · rw [hcs, List.append_assoc]
  · rw [hstop, byteLength_append, Nat.add_assoc]

/-- A piece of a text is read as before if the text behind it is alike. -/
theorem scanAt_piece {opening : Bool} {c : Char} {cs zs : List Char} {x : Scanned} {n : Nat}
    (h : scanAt opening (c :: cs) = some (x, n)) (halike : Alike ((c :: cs).drop n) zs)
    (hnumber : x = .token .number →
      ∀ d, ((c :: cs).drop n).head? = some d → isNameChar d = false) :
    ∃ word, (c :: cs).take n = c :: word ∧ scanAt opening (c :: (word ++ zs)) = some (x, n) ∧
      (c :: (word ++ zs)).take n = c :: word ∧ (c :: (word ++ zs)).drop n = zs := by
  have hpos := scanAt_pos h
  obtain ⟨k, rfl⟩ : ∃ k, n = k + 1 := ⟨n - 1, by omega⟩
  rw [List.drop_succ_cons] at halike hnumber
  refine ⟨cs.take k, rfl, ?_⟩
  rw [List.take_succ_cons, List.drop_succ_cons]
  by_cases hk : cs.length ≤ k
  · have hnil : cs.drop k = [] := List.drop_eq_nil_iff.mpr hk
    obtain rfl := halike.nil_iff.mp hnil
    rw [List.append_nil, List.take_of_length_le hk, List.take_of_length_le hk, hnil]
    exact ⟨h, rfl, rfl⟩
  · have hlength : (cs.take k).length = k := by rw [List.length_take]; omega
    have hword : scanAt opening ((c :: cs.take k) ++ cs.drop k) =
        some (x, (c :: cs.take k).length) := by
      rw [List.cons_append, List.take_append_drop, List.length_cons, hlength]
      exact h
    have hscan := scanAt_append (List.cons_ne_nil c _) halike hnumber hword
    rw [List.length_cons, hlength] at hscan
    refine ⟨hscan, ?_, ?_⟩
    · rw [List.take_left' hlength]
    · rw [List.drop_left' hlength]

theorem scanAt_name {opening : Bool} {c : Char} {cs : List Char} {name : String} {n : Nat}
    (h : scanAt opening (c :: cs) = some (.token (.name name), n)) :
    name.toList = (c :: cs).take n ∧
      ∀ d, ((c :: cs).drop n).head? = some d → isNameChar d = false := by
  simp only [scanAt] at h
  split at h
  · cases h
  · exact (Token.scan_name_cons h).2

theorem scanAt_of_name {opening : Bool} {word : String} {c : Char} {rest behind : List Char}
    (hword : word.toList = c :: rest) (hstart : isNameStart c = true)
    (hrest : ∀ d ∈ rest, isNameChar d = true) (hkeyword : Keyword.ofString? word = none)
    (hbehind : ∀ d, behind.head? = some d → isNameChar d = false) :
    scanAt opening (word.toList ++ behind) = some (.token (.name word), word.toList.length) := by
  have hscan := Token.scan_of_name hword hstart hrest hkeyword hbehind
  have hhash : c ≠ '#' := ne_of_isNameStart hstart (by decide)
  rw [hword] at hscan ⊢
  simp only [List.cons_append, scanAt, hhash, decide_false, Bool.and_false, Bool.false_eq_true,
    if_false]
  exact hscan

theorem isLuaBlank_of_isNameStart {c : Char} (h : isNameStart c = true) : isLuaBlank c = false := by
  cases hblank : isLuaBlank c with
  | false => rfl
  | true =>
    have hdelimiter : isDelimiter c = true := by
      simp only [isLuaBlank, Bool.or_eq_true, Bool.and_eq_true, decide_eq_true_eq,
        beq_iff_eq] at hblank
      rcases hblank with ⟨-, hhigh⟩ | hspace
      · have hlow : c.val < 0x20 := UInt32.lt_of_le_of_lt hhigh (by decide)
        simp [isDelimiter, hlow]
      · have hc : c = ' ' := Char.ext hspace
        subst hc
        decide
    simp [isNameStart, isNameChar, hdelimiter] at h

theorem Alike.not_isNameChar {a b : List Char} (h : Alike a b)
    (ha : ∀ d, a.head? = some d → isNameChar d = false) :
    ∀ d, b.head? = some d → isNameChar d = false := by
  cases h with
  | same => exact ha
  | name cs cs' hstart _ =>
    have hchar := ha _ rfl
    rw [isNameStart, hchar] at hstart
    cases hstart
  | cons => exact ha

section Pieces

variable {offset : Nat} {opening : Bool} {comments : List Comment} {c : Char}
  {word behind : List Char} {ls : List Lexeme} {n : Nat}

theorem Cut.comment_append (hblank : isLuaBlank c = false)
    (hscan : scanAt opening (c :: (word ++ behind)) = some (.comment, n))
    (htake : (c :: (word ++ behind)).take n = c :: word)
    (hdrop : (c :: (word ++ behind)).drop n = behind)
    (hrest : Cut (offset + byteLength (c :: word)) opening
      (comments ++ [⟨c :: word, ⟨offset, offset + byteLength (c :: word)⟩⟩]) behind ls) :
    Cut offset opening comments (c :: word ++ behind) ls := by
  rw [List.cons_append]
  refine .comment hblank hscan ?_
  rwa [htake, hdrop]

theorem Cut.token_append {t : Token} (hblank : isLuaBlank c = false)
    (hscan : scanAt opening (c :: (word ++ behind)) = some (.token t, n))
    (htake : (c :: (word ++ behind)).take n = c :: word)
    (hdrop : (c :: (word ++ behind)).drop n = behind)
    (hrest : Cut (offset + byteLength (c :: word)) false [] behind ls) :
    Cut offset opening comments (c :: word ++ behind)
      (⟨t, ⟨offset, offset + byteLength (c :: word)⟩, comments⟩ :: ls) := by
  have hcut : Cut offset opening comments (c :: (word ++ behind))
      (⟨t, ⟨offset, offset + byteLength ((c :: (word ++ behind)).take n)⟩, comments⟩ :: ls) :=
    .token hblank hscan (by rwa [htake, hdrop])
  rwa [htake] at hcut

end Pieces

namespace Renaming

variable (ρ : Renaming)

/-- The replacement of the occurrence that starts here. -/
def edit (start : Nat) : Span × List Char :=
  (⟨start, start + byteLength ρ.old.toList⟩, ρ.new.toList)

/-- The new name can be written in the place of the old one. -/
structure Writable : Prop where
  start : ∃ c rest, ρ.new.toList = c :: rest ∧ isNameStart c = true ∧
    ∀ d ∈ rest, isNameChar d = true
  head_ne : ρ.new.toList.head? ≠ some '\uFEFF'
  keyword : Keyword.ofString? ρ.new = none
  new_ne : ρ.new ≠ "global"
  old_ne : ρ.old ≠ "global"

/--
The occurrences `ahead` are those that start at `offset` or behind it, where the tokens `ls` stand;
the occurrences `passed` lie in front of that.
-/
structure Ahead (offset : Nat) (ls : List Lexeme) (passed ahead : List Nat) : Prop where
  split : ρ.starts = passed ++ ahead
  passed_lt : ∀ m ∈ passed, m < offset
  ascending : ahead.Pairwise (· < ·)
  named : ∀ m ∈ ahead, ∃ l ∈ ls, l.span.start = m ∧ l.token = .name ρ.old
  room : passed.length * byteLength ρ.old.toList ≤ offset

variable {ρ}

/-- Between two occurrences everything moves by the same amount. -/
theorem shift_eq {passed ahead : List Nat} {offset : Nat} (hsplit : ρ.starts = passed ++ ahead)
    (hpassed : ∀ m ∈ passed, m < offset) (hahead : ∀ m ∈ ahead, offset ≤ m) :
    ρ.shift offset = offset + passed.length * byteLength ρ.new.toList -
      passed.length * byteLength ρ.old.toList := by
  have hcount : ρ.starts.countP (· < offset) = passed.length := by
    rw [hsplit, List.countP_append, List.countP_eq_length.mpr (by simpa using hpassed),
      List.countP_eq_zero.mpr (by simpa using hahead), Nat.add_zero]
  rw [shift, hcount]

namespace Ahead

variable {offset : Nat} {ls : List Lexeme} {passed ahead : List Nat}

/-- Nothing is renamed in a piece that no token of the old name starts. -/
theorem step (h : ρ.Ahead offset ls passed ahead) {ls' : List Lexeme} {k : Nat}
    (hsub : ∀ m ∈ ahead, ∃ l ∈ ls', l.span.start = m ∧ l.token = .name ρ.old) :
    ρ.Ahead (offset + k) ls' passed ahead where
  split := h.split
  passed_lt m hm := Nat.lt_of_lt_of_le (h.passed_lt m hm) (Nat.le_add_right _ _)
  ascending := h.ascending
  named := hsub
  room := Nat.le_trans h.room (Nat.le_add_right _ _)

theorem marks_iff (h : ρ.Ahead offset ls passed ahead) :
    ρ.marks offset = true ↔ offset ∈ ahead := by
  rw [marks, List.contains_iff_mem, h.split, List.mem_append]
  exact or_iff_right fun hm => Nat.lt_irrefl _ (h.passed_lt _ hm)

theorem eq_cons (h : ρ.Ahead offset ls passed ahead) (hle : ∀ m ∈ ahead, offset ≤ m)
    (hmem : offset ∈ ahead) : ∃ rest, ahead = offset :: rest := by
  cases ahead with
  | nil => cases hmem
  | cons m rest =>
    rcases List.mem_cons.mp hmem with rfl | hmem
    · exact ⟨rest, rfl⟩
    · have hlt : m < offset := List.rel_of_pairwise_cons h.ascending hmem
      have := hle m List.mem_cons_self
      omega

/-- An occurrence of the old name is passed. -/
theorem pass {rest : List Nat} {l : Lexeme} (h : ρ.Ahead offset (l :: ls) passed (offset :: rest))
    (hl : l.span.start = offset) (hold : 0 < byteLength ρ.old.toList) :
    ρ.Ahead (offset + byteLength ρ.old.toList) ls (passed ++ [offset]) rest where
  split := by rw [h.split, List.append_assoc, List.singleton_append]
  passed_lt m hm := by
    rcases List.mem_append.mp hm with hm | hm
    · exact Nat.lt_of_lt_of_le (h.passed_lt m hm) (Nat.le_add_right _ _)
    · rw [List.mem_singleton.mp hm]
      omega
  ascending := h.ascending.of_cons
  named m hm := by
    have hlt : offset < m := List.rel_of_pairwise_cons h.ascending hm
    obtain ⟨l', hl', hstart, htoken⟩ := h.named m (List.mem_cons_of_mem _ hm)
    rcases List.mem_cons.mp hl' with rfl | hl'
    · omega
    · exact ⟨l', hl', hstart, htoken⟩
  room := by
    have hroom := h.room
    rw [List.length_append, List.length_singleton, Nat.succ_mul]
    omega

theorem shift_pass {rest : List Nat} (h : ρ.Ahead offset ls passed (offset :: rest))
    (hrest : ∀ m ∈ rest, offset + byteLength ρ.old.toList ≤ m) (hold : 0 < byteLength ρ.old.toList) :
    ρ.shift (offset + byteLength ρ.old.toList) = ρ.shift offset + byteLength ρ.new.toList := by
  have hoffset := shift_eq h.split h.passed_lt fun m hm => by
    rcases List.mem_cons.mp hm with rfl | hm
    · exact Nat.le_refl _
    · exact Nat.le_trans (Nat.le_add_right _ _) (hrest m hm)
  have hsplit : ρ.starts = (passed ++ [offset]) ++ rest := by
    rw [h.split, List.append_assoc, List.singleton_append]
  have hpassed : ∀ m ∈ passed ++ [offset], m < offset + byteLength ρ.old.toList := by
    intro m hm
    rcases List.mem_append.mp hm with hm | hm
    · exact Nat.lt_of_lt_of_le (h.passed_lt m hm) (Nat.le_add_right _ _)
    · rw [List.mem_singleton.mp hm]
      omega
  have hnext := shift_eq hsplit hpassed hrest
  have hroom := h.room
  rw [List.length_append, List.length_singleton, Nat.succ_mul, Nat.succ_mul] at hnext
  omega

theorem shift_add (h : ρ.Ahead offset ls passed ahead) {k : Nat}
    (hahead : ∀ m ∈ ahead, offset + k ≤ m) : ρ.shift (offset + k) = ρ.shift offset + k := by
  have hoffset := shift_eq h.split h.passed_lt fun m hm =>
    Nat.le_trans (Nat.le_add_right _ _) (hahead m hm)
  have hnext := shift_eq h.split (fun m hm =>
    Nat.lt_of_lt_of_le (h.passed_lt m hm) (Nat.le_add_right _ k)) hahead
  have hroom := h.room
  omega

end Ahead

theorem mem_edits {k : Nat} {ahead : List Nat} (h : ∀ m ∈ ahead, k ≤ m) :
    ∀ e ∈ ahead.map ρ.edit, k ≤ e.1.start ∧ e.1.start ≤ e.1.stop := by
  intro e he
  obtain ⟨m, hm, rfl⟩ := List.mem_map.mp he
  exact ⟨h m hm, Nat.le_add_right _ _⟩

section Lexing

variable {offset : Nat} {opening : Bool} {comments : List Comment} {cs : List Char}
  {ls : List Lexeme} {passed ahead : List Nat}

theorem Ahead.le (h : ρ.Ahead offset ls passed ahead) (hcut : Cut offset opening comments cs ls) :
    ∀ m ∈ ahead, offset ≤ m := by
  intro m hm
  obtain ⟨l, hl, rfl, -⟩ := h.named m hm
  exact (Lexeme.scanFrom_ascending _ _ _ _ _ _ hcut.scanFrom).1 l hl

/-- The text reads the same up to the first occurrence. -/
theorem Ahead.alike (hρ : ρ.Writable) (h : ρ.Ahead offset ls passed ahead)
    (hcut : Cut offset opening comments cs ls) :
    Alike cs (replaceFrom cs offset (ahead.map ρ.edit)) := by
  cases ahead with
  | nil => exact .same cs
  | cons m rest =>
    obtain ⟨l, hl, hm, htoken⟩ := h.named m List.mem_cons_self
    obtain ⟨c, front, word, behind, htext, hstart, rfl, hspan, -⟩ :=
      hcut.names l hl ρ.old htoken
    obtain ⟨c', word', htext', hstart', -⟩ := hρ.start
    obtain rfl : offset + byteLength front = m := by rw [← hm, hspan]
    have hle : ∀ m' ∈ (offset + byteLength front) :: rest, offset + byteLength front ≤ m' := by
      intro m' hm'
      rcases List.mem_cons.mp hm' with rfl | hm'
      · exact Nat.le_refl _
      · exact Nat.le_of_lt (List.rel_of_pairwise_cons h.ascending hm')
    rw [replaceFrom_append _ _ _ (mem_edits hle)]
    refine .append front ?_
    rw [List.map_cons, edit, replaceFrom_front, htext, htext']
    exact .name _ _ hstart hstart'

/-- The tokens of a text with these occurrences renamed. -/
def Renamed (ρ : Renaming) (offset : Nat) (opening : Bool) (comments : List Comment)
    (cs : List Char) (ls : List Lexeme) (ahead : List Nat) : Prop :=
  Cut (ρ.shift offset) opening (comments.map ρ.comment)
      (replaceFrom cs offset (ahead.map ρ.edit)) (ls.map ρ.lexeme) ∧
    ∀ l ∈ ls, ρ.Keeps l

section Token

variable {c : Char} {n : Nat}

/-- A token that gets the new name. -/
theorem Renamed.marked (hρ : ρ.Writable) {rest : List Nat}
    (hscan : scanAt opening (c :: cs) = some (.token (.name ρ.old), n))
    (hrest : Cut (offset + byteLength ρ.old.toList) false [] ((c :: cs).drop n) ls)
    (h : ρ.Ahead offset
      (⟨.name ρ.old, ⟨offset, offset + byteLength ρ.old.toList⟩, comments⟩ :: ls) passed
      (offset :: rest))
    (hold : 0 < byteLength ρ.old.toList)
    (hrenamed : ρ.Renamed (offset + byteLength ρ.old.toList) false [] ((c :: cs).drop n) ls rest) :
    ρ.Renamed offset opening comments (c :: cs)
      (⟨.name ρ.old, ⟨offset, offset + byteLength ρ.old.toList⟩, comments⟩ :: ls)
      (offset :: rest) := by
  obtain ⟨hcut, hkeeps⟩ := hrenamed
  obtain ⟨htext, hbehind⟩ := scanAt_name hscan
  obtain ⟨c', word, hnew, hstart, hchars⟩ := hρ.start
  have hnext := h.pass rfl hold
  have hle := hnext.le hrest
  have hmarked : ρ.marks offset = true := h.marks_iff.mpr List.mem_cons_self
  have hreplace := replaceFrom_front ρ.old.toList ((c :: cs).drop n) offset ρ.new.toList
    (rest.map ρ.edit)
  have hcs : ρ.old.toList ++ (c :: cs).drop n = c :: cs := by
    rw [htext, List.take_append_drop]
  rw [hcs] at hreplace
  have hscan' : scanAt opening (ρ.new.toList ++ replaceFrom ((c :: cs).drop n)
      (offset + byteLength ρ.old.toList) (rest.map ρ.edit)) =
        some (.token (.name ρ.new), ρ.new.toList.length) :=
    scanAt_of_name hnew hstart hchars hρ.keyword ((hnext.alike hρ hrest).not_isNameChar hbehind)
  have hlexeme : ρ.lexeme ⟨.name ρ.old, ⟨offset, offset + byteLength ρ.old.toList⟩, comments⟩ =
      ⟨.name ρ.new, ⟨ρ.shift offset, ρ.shift offset + byteLength ρ.new.toList⟩,
        comments.map ρ.comment⟩ := by
    simp only [lexeme, token, nameAt, hmarked, if_true, span, h.shift_pass hle hold]
  rw [h.shift_pass hle hold] at hcut
  refine ⟨?_, List.forall_mem_cons.mpr ⟨⟨fun text htoken => ?_, fun hmark => ?_⟩, hkeeps⟩⟩
  · rw [List.map_cons, edit, hreplace, List.map_cons, hlexeme]
    have htake : ∀ zs : List Char, (ρ.new.toList ++ zs).take ρ.new.toList.length =
        ρ.new.toList := fun zs => List.take_left
    have hdrop : ∀ zs : List Char, (ρ.new.toList ++ zs).drop ρ.new.toList.length = zs :=
      fun zs => List.drop_left
    rw [hnew] at hscan' hcut htake hdrop ⊢
    exact .token_append (isLuaBlank_of_isNameStart hstart) hscan' (htake _) (hdrop _) hcut
  · cases htoken
    simp [nameAt, hmarked, hρ.new_ne, hρ.old_ne]
  · cases hmark

/-- A token that stays as it is. -/
theorem Renamed.unmarked (hρ : ρ.Writable) {t : Token} (hblank : isLuaBlank c = false)
    (hscan : scanAt opening (c :: cs) = some (.token t, n))
    (hnumeral : t = .number → ∀ d, ((c :: cs).drop n).head? = some d → isNameChar d = false)
    (hrest : Cut (offset + byteLength ((c :: cs).take n)) false [] ((c :: cs).drop n) ls)
    (h : ρ.Ahead offset
      (⟨t, ⟨offset, offset + byteLength ((c :: cs).take n)⟩, comments⟩ :: ls) passed ahead)
    (hnext : ρ.Ahead (offset + byteLength ((c :: cs).take n)) ls passed ahead)
    (hword : 0 < byteLength ((c :: cs).take n))
    (hrenamed : ρ.Renamed (offset + byteLength ((c :: cs).take n)) false [] ((c :: cs).drop n) ls
      ahead) :
    ρ.Renamed offset opening comments (c :: cs)
      (⟨t, ⟨offset, offset + byteLength ((c :: cs).take n)⟩, comments⟩ :: ls) ahead := by
  obtain ⟨hcut, hkeeps⟩ := hrenamed
  have hle := hnext.le hrest
  have hunmarked : ρ.marks offset = false := by
    rw [← Bool.not_eq_true, h.marks_iff]
    intro hmem
    have := hle offset hmem
    omega
  obtain ⟨word, hword', hscan', htake, hdrop⟩ :=
    scanAt_piece hscan (hnext.alike hρ hrest) fun hnumber => hnumeral (Scanned.token.inj hnumber)
  have hreplace := replaceFrom_append ((c :: cs).take n) ((c :: cs).drop n) offset
    (mem_edits (ρ := ρ) hle)
  rw [List.take_append_drop] at hreplace
  rw [h.shift_add hle] at hcut
  have htoken : ρ.token offset t = t := by
    cases t with
    | name text => simp [token, nameAt, hunmarked]
    | _ => rfl
  have hlexeme : ρ.lexeme ⟨t, ⟨offset, offset + byteLength ((c :: cs).take n)⟩, comments⟩ =
      ⟨t, ⟨ρ.shift offset, ρ.shift offset + byteLength ((c :: cs).take n)⟩,
        comments.map ρ.comment⟩ := by
    simp only [lexeme, htoken, span, h.shift_add hle]
  refine ⟨?_, List.forall_mem_cons.mpr ⟨⟨fun text _ => ?_, fun _ => ?_⟩, hkeeps⟩⟩
  · rw [hword'] at hreplace hcut hscan' htake hdrop hlexeme
    rw [hword', hreplace, List.map_cons, hlexeme]
    exact .token_append hblank hscan' htake hdrop hcut
  · simp [nameAt, hunmarked]
  · refine h.shift_add fun m hm => ?_
    have := hle m hm
    omega

end Token

/-- Renaming occurrences renames their tokens and leaves all others. By induction on the pieces. -/
theorem cut_renamed (hρ : ρ.Writable) (hcut : Cut offset opening comments cs ls)
    {passed ahead : List Nat} (h : ρ.Ahead offset ls passed ahead)
    (hapart : NumeralsApart cs offset ls) : ρ.Renamed offset opening comments cs ls ahead := by
  induction hcut generalizing passed ahead with
  | done =>
    cases ahead with
    | nil => exact ⟨.done, fun _ hl => absurd hl List.not_mem_nil⟩
    | cons m rest =>
      obtain ⟨l, hl, -⟩ := h.named m List.mem_cons_self
      cases hl
  | @blank offset opening comments c cs ls hblank hrest ih =>
    have hnext := h.step (k := c.utf8Size) h.named
    have hle := hnext.le hrest
    have hreplace := replaceFrom_append [c] cs offset (mem_edits (ρ := ρ) hle)
    obtain ⟨hcut', hkeeps⟩ := ih hnext
      (NumeralsApart.behind (show NumeralsApart ([c] ++ cs) offset ls from hapart)
        (List.Subset.refl _))
    rw [h.shift_add hle] at hcut'
    rw [List.singleton_append] at hreplace
    rw [Renamed, hreplace]
    exact ⟨.blank hblank hcut', hkeeps⟩
  | @comment offset opening comments c cs ls n hblank hscan hrest ih =>
    rw [← List.take_append_drop n (c :: cs)] at hapart
    have hnext := h.step (k := byteLength ((c :: cs).take n)) h.named
    have hle := hnext.le hrest
    obtain ⟨word, hword, hscan', htake, hdrop⟩ :=
      scanAt_piece hscan (hnext.alike hρ hrest) (fun hnumber => by cases hnumber)
    have hreplace := replaceFrom_append ((c :: cs).take n) ((c :: cs).drop n) offset
      (mem_edits (ρ := ρ) hle)
    obtain ⟨hcut', hkeeps⟩ := ih hnext (hapart.behind (List.Subset.refl _))
    rw [List.take_append_drop] at hreplace
    rw [h.shift_add hle] at hcut'
    simp only [List.map_append, List.map_cons, List.map_nil, comment, span,
      h.shift_add hle] at hcut'
    rw [hword] at hreplace hcut' hscan' htake hdrop
    rw [Renamed, hreplace]
    exact ⟨.comment_append hblank hscan' htake hdrop hcut', hkeeps⟩
  | @token offset opening comments c cs ls t n hblank hscan hrest ih =>
    have hcut : Cut offset opening comments (c :: cs)
        (⟨t, ⟨offset, offset + byteLength ((c :: cs).take n)⟩, comments⟩ :: ls) :=
      .token hblank hscan hrest
    have hpieces : NumeralsApart ((c :: cs).take n ++ (c :: cs).drop n) offset
        (⟨t, ⟨offset, offset + byteLength ((c :: cs).take n)⟩, comments⟩ :: ls) := by
      rw [List.take_append_drop]
      exact hapart
    have hbehind := hpieces.behind (List.subset_cons_self _ ls)
    have hword : 0 < byteLength ((c :: cs).take n) := by
      have hpos := scanAt_pos hscan
      obtain ⟨k, rfl⟩ : ∃ k, n = k + 1 := ⟨n - 1, by omega⟩
      rw [List.take_succ_cons, byteLength_cons]
      exact Nat.lt_of_lt_of_le c.utf8Size_pos (Nat.le_add_right _ _)
    by_cases hmarked : offset ∈ ahead
    · obtain ⟨rest, rfl⟩ := h.eq_cons (h.le hcut) hmarked
      obtain rfl : t = .name ρ.old := by
        obtain ⟨l, hl, hstart, htoken⟩ := h.named offset List.mem_cons_self
        rcases List.mem_cons.mp hl with rfl | hl
        · exact htoken
        · have := (Lexeme.scanFrom_ascending _ _ _ _ _ _ hrest.scanFrom).1 l hl
          omega
      obtain ⟨htext, -⟩ := scanAt_name hscan
      rw [← htext] at hrest hbehind hword h ih ⊢
      exact .marked hρ hscan hrest h hword (ih (h.pass rfl hword) hbehind)
    · have hnamed : ∀ m ∈ ahead, ∃ l ∈ ls, l.span.start = m ∧ l.token = .name ρ.old := by
        intro m hm
        obtain ⟨l, hl, hstart, htoken⟩ := h.named m hm
        rcases List.mem_cons.mp hl with rfl | hl
        · obtain rfl : offset = m := hstart
          exact absurd hm hmarked
        · exact ⟨l, hl, hstart, htoken⟩
      have hnext := h.step (k := byteLength ((c :: cs).take n)) hnamed
      have hnumeral : t = .number → ∀ d, ((c :: cs).drop n).head? = some d →
          isNameChar d = false := by
        intro hnumber d hd
        obtain ⟨behind, hdrop⟩ := List.head?_eq_some_iff.mp hd
        exact hpieces _ List.mem_cons_self hnumber _ d behind (by rw [hdrop]) rfl
      exact .unmarked hρ hblank hscan hnumeral hrest h hnext hword (ih hnext hbehind)

end Lexing

theorem ofChars_of_head?_ne {cs : List Char} (h : cs.head? ≠ some '\uFEFF') :
    Lexeme.ofChars cs = Lexeme.scanFrom 0 true [] 0 cs := by
  unfold Lexeme.ofChars
  split
  · exact absurd rfl h
  · rfl

theorem head?_replaceFrom_ne {cs : List Char} (hρ : ρ.Writable) {c : Char} (hc : c ≠ '\uFEFF')
    (ahead : List Nat) :
    (replaceFrom (c :: cs) 0 (ahead.map ρ.edit)).head? ≠ some '\uFEFF' := by
  cases ahead with
  | nil => simpa [replaceFrom] using hc
  | cons m rest =>
    obtain ⟨c', word, hnew, -⟩ := hρ.start
    have hhead := hρ.head_ne
    rw [hnew] at hhead
    rw [List.map_cons, edit, replaceFrom, hnew]
    cases m with
    | zero => simpa [takeBytes_zero] using hhead
    | succ m => simpa [takeBytes] using hc

/-- The renamed text has the renamed tokens. -/
theorem ofChars_renamed (hρ : ρ.Writable) {cs : List Char} {ls : List Lexeme}
    (hls : Lexeme.ofChars cs = some ls) (hascending : ρ.starts.Pairwise (· < ·))
    (hnamed : ∀ m ∈ ρ.starts, ∃ l ∈ ls, l.span.start = m ∧ l.token = .name ρ.old)
    (hapart : NumeralsApart cs 0 ls) :
    Lexeme.ofChars (replaceFrom cs 0 (ρ.starts.map ρ.edit)) = some (ls.map ρ.lexeme) ∧
      ∀ l ∈ ls, ρ.Keeps l := by
  have hahead : ∀ offset, ρ.Ahead offset ls [] ρ.starts := fun offset =>
    ⟨rfl, nofun, hascending, hnamed, by simp⟩
  cases cs with
  | nil =>
    cases hls
    have hnone : ρ.starts = [] := List.eq_nil_iff_forall_not_mem.mpr fun m hm => by
      obtain ⟨l, hl, -⟩ := hnamed m hm
      cases hl
    rw [hnone]
    exact ⟨rfl, nofun⟩
  | cons c cs =>
    by_cases hc : c = '\uFEFF'
    · subst hc
      have hcut : Cut 3 true [] cs ls := .of_scanFrom hls
      have hle := (hahead 3).le hcut
      have hshift := shift_eq (List.nil_append ρ.starts).symm nofun hle
      have hbehind : NumeralsApart cs (0 + byteLength ['\uFEFF']) ls :=
        hapart.behind (List.Subset.refl _)
      obtain ⟨hcut', hkeeps⟩ := cut_renamed hρ hcut (hahead 3) hbehind
      have hreplace := replaceFrom_append ['\uFEFF'] cs 0 (mem_edits (ρ := ρ) hle)
      rw [hshift] at hcut'
      rw [List.singleton_append] at hreplace
      rw [hreplace]
      refine ⟨?_, hkeeps⟩
      have hscan := hcut'.scanFrom
      simp only [List.length_nil, Nat.zero_mul, Nat.add_zero, Nat.sub_zero, List.map_nil] at hscan
      exact hscan
    · rw [ofChars_of_head?_ne (by simpa using hc)] at hls
      have hcut : Cut 0 true [] (c :: cs) ls := .of_scanFrom hls
      obtain ⟨hcut', hkeeps⟩ := cut_renamed hρ hcut (hahead 0) hapart
      rw [shift_zero] at hcut'
      rw [ofChars_of_head?_ne (head?_replaceFrom_ne hρ hc _)]
      exact ⟨hcut'.scanFrom, hkeeps⟩

end Renaming

end LuaScope
