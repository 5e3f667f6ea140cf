import LuaScope.Proofs.Syntax.Cut

/-!
# LuaScope.Proofs.Syntax.Gap

How the tokens of a text follow one another: with gaps between them, and never one into another.

* `Cut.uncons`           — the next token stands behind a gap.
* `Lexeme.ofChars_apart` — each token ends in front of those that start behind it.
* `Lexeme.linedUp`       — the tokens stand one behind another, and each covers text.
-/

namespace LuaScope

/-- What stands between two tokens: blanks alone, or dashes among other things. -/
def Gap (cs : List Char) : Prop := (∀ c ∈ cs, isLuaBlank c = true) ∨ '-' ∈ cs

theorem Gap.nil : Gap [] := .inl fun _ hc => by cases hc

theorem Gap.blank {c : Char} {cs : List Char} (hc : isLuaBlank c = true) (h : Gap cs) :
    Gap (c :: cs) :=
  h.imp (fun hcs => List.forall_mem_cons.mpr ⟨hc, hcs⟩) (List.mem_cons_of_mem c)

/-- A comment starts with a dash. -/
theorem Token.dash_of_scan {cs : List Char} {n : Nat} (h : Token.scan cs = some (.comment, n)) :
    '-' ∈ cs.take n := by
  have hpos := Token.scan_pos h
  obtain ⟨k, rfl⟩ : ∃ k, n = k + 1 := ⟨n - 1, by omega⟩
  unfold Token.scan at h
  split at h
  · cases h
  · split at h
    · dsimp only at h
      split at h <;> cases h
    · split at h
      · cases h
      · split at h
        · split at h <;> cases h
        · split at h
          · rename_i heq
            obtain ⟨rfl, -⟩ := List.cons.inj heq
            exact List.mem_cons_self
          · split at h
            · split at h <;> cases h
            · obtain ⟨_, -, heq⟩ := Option.map_eq_some_iff.mp h
              cases heq

theorem scan_of_scanAt {opening : Bool} {cs : List Char} {x : Scanned} {n : Nat}
    (hx : x ≠ .token .shebang) (h : scanAt opening cs = some (x, n)) :
    Token.scan cs = some (x, n) := by
  cases cs with
  | nil => cases h
  | cons c cs =>
    simp only [scanAt] at h
    split at h
    · cases h
      exact absurd rfl hx
    · exact h

/-- A mark is read where nothing else starts. -/
theorem Token.scan_mark {cs : List Char} {m : Mark} {n : Nat}
    (h : Token.scan cs = some (.token (.mark m), n)) : Mark.scan cs = some (m, n) := by
  unfold Token.scan at h
  split at h
  · cases h
  · split at h
    · dsimp only at h
      split at h <;> cases h
    · split at h
      · cases h
      · split at h
        · split at h <;> cases h
        · split at h
          · obtain ⟨_, -, heq⟩ := Option.map_eq_some_iff.mp h
            cases heq
          · split at h
            · split at h <;> cases h
            · obtain ⟨_, hmark, heq⟩ := Option.map_eq_some_iff.mp h
              cases heq
              exact hmark

/-- The mark in front of a member is one character. -/
theorem Mark.scan_member {cs : List Char} {m : Mark} {n : Nat} (hm : m = .dot ∨ m = .colon)
    (h : Mark.scan cs = some (m, n)) : cs.take n = ['.'] ∨ cs.take n = [':'] := by
  unfold Mark.scan at h
  split at h
  case h_3 => exact .inl (by cases h; rfl)
  case h_17 => exact .inr (by cases h; rfl)
  case h_34 => cases h
  all_goals rcases hm with rfl | rfl <;> cases h

namespace Cut

/-- The next token stands behind a gap. -/
theorem uncons {offset : Nat} {opening : Bool} {comments : List Comment} {cs : List Char}
    {l : Lexeme} {ls : List Lexeme} (h : Cut offset opening comments cs (l :: ls)) :
    ∃ gap found n, Gap gap ∧ cs = gap ++ found ∧
      scanAt opening found = some (.token l.token, n) ∧
      l.span = ⟨offset + byteLength gap, offset + byteLength (gap ++ found.take n)⟩ ∧
      Cut l.span.stop false [] (found.drop n) ls := by
  generalize hall : l :: ls = all at h
  induction h with
  | done => cases hall
  | blank hblank _ ih =>
    rename_i c _ _ _
    obtain ⟨gap, found, n, hgap, rfl, hscan, hspan, hrest⟩ := ih hall
    refine ⟨c :: gap, found, n, hgap.blank hblank, rfl, hscan, ?_, hrest⟩
    rw [hspan]
    simp [Nat.add_assoc]
  | @comment _ _ _ c cs _ k _ hscan _ ih =>
    obtain ⟨gap, found, n, hgap, hcs, hfound, hspan, hrest⟩ := ih hall
    have hdash := Token.dash_of_scan (scan_of_scanAt (by simp) hscan)
    refine ⟨(c :: cs).take k ++ gap, found, n, .inr (List.mem_append_left _ hdash), ?_, hfound, ?_,
      hrest⟩
    · rw [List.append_assoc, ← hcs, List.take_append_drop]
    · rw [hspan]
      simp [Nat.add_assoc]
  | @token _ _ _ c cs _ _ n _ hscan hrest _ =>
    cases hall
    exact ⟨[], c :: cs, n, .nil, rfl, hscan, by simp, hrest⟩

/-- The tokens behind the first ones are those of the text behind them. -/
theorem drop {ls : List Lexeme} : ∀ (front : List Lexeme) {offset : Nat} {opening : Bool}
    {comments : List Comment} {cs : List Char}, Cut offset opening comments cs (front ++ ls) →
      ∃ opening' comments' passed rest, cs = passed ++ rest ∧
        Cut (offset + byteLength passed) opening' comments' rest ls
  | [], _, opening, comments, cs, h => ⟨opening, comments, [], cs, rfl, h⟩
  | _ :: front, offset, _, _, _, h => by
    obtain ⟨gap, found, n, -, rfl, -, hspan, hrest⟩ := h.uncons
    obtain ⟨opening', comments', passed, rest, hfound, hcut⟩ := drop front hrest
    refine ⟨opening', comments', gap ++ found.take n ++ passed, rest, ?_, ?_⟩
    · rw [List.append_assoc, List.append_assoc, ← hfound, List.take_append_drop]
    · rw [hspan] at hcut
      rw [byteLength_append _ passed, ← Nat.add_assoc]
      exact hcut

end Cut

/-- What is left of a gap that holds no dash. -/
theorem Gap.filter {cs : List Char} (h : Gap cs) (hdash : '-' ∉ cs) :
    cs.filter (fun c => !isBlank c) = [] := by
  have hblanks := h.resolve_right hdash
  refine List.filter_eq_nil_iff.mpr fun c hc => ?_
  have hblank : isBlank c = true := by
    have hlua := hblanks c hc
    unfold isLuaBlank at hlua
    unfold isBlank
    rcases Bool.or_eq_true_iff.mp hlua with hrange | hspace
    · simp [hrange]
    · simp [hspace]
  simp [hblank]

/-- A text is cut behind its byte order mark, if it has one. -/
theorem Lexeme.cut_of_ofChars {cs : List Char} {ls : List Lexeme}
    (h : Lexeme.ofChars cs = some ls) :
    ∃ mark rest opening comments, cs = mark ++ rest ∧
      Cut (byteLength mark) opening comments rest ls := by
  unfold Lexeme.ofChars at h
  split at h
  · exact ⟨['\uFEFF'], _, _, _, rfl, Cut.of_scanFrom h⟩
  · exact ⟨[], _, _, _, rfl, Cut.of_scanFrom h⟩

namespace Cut

/-- The tokens stand in the text, one behind another. -/
theorem apart : ∀ {ls : List Lexeme} {offset : Nat} {opening : Bool} {comments : List Comment}
    {cs : List Char}, Cut offset opening comments cs ls →
      ls.Pairwise (fun a b => a.span.stop ≤ b.span.start) ∧
        ∀ l ∈ ls, offset ≤ l.span.start ∧ l.span.start ≤ l.span.stop ∧
          l.span.stop ≤ offset + byteLength cs
  | [], _, _, _, _, _ => ⟨.nil, fun _ hl => by cases hl⟩
  | l :: ls, offset, _, _, _, h => by
    obtain ⟨gap, found, n, -, rfl, -, hspan, hrest⟩ := h.uncons
    obtain ⟨hapart, hbounds⟩ := apart hrest
    have hlength := byteLength_append (found.take n) (found.drop n)
    rw [List.take_append_drop] at hlength
    have hstart : l.span.start = offset + byteLength gap := by rw [hspan]
    have hstop : l.span.stop = offset + byteLength gap + byteLength (found.take n) := by
      rw [hspan, byteLength_append, Nat.add_assoc]
    refine ⟨.cons (fun l' hl' => (hbounds l' hl').1) hapart, List.forall_mem_cons.mpr ⟨?_, ?_⟩⟩
    · rw [byteLength_append]
      omega
    · intro l' hl'
      have hl' := hbounds l' hl'
      rw [byteLength_append]
      omega

end Cut

/-- A token ends in the text, and in front of every token that starts behind it. -/
theorem Lexeme.ofChars_apart {cs : List Char} {ls : List Lexeme} (h : Lexeme.ofChars cs = some ls)
    {l : Lexeme} (hl : l ∈ ls) :
    l.span.start ≤ l.span.stop ∧ l.span.stop ≤ byteLength cs ∧
      ∀ l' ∈ ls, l.span.start < l'.span.start → l.span.stop ≤ l'.span.start := by
  obtain ⟨mark, rest, opening, comments, rfl, hcut⟩ := Lexeme.cut_of_ofChars h
  obtain ⟨hapart, hbounds⟩ := hcut.apart
  refine ⟨(hbounds l hl).2.1, by rw [byteLength_append]; exact (hbounds l hl).2.2,
    fun l' hl' hlt => ?_⟩
  obtain ⟨j, hj, rfl⟩ := List.mem_iff_getElem.mp hl
  obtain ⟨k, hk, rfl⟩ := List.mem_iff_getElem.mp hl'
  rcases Nat.lt_trichotomy j k with hjk | rfl | hkj
  · exact List.pairwise_iff_getElem.mp hapart j k hj hk hjk
  · exact absurd hlt (Nat.lt_irrefl _)
  · have hbehind := List.pairwise_iff_getElem.mp hapart k j hk hj hkj
    have hbound := (hbounds _ hl').2.1
    omega

theorem byteLength_take_pos {cs : List Char} {n : Nat} (hn : 0 < n) (hcs : cs ≠ []) :
    0 < byteLength (cs.take n) := by
  obtain ⟨c, rest, rfl⟩ := List.exists_cons_of_ne_nil hcs
  obtain ⟨k, rfl⟩ : ∃ k, n = k + 1 := ⟨n - 1, by omega⟩
  have hpos : 0 < c.utf8Size := c.utf8Size_pos
  rw [List.take_succ_cons, byteLength_cons]
  omega

theorem Cut.linedUp : ∀ {ls : List Lexeme} {offset : Nat} {opening : Bool}
    {comments : List Comment} {cs : List Char}, Cut offset opening comments cs ls →
      Lexeme.LinedUp offset ls
  | [], _, _, _, _, _ => trivial
  | l :: ls, offset, opening, _, _, h => by
    obtain ⟨gap, found, n, -, rfl, hscan, hspan, hrest⟩ := h.uncons
    have hfound : found ≠ [] := by
      rintro rfl
      cases hscan
    have hpos := byteLength_take_pos (scanAt_pos hscan) hfound
    have hstart : l.span.start = offset + byteLength gap := by rw [hspan]
    have hstop : l.span.stop = offset + byteLength gap + byteLength (found.take n) := by
      rw [hspan, byteLength_append, Nat.add_assoc]
    exact ⟨by omega, by omega, fun _ => by omega, hrest.linedUp⟩

theorem Lexeme.linedUp {cs : List Char} {ls : List Lexeme} (h : Lexeme.ofChars cs = some ls) :
    LinedUp 0 ls := by
  obtain ⟨mark, rest, opening, comments, -, hcut⟩ := Lexeme.cut_of_ofChars h
  exact hcut.linedUp.le (Nat.zero_le _)

end LuaScope
