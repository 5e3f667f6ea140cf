import LuaScope.Proofs.Syntax.Gap
import LuaScope.Proofs.Syntax.Passage
import LuaScope.Proofs.Text.Segments

/-!
# LuaScope.Proofs.Syntax.Path

The text of a dotted path, from the first name to the last one.

Between its tokens stand blanks and comments. When the blanks are taken out a comment leaves its
dashes behind, and no name has any; so where all segments of what is left are names, there was no
comment, and the last segment is the last name without its blanks.
-/

namespace LuaScope

/-! ## The text of a path -/

/-- The names of a path, each but the first one behind a dot or a colon, with gaps around it. -/
inductive PathText : List Char → List Ident → Prop
  | name (ident : Ident) : PathText ident.name.toList [ident]
  | member {text : List Char} {path : List Ident} {gap gap' : List Char} {mark : Char}
    (ident : Ident) (front : PathText text path) (hgap : Gap gap) (hmark : mark = '.' ∨ mark = ':')
    (hgap' : Gap gap') :
    PathText (text ++ (gap ++ mark :: (gap' ++ ident.name.toList))) (path ++ [ident])

theorem PathText.ne_nil {text : List Char} {path : List Ident} (h : PathText text path) :
    path ≠ [] := by
  cases h with
  | name => exact List.cons_ne_nil _ _
  | member => exact List.append_ne_nil_of_right_ne_nil _ (List.cons_ne_nil _ _)

/-- The text of a path of one name is that name. -/
theorem PathText.eq_name {text : List Char} {ident : Ident} (h : PathText text [ident]) :
    text = ident.name.toList := by
  generalize hpath : [ident] = path at h
  cases h with
  | name ident' => rw [(List.cons.inj hpath).1]
  | member _ front _ _ _ =>
    have hlength := congrArg List.length hpath
    rw [List.length_append] at hlength
    exact absurd (List.length_eq_zero_iff.mp (Nat.succ.inj hlength).symm) front.ne_nil

/-- A path of more than one name has a mark in its text. -/
theorem PathText.mark_mem {text : List Char} {front : List Ident} {last : Ident}
    (h : PathText text (front ++ [last])) (hne : front ≠ []) :
    ∃ c ∈ text, (c = '.' ∨ c = ':') := by
  generalize hpath : front ++ [last] = path at h
  cases h with
  | name ident =>
    have hlength := congrArg List.length hpath
    rw [List.length_append] at hlength
    exact absurd (List.length_eq_zero_iff.mp (Nat.succ.inj hlength)) hne
  | member _ _ _ hmark _ => exact ⟨_, by simp, hmark⟩

/-- Tokens that spell a path stand for the text of the path. -/
theorem Spells.pathText {used : List Lexeme} {path : List Ident} (h : Spells used path) :
    ∀ {offset : Nat} {opening : Bool} {comments : List Comment} {cs : List Char}
      {behind : List Lexeme}, Cut offset opening comments cs (used ++ behind) →
      ∃ gap text rest first last, cs = gap ++ (text ++ rest) ∧ PathText text path ∧
        path.head? = some first ∧ path.getLast? = some last ∧
        first.span.start = offset + byteLength gap ∧
        last.span.stop = offset + byteLength (gap ++ text) ∧
        Cut last.span.stop false [] rest behind := by
  induction h with
  | @name l name hname =>
    intro offset opening comments cs behind hcut
    obtain ⟨gap, found, n, -, rfl, hscan, hspan, hrest⟩ := hcut.uncons
    rw [hname] at hscan
    have htext := (Token.scan_name (scan_of_scanAt (by simp) hscan)).1
    refine ⟨gap, name.toList, found.drop n, ⟨name, l.span⟩, ⟨name, l.span⟩, ?_,
      .name ⟨name, l.span⟩, rfl, rfl, ?_, ?_, hrest⟩
    · rw [htext, List.take_append_drop]
    · rw [hspan]
    · rw [hspan, htext]
  | @member used path m l name _ hmark hname ih =>
    intro offset opening comments cs behind hcut
    rw [List.append_assoc] at hcut
    obtain ⟨gap, text, rest, first, last, rfl, htext, hfirst, hlast, hstart, hstop, hcut⟩ := ih hcut
    obtain ⟨gap₁, found₁, n₁, hgap₁, rfl, hscan₁, hspan₁, hcut⟩ := hcut.uncons
    obtain ⟨gap₂, found₂, n₂, hgap₂, hfound, hscan₂, hspan₂, hrest⟩ := hcut.uncons
    rw [hname] at hscan₂
    have hword := (Token.scan_name (scan_of_scanAt (by simp) hscan₂)).1
    have hmember : found₁.take n₁ = ['.'] ∨ found₁.take n₁ = [':'] := by
      rcases hmark with hmark | hmark <;> rw [hmark] at hscan₁
      · exact Mark.scan_member (.inl rfl) (Token.scan_mark (scan_of_scanAt (by simp) hscan₁))
      · exact Mark.scan_member (.inr rfl) (Token.scan_mark (scan_of_scanAt (by simp) hscan₁))
    obtain ⟨mark, hmark, htake⟩ : ∃ mark, (mark = '.' ∨ mark = ':') ∧ found₁.take n₁ = [mark] := by
      rcases hmember with h | h
      · exact ⟨_, .inl rfl, h⟩
      · exact ⟨_, .inr rfl, h⟩
    have hfound₁ : found₁ = mark :: (gap₂ ++ (name.toList ++ found₂.drop n₂)) := by
      rw [← List.take_append_drop n₁ found₁, htake, hfound, hword, List.take_append_drop]
      rfl
    refine ⟨gap, text ++ (gap₁ ++ mark :: (gap₂ ++ name.toList)), found₂.drop n₂, first,
      ⟨name, l.span⟩, ?_, .member ⟨name, l.span⟩ htext hgap₁ hmark hgap₂, ?_,
      List.getLast?_concat, hstart, ?_, hrest⟩
    · rw [hfound₁]
      simp
    · rw [List.head?_append, hfirst]
      rfl
    · rw [hspan₂, hspan₁, hstop, htake, ← hword]
      simp [Nat.add_assoc]

theorem Spells.mem {used : List Lexeme} {path : List Ident} (h : Spells used path) :
    ∀ segment ∈ path, ∃ l ∈ used, l.token = .name segment.name ∧ l.span = segment.span := by
  induction h with
  | @name l _ hname =>
    intro segment hsegment
    rw [List.mem_singleton.mp hsegment]
    exact ⟨l, List.mem_cons_self, hname, rfl⟩
  | @member _ _ _ l _ _ _ hname ih =>
    intro segment hsegment
    rcases List.mem_append.mp hsegment with hsegment | hsegment
    · obtain ⟨l', hl', h⟩ := ih segment hsegment
      exact ⟨l', List.mem_append_left _ hl', h⟩
    · rw [List.mem_singleton.mp hsegment]
      exact ⟨l, by simp, hname, rfl⟩

/-- The front of a path is spelled by the first tokens. -/
theorem Spells.front {used : List Lexeme} {path : List Ident} (h : Spells used path) :
    ∀ {front behind : List Ident}, path = front ++ behind → front ≠ [] →
      ∃ used', used' <+: used ∧ Spells used' front := by
  induction h with
  | name hname =>
    intro front behind heq hne
    obtain ⟨ident, front, rfl⟩ := List.exists_cons_of_ne_nil hne
    obtain ⟨rfl, hnil⟩ := List.cons.inj heq
    obtain rfl := (List.append_eq_nil_iff.mp hnil.symm).1
    exact ⟨_, List.prefix_refl _, .name hname⟩
  | member whole hmark hname ih =>
    intro front behind heq hne
    rcases List.eq_nil_or_concat behind with rfl | ⟨behind, last, rfl⟩
    · rw [List.append_nil] at heq
      subst heq
      exact ⟨_, List.prefix_refl _, .member whole hmark hname⟩
    · rw [List.concat_eq_append, ← List.append_assoc] at heq
      obtain ⟨used', hprefix, hspells⟩ := ih (List.append_inj' heq rfl).1 hne
      exact ⟨used', hprefix.trans (List.prefix_append _ _), hspells⟩

namespace Written

variable {cs : List Char} {ls : List Lexeme} {path : List Ident}

theorem front {front behind : List Ident} (h : Written ls (.path (front ++ behind)))
    (hne : front ≠ []) : Written ls (.path front) := by
  obtain ⟨used, hused, hspells⟩ := h
  obtain ⟨used', hprefix, hfront⟩ := hspells.front rfl hne
  exact ⟨used', hprefix.isInfix.trans hused, hfront⟩

/-- The names of a path are what the text holds at their spans. -/
theorem slice (hls : Lexeme.ofChars cs = some ls) (h : Written ls (.path path)) :
    ∀ segment ∈ path,
      takeBytes (dropBytes cs segment.span.start) (segment.span.stop - segment.span.start) =
        segment.name.toList ∧
      (∀ c ∈ segment.name.toList, isNameChar c = true) ∧ segment.name.toList ≠ [] := by
  obtain ⟨used, hused, hspells⟩ := h
  intro segment hsegment
  obtain ⟨l, hl, htoken, hspan⟩ := hspells.mem segment hsegment
  have hl := hused.subset hl
  have hstands := Lexeme.ofChars_slice hls l hl segment.name htoken
  rw [hspan] at hstands
  obtain ⟨mark, rest, opening, comments, rfl, hcut⟩ := Lexeme.cut_of_ofChars hls
  obtain ⟨c, _, rest, _, hname, -⟩ := hcut.names l hl segment.name htoken
  exact ⟨hstands.1, hstands.2, by simp [hname]⟩

/-- A path that is written covers a stretch of the text, from its first name to its last one. -/
theorem stretch (hls : Lexeme.ofChars cs = some ls) (h : Written ls (.path path)) :
    ∃ front word rest first last, cs = front ++ (word ++ rest) ∧ PathText word path ∧
      path.head? = some first ∧ path.getLast? = some last ∧
      first.span.start = byteLength front ∧
      last.span.stop = byteLength front + byteLength word := by
  obtain ⟨used, ⟨before, behind, rfl⟩, hspells⟩ := h
  obtain ⟨mark, rest, opening, comments, rfl, hcut⟩ := Lexeme.cut_of_ofChars hls
  rw [List.append_assoc] at hcut
  obtain ⟨opening', comments', passed, rest, rfl, hused⟩ := Cut.drop before hcut
  obtain ⟨gap, word, rest, first, last, rfl, htext, hfirst, hlast, hstart, hstop, -⟩ :=
    hspells.pathText hused
  refine ⟨mark ++ passed ++ gap, word, rest, first, last, by simp, htext, hfirst, hlast, ?_, ?_⟩
  · rw [hstart]
    simp [Nat.add_assoc]
  · rw [hstop]
    simp [Nat.add_assoc]

/-- A path that is written stands in the text between its first name and its last one. -/
theorem pathText (hls : Lexeme.ofChars cs = some ls) (h : Written ls (.path path)) :
    ∃ first last, path.head? = some first ∧ path.getLast? = some last ∧
      PathText (takeBytes (dropBytes cs first.span.start) (last.span.stop - first.span.start))
        path := by
  obtain ⟨front, word, rest, first, last, rfl, htext, hfirst, hlast, hstart, hstop⟩ :=
    h.stretch hls
  refine ⟨first, last, hfirst, hlast, ?_⟩
  rw [hstart, hstop, slice_append]
  exact htext

end Written

/-! ## Its segments -/

/-- A dash is in one of the segments. -/
theorem dash_mem_pathSegments {cs : List Char} (hblank : ∀ c ∈ cs, isBlank c = false)
    (hdash : '-' ∈ cs) : ∃ segment ∈ pathSegments cs, '-' ∈ segment := by
  have hflat := flatten_splitWhere (fun c => c == '.' || c == ':') cs
  have hmem : '-' ∈ (splitWhere (fun c => c == '.' || c == ':') cs).flatten := by
    rw [hflat]
    exact List.mem_filter.mpr ⟨hdash, by decide⟩
  obtain ⟨piece, hpiece, hin⟩ := List.mem_flatten.mp hmem
  have hplain : ∀ c ∈ piece, isBlank c = false := by
    intro c hc
    have hc : c ∈ (splitWhere (fun c => c == '.' || c == ':') cs).flatten :=
      List.mem_flatten.mpr ⟨piece, hpiece, hc⟩
    rw [hflat] at hc
    exact hblank c (List.mem_filter.mp hc).1
  refine ⟨piece, List.mem_filter.mpr ⟨?_, by simpa using List.ne_nil_of_mem hin⟩, hin⟩
  exact List.mem_map.mpr ⟨piece, hpiece, trimBlanks_eq hplain⟩

/-- If all segments of the text without blanks are names, the last one is the name that ends the
path. -/
theorem PathText.getLast_segments {text : List Char} {path : List Ident} {last : Ident}
    (h : PathText text path) (hlast : path.getLast? = some last) (hne : last.name.toList ≠ [])
    (hname : ∀ c ∈ last.name.toList, isNameChar c = true)
    (hblank : ∀ c ∈ last.name.toList, isBlank c = false)
    (hsegments : ∀ segment ∈ pathSegments (text.filter fun c => !isBlank c),
      ∀ c ∈ segment, isNameChar c = true) :
    (pathSegments (text.filter fun c => !isBlank c)).getLast? = some last.name.toList := by
  have hdash : '-' ∉ text := by
    intro hmem
    have hmem : '-' ∈ text.filter fun c => !isBlank c :=
      List.mem_filter.mpr ⟨hmem, by decide⟩
    obtain ⟨segment, hsegment, hin⟩ := dash_mem_pathSegments
      (fun c hc => by simpa using (List.mem_filter.mp hc).2) hmem
    exact absurd (hsegments segment hsegment _ hin) (by decide)
  have hwhole : last.name.toList.filter (fun c => !isBlank c) = last.name.toList :=
    List.filter_eq_self.mpr fun c hc => by simp [hblank c hc]
  cases h with
  | name ident =>
    obtain rfl : ident = last := Option.some.inj hlast
    rw [hwhole, pathSegments_name hne hname hblank]
    rfl
  | @member _ _ _ _ mark ident front hgap hmark hgap' =>
    obtain rfl := Option.some.inj (List.getLast?_concat.symm.trans hlast)
    simp only [List.mem_append, List.mem_cons, not_or] at hdash
    have hnotBlank : isBlank mark = false := by
      rcases hmark with rfl | rfl <;> decide
    rw [List.filter_append, List.filter_append, hgap.filter hdash.2.1, List.nil_append,
      List.filter_cons_of_pos (by simp [hnotBlank]), List.filter_append,
      hgap'.filter hdash.2.2.2.1, List.nil_append, hwhole, pathSegments_append hmark,
      pathSegments_name hne hname hblank, List.getLast?_concat]

end LuaScope
