import LuaScope.Proofs.Editor.Edits
import LuaScope.Proofs.Renaming.Text

/-!
# LuaScope.Proofs.Editor.Reparsed

The text that a rename leaves is read as the tree of the text before, with the new name in the
places that were edited and all spans moved (`Documents.rename_reparsed`).
-/

namespace LuaScope

variable {σ : Type}

theorem isNameChar_of_isWordChar {c : Char} (h : isWordChar c = true) : isNameChar c = true := by
  cases hc : isNameChar c with
  | true => rfl
  | false =>
    have hletter := isAlphanum_of_not_isNameChar hc
    have hne : c ≠ '_' := ne_of_not_isNameChar hc (by decide)
    simp [isWordChar, hletter, hne] at h

theorem Renaming.writable_of_isValidIdentifier {ρ : Renaming}
    (hvalid : isValidIdentifier ρ.new = true) (hnew : ρ.new ≠ "global") (hold : ρ.old ≠ "global") :
    ρ.Writable := by
  unfold isValidIdentifier at hvalid
  split at hvalid
  · cases hvalid
  · rename_i c cs hchars
    simp only [Bool.and_eq_true, Bool.not_eq_true', List.all_eq_true, Option.isNone_iff_eq_none]
      at hvalid
    obtain ⟨⟨⟨hword, hdigit⟩, hwords⟩, hkeyword⟩ := hvalid
    refine ⟨⟨c, cs, hchars, ?_, fun d hd => isNameChar_of_isWordChar (hwords d hd)⟩, ?_, hkeyword,
      hnew, hold⟩
    · rw [isNameStart, isNameChar_of_isWordChar hword, hdigit]
      rfl
    · rw [hchars]
      intro heq
      cases heq
      cases hword

/-- A name takes the bytes of its letters. -/
theorem Lexeme.span_of_name {cs : List Char} {ls : List Lexeme} (h : Lexeme.ofChars cs = some ls)
    {l : Lexeme} (hl : l ∈ ls) {name : String} (hname : l.token = .name name) :
    l.span = ⟨l.span.start, l.span.start + byteLength name.toList⟩ := by
  obtain ⟨mark, rest, opening, comments, -, hcut⟩ := Lexeme.cut_of_ofChars h
  obtain ⟨-, front, -, -, -, -, -, hspan, -⟩ := hcut.names l hl name hname
  rw [hspan, byteLength_append, Nat.add_assoc]

namespace Index

variable {document : DocumentId} {revision : Revision} {text : String} {options : ParserOptions}
  {loader : Loader σ} {world : σ} {chunk : Chunk}

/-- What a rename does to the names of a text. -/
def renamingOf (i : Index) (x : Symbol) (name : String) : Renaming where
  starts := (i.renameEdits x name).map fun e => (e.replacement i.source).1.start
  old := x.name
  new := name

/-- The text with a symbol renamed has the renamed tree. The names in the text hold no blanks, so
that each reference leads to a symbol of its own name. -/
theorem ofChars?_edited (htext : Chunk.ofChars? text.toList = some chunk) {ls : List Lexeme}
    (hls : Lexeme.ofChars text.toList = some ls)
    (hplain : ∀ l ∈ ls, ∀ word, l.token = .name word → ∀ c ∈ word.toList, isBlank c = false)
    (hnumerals : NumeralsApart text.toList 0 ls) {id : SymbolId} {x : Symbol}
    (hx : (Index.build document revision text options loader world).1.symbol? id = some x)
    (hspan : x.span.isEmpty = false) {name : String}
    (hwritable : ((Index.build document revision text options loader world).1.renamingOf x
      name).Writable) :
    let i := (Index.build document revision text options loader world).1
    Chunk.ofChars? (i.source.edited (i.renameEdits x name)).toList =
      some ((i.renamingOf x name).chunk chunk) := by
  intro i
  have hsource : i.source = .ofString text := build_source _ _ _ _ _ _
  have hfaithful : i.Faithful .none := build_faithful_alone _ _ _ _ _ _
  have hstands := hfaithful.stands hx (symbol_id htext hx) hspan
  have hsub := stands_sublist hx
  obtain ⟨-, hapart, hedits⟩ := renameEdits_stand htext hx hspan name
  -- Each edit stands on a token of the old name.
  have htoken : ∀ e ∈ i.renameEdits x name, e.newText = name ∧
      ∃ l ∈ ls, l.span = (e.replacement i.source).1 ∧ l.token = .name x.name := by
    intro e he
    obtain ⟨hnew, o, ho, -, hcovers⟩ := hedits e he
    obtain ⟨hospan, -, hname⟩ := hstands o ho
    obtain ⟨l, hl, hlspan, word, hword⟩ := occurrence_token htext (hsub.subset ho) hospan hls
    obtain ⟨hslice, -⟩ := Lexeme.ofChars_slice hls l hl word hword
    have hslice : i.source.slice o.span = word.toList := by
      rw [hsource, ← hlspan]
      exact hslice
    rw [hslice, String.ofList_toList] at hname
    exact ⟨hnew, l, hl, hlspan.trans hcovers.symm, hname (hplain l hl word hword) ▸ hword⟩
  have hreplace : (i.renameEdits x name).map (TextEdit.replacement i.source) =
      (i.renamingOf x name).starts.map (i.renamingOf x name).edit := by
    rw [renamingOf, List.map_map]
    refine List.map_congr_left fun e he => ?_
    obtain ⟨hnew, l, hl, hlspan, hname⟩ := htoken e he
    have hwidth := Lexeme.span_of_name hls hl hname
    rw [hlspan] at hwidth
    exact Prod.ext hwidth (congrArg String.toList hnew)
  have hascending : (i.renamingOf x name).starts.Pairwise (· < ·) := by
    refine List.pairwise_map.mpr (hapart.imp_of_mem fun {a b} ha _ hab => ?_)
    obtain ⟨-, o, ho, -, hcovers⟩ := hedits a ha
    obtain ⟨-, hlt, -⟩ := occurrences_apart htext (hsub.subset ho) (hsub.subset ho)
      (hstands o ho).1 (hstands o ho).1
    rw [hcovers] at hab ⊢
    exact Nat.lt_of_lt_of_le hlt hab
  have hnamed : ∀ m ∈ (i.renamingOf x name).starts, ∃ l ∈ ls, l.span.start = m ∧
      l.token = .name (i.renamingOf x name).old := by
    intro m hm
    obtain ⟨e, he, rfl⟩ := List.mem_map.mp hm
    obtain ⟨-, l, hl, hlspan, hname⟩ := htoken e he
    exact ⟨l, hl, congrArg Span.start hlspan, hname⟩
  obtain ⟨hlexemes, hkeeps⟩ := Renaming.ofChars_renamed hwritable hls hascending hnamed hnumerals
  obtain ⟨ls', hls', htree⟩ := Chunk.ofChars?_eq_some_iff.mp htext
  obtain rfl : ls = ls' := Option.some.inj (hls.symm.trans hls')
  rw [Source.edited, hreplace, String.toList_ofList, hsource]
  exact Chunk.ofChars?_eq_some_iff.mpr ⟨_, hlexemes, Renaming.ofLexemes?_map hkeeps htree⟩

end Index

/--
After a rename the text is read as the tree that it had, in which the edited places have the new
name. Neither name is `global`, which the grammar reads as a word of its own; in the text no name
has a blank in it, and none stands directly behind a numeral.
-/
theorem Documents.rename_reparsed {d : Documents} {document : DocumentId} {revision : Revision}
    {text : String} {options : ParserOptions} {loader : Loader σ} {world : σ} {position : Position}
    {name : String} {edit : DocumentEdit} {handle : Handle} {x : Symbol} {ls : List Lexeme}
    (hget : d.get document = some (Index.build document revision text options loader world).1)
    (hrename : d.rename document position name = .ok (some edit))
    (hunder : (Index.build document revision text options loader world).1.symbolUnder position =
      some handle)
    (hown : handle.index = (Index.build document revision text options loader world).1)
    (hx : handle.symbol? = some x) (hnew : name ≠ "global") (hold : x.name ≠ "global")
    (hls : Lexeme.ofChars text.toList = some ls)
    (hplain : ∀ l ∈ ls, ∀ word, l.token = .name word → ∀ c ∈ word.toList, isBlank c = false)
    (hnumerals : NumeralsApart text.toList 0 ls) :
    let i := (Index.build document revision text options loader world).1
    ∃ chunk, Chunk.ofChars? text.toList = some chunk ∧
      Chunk.ofChars? (i.source.edited edit.edits).toList =
        some ((i.renamingOf x name).chunk chunk) := by
  intro i
  obtain ⟨hvalid, index, handle', x', hindex, hparsed, hunder', -, -, hx', hspan, rfl⟩ :=
    rename_eq_some_iff.mp hrename
  obtain rfl : i = index := Option.some.inj (hget.symm.trans hindex)
  obtain rfl : handle = handle' := Option.some.inj (hunder.symm.trans hunder')
  obtain rfl : x = x' := Option.some.inj (hx.symm.trans hx')
  obtain ⟨chunk, htext⟩ := Index.parsed_of_build hparsed
  rw [Handle.symbol?, hown] at hx
  have hwritable : (i.renamingOf x name).Writable :=
    Renaming.writable_of_isValidIdentifier hvalid hnew hold
  exact ⟨chunk, htext, Index.ofChars?_edited htext hls hplain hnumerals hx hspan hwritable⟩

/-- The local and its use get a longer name, and everything behind them moves. -/
theorem Documents.rename_reparsed_longer :
    let file : DocumentId := ⟨"file:///a.lua"⟩
    let text := "local x = 1 print(x)"
    let i := (Index.build file 1 text {} Loader.none ()).1
    let d : Documents := { slots := [(file, ⟨1, 1, some i⟩)] }
    ∃ edit, d.rename file ⟨0, 18⟩ "total" = .ok (some edit) ∧
      i.source.edited edit.edits = "local total = 1 print(total)" ∧
      ∃ x ∈ i.symbol? 0, ∃ chunk, Chunk.ofChars? text.toList = some chunk ∧
        Chunk.ofChars? (i.source.edited edit.edits).toList =
          some ((i.renamingOf x "total").chunk chunk) := by
  intro file text i d
  have hget : d.get file = some i := by simp [get, slot?, d]
  have hexcerpt : expressionAt i.source.chars (i.offset ⟨0, 18⟩) = some ⟨['x'], ⟨18, 19⟩⟩ := by
    decide +kernel
  have hlookup : i.table.lookup (i.scopeAt 18) "x" 18 = some 0 := by decide +kernel
  have hunder : i.symbolUnder ⟨0, 18⟩ = some ⟨i, 0⟩ :=
    Index.symbolUnder_name hexcerpt (by decide +kernel) hlookup
  have hsymbol : ∃ x ∈ i.symbol? 0, x.span.isEmpty = false ∧ x.name = "x" ∧
      x.range :: (i.referencesTo x.id).map ReferenceOver.range =
        [⟨⟨0, 6⟩, ⟨0, 7⟩⟩, ⟨⟨0, 18⟩, ⟨0, 19⟩⟩] := by decide +kernel
  obtain ⟨x, hx, hspan, hname, hranges⟩ := hsymbol
  have hrename : d.rename file ⟨0, 18⟩ "total" = .ok (some ⟨file, i.renameEdits x "total"⟩) :=
    rename_own (by decide) hget (Index.build_document _ _ _ _ _ _) (by decide +kernel) hunder hx
      hspan
  have hedits : i.renameEdits x "total" =
      [⟨⟨⟨0, 6⟩, ⟨0, 7⟩⟩, "total"⟩, ⟨⟨⟨0, 18⟩, ⟨0, 19⟩⟩, "total"⟩] := by
    simp only [Index.renameEdits, hranges]
    rw [List.mergeSort_of_pairwise (by decide)]
    decide
  have hedited : i.source.edited [⟨⟨⟨0, 6⟩, ⟨0, 7⟩⟩, "total"⟩, ⟨⟨⟨0, 18⟩, ⟨0, 19⟩⟩, "total"⟩] =
      "local total = 1 print(total)" := by decide +kernel
  have hlexemes : ∃ ls ∈ Lexeme.ofChars text.toList,
      ls.map Lexeme.token = [.keyword .local, .name "x", .mark .assign, .number, .name "print",
        .mark .leftParen, .name "x", .mark .rightParen] ∧
      ls.filter (fun l => l.token = .number) = [⟨.number, ⟨10, 11⟩, []⟩] := by decide +kernel
  obtain ⟨ls, hls, htokens, hnumbers⟩ := hlexemes
  have hplain : ∀ l ∈ ls, ∀ word, l.token = .name word → ∀ c ∈ word.toList, isBlank c = false := by
    intro l hl word hword
    have hmem : Token.name word ∈ ls.map Lexeme.token := hword ▸ List.mem_map_of_mem hl
    have hwords : word = "x" ∨ word = "print" ∨ word = "x" := by simpa [htokens] using hmem
    rcases hwords with rfl | rfl | rfl <;> simp [isBlank]
  have hnumerals : NumeralsApart text.toList 0 ls := by
    intro l hl hnumber front c behind htext hstop
    have hmem : l ∈ ls.filter (fun l => l.token = .number) := by simp [hl, hnumber]
    obtain rfl : l = ⟨.number, ⟨10, 11⟩, []⟩ := by simpa [hnumbers] using hmem
    have hbehind : dropBytes text.toList (byteLength front) = c :: behind := by
      rw [htext, dropBytes_append]
    rw [← Nat.zero_add (byteLength front), ← hstop] at hbehind
    have hspace : (dropBytes text.toList 11).head? = some ' ' := by decide +kernel
    obtain rfl : c = ' ' := by simpa [hbehind] using hspace
    rfl
  refine ⟨_, hrename, ?_, x, hx, ?_⟩
  · rw [hedits]
    exact hedited
  · exact rename_reparsed hget hrename hunder rfl hx (by decide) (by rw [hname]; decide) hls
      hplain hnumerals

end LuaScope
