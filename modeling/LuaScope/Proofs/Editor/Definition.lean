import LuaScope.Editor.Navigate
import LuaScope.Proofs.Text.Lines
import LuaScope.Proofs.Text.Replace
import LuaScope.Proofs.Workspace.History

/-!
# LuaScope.Proofs.Editor.Definition

Where a definition is found stands the name that was looked for, in the text of the index that was
taken in when the module was required.

* `Index.Faithful.textAt`          — a symbol has its name at its range.
* `definition_stands_when_indexed` — the places that are given for definitions, over all runs of
  updates.
-/

namespace LuaScope

/-! ## The text at a range -/

/-- The text that a range covers. -/
def Index.textAt (i : Index) (r : Range) : String :=
  String.ofList (i.source.slice ⟨i.offset r.start, i.offset r.stop⟩)

/-- The range of a span covers what the span covers, also where the span is longer than the text. -/
theorem Source.slice_range (text : String) (span : Span) :
    let source := Source.ofString text
    source.slice ⟨source.lines.offset (source.range span).start,
      source.lines.offset (source.range span).stop⟩ = source.slice span := by
  intro source
  have hoffset : ∀ o, source.lines.offset (source.lines.position o) =
      min o (byteLength text.toList) := LineTable.offset_position_eq_min text.toList
  simp only [Source.slice, Source.range, LineTable.range, hoffset]
  show takeBytes (dropBytes text.toList _) _ = takeBytes (dropBytes text.toList _) _
  rcases Nat.le_total (byteLength text.toList) span.start with hstart | hstart
  · rw [Nat.min_eq_right hstart, dropBytes_of_le hstart, dropBytes_of_le (Nat.le_refl _),
      takeBytes_nil, takeBytes_nil]
  · rw [Nat.min_eq_left hstart]
    rcases Nat.le_total (byteLength text.toList) span.stop with hstop | hstop
    · have hleft := byteLength_dropBytes_le text.toList span.start
      rw [Nat.min_eq_right hstop, takeBytes_of_le hleft,
        takeBytes_of_le (Nat.le_trans hleft (Nat.sub_le_sub_right hstop _))]
    · rw [Nat.min_eq_left hstop]

namespace Index

variable {D : Demand} {i : Index} {id : SymbolId} {x : Symbol}

/-- A symbol has its name at its range; the implied `self` of a method has none there. -/
theorem Faithful.textAt (h : i.Faithful D) (hx : i.symbol? id = some x) :
    (x.name = "self" ∧ x.span.isEmpty = true) ∨ i.textAt x.range = x.name := by
  refine (h.symbols hx).imp_right ?_
  rintro ⟨hslice, hrange⟩
  have hsame : i.source.slice ⟨i.offset x.range.start, i.offset x.range.stop⟩ =
      i.source.slice x.span := by
    rw [hrange]
    unfold Index.offset
    rw [h.source]
    exact Source.slice_range _ _
  rw [Index.textAt, hsame, hslice, String.ofList_toList]

end Index

/-! ## Definitions -/

/-- The symbol is one of the index and has this name, which stands at the location in the text of
the index; the implied `self` of a method is given the parameters of the method for its place. -/
structure Location.Names (loc : Location) (i : Index) (name : String) : Prop where
  document : i.document = loc.document
  symbol : ∃ id x, i.symbol? id = some x ∧ x.name = name ∧ x.range = loc.range ∧
    ((x.name = "self" ∧ x.span.isEmpty = true) ∨ i.textAt loc.range = name)

namespace Documents

/-- A definition is found at the symbol that the expression at the position is resolved to. -/
theorem exists_of_mem_definitions {d : Documents} {document : DocumentId} {position : Position}
    {loc : Location} (h : loc ∈ d.definitions document position) :
    ∃ index excerpt handle x, d.get document = some index ∧
      expressionAt index.source.chars (index.offset position) = some excerpt ∧
      (index.resolve (String.ofList excerpt.text)
        (index.offset (index.source.range excerpt.span).start)).first? = some handle ∧
      handle.symbol? = some x ∧ loc = ⟨handle.document, x.range⟩ := by
  unfold definitions at h
  split at h
  · cases h
  · rename_i index hindex
    split at h
    · cases h
    · rename_i excerpt hexcerpt
      dsimp only at h
      split at h
      · cases h
      · rename_i handle hhandle
        rw [resolve, hindex] at hhandle
        split at h
        · rename_i x hx
          exact ⟨index, excerpt, handle, x, hindex, hexcerpt, hhandle, hx, List.mem_singleton.mp h⟩
        · cases h

/--
Of a document that was indexed after the updates `us` and not updated since: every place that is
given for a definition is one at which the name that was looked for stood in an index that was
published then or before, and its document still has a published index. That is the same one if the
document was not updated since, or if the definition is found without leaving the index that was
asked.
-/
theorem definition_stands_when_indexed (m : ModuleSource) (options : ParserOptions)
    {us vs : List Contents} {document : DocumentId} {position : Position} {loc : Location}
    (hindexed : ((updated m options us).get document).isSome)
    (hkept : ∀ v ∈ vs, v.document ≠ document)
    (hloc : loc ∈ (updated m options (us ++ vs)).definitions document position) :
    ∃ asked excerpt name earlier later seen current,
      (updated m options (us ++ vs)).get document = some asked ∧
      expressionAt asked.source.chars (asked.offset position) = some excerpt ∧
      (splitPath (String.ofList excerpt.text)).getLast? = some name ∧
      us = earlier ++ later ∧ (updated m options earlier).get loc.document = some seen ∧
      loc.Names seen name ∧
      (updated m options (us ++ vs)).get loc.document = some current ∧
      (seen = asked ∨ (∀ v ∈ later ++ vs, v.document ≠ loc.document) → current = seen) := by
  obtain ⟨index, excerpt, handle, x, hget, hexcerpt, hresolve, hx, rfl⟩ :=
    exists_of_mem_definitions hloc
  obtain ⟨asked, hasked⟩ := Option.isSome_iff_exists.mp hindexed
  obtain rfl : asked = index :=
    Option.some.inj ((get_updated_append hasked hkept).symm.trans hget)
  obtain ⟨howned, htraced⟩ := get_traced hasked
  obtain ⟨hhandle, y, hy, hname⟩ := htraced.of_resolve hresolve
  cases hx.symm.trans hy
  obtain ⟨earlier, later, rfl, hseen⟩ := hhandle.holds
  have hsome := isSome_get_updated_append (Option.isSome_iff_exists.mpr ⟨_, hseen⟩) (later ++ vs)
  rw [← List.append_assoc] at hsome
  obtain ⟨current, hcurrent⟩ := Option.isSome_iff_exists.mp hsome
  refine ⟨asked, excerpt, x.name, earlier, later, handle.index, current, hget, hexcerpt, hname, rfl,
    hseen, ⟨rfl, handle.id, x, hx, rfl, rfl, hhandle.faithful.textAt hx⟩, hcurrent, fun h => ?_⟩
  rcases h with heq | hnone
  · have hdoc : handle.index.document = document := by rw [heq, howned]
    rw [hdoc, hget] at hcurrent
    exact (Option.some.inj hcurrent).symm.trans heq.symm
  · have hsame := get_updated_append hseen hnone
    rw [← List.append_assoc] at hsame
    exact Option.some.inj (hcurrent.symm.trans hsame)

/-- The module is edited after it was required; the place is that of its first text. -/
theorem definition_stood_in_first_text :
    let files : FileTree := ⟨[(["ws"], .directory),
      (["ws", "m.lua"], .file (some "return {f = 1}"))], []⟩
    let catalog := ((({} : Catalog).configure files ["/ws"] [] false).rescan files).2
    let m : ModuleSource := ⟨some catalog, files⟩
    let main : Contents := ⟨⟨"file:///main.lua"⟩, "local m = require('m') print(m.f)"⟩
    let edit : Contents := ⟨⟨"file:///ws/m.lua"⟩, "local n = 0 return {f = n}"⟩
    let loc : Location := ⟨edit.document, ⟨⟨0, 8⟩, ⟨0, 9⟩⟩⟩
    loc ∈ (updated m {} [main, edit]).definitions main.document ⟨0, 31⟩ ∧
      ∃ seen, (updated m {} [main]).get edit.document = some seen ∧ loc.Names seen "f" := by
  intro files catalog m main edit loc
  have hloc : loc ∈ (updated m {} ([main] ++ [edit])).definitions main.document ⟨0, 31⟩ := by
    decide +kernel
  have hindexed : ((updated m {} [main]).get main.document).isSome := by decide +kernel
  have hname : ∀ asked ∈ (updated m {} ([main] ++ [edit])).get main.document,
      ∀ excerpt ∈ expressionAt asked.source.chars (asked.offset ⟨0, 31⟩),
        (splitPath (String.ofList excerpt.text)).getLast? = some "f" := by decide +kernel
  obtain ⟨asked, excerpt, name, earlier, later, seen, _, hasked, hexcerpt, hlast, hsplit, hseen,
    hnames, -⟩ := definition_stands_when_indexed m {} hindexed (by decide) hloc
  cases (hname asked hasked excerpt hexcerpt).symm.trans hlast
  cases earlier with
  | nil => cases hseen
  | cons u earlier =>
    obtain ⟨rfl, hnil⟩ := List.cons.inj hsplit
    obtain ⟨rfl, rfl⟩ := List.append_eq_nil_iff.mp hnil.symm
    exact ⟨hloc, seen, hseen, hnames⟩

/-- The document that required the module is not built again when the module is edited, so it still
has the place in the first text; and the implied `self` has no place of its own. -/
theorem definition_outlives_text :
    let files : FileTree := ⟨[(["ws"], .directory),
      (["ws", "m.lua"], .file (some "return {f = 1}"))], []⟩
    let catalog := ((({} : Catalog).configure files ["/ws"] [] false).rescan files).2
    let m : ModuleSource := ⟨some catalog, files⟩
    let main : Contents := ⟨⟨"file:///main.lua"⟩, "local m = require('m') print(m.f)"⟩
    let edit : Contents := ⟨⟨"file:///ws/m.lua"⟩, "local n = 0 return {f = n}"⟩
    let method : Contents := ⟨⟨"file:///t.lua"⟩, "local t = {} function t:m() print(self) end"⟩
    let d := updated m {} [main, edit, method]
    let textAt (loc : Location) : Option String := (d.get loc.document).map (·.textAt loc.range)
    d.definitions main.document ⟨0, 31⟩ = [⟨edit.document, ⟨⟨0, 8⟩, ⟨0, 9⟩⟩⟩] ∧
      textAt ⟨edit.document, ⟨⟨0, 8⟩, ⟨0, 9⟩⟩⟩ = some "=" ∧
      d.definitions method.document ⟨0, 34⟩ = [⟨method.document, ⟨⟨0, 25⟩, ⟨0, 27⟩⟩⟩] ∧
      textAt ⟨method.document, ⟨⟨0, 25⟩, ⟨0, 27⟩⟩⟩ = some "()" := by
  decide +kernel

end Documents

end LuaScope
