import LuaScope.Proofs.Editor.Rename
import LuaScope.Proofs.Text.Replace

/-!
# LuaScope.Proofs.Editor.Edited

The text that an editor has after it made the edits it was given.
-/

namespace LuaScope

/-- The span that an edit replaces, with what stands there afterwards. -/
def TextEdit.replacement (source : Source) (e : TextEdit) : Span × List Char :=
  (⟨source.lines.offset e.range.start, source.lines.offset e.range.stop⟩, e.newText.toList)

/-- The text with these edits made, given in the order of their places. -/
def Source.edited (source : Source) (edits : List TextEdit) : String :=
  String.ofList (replaceFrom source.chars 0 (edits.map (TextEdit.replacement source)))

/-- The path `a.b` leads to the member of the inner `a`, through a late look at its text, while the
`a` in it leads to the outer one and keeps its name; so after the rename of the inner `a` the path
leads nowhere. -/
theorem rename_detaches_late_path :
    let file : DocumentId := ⟨"file:///a.lua"⟩
    let index := Index.buildAlone file 1 "local a = {} do print(a.b) local a = {b = 1} end" {}
    let d : Documents := { slots := [(file, ⟨1, 1, some index⟩)] }
    let targets (i : Index) : List (Option SymbolId) :=
      i.references.toList.map fun r => r.target.map (·.id)
    ∃ edit, d.rename file ⟨0, 34⟩ "y" = .ok (some edit) ∧
      index.source.edited edit.edits = "local a = {} do print(a.b) local y = {b = 1} end" ∧
      targets index = [none, some 0, some 1] ∧
      targets (Index.buildAlone file 2 (index.source.edited edit.edits) {}) =
        [none, some 0, none] := by
  intro file index d targets
  have hrename : d.rename file ⟨0, 34⟩ "y" =
      .ok (some ⟨file, [⟨⟨⟨0, 33⟩, ⟨0, 34⟩⟩, "y"⟩]⟩) := by decide +kernel
  have hedited : index.source.edited [⟨⟨⟨0, 33⟩, ⟨0, 34⟩⟩, "y"⟩] =
      "local a = {} do print(a.b) local y = {b = 1} end" := by decide +kernel
  have hbefore : targets index = [none, some 0, some 1] := by decide +kernel
  have hafter : targets (Index.buildAlone file 2
      "local a = {} do print(a.b) local y = {b = 1} end" {}) = [none, some 0, none] := by
    decide +kernel
  clear_value index targets
  refine ⟨_, hrename, hedited, hbefore, ?_⟩
  rw [hedited]
  exact hafter

end LuaScope
