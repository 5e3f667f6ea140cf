import LuaScope.Text.Cursor
import LuaScope.Workspace.Documents

/-!
# LuaScope.Editor.Rename

Renaming a symbol that is defined in the document at hand: edits for its name and for every
reference that leads to it.
-/

namespace LuaScope

inductive RenameError where
  | invalidName (name : String)
  | invalidExpression
  | notIndexed
  | notLocallyDefined
deriving Repr, DecidableEq

namespace RenameError

/-- The numbers that editors know. -/
def code : RenameError → Int
  | .invalidName _ => -9
  | .invalidExpression => -8
  | .notIndexed => -7
  | .notLocallyDefined => -6

def message : RenameError → String
  | .invalidName name => "invalid newName \"" ++ name ++ "\""
  | .invalidExpression => "invalid expression"
  | .notIndexed => "document parse failed"
  | .notLocallyDefined => "rename can only apply to local defined variables"

end RenameError

structure TextEdit where
  range : Range
  newText : String
deriving Repr, DecidableEq

structure DocumentEdit where
  document : DocumentId
  edits : List TextEdit
deriving Repr, DecidableEq

/-- A name that can be written into a text: ASCII letters, digits and underscores, no digit in
front and no keyword. -/
def isValidIdentifier (name : String) : Bool :=
  match name.toList with
  | [] => false
  | c :: cs =>
    isWordChar c && !c.isDigit && cs.all isWordChar && (Keyword.ofString? name).isNone

/-- Drop edits equal to the one in front of them. -/
def dropEqualEdits : List TextEdit → List TextEdit
  | [] => []
  | a :: rest =>
    match dropEqualEdits rest with
    | [] => [a]
    | b :: others => if a = b then a :: others else a :: b :: others

namespace Index

/-- Edits that give a symbol of this index a new name, in the order of positions. -/
def renameEdits (i : Index) (s : Symbol) (newName : String) : List TextEdit :=
  let ranges := s.range :: (i.referencesTo s.id).map (·.range)
  let edits := ranges.map (fun r => TextEdit.mk r newName)
  dropEqualEdits (edits.mergeSort (fun a b => a.range.start ≤ b.range.start))

end Index

namespace Documents

/-- Rename what stands at a position. `none` when the path there can not be followed, so that the
member it names can not exist anywhere. -/
def rename (d : Documents) (document : DocumentId) (position : Position) (newName : String) :
    Except RenameError (Option DocumentEdit) :=
  if !isValidIdentifier newName then .error (.invalidName newName)
  else
    match (d.get document).filter (fun i => !i.malformed) with
    | none => .error .notIndexed
    | some index =>
      match expressionAt index.source.chars (index.offset position) with
      | none => .error .invalidExpression
      | some excerpt =>
        match index.resolve (String.ofList excerpt.text) excerpt.span.start with
        | .notNavigable => .ok none
        | .found none => .error .notLocallyDefined
        | .found (some handle) =>
          if handle.document ≠ document ∨ handle.index.revision ≠ index.revision then
            .error .notLocallyDefined
          else
            match handle.symbol? with
            | none => .error .notLocallyDefined
            | some symbol =>
              if symbol.span.isEmpty then .error .notLocallyDefined
              else .ok (some ⟨document, index.renameEdits symbol newName⟩)

end Documents

end LuaScope
