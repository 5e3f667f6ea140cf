import LuaScope.Editor.Describe
import LuaScope.Settings.Basic
import LuaScope.Text.Cursor

/-!
# LuaScope.Editor.Scaffold

A doc comment to fill in, for the function that is declared on a line.
-/

namespace LuaScope

structure Scaffold where
  /-- Where to insert the text: the start of the line. -/
  position : Position
  text : String
deriving Repr, DecidableEq

/-- The first of the elements with the least key. -/
def firstMin {α : Type} (key : α → Nat) : List α → Option α
  | [] => none
  | a :: rest =>
    match firstMin key rest with
    | none => some a
    | some b => if key b < key a then some b else some a

namespace Index

def isFunction (s : Symbol) : Bool :=
  match s.ty with
  | .function .. => true
  | _ => false

/-- The first function on a line that has a name there. -/
def functionOnLine (i : Index) (line : Nat) : Option Symbol :=
  firstMin (fun s => s.span.start) (i.table.symbols.toList.filter (fun s =>
    isFunction s && !s.span.isEmpty && s.fullRange.start.line == line))

/-- Lines of the comment: the name, the parameters, what is returned and the author. -/
def scaffoldLines (i : Index) (s : Symbol) (docs : DocSettings) : List String :=
  let (params, returns) : List String × Ty := match s.ty with
    | .function params returns _ => (params, returns)
    | _ => ([], .unknown)
  ["--- " ++ i.qualifiedName s] ++
  params.map ("-- @param " ++ ·) ++
  (if returns.isUnknown then [] else ["-- @return " ++ returns.describe]) ++
  (if docs.authorInFunctionLevel && !docs.authorName.isEmpty then
    ["-- @author " ++ docs.authorName] else [])

def scaffold (i : Index) (line : Nat) (docs : DocSettings) : Option Scaffold :=
  (i.functionOnLine line).map (fun s =>
    let start : Position := ⟨line, 0⟩
    let indent := String.ofList (lineIndent i.source.chars (i.offset start))
    ⟨start, String.join ((i.scaffoldLines s docs).map (indent ++ · ++ "\n"))⟩)

end Index

end LuaScope
