import LuaScope.Editor.Describe
import LuaScope.Text.Cursor
import LuaScope.Workspace.Documents

/-!
# LuaScope.Editor.Navigate

Questions about the place of a cursor: where is this defined, what is it, which call is being
written and which of its parameters.
-/

namespace LuaScope

structure Location where
  document : DocumentId
  range : Range
deriving Repr, DecidableEq

structure Hover where
  /-- Markdown. -/
  contents : String
  range : Range
deriving Repr, DecidableEq

structure SignatureHelp where
  label : String
  parameters : List String
  /-- `none` when the cursor stands on an implied `self`. -/
  active : Option Nat
  documentation : Option String
deriving Repr, DecidableEq

namespace Documents

/-- Where the expression under the cursor is defined; at most one place. -/
def definitions (d : Documents) (document : DocumentId) (position : Position) : List Location :=
  match d.get document with
  | none => []
  | some index =>
    match expressionAt index.source.chars (index.offset position) with
    | none => []
    | some excerpt =>
      let start := (index.source.range excerpt.span).start
      match (d.resolve (String.ofList excerpt.text) start document).first? with
      | none => []
      | some handle =>
        match handle.symbol? with
        | some symbol => [⟨handle.document, symbol.range⟩]
        | none => []

/-- The text of a hover: a declaration, the document if it is another one, the documentation. -/
def hoverText (document : DocumentId) (handle : Handle) (symbol : Symbol) : String :=
  let line := "```lua\n" ++ handle.index.declarationLine symbol ++ "\n```"
  let origin :=
    if handle.document ≠ document then "\n\nDefined in `" ++ handle.document.uri ++ "`" else ""
  match symbol.doc with
  | some doc => line ++ origin ++ "\n\n---\n\n" ++ doc
  | none => line ++ origin

def hover (d : Documents) (document : DocumentId) (position : Position) : Option Hover :=
  match d.get document with
  | none => none
  | some index =>
    match expressionAt index.source.chars (index.offset position) with
    | none => none
    | some excerpt =>
      match (index.resolve (String.ofList excerpt.text) excerpt.span.start).first? with
      | none => none
      | some handle =>
        match handle.symbol? with
        | some symbol =>
          some ⟨hoverText document handle symbol, index.source.range excerpt.span⟩
        | none => none

/-- Number of the parameter that an argument belongs to. `obj:f(a)` passes `obj` as the first
parameter of a function declared with a dot; `T.m(obj, a)` does the reverse for a method. -/
def activeParameter (calledAsMethod declaredAsMethod : Bool) (argument : Nat) : Option Nat :=
  match calledAsMethod, declaredAsMethod with
  | true, false => some (argument + 1)
  | false, true => if argument = 0 then none else some (argument - 1)
  | _, _ => some argument

def signature (d : Documents) (document : DocumentId) (position : Position) :
    Option SignatureHelp :=
  match d.get document with
  | none => none
  | some index =>
    match callContext index.source.chars (index.offset position) with
    | none => none
    | some call =>
      match (index.resolve (String.ofList call.callee.text) call.callee.span.start).first? with
      | none => none
      | some handle =>
        match handle.symbol? with
        | none => none
        | some symbol =>
          match symbol.ty with
          | .function params _ isMethod =>
            let name := handle.index.qualifiedName symbol
            some
              { label := name ++ "(" ++ ", ".intercalate params ++ ")", parameters := params,
                active := activeParameter call.isMethodCall isMethod call.activeParameter,
                documentation := symbol.doc }
          | _ => none

end Documents

end LuaScope
