import LuaScope.Index.Basic

/-!
# LuaScope.Editor.Describe

One-line texts about symbols: the qualified name and a declaration that looks like Lua.
-/

namespace LuaScope

def maxContainerHops : Nat := 32

namespace Index

/-- The containers of a symbol, from the nearest outwards. -/
def containersWithin (i : Index) : Nat → Symbol → List Symbol
  | 0, _ => []
  | fuel + 1, s =>
    match s.container.bind i.symbol? with
    | some parent => parent :: i.containersWithin fuel parent
    | none => []

def containers (i : Index) (s : Symbol) : List Symbol := i.containersWithin maxContainerHops s

/-- The table that a chain of members hangs off in the end. -/
def outermost (i : Index) (s : Symbol) : Symbol := (i.containers s).getLast?.getD s

/-- `M.sub.name`, or `M:name` for a method; the bare name outside tables. -/
def qualifiedName (i : Index) (s : Symbol) : String :=
  match i.containers s with
  | [] => s.name
  | parents =>
    let separator := match s.ty with
      | .function _ _ true => ":"
      | _ => "."
    ".".intercalate (parents.reverse.map (·.name)) ++ separator ++ s.name

def declarationLine (i : Index) (s : Symbol) : String :=
  let reach := if s.isLocal && s.container.isNone then "local " else ""
  let name := i.qualifiedName s
  match s.ty with
  | .function params returns _ =>
    let line := reach ++ "function " ++ name ++ "(" ++ ", ".intercalate params ++ ")"
    if returns.isUnknown then line else line ++ " -> " ++ returns.describe
  | ty => reach ++ name ++ ": " ++ ty.describe

end Index

end LuaScope
