import LuaScope.Index.Member
import LuaScope.Text.Blank

/-!
# LuaScope.Index.Resolve

What a dotted path denotes at a position. Two outcomes are kept apart: a path whose root has no
members at all can not be followed, while a path that leads nowhere finds no symbol.
-/

namespace LuaScope

inductive Resolution where
  /-- At most one symbol. -/
  | found (symbol? : Option Handle)
  /-- The root of a longer path is neither a table nor a module. -/
  | notNavigable

def Resolution.first? : Resolution → Option Handle
  | .found symbol? => symbol?
  | .notNavigable => none

/-- Follow the segments between root and end; each has to be a member of its own, and a table. -/
def Located.stepInto (l : Located) : List String → Option Located
  | [] => some l
  | name :: rest =>
    match l.ownMember name with
    | some next => if next.container.2.isTable then next.stepInto rest else none
    | none => none

/-- What a path denotes as seen from an offset. Only its last segment may be inherited. -/
def Index.resolve (i : Index) (path : String) (offset : Nat) : Resolution :=
  match splitPath path with
  | [] => .found none
  | root :: rest =>
    match i.table.lookup (i.scopeAt offset) root offset with
    | none => .found none
    | some id =>
      let root := (Home.here i.table).locate id
      match rest.getLast? with
      | none => .found (some (root.handle i))
      | some last =>
        if !root.container.2.isContainer then .notNavigable
        else
          match root.stepInto rest.dropLast with
          | none => .found none
          | some owner => .found ((owner.extendedMember last).map (·.handle i))

end LuaScope
