import LuaScope.Editor.Describe

/-!
# LuaScope.Editor.Outline

The definitions of a document in the order of their names' positions.
-/

namespace LuaScope

structure OutlineEntry where
  name : String
  kind : SymbolKind
  range : Range
  selection : Range
  container : Option String
deriving Repr, DecidableEq

/-- Keep the order of elements with equal keys. -/
def sortByKey {α : Type} (key : α → Nat) (xs : List α) : List α :=
  xs.mergeSort (fun a b => key a ≤ key b)

namespace Index

/-- Is the symbol part of the outline? It has a name in the text; `globalOnly` asks for definitions
of the root scope and members of its tables, otherwise all but parameters are listed. -/
def inOutline (i : Index) (globalOnly : Bool) (s : Symbol) : Bool :=
  !s.span.isEmpty &&
    (if globalOnly then (i.outermost s).scope == SymbolTableOver.rootId
      else s.kind != .parameter)

def outlineEntry (i : Index) (s : Symbol) : OutlineEntry :=
  { name := s.name, kind := s.kind, range := s.fullRange, selection := s.range,
    container := (s.container.bind i.symbol?).map (·.name) }

def outline (i : Index) (globalOnly : Bool) : List OutlineEntry :=
  (sortByKey (fun s => s.span.start) (i.table.symbols.toList.filter (i.inOutline globalOnly))).map
    i.outlineEntry

end Index

end LuaScope
