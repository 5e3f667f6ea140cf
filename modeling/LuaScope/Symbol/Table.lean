import LuaScope.Symbol.Basic

/-!
# LuaScope.Symbol.Table

All scopes and symbols of one document, and name lookup that depends on the position. A scope
keeps, for each name, the symbols declared there in the order of their positions. A lookup at an
offset takes the last declaration at or before it in the innermost scope that declares the name.
-/

namespace LuaScope

inductive ScopeKind where
  | chunk | function | block | loop
deriving Repr, DecidableEq, Inhabited

def ScopeKind.label : ScopeKind → String
  | .chunk => "Chunk"
  | .function => "Function"
  | .block => "Block"
  | .loop => "Loop"

structure Scope where
  id : ScopeId
  kind : ScopeKind
  parent : Option ScopeId
  span : Span
  children : List ScopeId := []
  /-- All symbols declared here, in the order of their declaration. -/
  symbols : List SymbolId := []
  /-- The same symbols under their names, each list in the order of positions. -/
  byName : List (String × List SymbolId) := []
deriving Repr, DecidableEq, Inhabited

/-- Declarations of a name in this scope, in the order of positions. -/
def Scope.declarations (s : Scope) (name : String) : List SymbolId :=
  match s.byName.lookup name with
  | some ids => ids
  | none => []

/-- Change the list under a name; a new name goes to the end. -/
def modifyUnder (name : String) (f : List SymbolId → List SymbolId) :
    List (String × List SymbolId) → List (String × List SymbolId)
  | [] => [(name, f [])]
  | (n, ids) :: rest =>
    if n = name then (n, f ids) :: rest else (n, ids) :: modifyUnder name f rest

structure SymbolTableOver (ρ : Type) where
  scopes : Array Scope
  symbols : Array (SymbolOver ρ)

namespace SymbolTableOver

variable {ρ : Type}

def rootId : ScopeId := 0

/-- A table with nothing but the root scope of a text of this length. -/
def new (length : Nat) : SymbolTableOver ρ :=
  ⟨#[{ id := rootId, kind := .chunk, parent := none, span := ⟨0, length⟩ }], #[]⟩

instance : Inhabited (SymbolTableOver ρ) := ⟨new 0⟩

def nextScopeId (t : SymbolTableOver ρ) : ScopeId := t.scopes.size

def nextSymbolId (t : SymbolTableOver ρ) : SymbolId := t.symbols.size

def symbol? (t : SymbolTableOver ρ) (id : SymbolId) : Option (SymbolOver ρ) := t.symbols[id]?

def scope? (t : SymbolTableOver ρ) (id : ScopeId) : Option Scope := t.scopes[id]?

def startOf (t : SymbolTableOver ρ) (id : SymbolId) : Option Nat := (t.symbol? id).map (·.span.start)

def addScope (t : SymbolTableOver ρ) (parent : ScopeId) (kind : ScopeKind) (span : Span) : SymbolTableOver ρ :=
  let id := t.nextScopeId
  let scopes := t.scopes.push { id := id, kind := kind, parent := some parent, span := span }
  { t with scopes := scopes.modify parent (fun s => { s with children := s.children ++ [id] }) }

/-- Does the symbol start at or before `offset`? -/
def startsBy (t : SymbolTableOver ρ) (offset : Nat) (id : SymbolId) : Bool :=
  match t.startOf id with
  | some start => start ≤ offset
  | none => false

/-- Put a symbol behind those that start at or before it. -/
def insertByStart (t : SymbolTableOver ρ) (start : Nat) (id : SymbolId) (ids : List SymbolId) :
    List SymbolId :=
  ids.takeWhile (t.startsBy start) ++ id :: ids.dropWhile (t.startsBy start)

/-- Add a symbol and make it visible by its name in its scope. -/
def declare (t : SymbolTableOver ρ) (s : SymbolOver ρ) : SymbolTableOver ρ :=
  let enter (scope : Scope) : Scope :=
    { scope with
      symbols := scope.symbols ++ [s.id]
      byName := modifyUnder s.name (t.insertByStart s.span.start s.id) scope.byName }
  { scopes := t.scopes.modify s.scope enter, symbols := t.symbols.push s }

/-- Add a symbol that is reached through its container alone. -/
def addMember (t : SymbolTableOver ρ) (s : SymbolOver ρ) : SymbolTableOver ρ :=
  { t with symbols := t.symbols.push s }

def modifySymbol (t : SymbolTableOver ρ) (id : SymbolId) (f : SymbolOver ρ → SymbolOver ρ) : SymbolTableOver ρ :=
  { t with symbols := t.symbols.modify id f }

/-! ## Lookup -/

/-- The scope and those around it, from the inside out. -/
def chain (t : SymbolTableOver ρ) : Nat → Option ScopeId → List Scope
  | 0, _ | _, none => []
  | fuel + 1, some id =>
    match t.scope? id with
    | none => []
    | some s => s :: t.chain fuel s.parent

def ancestors (t : SymbolTableOver ρ) (scope : ScopeId) : List Scope := t.chain t.scopes.size (some scope)

/-- First child, in the order of creation, whose span contains the offset. -/
def childAt (t : SymbolTableOver ρ) (s : Scope) (offset : Nat) : Option ScopeId :=
  s.children.find? (fun id =>
    match t.scope? id with
    | some child => child.span.contains offset
    | none => false)

def descend (t : SymbolTableOver ρ) (offset : Nat) : Nat → ScopeId → ScopeId
  | 0, id => id
  | fuel + 1, id =>
    match (t.scope? id).bind (t.childAt · offset) with
    | some child => t.descend offset fuel child
    | none => id

/-- Deepest scope whose span contains the offset. -/
def innermostScope (t : SymbolTableOver ρ) (offset : Nat) : ScopeId :=
  t.descend offset t.scopes.size rootId

/-- What one scope says about a name: the last declaration at or before the offset; an inner scope
that declares the name only later answers with its first declaration. -/
def lookupIn (t : SymbolTableOver ρ) (name : String) (offset : Nat) (s : Scope) : Option SymbolId :=
  let ids := s.declarations name
  match (ids.takeWhile (t.startsBy offset)).getLast? with
  | some id => some id
  | none => if s.parent.isSome then ids.head? else none

def isGlobal (t : SymbolTableOver ρ) (id : SymbolId) : Bool :=
  match t.symbol? id with
  | some s => !s.isLocal
  | none => false

/-- The first global of this name, wherever it is assigned in the root scope. -/
def laterGlobal (t : SymbolTableOver ρ) (name : String) : Option SymbolId :=
  match t.scope? rootId with
  | some root => (root.declarations name).find? t.isGlobal
  | none => none

def lookup (t : SymbolTableOver ρ) (scope : ScopeId) (name : String) (offset : Nat) : Option SymbolId :=
  match (t.ancestors scope).findSome? (t.lookupIn name offset) with
  | some id => some id
  | none => t.laterGlobal name

/-- One scope's contribution to what is visible, its last declaration first. -/
def visibleIn (t : SymbolTableOver ρ) (offset : Nat) (scope : ScopeId) :
    List SymbolId → List String × List SymbolId → List String × List SymbolId
  | [], acc => acc
  | id :: rest, (seen, found) =>
    match t.symbol? id with
    | none => t.visibleIn offset scope rest (seen, found)
    | some s =>
      if (s.span.start ≤ offset || !s.isLocal) && !seen.contains s.name then
        t.visibleIn offset scope rest
          (s.name :: seen, found ++ (t.lookup scope s.name offset).toList)
      else t.visibleIn offset scope rest (seen, found)

/-- Names visible at an offset, innermost first, each name once. -/
def visible (t : SymbolTableOver ρ) (scope : ScopeId) (offset : Nat) : List SymbolId :=
  ((t.ancestors scope).foldl
    (fun acc s => t.visibleIn offset s.id s.symbols.reverse acc) ([], [])).2

end SymbolTableOver

end LuaScope
