import LuaScope.Document.Id
import LuaScope.Symbol.Ty
import LuaScope.Text.Position

/-!
# LuaScope.Symbol.Basic

A symbol is a named, positioned definition; a reference is an occurrence of a name, possibly at
the end of a dotted path.
-/

namespace LuaScope

inductive SymbolKind where
  | variable | parameter | function | method | field | module
deriving Repr, DecidableEq, Inhabited

def SymbolKind.label : SymbolKind → String
  | .variable => "variable"
  | .parameter => "parameter"
  | .function => "function"
  | .method => "method"
  | .field => "field"
  | .module => "module"

structure SymbolOver (ρ : Type) where
  id : SymbolId
  name : String
  kind : SymbolKind
  document : DocumentId
  /-- Range of the name itself. -/
  range : Range
  /-- Span of the name, which decides what a lookup at a position finds. -/
  span : Span
  /-- Range of the whole declaring statement. -/
  fullRange : Range
  /-- Scope of the declaration; a member records that of the statement that added it. -/
  scope : ScopeId
  /-- The symbol whose table this is a member of. -/
  container : Option SymbolId
  /-- Declared by `local`, or a parameter. -/
  isLocal : Bool
  ty : TyOver ρ
  /-- Set when the initial value was a plain path: members are then those of its target. -/
  «alias» : Option (LinkOver ρ)
  doc : Option String

structure ReferenceOver (ρ : Type) where
  /-- The path up to and including this segment, blanks left out. -/
  text : String
  range : Range
  span : Span
  scope : ScopeId
  /-- Where the first segment starts. -/
  anchor : Nat
  target : Option (LinkOver ρ)

/-- Does the reference lead to this symbol of its own document? -/
def ReferenceOver.targetsLocal {ρ : Type} (r : ReferenceOver ρ) (id : SymbolId) : Bool :=
  match r.target with
  | some link => link.isLocal && link.id == id
  | none => false

/-- The kind of a symbol that holds a value of this type. -/
def SymbolKind.ofTy {ρ : Type} (ty : TyOver ρ) (otherwise : SymbolKind) : SymbolKind :=
  match ty with
  | .function _ _ _ => if otherwise = .method then .method else .function
  | .module _ _ => .module
  | _ => otherwise

end LuaScope
