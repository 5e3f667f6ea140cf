/-!
# LuaScope.Symbol.Ty

Structural types of Lua values. A type names symbols by their number, which means something only
in the table of one document; `ρ` is what a link into another document carries. A table that was
copied out of another document says so in `origin`.
-/

namespace LuaScope

/-- Number of a symbol in its document. -/
abbrev SymbolId := Nat

/-- Number of a scope in its document; the root scope is number zero. -/
abbrev ScopeId := Nat

/-- A symbol of this document, or of `origin`. -/
structure LinkOver (ρ : Type) where
  origin : Option ρ
  id : SymbolId
deriving Repr, DecidableEq

def LinkOver.here {ρ : Type} (id : SymbolId) : LinkOver ρ := ⟨none, id⟩

def LinkOver.isLocal {ρ : Type} (l : LinkOver ρ) : Bool := l.origin.isNone

/-- Where member lookup goes on behind a table's own members. -/
inductive PrototypeOver (ρ : Type) where
  /-- Search this table: `setmetatable(t, { __index = base })`. -/
  | base (link : LinkOver ρ)
  /-- Search what the `__index` of this table refers to: `setmetatable(t, mt)`. -/
  | metatable (link : LinkOver ρ)
deriving Repr, DecidableEq

/-- Named members in the order in which they were added. -/
abbrev Members := List (String × SymbolId)

namespace Members

def get? (ms : Members) (name : String) : Option SymbolId := ms.lookup name

/-- A member that is already there keeps its place. -/
def insert : Members → String → SymbolId → Members
  | [], name, id => [(name, id)]
  | (n, i) :: rest, name, id =>
    if n = name then (n, id) :: rest else (n, i) :: Members.insert rest name id

end Members

structure TableOver (ρ : Type) where
  origin : Option ρ := none
  members : Members := []
  prototype : Option (PrototypeOver ρ) := none
deriving Repr, DecidableEq

/-- Tables of another document are never extended in place. -/
def TableOver.isForeign {ρ : Type} (t : TableOver ρ) : Bool := t.origin.isSome

inductive TyOver (ρ : Type) where
  | unknown
  | nil
  | boolean
  | number
  | string
  /-- A method's `self` is implied and not among its parameters. -/
  | function (params : List String) (returns : TyOver ρ) (isMethod : Bool)
  | table (t : TableOver ρ)
  /-- What a `require` of the module `name` gave. -/
  | module (name : String) (origin : ρ)
deriving Repr, DecidableEq

namespace TyOver

variable {ρ : Type}

instance : Inhabited (TyOver ρ) := ⟨.unknown⟩

def isUnknown : TyOver ρ → Bool
  | .unknown => true
  | _ => false

/-- Unknown or nil: nothing speaks against a table here. -/
def isVacant : TyOver ρ → Bool
  | .unknown | .nil => true
  | _ => false

def isTable : TyOver ρ → Bool
  | .table _ => true
  | _ => false

/-- Only tables and modules have members. -/
def isContainer : TyOver ρ → Bool
  | .table _ | .module _ _ => true
  | _ => false

/-- The same type, to be kept in another document than `origin`, where it was read. -/
def rebased (origin : ρ) : TyOver ρ → TyOver ρ
  | .table t => .table (if t.isForeign then t else { t with origin := some origin })
  | .function params returns isMethod => .function params (returns.rebased origin) isMethod
  | t => t

/-- A short text for hovers and completions. -/
def describe : TyOver ρ → String
  | .unknown => "any"
  | .nil => "nil"
  | .boolean => "boolean"
  | .number => "number"
  | .string => "string"
  | .function params returns _ =>
    let head := "function(" ++ ", ".intercalate params ++ ")"
    if returns.isUnknown then head else head ++ ": " ++ returns.describe
  | .table _ => "table"
  | .module name _ => "module '" ++ name ++ "'"

end TyOver

end LuaScope
