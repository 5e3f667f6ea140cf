import LuaScope.Syntax.Tree

/-!
# LuaScope.Syntax.Dialect

Versions of Lua and the constructs that only some of them have. `Chunk.unsupported` lists the uses
a version lacks, in source order, an operator in front of what stands inside its operands.
-/

namespace LuaScope

inductive LuaVersion where
  | lua51 | lua52 | lua53 | lua54 | luaJit
deriving Repr, DecidableEq, Inhabited

namespace LuaVersion

def supportsGoto : LuaVersion → Bool
  | .lua51 => false
  | _ => true

/-- Integer division and the operators on bits. -/
def supportsIntegerOps : LuaVersion → Bool
  | .lua53 | .lua54 => true
  | _ => false

def supportsAttributes : LuaVersion → Bool
  | .lua54 => true
  | _ => false

def label : LuaVersion → String
  | .lua51 => "5.1"
  | .lua52 => "5.2"
  | .lua53 => "5.3"
  | .lua54 => "5.4"
  | .luaJit => "luajit"

def variant : LuaVersion → String
  | .lua51 => "Lua51"
  | .lua52 => "Lua52"
  | .lua53 => "Lua53"
  | .lua54 => "Lua54"
  | .luaJit => "LuaJit"

/-- Read a version without regard to blanks around it and to ASCII case. -/
def ofString? (text : String) : Except String LuaVersion :=
  let name := String.ofList ((trimBlanks text.toList).map Char.toLower)
  match name with
  | "5.1" | "lua51" => .ok .lua51
  | "5.2" | "lua52" => .ok .lua52
  | "5.3" | "lua53" => .ok .lua53
  | "5.4" | "lua54" => .ok .lua54
  | "luajit" | "jit" => .ok .luaJit
  | _ => .error name

/-- What is said about a name that `ofString?` refuses. -/
def unknownMessage (name : String) : String := "unknown Lua version '" ++ name ++ "'"

end LuaVersion

/-- What a build of an index is told about the language. -/
structure ParserOptions where
  version : LuaVersion := .lua51
  /-- Assignments to undeclared names inside nested scopes define them. -/
  allowDefined : Bool := false
deriving Repr, DecidableEq, Inhabited

/-- Options from settings; an unknown version counts as 5.1. -/
def ParserOptions.ofSettings (languageVersion : String) (allowDefined : Bool) : ParserOptions :=
  match LuaVersion.ofString? languageVersion with
  | .ok version => ⟨version, allowDefined⟩
  | .error _ => ⟨.lua51, allowDefined⟩

inductive Construct where
  | gotoOrLabel
  | integerOperator (symbol : String)
  | attrib
deriving Repr, DecidableEq

namespace Construct

def supportedBy : Construct → LuaVersion → Bool
  | .gotoOrLabel, v => v.supportsGoto
  | .integerOperator _, v => v.supportsIntegerOps
  | .attrib, v => v.supportsAttributes

def label : Construct → String
  | .gotoOrLabel => "goto and labels"
  | .integerOperator symbol => "operator '" ++ symbol ++ "'"
  | .attrib => "local attributes"

def message (c : Construct) (v : LuaVersion) : String :=
  c.label ++ " not supported in Lua " ++ v.label

end Construct

/-- Symbol of an operator that only versions with integers have. -/
def BinaryOp.integerSymbol? : BinaryOp → Option String
  | .intDiv => some "//"
  | .bitAnd => some "&"
  | .bitOr => some "|"
  | .bitXor => some "~"
  | .shiftLeft => some "<<"
  | .shiftRight => some ">>"
  | _ => none

def UnaryOp.integerSymbol? : UnaryOp → Option String
  | .bitNot => some "~"
  | _ => none

structure Usage where
  construct : Construct
  span : Span
deriving Repr, DecidableEq

/-- Deepest nesting of syntax nodes that any analysis descends into. -/
def maxDepth : Nat := 512

/-- A use at a node of this depth; none below the depth limit. -/
def Usage.at (depth : Nat) (construct : Construct) (span : Span) : List Usage :=
  if depth ≤ maxDepth then [⟨construct, span⟩] else []

/-- The use that an operator makes, if it is one of the integer operators. -/
def Usage.ofOperator (depth : Nat) (symbol? : Option String) (span : Span) : List Usage :=
  match symbol? with
  | some symbol => Usage.at depth (.integerOperator symbol) span
  | none => []

def Usage.ofAttrib (depth : Nat) : Option (Ident × Span) → List Usage
  | some (_, span) => Usage.at depth .attrib span
  | none => []

def Usage.ofNames (depth : Nat) (names : List AttributedName) : List Usage :=
  names.flatMap (fun n => Usage.ofAttrib depth n.attrib)

/-! ## All uses in a tree

Each function takes the depth of the node it is given: the chunk has depth zero and every node is
one deeper than its parent.
-/

mutual

def Expr.usages : Expr → Nat → List Usage
  | .nil, _ | .boolean, _ | .number, _ | .literal _, _ | .vararg, _ | .name _, _ | .global, _ => []
  | .field base _, depth => base.usages (depth + 1)
  | .subscript base key, depth => base.usages (depth + 1) ++ key.usages (depth + 1)
  | .call callee method arguments, depth =>
    callee.usages (if method.isSome then depth + 2 else depth + 1) ++
      Expr.listUsages arguments (depth + 2)
  | .paren inner, depth => inner.usages (depth + 1)
  | .table fields, depth => Field.listUsages fields (depth + 1)
  | .function body, depth => body.usages depth
  | .binary op span left right, depth =>
    Usage.ofOperator depth op.integerSymbol? span ++
      (left.usages (depth + 1) ++ right.usages (depth + 1))
  | .unary op span operand, depth =>
    Usage.ofOperator depth op.integerSymbol? span ++ operand.usages (depth + 1)

def Expr.listUsages : List Expr → Nat → List Usage
  | [], _ => []
  | e :: es, depth => e.usages depth ++ Expr.listUsages es depth

def Field.usages : Field → Nat → List Usage
  | .positional value, depth => value.usages (depth + 1)
  | .named _ _ _ value, depth => value.usages (depth + 1)
  | .unnamed value, depth => value.usages (depth + 1)
  | .computed key value, depth => key.usages (depth + 1) ++ value.usages (depth + 1)

def Field.listUsages : List Field → Nat → List Usage
  | [], _ => []
  | f :: fs, depth => f.usages depth ++ Field.listUsages fs depth

/-- The body of a function node of this depth. -/
def FunctionBody.usages : FunctionBody → Nat → List Usage
  | .mk _ block _, depth => Block.optUsages block (depth + 1)

def Block.optUsages : Option Block → Nat → List Usage
  | none, _ => []
  | some (.mk _ statements), depth => Statement.listUsages statements (depth + 1)

def Statement.listUsages : List Statement → Nat → List Usage
  | [], _ => []
  | .mk _ span node :: rest, depth => node.usages span depth ++ Statement.listUsages rest depth

def StatementNode.usages : StatementNode → Span → Nat → List Usage
  | .empty, _, _ | .break, _, _ => []
  | .label, span, depth | .goto, span, depth => Usage.at depth .gotoOrLabel span
  | .assign targets values, _, depth =>
    Expr.listUsages targets (depth + 2) ++ Expr.listUsages values (depth + 2)
  | .call e, _, depth => e.usages depth
  | .do body, _, depth => Block.optUsages body (depth + 1)
  | .while condition body, _, depth =>
    condition.usages (depth + 1) ++ Block.optUsages body (depth + 1)
  | .repeat body condition, _, depth =>
    Block.optUsages body (depth + 1) ++ condition.usages (depth + 1)
  | .if condition body rest otherwise, _, depth =>
    condition.usages (depth + 1) ++ Block.optUsages body (depth + 1) ++
      ElseIf.listUsages rest (depth + 1) ++
      (match otherwise with
        | some block => Block.optUsages block (depth + 2)
        | none => [])
  | .numericFor _ start limit step body, _, depth =>
    start.usages (depth + 2) ++ limit.usages (depth + 2) ++
      (match step with
        | some e => e.usages (depth + 2)
        | none => []) ++
      Block.optUsages body (depth + 1)
  | .genericFor _ values body, _, depth =>
    Expr.listUsages values (depth + 3) ++ Block.optUsages body (depth + 1)
  | .function _ _ body, _, depth => body.usages depth
  | .declare _ attrib names none, _, depth =>
    Usage.ofAttrib (depth + 2) attrib ++ Usage.ofNames (depth + 2) names
  | .declare _ attrib names (some values), _, depth =>
    Usage.ofAttrib (depth + 3) attrib ++ Usage.ofNames (depth + 3) names ++
      Expr.listUsages values (depth + 3)
  | .implicitGlobals attrib, _, depth => Usage.ofAttrib (depth + 1) attrib
  | .return none, _, _ => []
  | .return (some values), _, depth => Expr.listUsages values (depth + 2)

def ElseIf.listUsages : List ElseIf → Nat → List Usage
  | [], _ => []
  | .mk condition body :: rest, depth =>
    condition.usages (depth + 1) ++ Block.optUsages body (depth + 1) ++
      ElseIf.listUsages rest depth

end

def Chunk.usages (c : Chunk) : List Usage := Statement.listUsages c.statements 1

/-- Those that this version lacks. -/
def Chunk.unsupported (c : Chunk) (v : LuaVersion) : List Usage :=
  c.usages.filter (fun u => !u.construct.supportedBy v)

end LuaScope
