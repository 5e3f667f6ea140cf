import LuaScope.Syntax.Token

/-!
# LuaScope.Syntax.Tree

Syntax trees of Lua chunks. A node keeps the spans that naming, outlines and diagnostics need; a
statement and a table field also keep the comments that stand directly in front of them.
-/

namespace LuaScope

structure Ident where
  name : String
  span : Span
deriving Repr, DecidableEq, Inhabited

inductive BinaryOp where
  | or | and | less | lessEqual | greater | greaterEqual | equal | notEqual
  | bitOr | bitXor | bitAnd | shiftLeft | shiftRight | concat
  | add | sub | mul | div | intDiv | mod | pow
deriving Repr, DecidableEq

inductive UnaryOp where
  | not | length | negate | bitNot
deriving Repr, DecidableEq

inductive Parameter where
  | name (ident : Ident)
  | vararg
deriving Repr, DecidableEq

structure Parameters where
  entries : List Parameter
  span : Span
deriving Repr, DecidableEq

/-- A declared name with its attribute, such as `x <const>`. -/
structure AttributedName where
  ident : Ident
  attrib : Option (Ident × Span)
deriving Repr, DecidableEq

/-- Name of a declared function: `a`, `a.b.c` or `a.b:c`. -/
structure FunctionName where
  head : Ident
  fields : List Ident
  method : Option Ident
deriving Repr, DecidableEq

inductive NameReach where
  | local
  /-- Declared by the contextual keyword `global`. -/
  | global
deriving Repr, DecidableEq

inductive FunctionReach where
  | local
  /-- Declared by the contextual keyword `global`. -/
  | global
  /-- Declared by its name alone. -/
  | named
deriving Repr, DecidableEq

mutual

inductive Expr where
  | nil
  | boolean
  | number
  /-- A string literal; `none` stands for an empty one. -/
  | literal (content : Option String)
  | vararg
  | name (ident : Ident)
  /-- The word `global`, where it is not a declaration; it names nothing. -/
  | global
  | field (base : Expr) (key : Ident)
  | subscript (base : Expr) (key : Expr)
  /-- A call, or a method call when `method` is given. -/
  | call (callee : Expr) (method : Option Ident) (arguments : List Expr)
  | paren (inner : Expr)
  | table (fields : List Field)
  | function (body : FunctionBody)
  | binary (op : BinaryOp) (opSpan : Span) (left right : Expr)
  | unary (op : UnaryOp) (opSpan : Span) (operand : Expr)

inductive Field where
  /-- `value` -/
  | positional (value : Expr)
  /-- `key = value`; the span is that of the whole entry. -/
  | named (comments : List Comment) (span : Span) (key : Ident) (value : Expr)
  /-- `global = value`, which names nothing. -/
  | unnamed (value : Expr)
  /-- `[key] = value` -/
  | computed (key value : Expr)

/-- Parameters and statements of a function; it ends at `stop`. -/
inductive FunctionBody where
  | mk (parameters : Parameters) (block : Option Block) (stop : Nat)

/-- One or more statements. -/
inductive Block where
  | mk (span : Span) (statements : List Statement)

/-- A statement with the comments directly in front of it. -/
inductive Statement where
  | mk (comments : List Comment) (span : Span) (node : StatementNode)

inductive StatementNode where
  | empty
  | assign (targets values : List Expr)
  | call (call : Expr)
  | label
  | goto
  | break
  | do (body : Option Block)
  | while (condition : Expr) (body : Option Block)
  | repeat (body : Option Block) (condition : Expr)
  | if (condition : Expr) (body : Option Block) (rest : List ElseIf) (otherwise : Option (Option Block))
  | numericFor (counter : Ident) (start limit : Expr) (step : Option Expr) (body : Option Block)
  | genericFor (names : List Ident) (values : List Expr) (body : Option Block)
  | function (reach : FunctionReach) (name : FunctionName) (body : FunctionBody)
  /-- `local` or `global` names; `attrib` stands in front of all of them. -/
  | declare (reach : NameReach) (attrib : Option (Ident × Span)) (names : List AttributedName)
      (values : Option (List Expr))
  /-- `global *` -/
  | implicitGlobals (attrib : Option (Ident × Span))
  | return (values : Option (List Expr))

inductive ElseIf where
  | mk (condition : Expr) (body : Option Block)

end

def Block.span : Block → Span
  | .mk span _ => span

def Block.statements : Block → List Statement
  | .mk _ statements => statements

/-- The statements of an optional block. -/
def blockStatements : Option Block → List Statement
  | some b => b.statements
  | none => []

def FunctionBody.parameters : FunctionBody → Parameters
  | .mk parameters _ _ => parameters

def FunctionBody.block : FunctionBody → Option Block
  | .mk _ block _ => block

def FunctionBody.stop : FunctionBody → Nat
  | .mk _ _ stop => stop

structure Chunk where
  statements : List Statement

/-- The word `global` is no operand, target or argument of its own. -/
def Expr.isNamed : Expr → Bool
  | .global => false
  | _ => true

/-- Identifiers of a plain dotted path, `none` when its base is no name. -/
def Expr.path? : Expr → Option (List Ident)
  | .name ident => some [ident]
  | .field base key => base.path?.map (· ++ [key])
  | _ => none

def FunctionName.path (n : FunctionName) : List Ident :=
  n.head :: n.fields ++ n.method.toList

end LuaScope
