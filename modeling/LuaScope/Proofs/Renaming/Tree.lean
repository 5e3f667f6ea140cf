import LuaScope.Syntax.Tree

/-!
# LuaScope.Proofs.Renaming.Tree

Some occurrences of a name get another name, and all that stands behind them moves.

* `Renaming`      — which occurrences, and where an offset of the old text lies in the new one.
* `Renaming.expr`, `Renaming.statements` and the others — the tree of the new text.
-/

namespace LuaScope

structure Renaming where
  /-- Where the renamed occurrences start, each of them once. -/
  starts : List Nat
  old : String
  new : String

namespace Renaming

variable (ρ : Renaming)

/-- Does the occurrence that starts here get the new name? -/
def marks (start : Nat) : Bool := ρ.starts.contains start

/-- Where an offset of the old text lies in the new one: each renamed occurrence in front of it put
the new name into the place of the old one. -/
def shift (offset : Nat) : Nat :=
  let count := ρ.starts.countP (· < offset)
  offset + count * byteLength ρ.new.toList - count * byteLength ρ.old.toList

def span (s : Span) : Span := ⟨ρ.shift s.start, ρ.shift s.stop⟩

example : (Renaming.mk [6, 18] "x" "count").span ⟨18, 19⟩ = ⟨22, 27⟩ := by decide +kernel

/-- The name that is written afterwards where this one was written at `start`. -/
def nameAt (start : Nat) (name : String) : String := if ρ.marks start then ρ.new else name

def ident (i : Ident) : Ident := ⟨ρ.nameAt i.span.start i.name, ρ.span i.span⟩

def comment (c : Comment) : Comment := ⟨c.text, ρ.span c.span⟩

def attrib (a : Ident × Span) : Ident × Span := (ρ.ident a.1, ρ.span a.2)

def attributed (name : AttributedName) : AttributedName :=
  ⟨ρ.ident name.ident, name.attrib.map ρ.attrib⟩

def parameter : Parameter → Parameter
  | .name ident => .name (ρ.ident ident)
  | .vararg => .vararg

def parameters (p : Parameters) : Parameters := ⟨p.entries.map ρ.parameter, ρ.span p.span⟩

def functionName (name : FunctionName) : FunctionName :=
  ⟨ρ.ident name.head, name.fields.map ρ.ident, name.method.map ρ.ident⟩

mutual

def expr : Expr → Expr
  | .nil => .nil
  | .boolean => .boolean
  | .number => .number
  | .literal content => .literal content
  | .vararg => .vararg
  | .global => .global
  | .name ident => .name (ρ.ident ident)
  | .field base key => .field (expr base) (ρ.ident key)
  | .subscript base key => .subscript (expr base) (expr key)
  | .call callee method arguments => .call (expr callee) (method.map ρ.ident) (exprs arguments)
  | .paren inner => .paren (expr inner)
  | .table entries => .table (fields entries)
  | .function body => .function (functionBody body)
  | .binary op opSpan left right => .binary op (ρ.span opSpan) (expr left) (expr right)
  | .unary op opSpan operand => .unary op (ρ.span opSpan) (expr operand)

def exprs : List Expr → List Expr
  | [] => []
  | e :: rest => expr e :: exprs rest

def fields : List Field → List Field
  | [] => []
  | .positional value :: rest => .positional (expr value) :: fields rest
  | .named comments span key value :: rest =>
    .named (comments.map ρ.comment) (ρ.span span) (ρ.ident key) (expr value) :: fields rest
  | .unnamed value :: rest => .unnamed (expr value) :: fields rest
  | .computed key value :: rest => .computed (expr key) (expr value) :: fields rest

def functionBody : FunctionBody → FunctionBody
  | .mk parameters body stop => .mk (ρ.parameters parameters) (block body) (ρ.shift stop)

def block : Option Block → Option Block
  | none => none
  | some (.mk span body) => some (.mk (ρ.span span) (statements body))

def statements : List Statement → List Statement
  | [] => []
  | .mk comments span node :: rest =>
    .mk (comments.map ρ.comment) (ρ.span span) (statement node) :: statements rest

def statement : StatementNode → StatementNode
  | .empty => .empty
  | .label => .label
  | .goto => .goto
  | .break => .break
  | .assign targets values => .assign (exprs targets) (exprs values)
  | .call call => .call (expr call)
  | .do body => .do (block body)
  | .while condition body => .while (expr condition) (block body)
  | .repeat body condition => .repeat (block body) (expr condition)
  | .if condition body rest none => .if (expr condition) (block body) (elseIfs rest) none
  | .if condition body rest (some otherwise) =>
    .if (expr condition) (block body) (elseIfs rest) (some (block otherwise))
  | .numericFor counter start limit none body =>
    .numericFor (ρ.ident counter) (expr start) (expr limit) none (block body)
  | .numericFor counter start limit (some step) body =>
    .numericFor (ρ.ident counter) (expr start) (expr limit) (some (expr step)) (block body)
  | .genericFor names values body =>
    .genericFor (names.map ρ.ident) (exprs values) (block body)
  | .function reach name body => .function reach (ρ.functionName name) (functionBody body)
  | .declare reach attrib names none =>
    .declare reach (attrib.map ρ.attrib) (names.map ρ.attributed) none
  | .declare reach attrib names (some values) =>
    .declare reach (attrib.map ρ.attrib) (names.map ρ.attributed) (some (exprs values))
  | .implicitGlobals attrib => .implicitGlobals (attrib.map ρ.attrib)
  | .return none => .return none
  | .return (some values) => .return (some (exprs values))

def elseIfs : List ElseIf → List ElseIf
  | [] => []
  | .mk condition body :: rest => .mk (expr condition) (block body) :: elseIfs rest

end

def field : Field → Field
  | .positional value => .positional (ρ.expr value)
  | .named comments span key value =>
    .named (comments.map ρ.comment) (ρ.span span) (ρ.ident key) (ρ.expr value)
  | .unnamed value => .unnamed (ρ.expr value)
  | .computed key value => .computed (ρ.expr key) (ρ.expr value)

theorem fields_cons (f : Field) (rest : List Field) :
    ρ.fields (f :: rest) = ρ.field f :: ρ.fields rest := by
  cases f <;> simp only [fields, field]

def chunk (c : Chunk) : Chunk := ⟨ρ.statements c.statements⟩

end Renaming

end LuaScope
