import LuaScope.Proofs.Syntax.Lexeme
import LuaScope.Syntax.Grammar

/-!
# LuaScope.Proofs.Syntax.Site

The places at which names stand: the sites of a list of tokens and of a tree.
-/

namespace LuaScope

/-- A place at which a name stands. -/
inductive Site where
  | name (ident : Ident)
  /-- The implied `self` of a method, where its parameters start. -/
  | receiver (start : Nat)
deriving DecidableEq

def Site.start : Site → Nat
  | .name ident => ident.span.start
  | .receiver start => start

/-- The site of a token, if it has one: any opening parenthesis could start the parameters of a
method. -/
def Lexeme.site? (l : Lexeme) : Option Site :=
  match l.token with
  | .name text => some (.name ⟨text, l.span⟩)
  | .mark .leftParen => some (.receiver l.span.start)
  | _ => none

def Lexeme.sites (ls : List Lexeme) : List Site := ls.filterMap Lexeme.site?

/-! ## Sites of a tree, in the order of the text -/

def Parameter.sites : Parameter → List Site
  | .name ident => [.name ident]
  | .vararg => []

def Parameters.sites (p : Parameters) : List Site :=
  .receiver p.span.start :: p.entries.flatMap Parameter.sites

mutual

def Expr.sites : Expr → List Site
  | .nil | .boolean | .number | .literal _ | .vararg | .global => []
  | .name ident => [.name ident]
  | .field base key => base.sites ++ [.name key]
  | .subscript base key => base.sites ++ key.sites
  | .call callee method arguments =>
    callee.sites ++ (method.toList.map .name ++ Expr.sitesOf arguments)
  | .paren inner => inner.sites
  | .table fields => Field.sitesOf fields
  | .function body => body.sites
  | .binary _ _ left right => left.sites ++ right.sites
  | .unary _ _ operand => operand.sites

def Expr.sitesOf : List Expr → List Site
  | [] => []
  | e :: rest => e.sites ++ Expr.sitesOf rest

def Field.sitesOf : List Field → List Site
  | [] => []
  | .positional value :: rest => value.sites ++ Field.sitesOf rest
  | .named _ _ key value :: rest => Site.name key :: (value.sites ++ Field.sitesOf rest)
  | .unnamed value :: rest => value.sites ++ Field.sitesOf rest
  | .computed key value :: rest => key.sites ++ (value.sites ++ Field.sitesOf rest)

def FunctionBody.sites : FunctionBody → List Site
  | .mk parameters block _ => parameters.sites ++ Block.sites? block

def Block.sites? : Option Block → List Site
  | none => []
  | some (.mk _ statements) => Statement.sitesOf statements

def Statement.sitesOf : List Statement → List Site
  | [] => []
  | .mk _ _ node :: rest => node.sites ++ Statement.sitesOf rest

def StatementNode.sites : StatementNode → List Site
  | .empty | .label | .goto | .break => []
  | .assign targets values => Expr.sitesOf targets ++ Expr.sitesOf values
  | .call call => call.sites
  | .do body => Block.sites? body
  | .while condition body => condition.sites ++ Block.sites? body
  | .repeat body condition => Block.sites? body ++ condition.sites
  | .if condition body rest none =>
    condition.sites ++ (Block.sites? body ++ ElseIf.sitesOf rest)
  | .if condition body rest (some block) =>
    condition.sites ++ (Block.sites? body ++ (ElseIf.sitesOf rest ++ Block.sites? block))
  | .numericFor counter start limit none body =>
    .name counter :: (start.sites ++ (limit.sites ++ Block.sites? body))
  | .numericFor counter start limit (some step) body =>
    .name counter :: (start.sites ++ (limit.sites ++ (step.sites ++ Block.sites? body)))
  | .genericFor names values body => names.map .name ++ (Expr.sitesOf values ++ Block.sites? body)
  | .function _ name body => name.path.map .name ++ body.sites
  | .declare _ _ names none => names.map (.name ·.ident)
  | .declare _ _ names (some values) =>
    names.map (.name ·.ident) ++ Expr.sitesOf values
  | .implicitGlobals none => []
  | .implicitGlobals (some (name, _)) => [.name name]
  | .return none => []
  | .return (some values) => Expr.sitesOf values

def ElseIf.sitesOf : List ElseIf → List Site
  | [] => []
  | .mk condition body :: rest => condition.sites ++ (Block.sites? body ++ ElseIf.sitesOf rest)

end

def Chunk.sites (chunk : Chunk) : List Site := Statement.sitesOf chunk.statements

/-- The sites of what is still to be read. -/
def Cursor.sites (c : Cursor) : List Site := Lexeme.sites c.rest

namespace Reader

/-- Nothing is known of the next tokens. -/
def Anywhere (_ : Cursor) : Prop := True

/-- This token is the next one. -/
def NextIs (t : Option Token) (c : Cursor) : Prop := c.rest.head?.map Lexeme.token = t

end Reader

end LuaScope
