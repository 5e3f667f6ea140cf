import LuaScope.Syntax.Tree

/-!
# LuaScope.Syntax.Grammar

Reading a chunk from its tokens by recursive descent. `Chunk.ofChars?` answers `none` for every
text that has no derivation. All readers share one fuel, computed from the number of tokens, which
a text can not use up: no reader calls itself more than a few times without taking a token.
-/

namespace LuaScope

structure Cursor where
  rest : List Lexeme
  stop : Nat

abbrev Reader := StateT Cursor Option

namespace Reader

def refuse {α : Type} : Reader α := fun _ => none

def peek : Reader (Option Token) := fun c => some (c.rest.head?.map Lexeme.token, c)

def peekSecond : Reader (Option Token) := fun c => some (c.rest.tail.head?.map Lexeme.token, c)

def start : Reader Nat := fun c =>
  match c.rest with
  | [] => none
  | l :: _ => some (l.span.start, c)

def comments : Reader (List Comment) := fun c =>
  match c.rest with
  | [] => some ([], c)
  | l :: _ => some (l.comments, c)

def stop : Reader Nat := fun c => some (c.stop, c)

def advance : Reader Span := fun c =>
  match c.rest with
  | [] => none
  | l :: rest => some (l.span, ⟨rest, l.span.stop⟩)

def expect (t : Token) : Reader Span := do
  if (← peek) = some t then advance else refuse

def expectMark (m : Mark) : Reader Span := expect (.mark m)

def expectKeyword (k : Keyword) : Reader Span := expect (.keyword k)

def accept (t : Token) : Reader Bool := do
  if (← peek) = some t then
    let _ ← advance
    pure true
  else pure false

def acceptMark (m : Mark) : Reader Bool := accept (.mark m)

def ident : Reader Ident := do
  match ← peek with
  | some (.name text) => return ⟨text, ← advance⟩
  | _ => refuse

end Reader

/-! ## Operators -/

def BinaryOp.ofToken? : Token → Option BinaryOp
  | .keyword .or => some .or
  | .keyword .and => some .and
  | .mark .less => some .less
  | .mark .lessEqual => some .lessEqual
  | .mark .greater => some .greater
  | .mark .greaterEqual => some .greaterEqual
  | .mark .equal => some .equal
  | .mark .notEqual => some .notEqual
  | .mark .pipe => some .bitOr
  | .mark .tilde => some .bitXor
  | .mark .ampersand => some .bitAnd
  | .mark .shiftLeft => some .shiftLeft
  | .mark .shiftRight => some .shiftRight
  | .mark .concat => some .concat
  | .mark .plus => some .add
  | .mark .minus => some .sub
  | .mark .star => some .mul
  | .mark .slash => some .div
  | .mark .doubleSlash => some .intDiv
  | .mark .percent => some .mod
  | .mark .caret => some .pow
  | _ => none

def UnaryOp.ofToken? : Token → Option UnaryOp
  | .keyword .not => some .not
  | .mark .hash => some .length
  | .mark .minus => some .negate
  | .mark .tilde => some .bitNot
  | _ => none

/-- How tightly an operator holds its left operand. -/
def BinaryOp.leftPower : BinaryOp → Nat
  | .or => 1
  | .and => 2
  | .less | .lessEqual | .greater | .greaterEqual | .equal | .notEqual => 3
  | .bitOr => 4
  | .bitXor => 5
  | .bitAnd => 6
  | .shiftLeft | .shiftRight => 7
  | .concat => 9
  | .add | .sub => 10
  | .mul | .div | .intDiv | .mod => 11
  | .pow => 14

/-- How tightly it holds its right one; less than the left where it groups to the right. -/
def BinaryOp.rightPower : BinaryOp → Nat
  | .concat => 8
  | .pow => 13
  | op => op.leftPower

def UnaryOp.power : Nat := 12

/-! ## The parts that hold no expression -/

namespace Reader

/-- The mark that closes an attribute; an assignment mark may stand right behind it. -/
def closeAttrib : Reader Nat := fun c =>
  match c.rest with
  | ⟨.mark .greater, span, _⟩ :: rest => some (span.stop, ⟨rest, span.stop⟩)
  | ⟨.mark .greaterEqual, span, _⟩ :: rest =>
    let middle := span.start + 1
    some (middle, ⟨⟨.mark .assign, ⟨middle, span.stop⟩, []⟩ :: rest, middle⟩)
  | _ => none

/-- `<name>` -/
def attrib : Reader (Ident × Span) := do
  let opening ← expectMark .less
  let name ← ident
  let closing ← closeAttrib
  return (name, ⟨opening.start, closing⟩)

def attrib? : Reader (Option (Ident × Span)) := do
  if (← peek) = some (.mark .less) then return some (← attrib) else return none

def attributedName : Reader AttributedName := do
  let name ← ident
  return ⟨name, ← attrib?⟩

/-- The entries behind the first one, each after a comma. -/
def moreAttributedNames : Nat → Reader (List AttributedName)
  | 0 => refuse
  | fuel + 1 => do
    if ← acceptMark .comma then
      let name ← attributedName
      return name :: (← moreAttributedNames fuel)
    else return []

def moreIdents : Nat → Reader (List Ident)
  | 0 => refuse
  | fuel + 1 => do
    if ← acceptMark .comma then
      let name ← ident
      return name :: (← moreIdents fuel)
    else return []

/-- A trailing `...`, which may carry a name. -/
def varargParameter : Reader (List Parameter) := do
  let _ ← expectMark .ellipsis
  match ← peek with
  | some (.name _) => return [.vararg, .name (← ident)]
  | _ => return [.vararg]

def parameterEntries : Nat → Reader (List Parameter)
  | 0 => refuse
  | fuel + 1 => do
    if (← peek) = some (.mark .ellipsis) then varargParameter
    else
      let name ← ident
      if ← acceptMark .comma then
        return .name name :: (← parameterEntries fuel)
      else return [.name name]

def parameters (fuel : Nat) : Reader Parameters := do
  let opening ← expectMark .leftParen
  let entries ←
    if (← peek) = some (.mark .rightParen) then pure [] else parameterEntries fuel
  let closing ← expectMark .rightParen
  return ⟨entries, ⟨opening.start, closing.stop⟩⟩

def dottedFields : Nat → Reader (List Ident)
  | 0 => refuse
  | fuel + 1 => do
    if ← acceptMark .dot then
      let name ← ident
      return name :: (← dottedFields fuel)
    else return []

def functionName (fuel : Nat) : Reader FunctionName := do
  let head ← ident
  let fields ← dottedFields fuel
  if ← acceptMark .colon then return ⟨head, fields, some (← ident)⟩
  else return ⟨head, fields, none⟩

end Reader

/-! ## Expressions and statements -/

/-- Can this token start an expression? -/
def Token.startsExpr : Token → Bool
  | .name _ | .number | .literal _ => true
  | .keyword k => k = .nil || k = .true || k = .false || k = .function || k = .not
  | .mark m =>
    m = .ellipsis || m = .leftBrace || m = .leftParen || m = .minus || m = .hash || m = .tilde
  | .shebang => false

/-- Does this token end a block? -/
def Token.endsBlock : Token → Bool
  | .keyword k => k = .end || k = .else || k = .elseif || k = .until
  | _ => false

/-- A target of an assignment: a name or an element, but no call and nothing in parentheses. -/
def Expr.isAssignable : Expr → Bool
  | .name _ | .global | .field _ _ | .subscript _ _ => true
  | _ => false

namespace Reader

mutual

/-- An expression whose operators all hold tighter than `limit`. -/
def expr : Nat → Nat → Reader Expr
  | 0, _ => refuse
  | fuel + 1, limit => do
    let left ← operand fuel
    operators fuel limit left

def operators : Nat → Nat → Expr → Reader Expr
  | 0, _, _ => refuse
  | fuel + 1, limit, left => do
    match (← peek).bind BinaryOp.ofToken? with
    | some op =>
      if limit < op.leftPower then
        let span ← advance
        let right ← expr fuel op.rightPower
        operators fuel limit (.binary op span left right)
      else return left
    | none => return left

def operand : Nat → Reader Expr
  | 0 => refuse
  | fuel + 1 => do
    match (← peek).bind UnaryOp.ofToken? with
    | some op =>
      let span ← advance
      return .unary op span (← expr fuel UnaryOp.power)
    | none => simple fuel

def simple : Nat → Reader Expr
  | 0 => refuse
  | fuel + 1 => do
    match ← peek with
    | some .number => let _ ← advance; return .number
    | some (.literal content) => let _ ← advance; return .literal content
    | some (.keyword .nil) => let _ ← advance; return .nil
    | some (.keyword .true) => let _ ← advance; return .boolean
    | some (.keyword .false) => let _ ← advance; return .boolean
    | some (.mark .ellipsis) => let _ ← advance; return .vararg
    | some (.mark .leftBrace) => return .table (← tableFields fuel)
    | some (.keyword .function) =>
      let _ ← advance
      return .function (← functionBody fuel)
    | _ => suffixed fuel

/-- A name or a parenthesised expression with everything that hangs on it. -/
def suffixed : Nat → Reader Expr
  | 0 => refuse
  | fuel + 1 => do
    match ← peek with
    | some (.name text) =>
      let span ← advance
      suffixes fuel (if text = "global" then .global else .name ⟨text, span⟩)
    | some (.mark .leftParen) =>
      let _ ← advance
      let inner ← expr fuel 0
      let _ ← expectMark .rightParen
      suffixes fuel (.paren inner)
    | _ => refuse

def suffixes : Nat → Expr → Reader Expr
  | 0, _ => refuse
  | fuel + 1, base => do
    match ← peek with
    | some (.mark .dot) =>
      let _ ← advance
      let key ← ident
      suffixes fuel (.field base key)
    | some (.mark .leftBracket) =>
      let _ ← advance
      let key ← expr fuel 0
      let _ ← expectMark .rightBracket
      suffixes fuel (.subscript base key)
    | some (.mark .colon) =>
      let _ ← advance
      let method ← ident
      let arguments ← callArguments fuel
      suffixes fuel (.call base (some method) arguments)
    | some (.mark .leftParen) | some (.mark .leftBrace) | some (.literal _) =>
      let arguments ← callArguments fuel
      suffixes fuel (.call base none arguments)
    | _ => return base

def callArguments : Nat → Reader (List Expr)
  | 0 => refuse
  | fuel + 1 => do
    match ← peek with
    | some (.mark .leftParen) =>
      let _ ← advance
      if ← acceptMark .rightParen then return []
      else
        let arguments ← exprs fuel
        let _ ← expectMark .rightParen
        return arguments
    | some (.mark .leftBrace) => return [.table (← tableFields fuel)]
    | some (.literal content) => let _ ← advance; return [.literal content]
    | _ => refuse

def exprs : Nat → Reader (List Expr)
  | 0 => refuse
  | fuel + 1 => do
    let first ← expr fuel 0
    if ← acceptMark .comma then return first :: (← exprs fuel) else return [first]

def tableFields : Nat → Reader (List Field)
  | 0 => refuse
  | fuel + 1 => do
    let _ ← expectMark .leftBrace
    let fields ← fieldList fuel
    let _ ← expectMark .rightBrace
    return fields

def fieldList : Nat → Reader (List Field)
  | 0 => refuse
  | fuel + 1 => do
    if (← peek) = some (.mark .rightBrace) then return []
    else
      let first ← tableField fuel
      if (← acceptMark .comma) || (← acceptMark .semicolon) then
        return first :: (← fieldList fuel)
      else return [first]

def tableField : Nat → Reader Field
  | 0 => refuse
  | fuel + 1 => do
    let leading ← comments
    match ← peek with
    | some (.mark .leftBracket) =>
      let _ ← advance
      let key ← expr fuel 0
      let _ ← expectMark .rightBracket
      let _ ← expectMark .assign
      return .computed key (← expr fuel 0)
    | some (.name text) =>
      if (← peekSecond) = some (.mark .assign) then
        let span ← advance
        let _ ← advance
        let value ← expr fuel 0
        if text = "global" then return .unnamed value
        else return .named leading ⟨span.start, ← stop⟩ ⟨text, span⟩ value
      else return .positional (← expr fuel 0)
    | _ => return .positional (← expr fuel 0)

def functionBody : Nat → Reader FunctionBody
  | 0 => refuse
  | fuel + 1 => do
    let parameters ← parameters fuel
    let body ← block fuel
    let closing ← expectKeyword .end
    return .mk parameters body closing.stop

/-- The statements of an inner block, if there are any. -/
def block : Nat → Reader (Option Block)
  | 0 => refuse
  | fuel + 1 => do
    let statements ← statements fuel true
    match statements with
    | [] => return none
    | .mk _ span _ :: _ => return some (.mk ⟨span.start, ← stop⟩ statements)

/-- Statements up to the end of the block; the comments in front of a first one stand outside. -/
def statements : Nat → Bool → Reader (List Statement)
  | 0, _ => refuse
  | fuel + 1, first => do
    match ← peek with
    | none => return []
    | some token =>
      if token.endsBlock then return []
      else
        let leading ← if first then pure [] else comments
        let start ← start
        let node ← statementNode fuel
        let statement := Statement.mk leading ⟨start, ← stop⟩ node
        if token = .keyword .return then return [statement]
        else return statement :: (← statements fuel false)

def statementNode : Nat → Reader StatementNode
  | 0 => refuse
  | fuel + 1 => do
    match ← peek with
    | some (.mark .semicolon) => let _ ← advance; return .empty
    | some (.mark .doubleColon) =>
      let _ ← advance
      let _ ← ident
      let _ ← expectMark .doubleColon
      return .label
    | some (.keyword .break) => let _ ← advance; return .break
    | some (.keyword .goto) => let _ ← advance; let _ ← ident; return .goto
    | some (.keyword .do) =>
      let _ ← advance
      let body ← block fuel
      let _ ← expectKeyword .end
      return .do body
    | some (.keyword .while) =>
      let _ ← advance
      let condition ← expr fuel 0
      let _ ← expectKeyword .do
      let body ← block fuel
      let _ ← expectKeyword .end
      return .while condition body
    | some (.keyword .repeat) =>
      let _ ← advance
      let body ← block fuel
      let _ ← expectKeyword .until
      return .repeat body (← expr fuel 0)
    | some (.keyword .if) =>
      let _ ← advance
      let condition ← expr fuel 0
      let _ ← expectKeyword .then
      let body ← block fuel
      let rest ← elseIfs fuel
      let otherwise ← otherwise fuel
      let _ ← expectKeyword .end
      return .if condition body rest otherwise
    | some (.keyword .for) => let _ ← advance; forLoop fuel
    | some (.keyword .function) =>
      let _ ← advance
      let name ← functionName fuel
      return .function .named name (← functionBody fuel)
    | some (.keyword .local) =>
      let _ ← advance
      if ← accept (.keyword .function) then
        let name ← ident
        return .function .local ⟨name, [], none⟩ (← functionBody fuel)
      else declaration .local fuel
    | some (.keyword .return) =>
      let _ ← advance
      let values ←
        if (← peek).any Token.startsExpr then pure (some (← exprs fuel)) else pure none
      let _ ← acceptMark .semicolon
      return .return values
    | some (.name "global") =>
      match ← peekSecond with
      | some (.keyword .function) =>
        let _ ← advance
        let _ ← advance
        let name ← ident
        return .function .global ⟨name, [], none⟩ (← functionBody fuel)
      | some (.mark .star) =>
        let _ ← advance
        let _ ← advance
        return .implicitGlobals none
      | some (.mark .less) =>
        let _ ← advance
        let attrib ← attrib
        if ← acceptMark .star then return .implicitGlobals (some attrib)
        else declarationBehind .global (some attrib) fuel
      | some (.name _) => let _ ← advance; declaration .global fuel
      | _ => simpleStatement fuel
    | _ => simpleStatement fuel

def elseIfs : Nat → Reader (List ElseIf)
  | 0 => refuse
  | fuel + 1 => do
    if ← accept (.keyword .elseif) then
      let condition ← expr fuel 0
      let _ ← expectKeyword .then
      let body ← block fuel
      return .mk condition body :: (← elseIfs fuel)
    else return []

def otherwise : Nat → Reader (Option (Option Block))
  | 0 => refuse
  | fuel + 1 => do
    if ← accept (.keyword .else) then return some (← block fuel) else return none

def forLoop : Nat → Reader StatementNode
  | 0 => refuse
  | fuel + 1 => do
    let name ← ident
    if ← acceptMark .assign then
      let start ← expr fuel 0
      let _ ← expectMark .comma
      let limit ← expr fuel 0
      let step ← if ← acceptMark .comma then pure (some (← expr fuel 0)) else pure none
      let _ ← expectKeyword .do
      let body ← block fuel
      let _ ← expectKeyword .end
      return .numericFor name start limit step body
    else
      let names ← moreIdents fuel
      let _ ← expectKeyword .in
      let values ← exprs fuel
      let _ ← expectKeyword .do
      let body ← block fuel
      let _ ← expectKeyword .end
      return .genericFor (name :: names) values body

/-- Declared names, an attribute of them all in front, and their values. -/
def declaration (reach : NameReach) : Nat → Reader StatementNode
  | 0 => refuse
  | fuel + 1 => do
    let attrib ← attrib?
    declarationBehind reach attrib fuel

def declarationBehind (reach : NameReach) (attrib : Option (Ident × Span)) :
    Nat → Reader StatementNode
  | 0 => refuse
  | fuel + 1 => do
    let first ← attributedName
    let names ← moreAttributedNames fuel
    let values ← if ← acceptMark .assign then pure (some (← exprs fuel)) else pure none
    return .declare reach attrib (first :: names) values

def simpleStatement : Nat → Reader StatementNode
  | 0 => refuse
  | fuel + 1 => do
    let first ← suffixed fuel
    if first.isAssignable then
      let targets ← moreTargets fuel
      let _ ← expectMark .assign
      return .assign (first :: targets) (← exprs fuel)
    else
      match first with
      | .call _ _ _ => return .call first
      | _ => refuse

def moreTargets : Nat → Reader (List Expr)
  | 0 => refuse
  | fuel + 1 => do
    if ← acceptMark .comma then
      let target ← suffixed fuel
      if target.isAssignable then return target :: (← moreTargets fuel) else refuse
    else return []

end

end Reader

namespace Chunk

/-- Read all tokens of a text; a line of the shape `#...` may stand first. -/
def ofLexemes? (lexemes : List Lexeme) : Option Chunk :=
  let fuel := 16 * (lexemes.length + 1)
  let rest := match lexemes with
    | ⟨.shebang, _, _⟩ :: rest => rest
    | _ => lexemes
  match Reader.statements fuel false ⟨rest, 0⟩ with
  | some (statements, ⟨[], _⟩) => some ⟨statements⟩
  | _ => none

def ofChars? (cs : List Char) : Option Chunk :=
  match Lexeme.ofChars cs with
  | some lexemes => ofLexemes? lexemes
  | none => none

end Chunk

end LuaScope
